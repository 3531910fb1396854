import Daf.Runs
import Mathlib.Data.List.AList
import Mathlib.Data.List.Perm.Basic
import Mathlib.Tactic.SplitIfs

/-!
The pool of resource budgets and the guards that hold a part of them. No sum of the pool passes a limit,
so its amounts are natural numbers.
-/
namespace Daf.ResourcePool
open Daf.Runs

inductive ResourceKind where
  | Compute
  | Storage
  | Network
  | Memory
  | Custom (name : String)
deriving DecidableEq,Repr

def ResourceKind.toText : ResourceKind → String
  | .Compute => "compute"
  | .Storage => "storage"
  | .Network => "network"
  | .Memory => "memory"
  | .Custom name => "custom:" ++ name

structure ResourceLimit where
  kind : ResourceKind
  max_amount : Nat
  current_usage : Nat
deriving DecidableEq,Repr

def ResourceLimit.new (kind : ResourceKind) (max_amount : Nat) : ResourceLimit := ⟨kind,max_amount,0⟩

def ResourceLimit.available (limit : ResourceLimit) : Nat := limit.max_amount - limit.current_usage

inductive PoolError where
  | NotFound (entity id : String)
  | ResourceExhausted (resource : String)
deriving DecidableEq,Repr

/-- The limits of a pool, shared by its clones. -/
abbrev Limits := AList (fun _ : ResourceKind => ResourceLimit)

def addLimit (limits : Limits) (limit : ResourceLimit) : Limits := limits.insert limit.kind limit

def acquire (limits : Limits) (kind : ResourceKind) (amount : Nat) : Except PoolError Limits :=
  match limits.lookup kind with
  | none => .error (.NotFound "resource_limit" kind.toText)
  | some limit =>
    if limit.available < amount then
      .error (.ResourceExhausted (kind.toText ++ ": requested " ++ toString amount ++ " but only " ++ toString limit.available ++ " available"))
    else .ok (limits.insert kind { limit with current_usage := limit.current_usage + amount })

/-- What the debug build asserts at a release. -/
def releasable (limits : Limits) (kind : ResourceKind) (amount : Nat) : Bool :=
  match limits.lookup kind with
  | none => true
  | some limit => amount ≤ limit.current_usage

def release (limits : Limits) (kind : ResourceKind) (amount : Nat) : Limits :=
  match limits.lookup kind with
  | none => limits
  | some limit => limits.insert kind { limit with current_usage := limit.current_usage - amount }

def reset (limits : Limits) : Limits where
  entries := limits.entries.map (fun entry => ⟨entry.1,{ entry.2 with current_usage := 0 }⟩)
  nodupKeys := by
    have keys := limits.nodupKeys
    unfold List.NodupKeys at keys ⊢
    rwa [List.keys,List.map_map,show (Sigma.fst ∘ fun entry : Sigma fun _ : ResourceKind => ResourceLimit =>
      (⟨entry.1,{ entry.2 with current_usage := 0 }⟩ : Sigma fun _ : ResourceKind => ResourceLimit)) = Sigma.fst from rfl]

structure ResourceGuard where
  kind : ResourceKind
  amount : Nat
  released : Bool
deriving DecidableEq,Repr

def acquireGuard (limits : Limits) (kind : ResourceKind) (amount : Nat) : Except PoolError (ResourceGuard × Limits) :=
  (acquire limits kind amount).map (⟨kind,amount,false⟩,·)

/-- A guard gives its amount back once, at its release or when it is dropped. -/
def ResourceGuard.release (guard : ResourceGuard) (limits : Limits) : ResourceGuard × Limits :=
  if guard.released then (guard,limits) else ({ guard with released := true },ResourcePool.release limits guard.kind guard.amount)

def ResourceGuard.drop (guard : ResourceGuard) (limits : Limits) : Limits := (guard.release limits).2

/-! ### Calls one after another -/

structure World where
  limits : Limits
  /-- The guards that are neither released nor dropped. -/
  guards : List ResourceGuard

def World.new : World := ⟨∅,[]⟩

inductive Event where
  | add_limit (limit : ResourceLimit)
  | acquire_guard (kind : ResourceKind) (amount : Nat)
  /-- A guard is released, and then dropped. -/
  | release (n : Nat)
  | drop (n : Nat)
  | reset
deriving DecidableEq,Repr

def World.step (w : World) : Event → World
  | .add_limit limit => { w with limits := addLimit w.limits limit }
  | .acquire_guard kind amount =>
    match acquireGuard w.limits kind amount with
    | .error _ => w
    | .ok (guard,limits) => ⟨limits,w.guards ++ [guard]⟩
  | .release n =>
    match w.guards[n]? with
    | none => w
    | some guard =>
      let (guard,limits) := guard.release w.limits
      ⟨guard.drop limits,w.guards.eraseIdx n⟩
  | .drop n =>
    match w.guards[n]? with
    | none => w
    | some guard => ⟨guard.drop w.limits,w.guards.eraseIdx n⟩
  | .reset => { w with limits := ResourcePool.reset w.limits }

/-- What the guards of a kind hold. -/
def held (guards : List ResourceGuard) (kind : ResourceKind) : Nat := ((guards.filter (·.kind = kind)).map ResourceGuard.amount).sum

/-! ### What the guards hold is what the pool counts -/

/-- The counter of each limit is what the guards of its kind hold. -/
def Balanced (w : World) : Prop := ∀ kind limit, w.limits.lookup kind = some limit → limit.current_usage = held w.guards kind

/-- A granted guard fits in the budget, and a refused one changes nothing. -/
def Granted (w : World) (kind : ResourceKind) (amount : Nat) : Prop :=
  match acquireGuard w.limits kind amount with
  | .error _ => w.step (.acquire_guard kind amount) = w
  | .ok (_,limits) => ∀ limit, limits.lookup kind = some limit → held (w.step (.acquire_guard kind amount)).guards kind ≤ limit.max_amount

/-- A step of a pool that never over-commits. -/
structure Sound (w : World) (event : Event) : Prop where
  balanced : Balanced (w.step event)
  granted : ∀ kind amount, event = .acquire_guard kind amount → Granted w kind amount
  releasable : ∀ n guard, event = .release n ∨ event = .drop n → w.guards[n]? = some guard → releasable w.limits guard.kind guard.amount

/-- A limit comes with what is held of its kind, counters are reset when nothing is held, and no guard of
nothing is asked for over the budget. -/
def Fair (w : World) : Event → Prop
  | .add_limit limit => limit.current_usage = held w.guards limit.kind
  | .acquire_guard kind amount => amount = 0 → ∀ limit, w.limits.lookup kind = some limit → held w.guards kind ≤ limit.max_amount
  | .reset => ∀ kind limit, w.limits.lookup kind = some limit → held w.guards kind = 0
  | .release _ | .drop _ => True

structure Inv (w : World) : Prop where
  balanced : Balanced w
  outstanding : ∀ guard ∈ w.guards, guard.released = false

theorem held_append (guards more : List ResourceGuard) (kind : ResourceKind) : held (guards ++ more) kind = held guards kind + held more kind := by
  simp [held]

theorem held_cons (guard : ResourceGuard) (guards : List ResourceGuard) (kind : ResourceKind) :
    held (guard :: guards) kind = (if guard.kind = kind then guard.amount else 0) + held guards kind := by
  by_cases same : guard.kind = kind <;> simp [held,same]

theorem held_eraseIdx {guards : List ResourceGuard} {n : Nat} {guard : ResourceGuard} (there : guards[n]? = some guard) (kind : ResourceKind) :
    held guards kind = (if guard.kind = kind then guard.amount else 0) + held (guards.eraseIdx n) kind := by
  induction guards generalizing n with
  | nil => simp at there
  | cons first guards ih =>
    cases n with
    | zero =>
      cases there
      exact held_cons _ _ _
    | succ n =>
      rw [List.eraseIdx_cons_succ,held_cons,held_cons,ih there]
      omega

theorem lookup_reset {limits : Limits} {kind : ResourceKind} {limit : ResourceLimit} :
    (reset limits).lookup kind = some limit ↔ ∃ before, limits.lookup kind = some before ∧ limit = { before with current_usage := 0 } := by
  rw [← Option.mem_def,AList.mem_lookup_iff]
  constructor
  · intro inside
    obtain ⟨⟨other,before⟩,there,same⟩ := List.mem_map.mp inside
    cases same
    exact ⟨before,AList.mem_lookup_iff.mpr there,rfl⟩
  · rintro ⟨before,there,rfl⟩
    exact List.mem_map.mpr ⟨⟨kind,before⟩,AList.mem_lookup_iff.mp there,rfl⟩

theorem acquire_ok {limits after : Limits} {kind : ResourceKind} {amount : Nat} (acquired : acquire limits kind amount = .ok after) :
    ∃ limit, limits.lookup kind = some limit ∧ amount ≤ limit.available ∧
      after = limits.insert kind { limit with current_usage := limit.current_usage + amount } := by
  unfold acquire at acquired
  rcases found : limits.lookup kind with _ | limit
  · simp [found] at acquired
  · simp only [found] at acquired
    split_ifs at acquired with short
    exact ⟨limit,rfl,not_lt.mp short,(Except.ok.inj acquired).symm⟩

theorem Balanced.releasable {w : World} (balanced : Balanced w) {n : Nat} {guard : ResourceGuard} (there : w.guards[n]? = some guard) :
    releasable w.limits guard.kind guard.amount := by
  unfold ResourcePool.releasable
  cases found : w.limits.lookup guard.kind with
  | none => rfl
  | some limit =>
    have counted := balanced guard.kind limit found
    have part := held_eraseIdx there guard.kind
    rw [if_pos rfl] at part
    exact decide_eq_true (by omega)

theorem balanced_release {w : World} (balanced : Balanced w) {n : Nat} {guard : ResourceGuard} (there : w.guards[n]? = some guard) :
    Balanced ⟨ResourcePool.release w.limits guard.kind guard.amount,w.guards.eraseIdx n⟩ := by
  intro kind limit found
  have part := held_eraseIdx there kind
  unfold ResourcePool.release at found
  rcases own : w.limits.lookup guard.kind with _ | old
  · rw [own] at found
    have other : guard.kind ≠ kind := by
      rintro rfl
      rw [own] at found
      cases found
    rw [if_neg other] at part
    rw [balanced kind limit found,part,Nat.zero_add]
  · simp only [own] at found
    by_cases same : guard.kind = kind
    · subst same
      rw [AList.lookup_insert] at found
      cases found
      have counted := balanced guard.kind old own
      rw [if_pos rfl] at part
      show old.current_usage - guard.amount = held (w.guards.eraseIdx n) guard.kind
      omega
    · rw [AList.lookup_insert_ne (Ne.symm same)] at found
      rw [if_neg same] at part
      rw [balanced kind limit found,part,Nat.zero_add]

theorem step_release {w : World} (inv : Inv w) {n : Nat} {guard : ResourceGuard} (there : w.guards[n]? = some guard) :
    w.step (.release n) = ⟨ResourcePool.release w.limits guard.kind guard.amount,w.guards.eraseIdx n⟩ ∧
      w.step (.drop n) = ⟨ResourcePool.release w.limits guard.kind guard.amount,w.guards.eraseIdx n⟩ := by
  have fresh := inv.outstanding guard (List.mem_of_getElem? there)
  simp [World.step,there,ResourceGuard.drop,ResourceGuard.release,fresh]

theorem step_none {w : World} {n : Nat} (none : w.guards[n]? = none) : w.step (.release n) = w ∧ w.step (.drop n) = w := by
  simp [World.step,none]

theorem balanced_add_limit {w : World} (inv : Inv w) (limit : ResourceLimit) :
    Balanced (w.step (.add_limit limit)) ↔ Fair w (.add_limit limit) := by
  constructor
  · intro balanced
    exact balanced limit.kind limit (AList.lookup_insert _)
  · intro fair kind other found
    by_cases same : kind = limit.kind
    · subst same
      have now : some limit = some other := (AList.lookup_insert _).symm.trans found
      cases now
      exact fair
    · exact inv.balanced kind other ((AList.lookup_insert_ne same).symm.trans found)

theorem balanced_reset {w : World} : Balanced (w.step .reset) ↔ Fair w .reset := by
  constructor
  · intro balanced kind limit found
    exact (balanced kind { limit with current_usage := 0 } (lookup_reset.mpr ⟨limit,found,rfl⟩)).symm
  · intro fair kind limit found
    obtain ⟨before,there,rfl⟩ := lookup_reset.mp found
    exact (fair kind before there).symm

theorem step_refused {w : World} {kind : ResourceKind} {amount : Nat} {e : PoolError} (refused : acquire w.limits kind amount = .error e) :
    w.step (.acquire_guard kind amount) = w ∧ Granted w kind amount := by
  have same : w.step (.acquire_guard kind amount) = w := by simp [World.step,acquireGuard,refused,Except.map]
  refine ⟨same,?_⟩
  simp only [Granted,acquireGuard,refused,Except.map]
  exact same

theorem step_granted {w : World} {kind : ResourceKind} {amount : Nat} {limits : Limits} (acquired : acquire w.limits kind amount = .ok limits) :
    w.step (.acquire_guard kind amount) = ⟨limits,w.guards ++ [⟨kind,amount,false⟩]⟩ ∧
      (Granted w kind amount ↔ ∀ limit, limits.lookup kind = some limit → held w.guards kind + amount ≤ limit.max_amount) := by
  have after : w.step (.acquire_guard kind amount) = ⟨limits,w.guards ++ [⟨kind,amount,false⟩]⟩ := by
    simp [World.step,acquireGuard,acquired,Except.map]
  refine ⟨after,?_⟩
  simp only [Granted,acquireGuard,acquired,Except.map,after]
  rw [held_append,held_cons,if_pos rfl]
  rfl

/-- What a granted guard takes is counted, and fits unless it is nothing. -/
theorem step_acquire {w : World} (inv : Inv w) (kind : ResourceKind) (amount : Nat) :
    Inv (w.step (.acquire_guard kind amount)) ∧ (Granted w kind amount ↔ Fair w (.acquire_guard kind amount)) := by
  rcases acquired : acquire w.limits kind amount with e | limits
  · obtain ⟨same,granted⟩ := step_refused acquired
    rw [same]
    refine ⟨inv,fun _ none limit found => ?_,fun _ => granted⟩
    unfold acquire at acquired
    simp [found,none] at acquired
  · obtain ⟨after,granted⟩ := step_granted acquired
    obtain ⟨limit,found,fits,rfl⟩ := acquire_ok acquired
    have counted := inv.balanced kind limit found
    rw [after,granted]
    refine ⟨⟨?_,?_⟩,?_⟩
    · intro other limit' found'
      show limit'.current_usage = held (w.guards ++ [⟨kind,amount,false⟩]) other
      have more : held (w.guards ++ [⟨kind,amount,false⟩]) other = held w.guards other + if kind = other then amount else 0 := by
        rw [held_append,held_cons]
        rfl
      rw [more]
      by_cases same : other = kind
      · subst same
        have now : some { limit with current_usage := limit.current_usage + amount } = some limit' := (AList.lookup_insert _).symm.trans found'
        cases now
        rw [if_pos rfl,← counted]
      · rw [if_neg (Ne.symm same),Nat.add_zero]
        exact inv.balanced other limit' ((AList.lookup_insert_ne same).symm.trans found')
    · intro guard inside
      rcases List.mem_append.mp inside with old | new
      · exact inv.outstanding guard old
      · rw [List.mem_singleton.mp new]
    · rw [AList.lookup_insert]
      constructor
      · intro granted none limit' found'
        cases found.symm.trans found'
        have fits := granted _ rfl
        simp only [none,Nat.add_zero] at fits
        exact fits
      · intro fair limit' now
        cases now
        show held w.guards kind + amount ≤ limit.max_amount
        by_cases none : amount = 0
        · have below := fair none limit found
          omega
        · unfold ResourceLimit.available at fits
          omega

theorem sound_iff_fair {w : World} (inv : Inv w) (event : Event) : Sound w event ↔ Fair w event := by
  have releases : ∀ n guard, event = .release n ∨ event = .drop n → w.guards[n]? = some guard → ResourcePool.releasable w.limits guard.kind guard.amount :=
    fun _ _ _ there => inv.balanced.releasable there
  cases event with
  | add_limit limit =>
    rw [← balanced_add_limit inv]
    exact ⟨Sound.balanced,fun balanced => ⟨balanced,by simp,releases⟩⟩
  | acquire_guard kind amount =>
    obtain ⟨next,granted⟩ := step_acquire inv kind amount
    rw [← granted]
    refine ⟨fun sound => sound.granted kind amount rfl,fun granted => ⟨next.balanced,?_,releases⟩⟩
    intro kind' amount' same
    cases same
    exact granted
  | reset =>
    rw [← balanced_reset]
    exact ⟨Sound.balanced,fun balanced => ⟨balanced,by simp,releases⟩⟩
  | release n =>
    refine ⟨fun _ => trivial,fun _ => ⟨?_,by simp,releases⟩⟩
    cases there : w.guards[n]? with
    | none =>
      rw [(step_none there).1]
      exact inv.balanced
    | some guard =>
      rw [(step_release inv there).1]
      exact balanced_release inv.balanced there
  | drop n =>
    refine ⟨fun _ => trivial,fun _ => ⟨?_,by simp,releases⟩⟩
    cases there : w.guards[n]? with
    | none =>
      rw [(step_none there).2]
      exact inv.balanced
    | some guard =>
      rw [(step_release inv there).2]
      exact balanced_release inv.balanced there

theorem inv_step {w : World} (inv : Inv w) (event : Event) (sound : Sound w event) : Inv (w.step event) := by
  refine ⟨sound.balanced,?_⟩
  cases event with
  | add_limit => exact inv.outstanding
  | reset => exact inv.outstanding
  | acquire_guard kind amount => exact (step_acquire inv kind amount).1.outstanding
  | release n =>
    cases there : w.guards[n]? with
    | none =>
      rw [(step_none there).1]
      exact inv.outstanding
    | some guard =>
      rw [(step_release inv there).1]
      exact fun other inside => inv.outstanding other (List.mem_of_mem_eraseIdx inside)
  | drop n =>
    cases there : w.guards[n]? with
    | none =>
      rw [(step_none there).2]
      exact inv.outstanding
    | some guard =>
      rw [(step_release inv there).2]
      exact fun other inside => inv.outstanding other (List.mem_of_mem_eraseIdx inside)

/-- The pool never over-commits in just the runs whose every step is fair. -/
theorem never_overcommits (events : List Event) : Every World.step Sound World.new events ↔ Every World.step Fair World.new events :=
  every_congr (I := Inv) (fun _ event inv => sound_iff_fair inv event) (fun _ event inv sound => inv_step inv event sound)
    ⟨fun _ _ found => by simp [World.new] at found,fun _ inside => by simp [World.new] at inside⟩

/-- After a reset the pool no longer counts what a guard holds. -/
theorem reset_forgets :
    ¬ Every World.step Sound World.new [.add_limit (.new .Memory 10),.acquire_guard .Memory 8,.reset] := by
  rintro ⟨-,-,sound,-⟩
  exact absurd (sound.balanced .Memory ⟨.Memory,10,0⟩ (by decide)) (by decide)

end Daf.ResourcePool
