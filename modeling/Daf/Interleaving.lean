import Daf.Runs
import Mathlib.Algebra.Order.BigOperators.Group.List
import Mathlib.Algebra.Order.Group.Nat

/-!
Calls in progress at the same time: each is somewhere in its own code and takes a step on the state that
they share, in any order. What holds of the shared state and of every call where it is follows from what
one step does to its own call and to another one.
-/
namespace Daf.Interleaving
open Daf.Runs

/-- Where a request starts, and what the next step of a call does, by what is outside the system. -/
structure System (σ τ ι κ : Type) where
  initial : σ
  enter : ι → τ
  act : Nat → σ → τ → κ → σ × τ

structure World (σ τ : Type) where
  shared : σ
  calls : List τ

inductive Event (ι κ : Type) where
  | call (request : ι)
  | act (n : Nat) (choice : κ)
deriving DecidableEq,Repr

section
variable {σ τ ι κ : Type} (sys : System σ τ ι κ)

def System.start : World σ τ := ⟨sys.initial,[]⟩

def System.step (w : World σ τ) : Event ι κ → World σ τ
  | .call request => { w with calls := w.calls ++ [sys.enter request] }
  | .act n choice =>
    match w.calls[n]? with
    | none => w
    | some t => ⟨(sys.act n w.shared t choice).1,w.calls.set n (sys.act n w.shared t choice).2⟩

def System.run (events : List (Event ι κ)) : World σ τ := Runs.run sys.step sys.start events

/-- A condition on the steps of calls, as a condition on events. -/
def Meets (ok : Nat → σ → τ → κ → Prop) (w : World σ τ) : Event ι κ → Prop
  | .call _ => True
  | .act n choice => ∀ t ∈ w.calls[n]?, ok n w.shared t choice

instance (ok : Nat → σ → τ → κ → Prop) [∀ n s t choice, Decidable (ok n s t choice)] (w : World σ τ) : ∀ event : Event ι κ, Decidable (Meets ok w event)
  | .call _ => isTrue trivial
  | .act n choice =>
    match found : w.calls[n]? with
    | none => isTrue fun t there => by simp [found] at there
    | some t => decidable_of_iff (ok n w.shared t choice) (by simp [Meets,found])

/-- What is true of the shared state, and of each call where it is or before it is made. -/
structure Holds (G : σ → Prop) (L : Nat → σ → Option τ → Prop) (w : World σ τ) : Prop where
  shared : G w.shared
  calls : ∀ n, L n w.shared w.calls[n]?

/-- The steps that meet `ok` keep what is true of their own call and of the others. -/
structure Rule (ok : Nat → σ → τ → κ → Prop) (G : σ → Prop) (L : Nat → σ → Option τ → Prop) : Prop where
  initial : G sys.initial ∧ ∀ n, L n sys.initial none
  enters : ∀ n s request, G s → L n s none → L n s (some (sys.enter request))
  shared : ∀ n s t choice, G s → L n s (some t) → ok n s t choice → G (sys.act n s t choice).1
  own : ∀ n s t choice, G s → L n s (some t) → ok n s t choice → L n (sys.act n s t choice).1 (some (sys.act n s t choice).2)
  other : ∀ n m s t u choice, n ≠ m → G s → L n s (some t) → L m s u → ok n s t choice → L m (sys.act n s t choice).1 u

variable {sys}

theorem step_act {w : World σ τ} {n : Nat} {t : τ} (there : w.calls[n]? = some t) (choice : κ) :
    sys.step w (.act n choice) = ⟨(sys.act n w.shared t choice).1,w.calls.set n (sys.act n w.shared t choice).2⟩ := by
  simp [System.step,there]

theorem step_absent {w : World σ τ} {n : Nat} (absent : w.calls[n]? = none) (choice : κ) : sys.step w (.act n choice) = w := by
  simp [System.step,absent]

theorem own_act {w : World σ τ} {n : Nat} {t : τ} (there : w.calls[n]? = some t) (choice : κ) :
    (sys.step w (.act n choice)).calls[n]? = some (sys.act n w.shared t choice).2 := by
  obtain ⟨inside,-⟩ := List.getElem?_eq_some_iff.mp there
  rw [step_act there]
  exact List.getElem?_set_self inside

theorem other_act {w : World σ τ} {n m : Nat} (other : n ≠ m) (choice : κ) : (sys.step w (.act n choice)).calls[m]? = w.calls[m]? := by
  cases there : w.calls[n]? with
  | none => rw [step_absent there]
  | some t =>
    rw [step_act there]
    exact List.getElem?_set_ne other

theorem mem_step {w : World σ τ} {event : Event ι κ} {u : τ} (member : u ∈ (sys.step w event).calls) :
    u ∈ w.calls ∨ (∃ request, event = .call request ∧ u = sys.enter request) ∨
      ∃ n choice t, event = .act n choice ∧ w.calls[n]? = some t ∧ u = (sys.act n w.shared t choice).2 := by
  cases event with
  | call request =>
    rcases List.mem_append.mp member with old | new
    · exact .inl old
    · exact .inr (.inl ⟨request,rfl,List.mem_singleton.mp new⟩)
  | act n choice =>
    cases there : w.calls[n]? with
    | none => exact .inl (step_absent there choice ▸ member)
    | some t =>
      rw [step_act there] at member
      rcases List.mem_or_eq_of_mem_set member with old | new
      · exact .inl old
      · exact .inr (.inr ⟨n,choice,t,rfl,there,new⟩)

/-- What the steps of calls keep of the shared state. -/
theorem shared_invariant {G : σ → Prop} (initial : G sys.initial) (acts : ∀ n s t choice, G s → G (sys.act n s t choice).1) (events : List (Event ι κ)) :
    G (sys.run events).shared := by
  refine Runs.invariant (I := fun w : World σ τ => G w.shared) (fun w event held => ?_) initial events
  cases event with
  | call request => exact held
  | act n choice =>
    cases there : w.calls[n]? with
    | none =>
      rw [step_absent there]
      exact held
    | some t =>
      rw [step_act there]
      exact acts n w.shared t choice held

/-- What no step of a call brings about while something holds of the shared state, a call has had since it began to hold. -/
theorem inherited {G : σ → Prop} {P : τ → Prop} (keeps : ∀ n s t choice, G s → G (sys.act n s t choice).1) (enters : ∀ request, ¬ P (sys.enter request))
    (acts : ∀ n s t choice, G s → P (sys.act n s t choice).2 → P t) {w : World σ τ} (given : G w.shared) (events : List (Event ι κ)) {n : Nat} {t : τ}
    (there : (Runs.run sys.step w events).calls[n]? = some t) (has : P t) : ∃ u, w.calls[n]? = some u ∧ P u := by
  induction events generalizing w with
  | nil => exact ⟨t,there,has⟩
  | cons event events ih =>
    cases event with
    | call request =>
      obtain ⟨u,now,has⟩ := ih (w := sys.step w (.call request)) given there
      rcases Nat.lt_or_ge n w.calls.length with old | new
      · exact ⟨u,(List.getElem?_append_left old).symm.trans now,has⟩
      · have made := List.mem_of_getElem? ((List.getElem?_append_right new).symm.trans now)
        exact absurd has (List.mem_singleton.mp made ▸ enters request)
    | act m choice =>
      cases place : w.calls[m]? with
      | none => exact ih given (step_absent place choice ▸ there)
      | some v =>
        have after : (sys.step w (.act m choice)).shared = (sys.act m w.shared v choice).1 := by rw [step_act place]
        obtain ⟨u,now,has⟩ := ih (w := sys.step w (.act m choice)) (after ▸ keeps m w.shared v choice given) there
        by_cases same : m = n
        · subst same
          obtain rfl := Option.some.inj ((own_act place choice).symm.trans now)
          exact ⟨v,place,acts m w.shared v choice given has⟩
        · exact ⟨u,(other_act same choice).symm.trans now,has⟩

/-! ### Counting over the calls -/

/-- What the calls count for together. -/
def World.tally (f : τ → Nat) (w : World σ τ) : Nat := (w.calls.map f).sum

theorem sum_map_set {f : τ → Nat} {calls : List τ} {n : Nat} {t : τ} (there : calls[n]? = some t) (u : τ) :
    ((calls.set n u).map f).sum + f t = (calls.map f).sum + f u := by
  induction calls generalizing n with
  | nil => simp at there
  | cons first calls ih =>
    cases n with
    | zero =>
      simp only [List.getElem?_cons_zero,Option.some.injEq] at there
      simp only [List.set_cons_zero,List.map_cons,List.sum_cons,there]
      omega
    | succ n =>
      have rest := ih (List.getElem?_cons_succ ▸ there)
      simp only [List.set_cons_succ,List.map_cons,List.sum_cons]
      omega

theorem tally_act (f : τ → Nat) {w : World σ τ} {n : Nat} {t : τ} (there : w.calls[n]? = some t) (choice : κ) :
    (sys.step w (.act n choice)).tally f + f t = w.tally f + f (sys.act n w.shared t choice).2 := by
  rw [step_act there]
  exact sum_map_set there _

theorem tally_call (f : τ → Nat) (w : World σ τ) (request : ι) : (sys.step w (.call request)).tally f = w.tally f + f (sys.enter request) := by
  simp [World.tally,System.step]

theorem tally_countP {f : τ → Nat} {p : τ → Bool} {w : World σ τ} (same : ∀ t ∈ w.calls, f t = if p t then 1 else 0) : w.tally f = w.calls.countP p := by
  obtain ⟨shared,calls⟩ := w
  induction calls with
  | nil => rfl
  | cons t calls ih =>
    have first := same t List.mem_cons_self
    have rest := ih fun t later => same t (List.mem_cons_of_mem _ later)
    simp only [World.tally,List.map_cons,List.sum_cons,List.countP_cons] at rest ⊢
    omega

theorem tally_eq_zero {f : τ → Nat} {w : World σ τ} : w.tally f = 0 ↔ ∀ t ∈ w.calls, f t = 0 := by
  simp [World.tally,List.sum_eq_zero_iff_forall_eq_nat]

/-- A call counts for no more than all of them. -/
theorem le_tally (f : τ → Nat) {w : World σ τ} {n : Nat} {t : τ} (there : w.calls[n]? = some t) : f t ≤ w.tally f :=
  List.le_sum_of_mem (List.mem_map_of_mem (List.mem_of_getElem? there))

/-- Nor do two of them. -/
theorem le_tally_two (f : τ → Nat) {w : World σ τ} {n m : Nat} (differ : n ≠ m) {t u : τ} (first : w.calls[n]? = some t)
    (second : w.calls[m]? = some u) : f t + f u ≤ w.tally f := by
  obtain ⟨inside,rfl⟩ := List.getElem?_eq_some_iff.mp first
  have split : w.tally f = f w.calls[n] + ((w.calls.eraseIdx n).map f).sum := ((List.getElem_cons_eraseIdx_perm inside).map f).sum_eq.symm
  have other : u ∈ w.calls.eraseIdx n := List.mem_eraseIdx_iff_getElem?.mpr ⟨m,differ.symm,second⟩
  have least := List.le_sum_of_mem (List.mem_map_of_mem (f := f) other)
  omega

/-- What the steps keep between the shared state and what the calls count for. -/
theorem tally_step {R : σ → Nat → Prop} {f : τ → Nat} (enters : ∀ request, f (sys.enter request) = 0)
    (acts : ∀ n s t choice k, R s (k + f t) → R (sys.act n s t choice).1 (k + f (sys.act n s t choice).2)) {w : World σ τ}
    (held : R w.shared (w.tally f)) (event : Event ι κ) : R (sys.step w event).shared ((sys.step w event).tally f) := by
  cases event with
  | call request =>
    rw [tally_call,enters]
    exact held
  | act n choice =>
    cases there : w.calls[n]? with
    | none =>
      rw [step_absent there]
      exact held
    | some t =>
      obtain ⟨k,others⟩ := Nat.exists_eq_add_of_le' (le_tally f there)
      have moved : (sys.step w (.act n choice)).tally f + f t = w.tally f + f (sys.act n w.shared t choice).2 := tally_act f there choice
      have after : (sys.step w (.act n choice)).tally f = k + f (sys.act n w.shared t choice).2 := by omega
      rw [others] at held
      rw [after,step_act there]
      exact acts n w.shared t choice k held

/-- A gauge that goes up as the calls count for more says how much they count for. -/
theorem meter_step {g : σ → Nat} {f : τ → Nat} (enters : ∀ request, f (sys.enter request) = 0)
    (acts : ∀ n s t choice, f t ≤ g s → g (sys.act n s t choice).1 + f t = g s + f (sys.act n s t choice).2) {w : World σ τ}
    (held : g w.shared = w.tally f) (event : Event ι κ) : g (sys.step w event).shared = (sys.step w event).tally f := by
  refine tally_step (R := fun s k => g s = k) enters (fun n s t choice k same => ?_) held event
  have own := acts n s t choice (by omega)
  omega

theorem meter {g : σ → Nat} {f : τ → Nat} (zero : g sys.initial = 0) (enters : ∀ request, f (sys.enter request) = 0)
    (acts : ∀ n s t choice, f t ≤ g s → g (sys.act n s t choice).1 + f t = g s + f (sys.act n s t choice).2) (events : List (Event ι κ)) :
    g (sys.run events).shared = (sys.run events).tally f :=
  Runs.invariant (I := fun w : World σ τ => g w.shared = w.tally f) (fun _ event held => meter_step enters acts held event) zero events

/-- What the steps move between a gauge and their own calls stays the same in all. -/
theorem balance {g : σ → Nat} {f : τ → Nat} (enters : ∀ request, f (sys.enter request) = 0)
    (acts : ∀ n s t choice, g (sys.act n s t choice).1 + f (sys.act n s t choice).2 = g s + f t) (events : List (Event ι κ)) :
    g (sys.run events).shared + (sys.run events).tally f = g sys.initial := by
  refine Runs.invariant (I := fun w : World σ τ => g w.shared + w.tally f = g sys.initial)
    (fun w event held => tally_step (R := fun s k => g s + k = g sys.initial) enters (fun n s t choice k same => ?_) held event) rfl events
  have own := acts n s t choice
  omega

/-- What becomes true of the shared state by a step of a call, and stays so as long as that call stands for it, some call stands for. -/
theorem backed {A : σ → Prop} {B : τ → Prop} (initial : ¬ A sys.initial)
    (acts : ∀ n s t choice, A (sys.act n s t choice).1 → (A s ∨ B (sys.act n s t choice).2) ∧ (B t → B (sys.act n s t choice).2))
    (events : List (Event ι κ)) : A (sys.run events).shared → ∃ t ∈ (sys.run events).calls, B t := by
  refine Runs.invariant (I := fun w : World σ τ => A w.shared → ∃ t ∈ w.calls, B t) (fun w event held now => ?_)
    (fun now => absurd now initial) events
  cases event with
  | call request =>
    obtain ⟨t,member,stands⟩ := held now
    exact ⟨t,List.mem_append_left _ member,stands⟩
  | act n choice =>
    cases there : w.calls[n]? with
    | none =>
      rw [step_absent there] at now ⊢
      exact held now
    | some t =>
      have own : (sys.step w (.act n choice)).calls[n]? = some (sys.act n w.shared t choice).2 := own_act there choice
      have after : (sys.step w (.act n choice)).shared = (sys.act n w.shared t choice).1 := by rw [step_act there]
      rw [after] at now
      obtain ⟨came,stays⟩ := acts n w.shared t choice now
      rcases came with old | new
      · obtain ⟨u,member,stands⟩ := held old
        obtain ⟨m,place⟩ := List.getElem?_of_mem member
        by_cases same : n = m
        · subst same
          obtain rfl : t = u := Option.some.inj (there.symm.trans place)
          exact ⟨_,List.mem_of_getElem? own,stays stands⟩
        · exact ⟨u,List.mem_of_getElem? ((other_act same choice).trans place),stands⟩
      · exact ⟨_,List.mem_of_getElem? own,new⟩

section
variable {ok : Nat → σ → τ → κ → Prop} {G : σ → Prop} {L : Nat → σ → Option τ → Prop}

theorem Rule.step (rule : Rule sys ok G L) (w : World σ τ) (event : Event ι κ) (holds : Holds G L w) (meets : Meets ok w event) :
    Holds G L (sys.step w event) := by
  cases event with
  | call request =>
    refine ⟨holds.shared,fun n => ?_⟩
    have before := holds.calls n
    show L n w.shared (w.calls ++ [sys.enter request])[n]?
    rcases Nat.lt_trichotomy n w.calls.length with old | new | beyond
    · rwa [List.getElem?_append_left old]
    · subst new
      rw [List.getElem?_eq_none (Nat.le_refl _)] at before
      rw [List.getElem?_concat_length]
      exact rule.enters _ w.shared request holds.shared before
    · rw [List.getElem?_eq_none (Nat.le_of_lt beyond)] at before
      rwa [List.getElem?_eq_none (by simp; omega)]
  | act n choice =>
    cases there : w.calls[n]? with
    | none =>
      rw [step_absent there]
      exact holds
    | some t =>
      have mine := holds.calls n
      rw [there] at mine
      have met := meets t there
      have after : (sys.step w (.act n choice)).shared = (sys.act n w.shared t choice).1 := by rw [step_act there]
      refine ⟨?_,fun m => ?_⟩
      · rw [after]
        exact rule.shared n w.shared t choice holds.shared mine met
      · rw [after]
        by_cases same : n = m
        · subst same
          rw [own_act there]
          exact rule.own n w.shared t choice holds.shared mine met
        · rw [other_act same]
          exact rule.other n m w.shared t _ choice same holds.shared mine (holds.calls m) met

theorem Rule.holds_start (rule : Rule sys ok G L) : Holds G L sys.start := ⟨rule.initial.1,rule.initial.2⟩

theorem Holds.call {w : World σ τ} (holds : Holds G L w) {n : Nat} {t : τ} (there : w.calls[n]? = some t) : L n w.shared (some t) :=
  there ▸ holds.calls n

theorem Rule.run (rule : Rule sys ok G L) {events : List (Event ι κ)} (every : Every sys.step (Meets ok) sys.start events) :
    Holds G L (sys.run events) :=
  every.invariant (I := Holds G L) rule.step rule.holds_start

/-- Where every step meets the condition, what the rule keeps holds after every run. -/
theorem Rule.always (rule : Rule sys ok G L) (free : ∀ n s t choice, ok n s t choice) (events : List (Event ι κ)) : Holds G L (sys.run events) := by
  refine Runs.invariant (fun w event holds => rule.step w event holds ?_) rule.holds_start events
  cases event with
  | call => trivial
  | act n choice => exact fun t _ => free n w.shared t choice

end

end
end Daf.Interleaving
