import Mathlib.Data.List.Nodup
import Mathlib.Data.Set.Card

/-!
A cache of bounded size that evicts what was used longest ago, by what it holds and when each of it was last
used; and the lists that represent it, in the order of the last use.
-/
namespace Daf.LruCache

/-- The values held, by their keys, with the time at which each key was last used. -/
structure Cache (K V : Type) where
  held : K → Option V
  used : K → Nat
  clock : Nat

inductive Call (K V : Type) where
  | add (value : V)
  | get (key : K)
  | remove (key : K)
  | clear

section
variable {K V : Type} [DecidableEq K]

def Cache.empty : Cache K V := ⟨fun _ => none,fun _ => 0,0⟩

def Cache.tick (c : Cache K V) : Cache K V := { c with clock := c.clock + 1 }

def Cache.forget (c : Cache K V) (k : K) : Cache K V := { c with held := Function.update c.held k none }

def Cache.touch (c : Cache K V) (k : K) : Cache K V := { c with used := Function.update c.used k c.clock }

def Cache.clear (c : Cache K V) : Cache K V := { c with held := fun _ => none }

variable (key : V → K)

def Cache.put (c : Cache K V) (v : V) : Cache K V :=
  { c with held := Function.update c.held (key v) (some v), used := Function.update c.used (key v) c.clock }

/-- What is held under other keys. -/
def Cache.others (c : Cache K V) (k : K) : Set V := {v | c.held (key v) = some v ∧ key v ≠ k}

/-- A step of the cache, with what the call returns: what it finds, or what it evicts, which was used longest ago. -/
inductive Step (capacity : Nat) (c : Cache K V) : Call K V → Option V → Cache K V → Prop
  | room (v : V) : (c.others key (key v)).ncard < capacity → Step capacity c (.add v) none (c.put key v).tick
  | evict (v victim : V) : capacity ≤ (c.others key (key v)).ncard → victim ∈ c.others key (key v) →
      (∀ other ∈ c.others key (key v), c.used (key victim) ≤ c.used (key other)) →
      Step capacity c (.add v) (some victim) ((c.forget (key victim)).put key v).tick
  | hit (k : K) (v : V) : c.held k = some v → Step capacity c (.get k) (some v) (c.touch k).tick
  | miss (k : K) : c.held k = none → Step capacity c (.get k) none c.tick
  | remove (k : K) : Step capacity c (.remove k) (c.held k) (c.forget k).tick
  | clear : Step capacity c .clear none c.clear.tick

inductive Steps (capacity : Nat) : Cache K V → List (Call K V) → List (Option V) → Cache K V → Prop
  | nil (c : Cache K V) : Steps capacity c [] [] c
  | cons {c d e : Cache K V} {call : Call K V} {out : Option V} {calls : List (Call K V)} {outs : List (Option V)} :
      Step key capacity c call out d → Steps capacity d calls outs e → Steps capacity c (call :: calls) (out :: outs) e

/-! ### What the operations change -/

variable {key} (c : Cache K V) (k k' : K) (v : V)

@[simp] theorem held_forget : (c.forget k).held k' = if k' = k then none else c.held k' := Function.update_apply ..

@[simp] theorem used_forget : (c.forget k).used = c.used := rfl

@[simp] theorem held_put : (c.put key v).held k' = if k' = key v then some v else c.held k' := Function.update_apply ..

@[simp] theorem used_put : (c.put key v).used k' = if k' = key v then c.clock else c.used k' := Function.update_apply ..

@[simp] theorem clock_put : (c.put key v).clock = c.clock := rfl

omit [DecidableEq K] in
@[simp] theorem held_tick : c.tick.held = c.held := rfl

omit [DecidableEq K] in
@[simp] theorem used_tick : c.tick.used = c.used := rfl

omit [DecidableEq K] in
@[simp] theorem clock_tick : c.tick.clock = c.clock + 1 := rfl

variable {c k k' v}

theorem put_forget : (c.forget (key v)).put key v = c.put key v := by
  simp [Cache.put,Cache.forget]

theorem forget_comm : (c.forget k).forget k' = (c.forget k').forget k := by
  unfold Cache.forget
  by_cases same : k = k'
  · rw [same]
  · simp [Function.update_comm (Ne.symm same)]

/-- To use what is held is to put it again. -/
theorem touch_held (there : c.held (key v) = some v) : c.touch (key v) = c.put key v := by
  have held : Function.update c.held (key v) (some v) = c.held := by rw [← there,Function.update_eq_self]
  rw [Cache.touch,Cache.put,held]

/-! ### Lists in the order of use -/

variable (key)

/-- The list has what the cache holds, in the order of its last use. -/
structure Represents (entries : List V) (c : Cache K V) : Prop where
  keyed : ∀ k v, c.held k = some v → key v = k
  mem : ∀ v, v ∈ entries ↔ c.held (key v) = some v
  ordered : entries.Pairwise fun a b => c.used (key a) < c.used (key b)
  past : ∀ v ∈ entries, c.used (key v) < c.clock

variable {key} {entries : List V}

omit [DecidableEq K] in
theorem represents_clear (c : Cache K V) : Represents key [] c.clear where
  keyed _ v there := absurd there.symm (Option.some_ne_none v)
  mem v := ⟨fun member => absurd member List.not_mem_nil,fun there => absurd there.symm (Option.some_ne_none v)⟩
  ordered := .nil
  past _ member := absurd member List.not_mem_nil

omit [DecidableEq K] in
theorem Represents.distinct (represents : Represents key entries c) : (entries.map key).Nodup :=
  List.pairwise_map.mpr (represents.ordered.imp fun earlier same => absurd (congrArg c.used same) earlier.ne)

omit [DecidableEq K] in
theorem Represents.tick (represents : Represents key entries c) : Represents key entries c.tick where
  keyed := represents.keyed
  mem := represents.mem
  ordered := represents.ordered
  past v member := (represents.past v member).trans (Nat.lt_succ_self _)

theorem Represents.forget (represents : Represents key entries c) (k : K) : Represents key (entries.filter fun v => key v ≠ k) (c.forget k) where
  keyed k' v there := by
    rw [held_forget] at there
    split_ifs at there
    exact represents.keyed k' v there
  mem v := by
    rw [List.mem_filter,decide_eq_true_eq,represents.mem]
    by_cases same : key v = k <;> simp [same]
  ordered := represents.ordered.filter _
  past v member := represents.past v (List.mem_of_mem_filter member)

/-- What is put comes last. -/
theorem Represents.put (represents : Represents key entries c) (fresh : ∀ other ∈ entries, key other ≠ key v) :
    Represents key (entries ++ [v]) (c.put key v).tick where
  keyed k w there := by
    rw [held_tick,held_put] at there
    split_ifs at there with same
    · rw [same,Option.some.inj there]
    · exact represents.keyed k w there
  mem w := by
    rw [List.mem_append,List.mem_singleton,held_tick,held_put]
    by_cases same : key w = key v
    · have absent : w ∉ entries := fun member => fresh w member same
      rw [if_pos same,Option.some.injEq,eq_comm (a := v)]
      exact or_iff_right absent
    · have other : w ≠ v := fun equal => same (congrArg key equal)
      rw [if_neg same,represents.mem]
      exact or_iff_left other
  ordered := by
    rw [List.pairwise_append]
    refine ⟨represents.ordered.imp_of_mem fun {a b} first second earlier => ?_,List.pairwise_singleton _ _,fun a member b last => ?_⟩
    · rw [used_tick,used_put,used_put,if_neg (fresh a first),if_neg (fresh b second)]
      exact earlier
    · rw [List.mem_singleton.mp last,used_tick,used_put,used_put,if_neg (fresh a member),if_pos rfl]
      exact represents.past a member
  past w member := by
    rw [used_tick,used_put,clock_tick,clock_put]
    rcases List.mem_append.mp member with old | last
    · rw [if_neg (fresh w old)]
      exact (represents.past w old).trans (Nat.lt_succ_self _)
    · rw [List.mem_singleton.mp last,if_pos rfl]
      exact Nat.lt_succ_self _

theorem Represents.others (represents : Represents key entries c) (k : K) : c.others key k = {v | v ∈ entries.filter fun v => key v ≠ k} := by
  ext v
  simp [Cache.others,represents.mem]

theorem Represents.ncard_others (represents : Represents key entries c) (k : K) :
    (c.others key k).ncard = (entries.filter fun v => key v ≠ k).length := by
  classical
  rw [represents.others,← List.coe_toFinset,Set.ncard_coe_finset,List.toFinset_card_of_nodup (represents.distinct.of_map.filter _)]

/-- The first of the others was used longest ago. -/
theorem Represents.oldest (represents : Represents key entries c) {k : K} {first : V} {rest : List V}
    (others : (entries.filter fun v => key v ≠ k) = first :: rest) : ∀ other ∈ c.others key k, c.used (key first) ≤ c.used (key other) := by
  intro other member
  rw [represents.others,Set.mem_ofPred_eq,others] at member
  have ordered := represents.ordered.filter fun v => key v ≠ k
  rw [others,List.pairwise_cons] at ordered
  rcases List.mem_cons.mp member with rfl | later
  · exact le_rfl
  · exact (ordered.1 other later).le

omit [DecidableEq K] in
theorem Represents.used_inj (represents : Represents key entries c) {a b : V} (first : a ∈ entries) (second : b ∈ entries)
    (same : c.used (key a) = c.used (key b)) : a = b := by
  have uses : (entries.map fun v => c.used (key v)).Nodup := List.pairwise_map.mpr (represents.ordered.imp fun earlier => earlier.ne)
  exact List.inj_on_of_nodup_map uses first second same

/-- What a call does to what is represented is determined. -/
theorem Represents.step_unique (represents : Represents key entries c) {capacity : Nat} {call : Call K V} {out out' : Option V} {d d' : Cache K V}
    (step : Step key capacity c call out d) (step' : Step key capacity c call out' d') : out = out' ∧ d = d' := by
  cases step with
  | room v room =>
    cases step' with
    | room => exact ⟨rfl,rfl⟩
    | evict _ victim full => exact absurd room (not_lt.mpr full)
  | evict v victim full there oldest =>
    cases step' with
    | room _ room => exact absurd room (not_lt.mpr full)
    | evict _ victim' _ there' oldest' =>
      have same : victim = victim' :=
        represents.used_inj ((represents.mem victim).mpr there.1) ((represents.mem victim').mpr there'.1)
          (le_antisymm (oldest victim' there') (oldest' victim there))
      rw [same]
      exact ⟨rfl,rfl⟩
  | hit k v found =>
    cases step' with
    | hit _ v' found' => exact ⟨found.symm.trans found',rfl⟩
    | miss _ absent => exact absurd (absent.symm.trans found).symm (Option.some_ne_none v)
  | miss k absent =>
    cases step' with
    | hit _ v found => exact absurd (absent.symm.trans found).symm (Option.some_ne_none v)
    | miss => exact ⟨rfl,rfl⟩
  | remove k =>
    cases step'
    exact ⟨rfl,rfl⟩
  | clear =>
    cases step'
    exact ⟨rfl,rfl⟩

/-! ### What a cache holds -/

/-- The value that was last added under a key. -/
def lastAdded (key : V → K) : List (Call K V) → K → Option V
  | [],_ => none
  | .add v :: calls,k => (lastAdded key calls k).or (if key v = k then some v else none)
  | _ :: calls,k => lastAdded key calls k

/-- What is held after a step was added by it, or held before. -/
theorem Step.held {capacity : Nat} {call : Call K V} {out : Option V} {d : Cache K V} (step : Step key capacity c call out d)
    (there : d.held k = some v) : lastAdded key [call] k = some v ∨ lastAdded key [call] k = none ∧ c.held k = some v := by
  cases step with
  | room w room =>
    rw [held_tick,held_put] at there
    by_cases same : k = key w
    · exact .inl (by simpa [lastAdded,same] using there)
    · rw [if_neg same] at there
      exact .inr ⟨by simp [lastAdded,Ne.symm same],there⟩
  | evict w victim full other oldest =>
    rw [held_tick,held_put] at there
    by_cases same : k = key w
    · exact .inl (by simpa [lastAdded,same] using there)
    · rw [if_neg same,held_forget] at there
      split_ifs at there
      exact .inr ⟨by simp [lastAdded,Ne.symm same],there⟩
  | hit k' w found => exact .inr ⟨rfl,there⟩
  | miss k' absent => exact .inr ⟨rfl,there⟩
  | remove k' =>
    rw [held_tick,held_forget] at there
    split_ifs at there
    exact .inr ⟨rfl,there⟩
  | clear => exact absurd there.symm (Option.some_ne_none v)

theorem lastAdded_cons (call : Call K V) (calls : List (Call K V)) (k : K) :
    lastAdded key (call :: calls) k = (lastAdded key calls k).or (lastAdded key [call] k) := by
  cases call <;> simp [lastAdded]

theorem Steps.held {capacity : Nat} {calls : List (Call K V)} {outs : List (Option V)} {d : Cache K V} (steps : Steps key capacity c calls outs d)
    (there : d.held k = some v) : lastAdded key calls k = some v ∨ lastAdded key calls k = none ∧ c.held k = some v := by
  induction steps with
  | nil c => exact .inr ⟨rfl,there⟩
  | cons step steps ih =>
    rw [lastAdded_cons]
    rcases ih there with added | ⟨kept,before⟩
    · exact .inl (by rw [added,Option.some_or])
    · rw [kept,Option.none_or]
      exact step.held before

/-- What is held stays, unless it is replaced, evicted, removed or cleared. -/
theorem Step.leaves {capacity : Nat} {call : Call K V} {out : Option V} {d : Cache K V} (step : Step key capacity c call out d)
    (there : c.held k = some v) (left : d.held k ≠ some v) :
    (∃ w, call = .add w ∧ (key w = k ∨ out = some v)) ∨ call = .remove k ∨ call = .clear := by
  cases step with
  | room w room =>
    by_cases same : k = key w
    · exact .inl ⟨w,rfl,.inl same.symm⟩
    · exact absurd (by rw [held_tick,held_put,if_neg same,there]) left
  | evict w victim full other oldest =>
    by_cases same : k = key w
    · exact .inl ⟨w,rfl,.inl same.symm⟩
    · by_cases evicted : k = key victim
      · have equal : some victim = some v := by rw [← there,evicted,other.1]
        exact .inl ⟨w,rfl,.inr equal⟩
      · exact absurd (by rw [held_tick,held_put,if_neg same,held_forget,if_neg evicted,there]) left
  | hit k' w found => exact absurd there left
  | miss k' absent => exact absurd there left
  | remove k' =>
    by_cases same : k = k'
    · exact .inr (.inl (by rw [same]))
    · exact absurd (by rw [held_tick,held_forget,if_neg same,there]) left
  | clear => exact .inr (.inr rfl)

end
end Daf.LruCache
