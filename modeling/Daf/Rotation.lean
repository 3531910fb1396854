import Mathlib.Data.List.Chain
import Mathlib.Data.List.Rotate
import Mathlib.Data.Nat.ModEq

/-!
Several rings that are turned by one counter. A call on a ring takes the element at the counter and moves the counter on, so the calls on one
ring go around it in order exactly when between any two of them that follow each other the others move the counter by whole rounds.
-/
namespace Daf.Rotation

section
variable {α γ : Type}

/-- From some start, once around after the other. -/
def GoesAround (ring taken : List α) : Prop := ∃ start, ∀ j < taken.length, taken[j]? = ring[(start + j) % ring.length]?

theorem window_eq_rotate {ring taken : List α} {start : Nat} (around : ∀ j < taken.length, taken[j]? = ring[(start + j) % ring.length]?)
    {from_ : Nat} (inside : from_ + ring.length ≤ taken.length) : (taken.drop from_).take ring.length = ring.rotate (start + from_) := by
  refine List.ext_getElem? fun j => ?_
  rw [List.getElem?_take]
  split_ifs with small
  · rw [List.getElem?_drop,around _ (by omega),List.getElem?_rotate small]
    congr 2
    omega
  · rw [List.getElem?_eq_none (by rw [List.length_rotate]; omega)]

/-- After whole rounds, each element was taken as often as that. -/
theorem GoesAround.count [DecidableEq α] {ring taken : List α} (around : GoesAround ring taken) {k : Nat} (enough : k * ring.length ≤ taken.length) (a : α) :
    (taken.take (k * ring.length)).count a = k * ring.count a := by
  obtain ⟨start,around⟩ := around
  induction k with
  | zero => simp
  | succ k ih =>
    rw [Nat.succ_mul] at enough
    have round := window_eq_rotate around enough
    rw [Nat.succ_mul,List.take_add,List.count_append,ih (by omega),round,(List.rotate_perm ring _).count_eq,
      Nat.succ_mul]

/-! ### The counter -/

variable [DecidableEq γ]

/-- What the counter says at the calls on `g`, when the calls move it on by their weights. -/
def stamps (weight : γ → Nat) (g : γ) : Nat → List γ → List Nat
  | _,[] => []
  | c,h :: later => if h = g then c :: stamps weight g (c + weight h) later else stamps weight g (c + weight h) later

/-- What lies between two calls on `g` that follow each other weighs a multiple of `n`. -/
def Spaced (weight : γ → Nat) (n : Nat) (g : γ) (calls : List γ) : Prop :=
  ∀ before middle after, calls = before ++ g :: middle ++ g :: after → g ∉ middle → n ∣ (middle.map weight).sum

variable {weight : γ → Nat} {g : γ} {n : Nat}

theorem stamps_append (c : Nat) (middle later : List γ) (apart : g ∉ middle) :
    stamps weight g c (middle ++ later) = stamps weight g (c + (middle.map weight).sum) later := by
  induction middle generalizing c with
  | nil => rfl
  | cons h middle ih =>
    have other : h ≠ g := fun same => apart (same ▸ List.mem_cons_self)
    rw [List.cons_append,stamps,if_neg other,ih (c + weight h) (fun member => apart (List.mem_cons_of_mem h member)),List.map_cons,List.sum_cons,
      Nat.add_assoc]

theorem stamps_nil {c : Nat} {calls : List γ} (apart : g ∉ calls) : stamps weight g c calls = [] := by
  have whole : stamps weight g c (calls ++ []) = stamps weight g (c + (calls.map weight).sum) [] := stamps_append c calls [] apart
  rwa [List.append_nil] at whole

/-- The counter goes on by one from each call on `g` to the next one, up to whole rounds. -/
def Steady (n : Nat) (l : List Nat) : Prop := l.IsChain fun s t => t ≡ s + 1 [MOD n]

omit [DecidableEq γ] in
theorem spaced_cons_ne {h : γ} {later : List γ} (other : h ≠ g) : Spaced weight n g (h :: later) ↔ Spaced weight n g later := by
  constructor
  · intro spaced before middle after split apart
    exact spaced (h :: before) middle after (by rw [split]; rfl) apart
  · intro spaced before middle after split apart
    cases before with
    | nil => exact absurd (List.cons.inj split).1 other
    | cons first before => exact spaced before middle after (List.cons.inj split).2 apart

omit [DecidableEq γ] in
theorem spaced_cons_self {later : List γ} :
    Spaced weight n g (g :: later) ↔
      Spaced weight n g later ∧ ∀ middle after, later = middle ++ g :: after → g ∉ middle → n ∣ (middle.map weight).sum := by
  constructor
  · intro spaced
    constructor
    · intro before middle after split apart
      exact spaced (g :: before) middle after (by rw [split]; rfl) apart
    · intro middle after split apart
      exact spaced [] middle after (by rw [split]; rfl) apart
  · rintro ⟨spaced,first⟩ before middle after split apart
    cases before with
    | nil => exact first middle after (List.cons.inj split).2 apart
    | cons h before => exact spaced before middle after (List.cons.inj split).2 apart

theorem steady_stamps (one : weight g = 1) (c : Nat) (calls : List γ) : Steady n (stamps weight g c calls) ↔ Spaced weight n g calls := by
  induction calls generalizing c with
  | nil => exact ⟨fun _ before middle after split => by simp at split,fun _ => .nil⟩
  | cons h later ih =>
    by_cases same : h = g
    · subst same
      rw [stamps,if_pos rfl,one,spaced_cons_self,← ih (c + 1)]
      by_cases again : h ∈ later
      · obtain ⟨middle,after,rfl,apart⟩ := List.eq_append_cons_of_mem again
        have gap : (c + 1 + (middle.map weight).sum ≡ c + 1 [MOD n]) ↔ n ∣ (middle.map weight).sum := by
          rw [← Nat.modEq_zero_iff_dvd]
          exact ⟨fun equal => Nat.ModEq.add_left_cancel' (c + 1) equal,fun zero => Nat.ModEq.add_left (c + 1) zero⟩
        rw [stamps_append _ middle _ apart,stamps,if_pos rfl,Steady,List.isChain_cons_cons,gap,and_comm]
        refine and_congr_right fun _ => ⟨fun whole middle' after' split apart' => ?_,fun all => all middle after rfl apart⟩
        -- the first call on `h` is at one place only
        have prefix_ : middle' = middle := by
          have lengths := congrArg (List.idxOf h) split
          rw [List.idxOf_append_of_notMem apart,List.idxOf_append_of_notMem apart',List.idxOf_cons_self,List.idxOf_cons_self] at lengths
          exact ((List.append_inj split (by omega)).1).symm
        rw [prefix_]
        exact whole
      · rw [stamps_nil again]
        refine ⟨fun _ => ⟨.nil,fun middle after split _ => absurd (by rw [split]; simp) again⟩,fun _ => .singleton c⟩
    · rw [stamps,if_neg same,spaced_cons_ne same,ih]

/-! ### Around the ring -/

/-- The element at the counter. -/
def pick (ring : List α) (filled : ring ≠ []) (c : Nat) : α :=
  ring.get ⟨c % ring.length,Nat.mod_lt _ (List.length_pos_iff.mpr filled)⟩

variable {ring : List α} {filled : ring ≠ []}

theorem pick_eq (c : Nat) : some (pick ring filled c) = ring[c % ring.length]? :=
  (List.getElem?_eq_getElem (Nat.mod_lt _ (List.length_pos_iff.mpr filled))).symm

theorem Steady.goesAround {l : List Nat} (steady : Steady ring.length l) : GoesAround ring (l.map (pick ring filled)) := by
  have step := List.isChain_iff_getElem.mp steady
  have from_first : ∀ j (inside : j < l.length), l.get ⟨j,inside⟩ ≡ l.headD 0 + j [MOD ring.length] := by
    intro j
    induction j with
    | zero =>
      intro inside
      cases l with
      | nil => exact absurd inside (Nat.not_lt_zero 0)
      | cons c later => exact Nat.ModEq.refl c
    | succ j ih =>
      intro inside
      exact (step j inside).trans ((ih (by omega)).add_right 1)
  refine ⟨l.headD 0,fun j inside => ?_⟩
  rw [List.length_map] at inside
  rw [List.getElem?_map,List.getElem?_eq_getElem inside,Option.map_some,pick_eq]
  exact congrArg (ring[·]?) (from_first j inside)

theorem steady_of_goesAround (distinct : ring.Nodup) {l : List Nat} (around : GoesAround ring (l.map (pick ring filled))) : Steady ring.length l := by
  obtain ⟨start,around⟩ := around
  have positive := List.length_pos_iff.mpr filled
  have placed : ∀ j (inside : j < l.length), l.get ⟨j,inside⟩ ≡ start + j [MOD ring.length] := by
    intro j inside
    have taken := around j (by rwa [List.length_map])
    rw [List.getElem?_map,List.getElem?_eq_getElem inside,Option.map_some,pick_eq] at taken
    exact (List.getElem?_inj (Nat.mod_lt _ positive) distinct).mp taken
  refine List.isChain_iff_getElem.mpr fun j inside => ?_
  exact (placed (j + 1) inside).trans ((placed j (by omega)).symm.add_right 1)

end
end Daf.Rotation
