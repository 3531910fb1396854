import Mathlib.Data.List.Basic
import Mathlib.Data.Nat.Init

/-!
Stretches of a list in which two values alternate, and how the longest of them are found by looking at three
neighbours at a time.
-/
namespace Daf.AlternatingRuns

section
variable {α : Type} (xs : List α)

/-- From `p` on, two different values take turns for `len` elements. -/
def Alternates (p len : Nat) : Prop := ∃ a b, a ≠ b ∧ ∀ k < len, xs[p+k]? = some (if k % 2 = 0 then a else b)

/-- An alternating stretch that is part of no longer one. -/
structure MaximalRun (p len : Nat) : Prop where
  alternates : Alternates xs p len
  maximal : ∀ p' len', p' ≤ p → p + len ≤ p' + len' → Alternates xs p' len' → p' = p ∧ len' = len

/-- The element is the one two places before, and not the one before. -/
def Same (i : Nat) : Prop := i < xs.length ∧ xs[i]? = xs[i-2]? ∧ xs[i-1]? ≠ xs[i]?

/-- From `p + 2` up to `e` every element is the one two places before; at both ends that is at an end. -/
structure Block (p e : Nat) : Prop where
  inside : ∀ i, p + 2 ≤ i → i < e → Same xs i
  left : p = 0 ∨ ¬ Same xs (p+1)
  right : ¬ Same xs e

variable {xs} {p len : Nat}

theorem Alternates.same (alternates : Alternates xs p len) {i : Nat} (after : p + 2 ≤ i) (before : i < p + len) : Same xs i := by
  obtain ⟨a,b,differ,values⟩ := alternates
  obtain ⟨k,rfl⟩ := Nat.exists_eq_add_of_le after
  have here := values (k+2) (by omega)
  have one := values (k+1) (by omega)
  have two := values k (by omega)
  have place : p + 2 + k = p + (k+2) := by omega
  have place_one : p + (k+2) - 1 = p + (k+1) := by omega
  have place_two : p + (k+2) - 2 = p + k := by omega
  rw [Same,place,place_one,place_two,here,one,two]
  refine ⟨(List.getElem?_eq_some_iff.mp here).1,by rw [Nat.add_mod_right],?_⟩
  intro same
  rcases Nat.mod_two_eq_zero_or_one k with even | odd
  · rw [if_neg (by omega),if_pos (by omega),Option.some.injEq] at same
    exact differ same.symm
  · rw [if_pos (by omega),if_neg (by omega),Option.some.injEq] at same
    exact differ same

theorem alternates_of_same (long : 3 ≤ len) (same : ∀ i, p + 2 ≤ i → i < p + len → Same xs i) : Alternates xs p len := by
  obtain ⟨inside,back,other⟩ := same (p+2) (Nat.le_refl _) (by omega)
  have place : p + 2 - 2 = p := by omega
  have place_one : p + 2 - 1 = p + 1 := by omega
  rw [place] at back
  rw [place_one] at other
  have first : xs[p]? = some xs[p] := List.getElem?_eq_getElem (by omega)
  have second : xs[p+1]? = some xs[p+1] := List.getElem?_eq_getElem (by omega)
  refine ⟨xs[p],xs[p+1],fun equal => other (by rw [back,first,second,equal]),fun k => ?_⟩
  induction k using Nat.twoStepInduction with
  | zero => exact fun _ => first
  | one => exact fun _ => second
  | more k ih _ =>
    intro less
    obtain ⟨-,step,-⟩ := same (p+(k+2)) (by omega) (by omega)
    have place_two : p + (k+2) - 2 = p + k := by omega
    rw [step,place_two,ih (by omega),Nat.add_mod_right]

/-- Longer than two elements, the alternating stretches that cannot be extended are the blocks. -/
theorem maximalRun_iff_block (long : 3 ≤ len) : MaximalRun xs p len ↔ Block xs p (p+len) := by
  constructor
  · intro run
    have inside : ∀ i, p + 2 ≤ i → i < p + len → Same xs i := fun i after before => run.alternates.same after before
    refine ⟨inside,?_,?_⟩
    · rcases p with _ | q
      · exact .inl rfl
      · refine .inr fun before => ?_
        have longer : Alternates xs q (len+1) := by
          refine alternates_of_same (by omega) fun i after less => ?_
          rcases Nat.eq_or_lt_of_le after with rfl | later
          · exact before
          · exact inside i (by omega) (by omega)
        have same := (run.maximal q (len+1) (by omega) (by omega) longer).1
        omega
    · intro behind
      have longer : Alternates xs p (len+1) := by
        refine alternates_of_same (by omega) fun i after less => ?_
        rcases Nat.eq_or_lt_of_le (Nat.le_of_lt_succ less) with rfl | earlier
        · exact behind
        · exact inside i after earlier
      have same := (run.maximal p (len+1) (Nat.le_refl _) (by omega) longer).2
      omega
  · intro block
    refine ⟨alternates_of_same long block.inside,fun p' len' before behind alternates => ?_⟩
    have start : p' = p := by
      by_contra other
      rcases block.left with zero | ends
      · omega
      · exact ends (alternates.same (by omega) (by omega))
    subst start
    refine ⟨rfl,?_⟩
    by_contra other
    exact block.right (alternates.same (by omega) (by omega))

/-- Two blocks of more than three elements that end at the same place begin at the same place. -/
theorem Block.start_unique {q e : Nat} (block : Block xs p e) (long : p + 4 ≤ e) (inside : ∀ i, q + 2 ≤ i → i < e → Same xs i)
    (left : q = 0 ∨ ¬ Same xs (q+1)) (also : q + 3 ≤ e) : p = q := by
  rcases Nat.lt_trichotomy p q with less | same | more
  · rcases left with zero | ends
    · omega
    · exact absurd (block.inside (q+1) (by omega) (by omega)) ends
  · exact same
  · rcases block.left with zero | ends
    · omega
    · exact absurd (inside (p+1) (by omega) (by omega)) ends

end
end Daf.AlternatingRuns
