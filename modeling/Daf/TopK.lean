import Mathlib.Data.List.Perm.Basic
import Mathlib.Data.List.Sort
import Mathlib.Order.Basic

/-!
The best so many of a list under a key, best first: taken from the front of a sorted list they are exact, and
whoever takes them from the same candidates takes the same keys.
-/
namespace Daf.TopK

section
variable {α K : Type} [LinearOrder K] {key : α → K} {limit : Nat} {candidates best : List α}

/-- The best of the candidates are split off from the others, none of which ranks strictly above one of them. -/
structure Best (key : α → K) (limit : Nat) (candidates best : List α) : Prop where
  size : best.length = min limit candidates.length
  ranked : best.Pairwise fun a b => key b ≤ key a
  split : ∃ others, (best ++ others).Perm candidates ∧ ∀ a ∈ best, ∀ b ∈ others, key b ≤ key a

/-- Candidates sorted by a comparison, best first. -/
theorem sorted_by {le : α → α → Bool} (agrees : ∀ a b, le a b = true ↔ key b ≤ key a) (candidates : List α) :
    (candidates.mergeSort le).Pairwise fun a b => key b ≤ key a := by
  refine (List.pairwise_mergeSort ?_ ?_ candidates).imp fun {a b} before => (agrees a b).mp before
  · intro a b c first second
    exact (agrees a c).mpr (((agrees b c).mp second).trans ((agrees a b).mp first))
  · intro a b
    rw [Bool.or_eq_true,agrees,agrees]
    exact le_total (key b) (key a)

theorem best_take (sorted : candidates.Pairwise fun a b => key b ≤ key a) : Best key limit candidates (candidates.take limit) where
  size := List.length_take
  ranked := sorted.sublist (List.take_sublist limit candidates)
  split := by
    refine ⟨candidates.drop limit,by rw [List.take_append_drop],?_⟩
    rw [← List.take_append_drop limit candidates,List.pairwise_append] at sorted
    exact sorted.2.2

theorem Best.perm {candidates' : List α} (top : Best key limit candidates best) (same : candidates.Perm candidates') :
    Best key limit candidates' best where
  size := by rw [top.size,same.length_eq]
  ranked := top.ranked
  split := by
    obtain ⟨others,whole,below⟩ := top.split
    exact ⟨others,whole.trans same,below⟩

/-- Sorting and truncating is exact. -/
theorem best_mergeSort {le : α → α → Bool} (agrees : ∀ a b, le a b = true ↔ key b ≤ key a) :
    Best key limit candidates ((candidates.mergeSort le).take limit) :=
  (best_take (sorted_by agrees candidates)).perm (List.mergeSort_perm candidates le)

theorem Best.mem (top : Best key limit candidates best) {a : α} (member : a ∈ best) : a ∈ candidates := by
  obtain ⟨others,whole,-⟩ := top.split
  exact whole.subset (List.mem_append_left others member)

theorem Best.nodup (top : Best key limit candidates best) (distinct : candidates.Nodup) : best.Nodup := by
  obtain ⟨others,whole,-⟩ := top.split
  exact (List.nodup_append.mp (whole.nodup_iff.mpr distinct)).1

theorem Best.omitted (top : Best key limit candidates best) {a b : α} (member : a ∈ best) (candidate : b ∈ candidates) (out : b ∉ best) :
    key b ≤ key a := by
  obtain ⟨others,whole,below⟩ := top.split
  rcases List.mem_append.mp (whole.mem_iff.mpr candidate) with there | other
  · exact absurd there out
  · exact below a member b other

/-- The keys of the best are the first of the sorted keys. -/
theorem Best.keys (top : Best key limit candidates best) :
    best.map key = ((candidates.map key).mergeSort fun a b => decide (b ≤ a)).take limit := by
  obtain ⟨others,whole,below⟩ := top.split
  have front : (best.map key ++ (others.map key).mergeSort fun a b => decide (b ≤ a)) = (candidates.map key).mergeSort fun a b => decide (b ≤ a) := by
    have descending : ∀ keys : List K, (keys.mergeSort fun a b => decide (b ≤ a)).Pairwise fun a b => b ≤ a :=
      fun keys => @sorted_by K K _ id _ (fun a b => decide_eq_true_iff) keys
    refine List.Perm.eq_of_pairwise (fun a b _ _ (below : b ≤ a) (above : a ≤ b) => le_antisymm above below) ?_ (descending _) ?_
    · refine List.pairwise_append.mpr ⟨List.pairwise_map.mpr top.ranked,descending _,?_⟩
      intro a first b second
      obtain ⟨best',member,rfl⟩ := List.mem_map.mp first
      obtain ⟨other,member',rfl⟩ := List.mem_map.mp (List.mem_mergeSort.mp second)
      exact below best' member other member'
    · refine (List.Perm.append_left _ (List.mergeSort_perm _ _)).trans ?_
      rw [← List.map_append]
      exact (whole.map key).trans (List.mergeSort_perm _ _).symm
  have size : (best.map key).length = min limit candidates.length := by rw [List.length_map,top.size]
  rw [← front]
  rcases le_total candidates.length limit with all | some
  · have none_left : others = [] := by
      have lengths := whole.length_eq
      rw [List.length_append,top.size] at lengths
      exact List.eq_nil_of_length_eq_zero (by omega)
    rw [none_left,List.map_nil,List.mergeSort_nil,List.append_nil,List.take_of_length_le (by omega)]
  · rw [List.take_append_of_le_length (by omega),List.take_of_length_le (by omega)]

/-- The same candidates have the same best keys. -/
theorem Best.agree {candidates' best' : List α} (top : Best key limit candidates best) (top' : Best key limit candidates' best')
    (same : candidates.Perm candidates') : best.map key = best'.map key := by
  rw [(top.perm same).keys,top'.keys]

end
end Daf.TopK
