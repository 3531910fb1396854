import Mathlib.Data.List.Basic

/-!
Two ways to write the elements of a list, one behind the other: the results are the same where the elements are, or where the elements that
disagree make up for each other.
-/
namespace Daf.Disagreements

section
variable {α β : Type} {f g : α → List β} {l : List α}

/-- From the first element that disagrees to the last, which is another one, all together is the same. -/
def Compensates (f g : α → List β) (l : List α) : Prop :=
  ∃ before first middle last after, l = before ++ (first :: middle ++ [last]) ++ after ∧ (∀ a ∈ before ++ after, f a = g a) ∧
    f first ≠ g first ∧ f last ≠ g last ∧ (first :: middle ++ [last]).flatMap f = (first :: middle ++ [last]).flatMap g

theorem flatMap_agree (agree : ∀ a ∈ l, f a = g a) : l.flatMap f = l.flatMap g := List.flatMap_congr agree

/-- All agree, or there is a last one that does not. -/
theorem last_disagreement (f g : α → List β) (l : List α) :
    (∀ a ∈ l, f a = g a) ∨ ∃ before a after, l = before ++ a :: after ∧ f a ≠ g a ∧ ∀ b ∈ after, f b = g b := by
  induction l with
  | nil => exact .inl nofun
  | cons a l ih =>
    rcases ih with agree | ⟨before,b,after,rfl,differ,later⟩
    · by_cases same : f a = g a
      · exact .inl (List.forall_mem_cons.mpr ⟨same,agree⟩)
      · exact .inr ⟨[],a,l,rfl,same,agree⟩
    · exact .inr ⟨a :: before,b,after,rfl,differ,later⟩

theorem flatMap_eq_iff (f g : α → List β) (l : List α) : l.flatMap f = l.flatMap g ↔ (∀ a ∈ l, f a = g a) ∨ Compensates f g l := by
  constructor
  · induction l with
    | nil => exact fun _ => .inl nofun
    | cons a l ih =>
      intro whole
      rw [List.flatMap_cons,List.flatMap_cons] at whole
      by_cases same : f a = g a
      · rw [same,List.append_cancel_left_eq] at whole
        rcases ih whole with agree | ⟨before,first,middle,last,after,rfl,agree,rest⟩
        · exact .inl (List.forall_mem_cons.mpr ⟨same,agree⟩)
        · refine .inr ⟨a :: before,first,middle,last,after,rfl,?_,rest⟩
          exact List.forall_mem_cons.mpr ⟨same,agree⟩
      · rcases last_disagreement f g l with agree | ⟨middle,last,after,rfl,differ,agree⟩
        · rw [flatMap_agree agree,List.append_cancel_right_eq] at whole
          exact absurd whole same
        · refine .inr ⟨[],a,middle,last,after,by simp,by simpa using agree,same,differ,?_⟩
          have parted : (a :: middle ++ [last]).flatMap f ++ after.flatMap f = (a :: middle ++ [last]).flatMap g ++ after.flatMap g := by simpa using whole
          rwa [flatMap_agree agree,List.append_cancel_right_eq] at parted
  · rintro (agree | ⟨before,first,middle,last,after,rfl,agree,-,-,stretch⟩)
    · exact flatMap_agree agree
    · rw [List.flatMap_append,List.flatMap_append,stretch,flatMap_agree fun a member => agree a (List.mem_append_left _ member),
        flatMap_agree fun a member => agree a (List.mem_append_right _ member),← List.flatMap_append,← List.flatMap_append]

theorem length_le (shorter : ∀ a ∈ l, (f a).length ≤ (g a).length) : (l.flatMap f).length ≤ (l.flatMap g).length := by
  induction l with
  | nil => exact Nat.le_refl _
  | cons a l ih =>
    obtain ⟨here,later⟩ := List.forall_mem_cons.mp shorter
    have rest := ih later
    simp only [List.flatMap_cons,List.length_append]
    omega

/-- Where no element gets longer and one gets shorter, the results differ. -/
theorem flatMap_ne (shorter : ∀ a ∈ l, (f a).length ≤ (g a).length) {a : α} (member : a ∈ l) (one : (f a).length < (g a).length) :
    l.flatMap f ≠ l.flatMap g := by
  obtain ⟨before,after,rfl⟩ := List.append_of_mem member
  intro same
  have lengths := congrArg List.length same
  have front := length_le fun b there => shorter b (List.mem_append_left _ there)
  have back := length_le fun b there => shorter b (List.mem_append_right _ (List.mem_cons_of_mem _ there))
  simp only [List.flatMap_append,List.flatMap_cons,List.length_append] at lengths
  omega

end
end Daf.Disagreements
