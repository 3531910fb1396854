import Daf.Search

/-!
Patterns with a wildcard that stands for any text. Matching from the left, each part of the pattern at its
first place behind the last one, loses no match.
-/
namespace Daf.Wildcards
open Daf.Search

section
variable {α : Type}

/-- The text is the pattern with every star replaced by some text. -/
inductive Expands (star : α) : List α → List α → Prop where
  | nil : Expands star [] []
  | own {c : α} {pattern text : List α} (other : c ≠ star) (rest : Expands star pattern text) : Expands star (c :: pattern) (c :: text)
  | wild {pattern text : List α} (filler : List α) (rest : Expands star pattern text) : Expands star (star :: pattern) (filler ++ text)

/-- The parts one after the other, with any texts between two of them. -/
def Joined : List (List α) → List α → Prop
  | [],text => text = []
  | [part],text => text = part
  | part :: next :: parts,text => ∃ filler rest, text = part ++ filler ++ rest ∧ Joined (next :: parts) rest

/-- The parts occur one behind the other. -/
def Scattered : List (List α) → List α → Prop
  | [],_ => True
  | part :: parts,text => ∃ filler rest, text = filler ++ part ++ rest ∧ Scattered parts rest

variable {star : α} {pattern text : List α}

theorem expands_star : Expands star (star :: pattern) text ↔ ∃ filler rest, text = filler ++ rest ∧ Expands star pattern rest := by
  constructor
  · rintro (_ | ⟨other,_⟩ | ⟨filler,rest⟩)
    · exact absurd rfl other
    · exact ⟨filler,_,rfl,rest⟩
  · rintro ⟨filler,rest,rfl,expands⟩
    exact .wild filler expands

theorem expands_own {c : α} (other : c ≠ star) : Expands star (c :: pattern) text ↔ ∃ rest, text = c :: rest ∧ Expands star pattern rest := by
  constructor
  · rintro (_ | ⟨-,rest⟩ | _)
    · exact ⟨_,rfl,rest⟩
    · exact absurd rfl other
  · rintro ⟨rest,rfl,expands⟩
    exact .own other expands

theorem expands_nil : Expands star [] text ↔ text = [] := by
  constructor
  · rintro ⟨⟩
    rfl
  · rintro rfl
    exact .nil

/-- A text without stars in front of a pattern is matched by itself. -/
theorem expands_append {plain : List α} (starless : star ∉ plain) :
    Expands star (plain ++ pattern) text ↔ ∃ rest, text = plain ++ rest ∧ Expands star pattern rest := by
  induction plain generalizing text with
  | nil => simp
  | cons c plain ih =>
    rw [List.mem_cons,not_or] at starless
    obtain ⟨other,starless⟩ := starless
    rw [List.cons_append,expands_own (Ne.symm other)]
    simp only [ih starless]
    constructor
    · rintro ⟨_,rfl,rest,rfl,expands⟩
      exact ⟨rest,rfl,expands⟩
    · rintro ⟨rest,rfl,expands⟩
      exact ⟨_,rfl,rest,rfl,expands⟩

/-- Stars in a row do what one does. -/
theorem expands_stars (n : Nat) : Expands star (List.replicate (n+1) star ++ pattern) text ↔ ∃ filler rest, text = filler ++ rest ∧ Expands star pattern rest := by
  induction n generalizing text with
  | zero => exact expands_star
  | succ n ih =>
    rw [List.replicate_succ,List.cons_append,expands_star]
    simp only [ih]
    constructor
    · rintro ⟨filler,_,rfl,filler',rest,rfl,expands⟩
      exact ⟨filler ++ filler',rest,(List.append_assoc ..).symm,expands⟩
    · rintro ⟨filler,rest,rfl,expands⟩
      exact ⟨filler,rest,rfl,[],rest,rfl,expands⟩

theorem expands_ends (n : Nat) (text : List α) : Expands star (List.replicate (n+1) star) text := by
  have stars : Expands star (List.replicate (n+1) star ++ []) text := (expands_stars n).mpr ⟨text,[],by simp,.nil⟩
  simpa using stars

/-! ### Stars at the ends -/

theorem expands_front {plain : List α} (starless : star ∉ plain) (n : Nat) : Expands star (plain ++ List.replicate (n+1) star) text ↔ plain <+: text := by
  rw [expands_append starless]
  constructor
  · rintro ⟨rest,rfl,-⟩
    exact List.prefix_append _ _
  · rintro ⟨rest,rfl⟩
    exact ⟨rest,rfl,expands_ends n rest⟩

theorem expands_back {plain : List α} (starless : star ∉ plain) (n : Nat) : Expands star (List.replicate (n+1) star ++ plain) text ↔ plain <:+ text := by
  have whole {rest : List α} : Expands star plain rest ↔ rest = plain := by
    have alone : Expands star (plain ++ []) rest ↔ _ := expands_append starless
    simpa [expands_nil] using alone
  rw [expands_stars]
  simp only [whole]
  constructor
  · rintro ⟨filler,_,rfl,rfl⟩
    exact List.suffix_append _ _
  · rintro ⟨filler,rfl⟩
    exact ⟨filler,plain,rfl,rfl⟩

theorem expands_within {plain : List α} (starless : star ∉ plain) (n m : Nat) :
    Expands star (List.replicate (n+1) star ++ (plain ++ List.replicate (m+1) star)) text ↔ plain <:+: text := by
  rw [expands_stars]
  simp only [expands_front starless]
  constructor
  · rintro ⟨filler,_,rfl,rest,rfl⟩
    exact ⟨filler,rest,List.append_assoc ..⟩
  · rintro ⟨filler,rest,rfl⟩
    exact ⟨filler,plain ++ rest,List.append_assoc ..,List.prefix_append _ _⟩

/-! ### Parts of a pattern -/

theorem scattered_more {parts : List (List α)} (more : List α) (scattered : Scattered parts text) : Scattered parts (more ++ text) := by
  cases parts with
  | nil => trivial
  | cons part parts =>
    obtain ⟨filler,rest,rfl,later⟩ := scattered
    exact ⟨more ++ filler,rest,by simp,later⟩

/-- Between the first part and the last one the others are scattered. -/
theorem joined_ends (first : List α) (middle : List (List α)) (last : List α) :
    Joined (first :: (middle ++ [last])) text ↔ ∃ inner, text = first ++ inner ++ last ∧ Scattered middle inner := by
  induction middle generalizing first text with
  | nil =>
    constructor
    · rintro ⟨filler,rest,rfl,rfl⟩
      exact ⟨filler,rfl,trivial⟩
    · rintro ⟨inner,rfl,-⟩
      exact ⟨inner,last,rfl,rfl⟩
  | cons part middle ih =>
    constructor
    · rintro ⟨filler,rest,rfl,joined⟩
      obtain ⟨inner,rfl,scattered⟩ := (ih part).mp joined
      exact ⟨filler ++ part ++ inner,by simp,filler,inner,rfl,scattered⟩
    · rintro ⟨_,rfl,filler,inner,rfl,scattered⟩
      exact ⟨filler,part ++ inner ++ last,by simp,(ih part).mpr ⟨inner,rfl,scattered⟩⟩

variable [DecidableEq α]

/-- Without its stars a pattern matches what is left of it. -/
theorem expands_stripped (pattern : List α) : Expands star pattern (pattern.filter (· ≠ star)) := by
  induction pattern with
  | nil => exact .nil
  | cons c pattern ih =>
    by_cases same : c = star
    · subst same
      simpa using Expands.wild [] ih
    · simpa [same] using Expands.own same ih

theorem splitOn_star : (star :: pattern).splitOn star = [] :: pattern.splitOn star := by simp [List.splitOn_eq_splitOnP,List.splitOnP_cons_eq_if_modifyHead]

theorem splitOn_own {c : α} (other : c ≠ star) : (c :: pattern).splitOn star = (pattern.splitOn star).modifyHead (c :: ·) := by
  simp [List.splitOn_eq_splitOnP,List.splitOnP_cons_eq_if_modifyHead,other]

/-- A text that a pattern expands to is made of the parts between its stars. -/
theorem expands_joined : Expands star pattern text ↔ Joined (pattern.splitOn star) text := by
  induction pattern generalizing text with
  | nil => exact expands_nil
  | cons c pattern ih =>
    obtain ⟨part,parts,split⟩ := List.exists_cons_of_ne_nil (List.splitOn_ne_nil star pattern)
    rw [split] at ih
    by_cases same : c = star
    · subst same
      rw [expands_star,splitOn_star,split]
      simp only [ih]
      rfl
    · rw [expands_own same,splitOn_own same,split,List.modifyHead_cons]
      simp only [ih]
      cases parts with
      | nil =>
        constructor
        · rintro ⟨rest,rfl,rfl⟩
          rfl
        · rintro rfl
          exact ⟨part,rfl,rfl⟩
      | cons next parts =>
        constructor
        · rintro ⟨_,rfl,filler,rest,rfl,joined⟩
          exact ⟨filler,rest,rfl,joined⟩
        · rintro ⟨filler,rest,rfl,joined⟩
          exact ⟨part ++ filler ++ rest,rfl,filler,rest,rfl,joined⟩

/-- Taking each part where it first occurs finds the parts wherever they are scattered. -/
theorem scattered_first {part before after : List α} {parts : List (List α)} (found : text.dropInfix? part = some (before,after)) :
    Scattered (part :: parts) text ↔ Scattered parts after := by
  obtain ⟨whole,first⟩ := found_iff.mp found
  constructor
  · rintro ⟨filler,rest,split,scattered⟩
    have least := first filler rest split
    -- what is behind a later occurrence is behind the first one
    have behind : rest <:+ after := by
      have sizes := congrArg List.length (whole.symm.trans split)
      simp only [List.length_append] at sizes
      have later : rest <:+ text := split ▸ List.suffix_append _ _
      exact List.suffix_of_suffix_length_le later (whole ▸ List.suffix_append _ _) (by omega)
    obtain ⟨more,rfl⟩ := behind
    exact scattered_more more scattered
  · exact fun scattered => ⟨before,after,whole,scattered⟩

end
end Daf.Wildcards
