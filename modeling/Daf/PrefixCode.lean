import Mathlib.Data.List.Infix

/-!
Texts written letter by letter in a code of which no word begins another. With a symbol after it that
begins no code word, such a text can be read back in one way only, whatever follows.
-/
namespace Daf.PrefixCode

section
variable {α β : Type} {code : α → List β}

/-- No code word begins another. -/
def PrefixFree (code : α → List β) : Prop := ∀ a b, code a <+: code b → a = b

/-- The symbol can follow a text: no code word begins with it, and none is empty. -/
def Stops (code : α → List β) (stop : β) : Prop := ∀ a, ∃ first rest, code a = first :: rest ∧ first ≠ stop

theorem PrefixFree.append_inj (free : PrefixFree code) {a b : α} {r s : List β} (same : code a ++ r = code b ++ s) : a = b ∧ r = s := by
  have letter : a = b := by
    rcases List.prefix_or_prefix_of_prefix (List.prefix_append (code a) r) (same ▸ List.prefix_append (code b) s) with sub | sub
    · exact free a b sub
    · exact (free b a sub).symm
  subst letter
  exact ⟨rfl,List.append_cancel_left same⟩

theorem Stops.differs {stop : β} (stops : Stops code stop) (a : α) (r s : List β) : code a ++ r ≠ stop :: s := by
  obtain ⟨first,rest,word,other⟩ := stops a
  intro same
  rw [word] at same
  exact other (List.cons.inj same).1

/-- A text and what follows it, from the two together. -/
theorem flatMap_inj {stop : β} (free : PrefixFree code) (stops : Stops code stop) {text other : List α} {r s : List β}
    (same : text.flatMap code ++ stop :: r = other.flatMap code ++ stop :: s) : text = other ∧ r = s := by
  induction text generalizing other with
  | nil =>
    cases other with
    | nil => exact ⟨rfl,(List.cons.inj same).2⟩
    | cons b other =>
      rw [List.flatMap_cons,List.append_assoc] at same
      exact absurd same.symm (stops.differs b _ _)
  | cons a text ih =>
    cases other with
    | nil =>
      rw [List.flatMap_cons,List.append_assoc] at same
      exact absurd same (stops.differs a _ _)
    | cons b other =>
      rw [List.flatMap_cons,List.flatMap_cons,List.append_assoc,List.append_assoc] at same
      obtain ⟨letter,rest⟩ := free.append_inj same
      obtain ⟨tail,after⟩ := ih rest
      exact ⟨by rw [letter,tail],after⟩

end
end Daf.PrefixCode
