import Mathlib.Data.List.Infix
import Mathlib.Data.Nat.Find
import Mathlib.Tactic.Tauto

/-!
The first occurrence of a pattern in a text, and how many occurrences there are from left to right.
-/
namespace Daf.Search

section
variable {α : Type} {pattern before after text : List α}

/-- A pattern that would begin before its first occurrence shows in front of the last element of that one. -/
theorem infix_of_earlier {p s : List α} (split : before ++ pattern ++ after = p ++ pattern ++ s) (earlier : p.length < before.length) :
    pattern <:+: before ++ pattern.dropLast := by
  have front : p ++ pattern <+: before ++ pattern ++ after := ⟨s,split.symm⟩
  have whole : before ++ pattern.dropLast <+: before ++ pattern ++ after := by
    rw [List.append_assoc,List.prefix_append_right_inj]
    exact (List.dropLast_prefix pattern).trans (List.prefix_append _ _)
  have inside : p ++ pattern <+: before ++ pattern.dropLast := by
    refine List.prefix_of_prefix_length_le front whole ?_
    simp only [List.length_append,List.length_dropLast]
    omega
  exact (List.suffix_append p pattern).isInfix.trans inside.isInfix

/-- A pattern whose first element is not in it again does not show in front of itself. -/
theorem fresh_head {c : α} {rest : List α} (fresh : c ∉ rest) : c :: rest <:+: text ++ (c :: rest).dropLast ↔ c :: rest <:+: text := by
  constructor
  · rintro ⟨p,s,occurs⟩
    rw [List.append_assoc,List.append_eq_append_iff] at occurs
    obtain ⟨a,rfl,overlap⟩ | ⟨a,-,behind⟩ := occurs
    · -- What is left of the text is the pattern, or ends inside it; there the pattern begins again.
      obtain ⟨b,rfl,-⟩ | ⟨b,split,last⟩ := List.append_eq_append_iff.mp overlap
      · exact ⟨p,b,by rw [List.append_assoc]⟩
      · cases b with
        | nil => exact ⟨p,[],by rw [split,List.append_nil,List.append_nil]⟩
        | cons d b =>
          cases a with
          | nil =>
            have sizes := congrArg List.length last
            rw [List.nil_append] at split
            rw [← split] at sizes
            simp only [List.length_append,List.length_dropLast,List.length_cons] at sizes
            omega
          | cons e a =>
            have head : c = d := by
              have heads := congrArg List.head? last
              cases rest with
              | nil => simp at split
              | cons f rest => simpa using heads
            rw [List.cons_append,List.cons.injEq] at split
            exact absurd (by rw [split.2,head]; simp) fresh
    · have sizes := congrArg List.length behind
      simp only [List.length_append,List.length_dropLast,List.length_cons] at sizes
      omega
  · exact fun inside => inside.trans (List.prefix_append _ _).isInfix

/-- A part of the pattern behind the text does not bring the pattern about. -/
theorem absent_part {c : α} {rest part : List α} (fresh : c ∉ rest) (absent : ¬ c :: rest <:+: text) (early : part <+: (c :: rest).dropLast) :
    ¬ c :: rest <:+: text ++ part := by
  intro occurs
  have longer : text ++ part <+: text ++ (c :: rest).dropLast := (List.prefix_append_right_inj text).mpr early
  exact absent ((fresh_head fresh).mp (occurs.trans longer.isInfix))

/-! ### Patterns of two elements -/

theorem pair_cons {a b c : α} : [a,b] <:+: c :: text ↔ c = a ∧ text.head? = some b ∨ [a,b] <:+: text := by
  rw [List.infix_cons_iff,List.cons_prefix_cons]
  refine or_congr (and_congr eq_comm ?_) Iff.rfl
  cases text with
  | nil => simp
  | cons d text => simp [List.cons_prefix_cons,eq_comm]

/-- A pair occurs in one of two parts, or where they meet. -/
theorem pair_append {a b : α} : [a,b] <:+: before ++ after ↔ [a,b] <:+: before ∨ [a,b] <:+: after ∨ before.getLast? = some a ∧ after.head? = some b := by
  induction before with
  | nil => simp
  | cons c before ih =>
    rw [List.cons_append,pair_cons,pair_cons,ih]
    cases before with
    | nil => simp; tauto
    | cons d before => simp [List.getLast?_cons_cons]; tauto

variable [DecidableEq α]

theorem found_iff {p s : List α} :
    text.dropInfix? pattern = some (p,s) ↔ text = p ++ pattern ++ s ∧ ∀ p' s', text = p' ++ pattern ++ s' → p.length ≤ p'.length := by
  rw [List.dropInfix?_eq_some_iff]
  constructor
  · rintro ⟨⟨same,split,equal⟩,first⟩
    exact ⟨beq_iff_eq.mp equal ▸ split,fun p' s' other => first p' pattern s' other (beq_self_eq_true _)⟩
  · rintro ⟨split,first⟩
    exact ⟨⟨pattern,split,beq_self_eq_true _⟩,fun p' same s' other equal => first p' s' (beq_iff_eq.mp equal ▸ other)⟩

theorem found_length (found : text.dropInfix? pattern = some (before,after)) : before.length + pattern.length + after.length = text.length := by
  rw [(Iff.mp found_iff found).1]
  simp [Nat.add_assoc]

theorem absent_iff : text.dropInfix? pattern = none ↔ ¬ pattern <:+: text := by
  constructor
  · rintro absent ⟨p,s,split⟩
    have some_length : ∃ n, ∃ p s : List α, p.length = n ∧ text = p ++ pattern ++ s := ⟨p.length,p,s,rfl,split.symm⟩
    classical
    obtain ⟨p,s,least,split⟩ := Nat.find_spec some_length
    have found := found_iff.mpr ⟨split,fun p' s' other => least ▸ Nat.find_min' some_length ⟨p',s',rfl,other⟩⟩
    exact nomatch absent.symm.trans found
  · intro absent
    cases found : text.dropInfix? pattern with
    | none => rfl
    | some parts => exact absurd ⟨parts.1,parts.2,(found_iff.mp found).1.symm⟩ absent

/-- The occurrence that is found is the one after a text in which there is none, not even in part with its own beginning. -/
theorem first_iff (nonempty : pattern ≠ []) :
    text.dropInfix? pattern = some (before,after) ↔ text = before ++ pattern ++ after ∧ ¬ pattern <:+: before ++ pattern.dropLast := by
  rw [found_iff]
  refine and_congr_right fun split => ?_
  subst split
  constructor
  · rintro first ⟨p,s,occurs⟩
    obtain ⟨last,whole⟩ : ∃ last, pattern = pattern.dropLast ++ [last] := ⟨_,(List.dropLast_append_getLast nonempty).symm⟩
    have later : before ++ pattern ++ after = p ++ pattern ++ (s ++ [last] ++ after) := by
      calc before ++ pattern ++ after = before ++ (pattern.dropLast ++ [last]) ++ after := by rw [← whole]
        _ = (before ++ pattern.dropLast) ++ [last] ++ after := by simp
        _ = (p ++ pattern ++ s) ++ [last] ++ after := by rw [occurs]
        _ = _ := by simp
    have sizes := congrArg List.length occurs
    have positive := List.length_pos_of_ne_nil nonempty
    have least := first p _ later
    simp only [List.length_append,List.length_dropLast] at sizes
    omega
  · intro clear p s split
    by_contra earlier
    exact clear (infix_of_earlier split (by omega))

/-! ### Counting -/

/-- How many times the pattern occurs, without overlaps; `skip` more elements belong to an occurrence. -/
def countFrom (pattern : List α) : Nat → List α → Nat
  | _,[] => 0
  | skip+1,_ :: text => countFrom pattern skip text
  | 0,c :: text => if pattern.isPrefixOf (c :: text) then countFrom pattern (pattern.length - 1) text + 1 else countFrom pattern 0 text

def count (pattern text : List α) : Nat := countFrom pattern 0 text

theorem countFrom_drop (skip : Nat) (text : List α) : countFrom pattern skip text = count pattern (text.drop skip) := by
  induction text generalizing skip with
  | nil => cases skip <;> simp [countFrom,count]
  | cons c text ih =>
    cases skip with
    | zero => rfl
    | succ skip => exact ih skip

theorem count_absent (absent : ¬ pattern <:+: text) : count pattern text = 0 := by
  induction text with
  | nil => rfl
  | cons c text ih =>
    have other : ¬ pattern <+: c :: text := fun front => absent front.isInfix
    show (if pattern.isPrefixOf (c :: text) then _ else _) = 0
    rw [if_neg (by rwa [List.isPrefixOf_iff_prefix])]
    exact ih fun inside => absent (inside.trans (List.suffix_cons c text).isInfix)

theorem count_first (nonempty : pattern ≠ []) (clear : ¬ pattern <:+: before ++ pattern.dropLast) :
    count pattern (before ++ pattern ++ after) = count pattern after + 1 := by
  induction before with
  | nil =>
    obtain ⟨c,rest,rfl⟩ := List.exists_cons_of_ne_nil nonempty
    show (if (c :: rest).isPrefixOf (c :: (rest ++ after)) then _ else _) = _
    rw [if_pos (by simp [List.isPrefixOf_iff_prefix]),countFrom_drop]
    simp
  | cons c before ih =>
    have other : ¬ pattern <+: c :: (before ++ pattern ++ after) := by
      rintro ⟨s,front⟩
      have split : c :: before ++ pattern ++ after = [] ++ pattern ++ s := front.symm
      exact clear (infix_of_earlier split (Nat.succ_pos _))
    show (if pattern.isPrefixOf (c :: (before ++ pattern ++ after)) then _ else _) = _
    rw [if_neg (by rwa [List.isPrefixOf_iff_prefix])]
    exact ih fun inside => clear (inside.trans (List.suffix_cons c _).isInfix)

theorem count_eq_zero (nonempty : pattern ≠ []) : count pattern text = 0 ↔ ¬ pattern <:+: text := by
  refine ⟨fun none_there inside => ?_,count_absent⟩
  obtain ⟨parts,found⟩ := Option.ne_none_iff_exists'.mp (mt absent_iff.mp (not_not_intro inside))
  obtain ⟨split,clear⟩ := (first_iff nonempty).mp found
  rw [split,count_first nonempty clear] at none_there
  exact nomatch none_there

end
end Daf.Search
