import Mathlib.Algebra.Ring.Nat
import Mathlib.Data.List.Lex

/-!
Decimal numerals as texts, and how their lexicographic order, with a separator behind each that comes before all digits, agrees with the order
of the numbers.
-/
namespace Daf.Numerals

section
variable {n m : Nat} {digits others rest rest' : List Char} {stop : Char}

/-- The decimal digits of a number, with zeros before them up to a width. -/
def padded (width n : Nat) : List Char := (Nat.toDigits 10 n).leftpad width '0'

def Digits (text : List Char) : Prop := ∀ c ∈ text, c.isDigit

def value (digits : List Char) : Nat := Nat.ofDigitChars 10 digits 0

theorem padded_digits (width n : Nat) : Digits (padded width n) := by
  intro c inside
  rcases List.mem_append.mp inside with zero | digit
  · rw [List.eq_of_mem_replicate zero]
    rfl
  · exact Nat.isDigit_of_mem_toDigits (by decide) (by decide) digit

@[simp] theorem padded_length (width n : Nat) : (padded width n).length = max width (Nat.toDigits 10 n).length := List.length_leftpad

@[simp] theorem value_padded (width n : Nat) : value (padded width n) = n := by
  simp [value,padded,List.leftpad,Nat.ofDigitChars_append]

theorem value_append (digits others : List Char) : value (digits ++ others) = 10 ^ others.length * value digits + value others := by
  rw [value,Nat.ofDigitChars_append,Nat.ofDigitChars_eq_ofDigitChars_zero]
  rfl

theorem value_cons (c : Char) (digits : List Char) : value (c :: digits) = 10 ^ digits.length * (c.toNat - 48) + value digits := by
  rw [← List.singleton_append,value_append]
  simp [value,Nat.ofDigitChars_cons]

theorem digit_range {c : Char} (digit : c.isDigit) : 48 ≤ c.toNat ∧ c.toNat ≤ 57 := by
  simpa [Char.isDigit,UInt32.le_iff_toNat_le] using digit

theorem value_lt (all : Digits digits) : value digits < 10 ^ digits.length := by
  induction digits with
  | nil => simp [value]
  | cons c digits ih =>
    have low := (digit_range (all c List.mem_cons_self)).2
    have tail := ih fun d inside => all d (List.mem_cons_of_mem _ inside)
    rw [value_cons,List.length_cons,Nat.pow_succ]
    have head : 10 ^ digits.length * (c.toNat - 48) ≤ 10 ^ digits.length * 9 := Nat.mul_le_mul_left _ (by omega)
    omega

/-- Among digits of one length the texts are in the order of the numbers, and two texts of one number are the same. -/
theorem compare_value (all : Digits digits) (all' : Digits others) (lengths : digits.length = others.length) :
    (digits < others ↔ value digits < value others) ∧ (digits = others ↔ value digits = value others) := by
  induction digits generalizing others with
  | nil =>
    cases others with
    | nil => simp
    | cons d others => cases lengths
  | cons c digits ih =>
    cases others with
    | nil => cases lengths
    | cons d others =>
      have tails : digits.length = others.length := Nat.succ.inj lengths
      have rest : Digits digits := fun e inside => all e (List.mem_cons_of_mem _ inside)
      have rest' : Digits others := fun e inside => all' e (List.mem_cons_of_mem _ inside)
      obtain ⟨less,same⟩ := ih rest rest' tails
      have low := digit_range (all c List.mem_cons_self)
      have low' := digit_range (all' d List.mem_cons_self)
      have bound := value_lt rest
      have bound' := value_lt rest'
      rw [List.cons_lt_cons_iff,List.cons.injEq,value_cons,value_cons,less,same,tails]
      rw [tails] at bound
      have order : c < d ↔ c.toNat < d.toNat := Iff.rfl
      have equal : c = d ↔ c.toNat = d.toNat := ⟨congrArg _,Char.toNat_inj.mp⟩
      rw [order,equal]
      rcases Nat.lt_trichotomy c.toNat d.toNat with before | here | after
      · have gap : 10 ^ others.length * (c.toNat - 48) + 10 ^ others.length ≤ 10 ^ others.length * (d.toNat - 48) := by
          rw [← Nat.mul_succ]
          exact Nat.mul_le_mul_left _ (by omega)
        constructor <;> omega
      · rw [here]
        constructor <;> omega
      · have gap : 10 ^ others.length * (d.toNat - 48) + 10 ^ others.length ≤ 10 ^ others.length * (c.toNat - 48) := by
          rw [← Nat.mul_succ]
          exact Nat.mul_le_mul_left _ (by omega)
        constructor <;> omega

theorem value_take (all : Digits digits) (k : Nat) : value (digits.take k) = value digits / 10 ^ (digits.length - k) := by
  have split : value digits = 10 ^ (digits.drop k).length * value (digits.take k) + value (digits.drop k) := by
    rw [← value_append,List.take_append_drop]
  have low : value (digits.drop k) < 10 ^ (digits.drop k).length := value_lt fun c inside => all c (List.mem_of_mem_drop inside)
  rw [split,← List.length_drop,Nat.mul_add_div (Nat.pow_pos (by decide)),Nat.div_eq_of_lt low,Nat.add_zero]

theorem append_lt_append (lengths : digits.length = others.length) : digits ++ rest < others ++ rest' ↔ digits < others ∨ digits = others ∧ rest < rest' := by
  induction digits generalizing others with
  | nil =>
    cases others with
    | nil => simp
    | cons d others => cases lengths
  | cons c digits ih =>
    cases others with
    | nil => cases lengths
    | cons d others =>
      rw [List.cons_append,List.cons_append,List.cons_lt_cons_iff,List.cons_lt_cons_iff,ih (Nat.succ.inj lengths),List.cons.injEq]
      tauto

/-- A numeral with fewer digits comes before a greater one if it is no greater than what as many leading digits of that one say. -/
theorem separated_lt (all : Digits digits) (all' : Digits others) (low : stop.toNat < 48) (shorter : digits.length ≤ others.length)
    (less : value digits < value others) :
    digits ++ stop :: rest < others ++ stop :: rest' ↔ value digits ≤ value others / 10 ^ (others.length - digits.length) := by
  have lengths : digits.length = (others.take digits.length).length := by
    rw [List.length_take]
    omega
  obtain ⟨before,same⟩ := compare_value all (fun c inside => all' c (List.mem_of_mem_take inside)) lengths
  have after : digits = others.take digits.length → stop :: rest < others.drop digits.length ++ stop :: rest' := by
    intro start
    cases left : others.drop digits.length with
    | nil =>
      have whole := List.take_append_drop digits.length others
      rw [left,List.append_nil,← start] at whole
      rw [whole] at less
      exact absurd less (lt_irrefl _)
    | cons d others' =>
      have digit := digit_range (all' d (List.mem_of_mem_drop (left ▸ List.mem_cons_self)))
      have order : stop < d := by
        show stop.toNat < d.toNat
        omega
      exact List.cons_lt_cons_iff.mpr (.inl order)
  have split : others ++ stop :: rest' = others.take digits.length ++ (others.drop digits.length ++ stop :: rest') := by
    rw [← List.append_assoc,List.take_append_drop]
  rw [split,append_lt_append lengths,before,same,value_take all']
  constructor
  · rintro (below | ⟨equal,-⟩) <;> omega
  · intro le
    rcases Nat.lt_or_eq_of_le le with below | equal
    · exact .inl below
    · exact .inr ⟨equal,after (same.mpr (by rw [value_take all']; exact equal))⟩

theorem padded_length_le {width : Nat} (less : n ≤ m) : (padded width n).length ≤ (padded width m).length := by
  rw [padded_length,padded_length]
  have some : 0 < (Nat.toDigits 10 m).length := Nat.length_toDigits_pos
  have bound := (Nat.length_toDigits_le_iff (by decide) some).mp (Nat.le_refl (Nat.toDigits 10 m).length)
  have fewer := (Nat.length_toDigits_le_iff (b := 10) (by decide) some).mpr (Nat.lt_of_le_of_lt less bound)
  omega

theorem padded_lt {width : Nat} (low : stop.toNat < 48) (less : n < m) :
    padded width n ++ stop :: rest < padded width m ++ stop :: rest' ↔ n ≤ m / 10 ^ ((padded width m).length - (padded width n).length) := by
  have order : padded width n ++ stop :: rest < padded width m ++ stop :: rest' ↔ _ :=
    separated_lt (padded_digits width n) (padded_digits width m) low (padded_length_le (Nat.le_of_lt less)) (by rw [value_padded,value_padded]; exact less)
  rw [order,value_padded,value_padded]

end
end Daf.Numerals
