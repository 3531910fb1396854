import Mathlib.Tactic.IntervalCases
import Mathlib.Tactic.NormNum

/-!
The text of a UUID: 32 lower case hexadecimal digits in five groups.
-/
namespace Daf.UuidText

abbrev Uuid := BitVec 128

def hexDigit (d : Nat) : Char := if d < 10 then Char.ofNat (48 + d) else Char.ofNat (87 + d)

/-- The digits of a number in base 16, most significant first, with a fixed width. -/
def hexDigits : Nat → Nat → List Char
  | 0,_ => []
  | width + 1,n => hexDigits width (n / 16) ++ [hexDigit (n % 16)]

def hyphenated (digits : List Char) : List Char :=
  digits.take 8 ++ '-' :: (digits.drop 8).take 4 ++ '-' :: (digits.drop 12).take 4 ++ '-' :: (digits.drop 16).take 4 ++
    '-' :: digits.drop 20

def toChars (uuid : Uuid) : List Char := hyphenated (hexDigits 32 uuid.toNat)
def toText (uuid : Uuid) : String := String.ofList (toChars uuid)

theorem hexDigit_inj {a b : Nat} (low : a < 16) (low' : b < 16) (same : hexDigit a = hexDigit b) : a = b := by
  interval_cases a <;> interval_cases b <;> first | rfl | (revert same; decide)

theorem hexDigit_ne_hyphen {a : Nat} (low : a < 16) : hexDigit a ≠ '-' := by
  interval_cases a <;> decide

theorem hexDigits_length (width n : Nat) : (hexDigits width n).length = width := by
  induction width generalizing n with
  | zero => rfl
  | succ width ih => simp [hexDigits,ih]

theorem hexDigits_inj {width a b : Nat} (low : a < 16 ^ width) (low' : b < 16 ^ width)
    (same : hexDigits width a = hexDigits width b) : a = b := by
  induction width generalizing a b with
  | zero => omega
  | succ width ih =>
    obtain ⟨high,last⟩ := List.append_inj same (by rw [hexDigits_length,hexDigits_length])
    have quotients := ih (Nat.div_lt_of_lt_mul (by rwa [Nat.pow_succ'] at low)) (Nat.div_lt_of_lt_mul (by rwa [Nat.pow_succ'] at low')) high
    have remainders := hexDigit_inj (Nat.mod_lt a (by decide)) (Nat.mod_lt b (by decide)) (List.singleton_inj.mp last)
    omega

theorem hexDigits_ne_hyphen (width n : Nat) : ∀ c ∈ hexDigits width n, c ≠ '-' := by
  induction width generalizing n with
  | zero => simp [hexDigits]
  | succ width ih =>
    intro c member
    rcases List.mem_append.mp member with high | last
    · exact ih _ c high
    · rw [List.mem_singleton.mp last]
      exact hexDigit_ne_hyphen (Nat.mod_lt n (by decide))

/-- Without its hyphens the text is the digits. -/
theorem filter_hyphenated {digits : List Char} (plain : ∀ c ∈ digits, c ≠ '-') :
    (hyphenated digits).filter (· ≠ '-') = digits := by
  have keep : ∀ part, part ⊆ digits → part.filter (· ≠ '-') = part := by
    intro part sub
    refine List.filter_eq_self.mpr (fun c member => ?_)
    simpa using plain c (sub member)
  have drop_take : ∀ n k, (digits.drop n).take k ⊆ digits := fun n k c member => List.mem_of_mem_drop (List.mem_of_mem_take member)
  simp only [hyphenated,List.filter_append,List.filter_cons,ne_eq,not_true_eq_false,decide_false,Bool.false_eq_true,if_false]
  have first := keep _ (List.take_subset 8 digits)
  have second := keep _ (drop_take 8 4)
  have third := keep _ (drop_take 12 4)
  have fourth := keep _ (drop_take 16 4)
  have fifth := keep _ (List.drop_subset 20 digits)
  simp only [ne_eq] at first second third fourth fifth
  rw [first,second,third,fourth,fifth]
  have a : digits.drop 16 = (digits.drop 16).take 4 ++ digits.drop 20 := by
    conv_lhs => rw [← List.take_append_drop 4 (digits.drop 16),List.drop_drop]
  have b : digits.drop 12 = (digits.drop 12).take 4 ++ digits.drop 16 := by
    conv_lhs => rw [← List.take_append_drop 4 (digits.drop 12),List.drop_drop]
  have c : digits.drop 8 = (digits.drop 8).take 4 ++ digits.drop 12 := by
    conv_lhs => rw [← List.take_append_drop 4 (digits.drop 8),List.drop_drop]
  rw [List.append_assoc,List.append_assoc,List.append_assoc,← a,← b,← c,List.take_append_drop]

theorem toChars_inj {a b : Uuid} (same : toChars a = toChars b) : a = b := by
  have digits : hexDigits 32 a.toNat = hexDigits 32 b.toNat := by
    rw [← filter_hyphenated (hexDigits_ne_hyphen 32 a.toNat),← filter_hyphenated (hexDigits_ne_hyphen 32 b.toNat)]
    exact congrArg _ same
  have low : ∀ u : Uuid, u.toNat < 16 ^ 32 := fun u => lt_of_lt_of_eq u.isLt (by norm_num)
  exact BitVec.eq_of_toNat_eq (hexDigits_inj (low a) (low b) digits)

end Daf.UuidText
