import Daf.Versions
import Daf.Wildcards

/-!
Versions and constraints read again from the text in which they are displayed.
-/
namespace Daf.VersionText
open Daf.Search Daf.DottedPaths Daf.Versions

section
variable {c : Char} {s before after : List Char}

/-! ### Splitting at a character -/

theorem split_once_iff : split_once c s = some (before,after) ↔ s = before ++ c :: after ∧ c ∉ before := by
  rw [split_once,first_iff (List.cons_ne_nil c [])]
  simp [List.singleton_infix_iff]

theorem split_once_none : split_once c s = none ↔ c ∉ s := by rw [split_once,absent_iff,List.singleton_infix_iff]

theorem rsplit_once_iff : rsplit_once c s = some (before,after) ↔ s = before ++ c :: after ∧ c ∉ after := by
  rw [rsplit_once,Option.map_eq_some_iff]
  constructor
  · rintro ⟨⟨after',before'⟩,found,same⟩
    obtain ⟨rfl,rfl⟩ := Prod.mk.inj same
    obtain ⟨whole,absent⟩ := Iff.mp split_once_iff found
    have forward : s = (after' ++ c :: before').reverse := by rw [← whole,List.reverse_reverse]
    exact ⟨by simpa using forward,by simpa using absent⟩
  · rintro ⟨rfl,absent⟩
    exact ⟨(after.reverse,before.reverse),Iff.mpr split_once_iff ⟨by simp,by simpa using absent⟩,by simp⟩

theorem rsplit_once_none : rsplit_once c s = none ↔ c ∉ s := by
  rw [rsplit_once,Option.map_eq_none_iff,split_once_none,List.mem_reverse]

theorem splitOn_part (clear : c ∉ before) : (before ++ c :: after).splitOn c = before :: after.splitOn c := by
  induction before with
  | nil => exact Wildcards.splitOn_star
  | cons d before ih =>
    rw [List.mem_cons,not_or] at clear
    rw [List.cons_append,Wildcards.splitOn_own (Ne.symm clear.1),ih clear.2,List.modifyHead_cons]

end

/-! ### What is read -/

/-- What follows the numbers. -/
def tags (v : SemVer) : List Char := v.pre_release.elim [] (fun pre => '-' :: pre) ++ v.build_metadata.elim [] (fun build => '+' :: build)

/-- What is true of every version that is read. -/
structure Parsed (v : SemVer) : Prop where
  major : v.major < 2^64
  minor : v.minor < 2^64
  patch : v.patch < 2^64
  build : ∀ build ∈ v.build_metadata, '+' ∉ build
  pre : v.build_metadata = none → ∀ pre ∈ v.pre_release, '+' ∉ pre
  ends : ∀ c ∈ (tags v).getLast?, is_whitespace c = false

theorem trim_last (text : List Char) : ∀ c ∈ (trim text).getLast?, is_whitespace c = false := by
  intro c last
  rw [trim,List.getLast?_reverse] at last
  have kept := List.head?_dropWhile_not is_whitespace (text.dropWhile is_whitespace).reverse
  rw [Option.mem_def.mp last] at kept
  exact kept

theorem split_build_spec (s : List Char) : s = (split_build s).1 ++ (split_build s).2.elim [] (fun build => '+' :: build) ∧
    (∀ build ∈ (split_build s).2, '+' ∉ build) ∧ ((split_build s).2 = none → '+' ∉ s) := by
  rw [split_build]
  cases found : rsplit_once '+' s with
  | none => exact ⟨by simp,nofun,fun _ => rsplit_once_none.mp found⟩
  | some parts =>
    obtain ⟨whole,clear⟩ := rsplit_once_iff.mp found
    exact ⟨whole,by rintro _ ⟨⟩; exact clear,nofun⟩

theorem split_build_eq (version_pre : List Char) (build : Option (List Char)) (clear : ∀ b ∈ build, '+' ∉ b) (alone : build = none → '+' ∉ version_pre) :
    split_build (version_pre ++ build.elim [] fun build => '+' :: build) = (version_pre,build) := by
  rw [split_build]
  cases build with
  | none => rw [Option.elim_none,List.append_nil,rsplit_once_none.mpr (alone rfl)]
  | some b => rw [Option.elim_some,rsplit_once_iff.mpr ⟨rfl,clear b rfl⟩]

theorem split_pre_spec (s : List Char) : s = (split_pre s).1 ++ (split_pre s).2.elim [] (fun pre => '-' :: pre) := by
  rw [split_pre]
  cases found : split_once '-' s with
  | none => simp
  | some parts => exact (split_once_iff.mp found).1

theorem split_pre_eq (version : List Char) (pre : Option (List Char)) (clear : '-' ∉ version) :
    split_pre (version ++ pre.elim [] fun pre => '-' :: pre) = (version,pre) := by
  rw [split_pre]
  cases pre with
  | none => rw [Option.elim_none,List.append_nil,split_once_none.mpr clear]
  | some p => rw [Option.elim_some,split_once_iff.mpr ⟨rfl,clear⟩]

theorem number_bound {what : String} {part : List Char} {n : Nat} (read : number what part = .ok n) : n < 2^64 := by
  rw [number] at read
  cases value : parse_u64 part with
  | none => rw [value] at read; exact nomatch read
  | some m =>
    rw [value] at read
    obtain rfl := Except.ok.inj read
    simp only [parse_u64] at value
    split_ifs at value with digits
    exact Option.some.inj value ▸ digits.2.2

theorem bind_ok {ε α β : Type} {x : Except ε α} {f : α → Except ε β} {b : β} (done : (x >>= f) = .ok b) : ∃ a, x = .ok a ∧ f a = .ok b := by
  cases x with
  | error e => exact nomatch done
  | ok a => exact ⟨a,rfl,done⟩

theorem numbers_bound {s version : List Char} {n : Nat × Nat × Nat} (read : numbers s version = .ok n) : n.1 < 2^64 ∧ n.2.1 < 2^64 ∧ n.2.2 < 2^64 := by
  rw [numbers] at read
  split at read
  · obtain ⟨major,first,read⟩ := bind_ok read
    obtain ⟨minor,second,read⟩ := bind_ok read
    obtain rfl := Except.ok.inj read
    exact ⟨number_bound first,number_bound second,Nat.two_pow_pos 64⟩
  · obtain ⟨major,first,read⟩ := bind_ok read
    obtain ⟨minor,second,read⟩ := bind_ok read
    obtain ⟨patch,third,read⟩ := bind_ok read
    obtain rfl := Except.ok.inj read
    exact ⟨number_bound first,number_bound second,number_bound third⟩
  · exact nomatch read

/-- A text that is read is the numbers and then the tags. -/
theorem parsed_of_read {s : List Char} {v : SemVer} (read : SemVer.from_str s = .ok v) : Parsed v := by
  obtain ⟨⟨major,minor,patch⟩,values,done⟩ := bind_ok read
  obtain rfl := Except.ok.inj done
  obtain ⟨bound,bound',bound''⟩ := numbers_bound values
  obtain ⟨whole,clear,alone⟩ := split_build_spec (trim s)
  have inner := split_pre_spec (split_build (trim s)).1
  refine ⟨bound,bound',bound'',clear,fun none_there pre here inside => ?_,fun c last => ?_⟩
  · refine alone none_there ?_
    have tag : (split_pre (split_build (trim s)).1).2 = some pre := here
    rw [whole,inner,tag]
    simp [inside]
  · refine trim_last s c ?_
    rw [whole,inner,List.append_assoc]
    exact List.mem_getLast?_append_of_mem_getLast? last

/-! ### What is displayed -/

def digits (n : Nat) : List Char := Nat.toDigits 10 n

theorem digits_isDigit {n : Nat} : ∀ c ∈ digits n, c.isDigit := fun _ inside => Nat.isDigit_of_mem_toDigits (by decide) (by decide) inside

theorem digits_ne {n : Nat} {c : Char} (other : c.isDigit = false) : c ∉ digits n := by
  intro inside
  exact absurd (digits_isDigit c inside) (by simp [other])

theorem digits_cons (n : Nat) : ∃ c rest, digits n = c :: rest := List.exists_cons_of_ne_nil Nat.toDigits_ne_nil

theorem digit_visible {c : Char} (digit : c.isDigit) : is_whitespace c = false := by
  rw [Char.isDigit,Bool.and_eq_true,decide_eq_true_eq,decide_eq_true_eq] at digit
  have low : 48 ≤ c.toNat := UInt32.le_iff_toNat_le.mp digit.1
  have high : c.toNat ≤ 57 := UInt32.le_iff_toNat_le.mp digit.2
  simp only [is_whitespace]
  simp
  omega

theorem number_digits (what : String) {n : Nat} (bound : n < 2^64) : number what (digits n) = .ok n := by
  have value : Nat.ofDigitChars 10 (digits n) 0 = n := Nat.ofDigitChars_ten_toDigits
  have read : parse_u64 (digits n) = some n := by
    have all : (digits n).all Char.isDigit := List.all_eq_true.mpr digits_isDigit
    have plain : without_plus (digits n) = digits n := by
      rw [without_plus]
      intro rest split
      exact digits_ne (n := n) (c := '+') (by decide) (by simp [split])
    rw [parse_u64,plain]
    simp only [value]
    exact if_pos ⟨Nat.toDigits_ne_nil,all,bound⟩
  rw [number,read]

theorem numbers_digits (s : List Char) {a b c : Nat} (bound : a < 2^64) (bound' : b < 2^64) (bound'' : c < 2^64) :
    numbers s (digits a ++ '.' :: digits b ++ '.' :: digits c) = .ok (a,b,c) := by
  have dotless (n : Nat) : '.' ∉ digits n := digits_ne (by decide)
  rw [numbers,List.append_assoc,List.cons_append,splitOn_part (dotless a),splitOn_part (dotless b),List.splitOn_eq_singleton (dotless c)]
  simp only
  rw [number_digits _ bound,number_digits _ bound',number_digits _ bound'']
  rfl

theorem to_text_eq (v : SemVer) : v.to_text = (digits v.major ++ '.' :: digits v.minor ++ '.' :: digits v.patch) ++ tags v := by
  simp [SemVer.to_text,tags,digits]

theorem from_str_eq {s : List Char} {build pre : Option (List Char)} {version_pre version : List Char} {major minor patch : Nat}
    (first : split_build (trim s) = (version_pre,build)) (second : split_pre version_pre = (version,pre))
    (third : numbers (trim s) version = .ok (major,minor,patch)) : SemVer.from_str s = .ok ⟨major,minor,patch,pre,build⟩ := by
  rw [SemVer.from_str]
  simp only [first,second,third]
  rfl

/-- A text with no white space at its ends. -/
def Trimmed (text : List Char) : Prop := (∃ c rest, text = c :: rest ∧ is_whitespace c = false) ∧ ∀ c ∈ text.getLast?, is_whitespace c = false

theorem Trimmed.trim {text : List Char} (trimmed : Trimmed text) : trim text = text := by
  obtain ⟨c,rest,split,visible⟩ := trimmed.1
  refine trim_of_ends (fun d first => ?_) trimmed.2
  rw [split] at first
  exact Option.some.inj first ▸ visible

/-- A mark in front of such a text leaves it one. -/
theorem Trimmed.mark {text : List Char} (trimmed : Trimmed text) {mark : Char} (visible : is_whitespace mark = false) : Trimmed (mark :: text) := by
  obtain ⟨⟨c,rest,split,-⟩,last⟩ := trimmed
  refine ⟨⟨mark,text,rfl,visible⟩,?_⟩
  rw [split,List.getLast?_cons_cons,← split]
  exact last

theorem Parsed.trimmed {v : SemVer} (parsed : Parsed v) : Trimmed v.to_text := by
  rw [to_text_eq]
  obtain ⟨c,rest,split⟩ := digits_cons v.major
  have digit : c.isDigit := digits_isDigit (n := v.major) c (by simp [split])
  refine ⟨⟨c,_,by rw [split]; rfl,digit_visible digit⟩,fun d last => ?_⟩
  rw [List.getLast?_append,Option.mem_def,Option.or_eq_some_iff] at last
  rcases last with last | ⟨-,last⟩
  · exact parsed.ends d last
  · obtain ⟨e,rest',split'⟩ := digits_cons v.patch
    refine digit_visible (digits_isDigit (n := v.patch) d ?_)
    rw [List.getLast?_append,split',List.getLast?_cons_cons,← split',Option.or_eq_some_iff] at last
    rcases last with last | ⟨none_there,-⟩
    · exact List.mem_of_getLast? last
    · simp [split'] at none_there

theorem read_displayed {v : SemVer} (parsed : Parsed v) : SemVer.from_str v.to_text = .ok v := by
  have plain (c : Char) (other : c.isDigit = false) (dot : c ≠ '.') : c ∉ digits v.major ++ '.' :: digits v.minor ++ '.' :: digits v.patch := by
    simp [digits_ne other,dot]
  have whole : trim v.to_text = (digits v.major ++ '.' :: digits v.minor ++ '.' :: digits v.patch ++
      v.pre_release.elim [] fun pre => '-' :: pre) ++ v.build_metadata.elim [] fun build => '+' :: build := by
    rw [parsed.trimmed.trim,to_text_eq,tags,List.append_assoc _ _ (v.build_metadata.elim _ _)]
  refine from_str_eq ?_ (split_pre_eq _ _ (plain '-' (by decide) (by decide))) (numbers_digits _ parsed.major parsed.minor parsed.patch)
  rw [whole]
  refine split_build_eq _ _ parsed.build fun none_there inside => ?_
  rcases List.mem_append.mp inside with inside | inside
  · exact plain '+' (by decide) (by decide) inside
  · cases tag : v.pre_release with
    | none => rw [tag] at inside; exact nomatch inside
    | some pre =>
      rw [tag] at inside
      rcases List.mem_cons.mp inside with impossible | inside
      · exact absurd impossible (by decide)
      · exact parsed.pre none_there pre tag inside

/-! ### Constraints -/

/-- The versions in a constraint are ones that are read in some text. -/
def Built : VersionConstraint → Prop
  | .Exact v | .Gte v | .Lt v | .Caret v | .Tilde v => ∃ s, SemVer.from_str s = .ok v
  | .Range low high => (∃ s, SemVer.from_str s = .ok low) ∧ ∃ s, SemVer.from_str s = .ok high
  | .Any => True

theorem map_ok {ε α β : Type} {x : Except ε α} {f : α → β} {b : β} (done : f <$> x = .ok b) : ∃ a, f a = b := by
  cases x with
  | error e => exact nomatch done
  | ok a => exact ⟨a,Except.ok.inj done⟩

/-- No range is read in any text. -/
theorem never_range (s : List Char) (low high : SemVer) : VersionConstraint.parse s ≠ .ok (.Range low high) := by
  intro read
  rw [VersionConstraint.parse] at read
  split at read
  case h_1 | h_2 => cases read
  all_goals
    obtain ⟨v,other⟩ := map_ok read
    exact nomatch other

/-- A version that was read: its text has no white space at its ends, and is read. -/
theorem displayed {v : SemVer} (built : ∃ s, SemVer.from_str s = .ok v) : Trimmed v.to_text ∧ SemVer.from_str v.to_text = .ok v := by
  obtain ⟨s,read⟩ := built
  have parsed := parsed_of_read read
  exact ⟨parsed.trimmed,read_displayed parsed⟩

theorem read_constraint {c : VersionConstraint} (built : Built c) (single : ∀ low high, c ≠ .Range low high) :
    VersionConstraint.parse c.to_text = .ok c := by
  cases c with
  | Exact v =>
    obtain ⟨trimmed,read⟩ := displayed built
    rw [VersionConstraint.to_text,VersionConstraint.parse,(trimmed.mark (by decide)).trim]
    simp only [trimmed.trim,read]
    rfl
  | Gte v =>
    obtain ⟨trimmed,read⟩ := displayed built
    rw [VersionConstraint.to_text,VersionConstraint.parse,((trimmed.mark (by decide)).mark (by decide)).trim]
    simp only [trimmed.trim,read]
    rfl
  | Lt v =>
    obtain ⟨trimmed,read⟩ := displayed built
    rw [VersionConstraint.to_text,VersionConstraint.parse,(trimmed.mark (by decide)).trim]
    simp only [trimmed.trim,read]
    rfl
  | Caret v =>
    obtain ⟨trimmed,read⟩ := displayed built
    rw [VersionConstraint.to_text,VersionConstraint.parse,(trimmed.mark (by decide)).trim]
    simp only [read]
    rfl
  | Tilde v =>
    obtain ⟨trimmed,read⟩ := displayed built
    rw [VersionConstraint.to_text,VersionConstraint.parse,(trimmed.mark (by decide)).trim]
    simp only [read]
    rfl
  | Range low high => exact absurd rfl (single low high)
  | Any => rfl

/-- Every version that is read in some text is read in the text it is displayed as; so is a constraint on such versions exactly when it is no range. -/
theorem text_round_trip (s : List Char) (v : SemVer) (c : VersionConstraint) : (SemVer.from_str s = .ok v → SemVer.from_str v.to_text = .ok v) ∧
    (Built c → (VersionConstraint.parse c.to_text = .ok c ↔ ∀ low high, c ≠ .Range low high)) := by
  refine ⟨fun read => read_displayed (parsed_of_read read),fun built => ⟨?_,read_constraint built⟩⟩
  rintro read low high rfl
  exact never_range _ low high read

/-- A version that is written with a plus sign, without a patch, and with tags. -/
theorem text_round_trip_tags : SemVer.from_str (SemVer.mk 1 2 0 (some ['a']) (some ['b'])).to_text = .ok (SemVer.mk 1 2 0 (some ['a']) (some ['b'])) ∧
    VersionConstraint.parse (VersionConstraint.Caret (SemVer.new 1 2 0)).to_text = .ok (.Caret (SemVer.new 1 2 0)) :=
  have trip := text_round_trip " +1.2-a+b".toList (SemVer.mk 1 2 0 (some ['a']) (some ['b'])) (.Caret (SemVer.new 1 2 0))
  ⟨trip.1 (by decide),(trip.2 ⟨"1.2".toList,by decide⟩).mpr nofun⟩

theorem range_not_read : ¬ ((∀ s v, SemVer.from_str s = .ok v → SemVer.from_str v.to_text = .ok v) ∧
    ∀ c, Built c → VersionConstraint.parse c.to_text = .ok c) := by
  intro claim
  have built : Built (.Range (SemVer.new 1 0 0) (SemVer.new 2 0 0)) := ⟨⟨"1.0.0".toList,by decide⟩,⟨"2.0.0".toList,by decide⟩⟩
  exact never_range _ _ _ (claim.2 _ built)

end Daf.VersionText
