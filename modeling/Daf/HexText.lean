import Daf.TextSlices
import Daf.UuidText
import Mathlib.Tactic.SplitIfs

/-!
Bytes as hexadecimal text: node ids, fingerprints, public keys and signatures. The decoders cut the text
into pairs of bytes, which panics inside a character, and hand each pair to the parser of numbers.
-/
namespace Daf.HexText
open Daf.TextSlices Daf.UuidText

abbrev Bytes := List UInt8

/-- How a decoder ends. -/
inductive Decoded (α : Type) where
  | ok (value : α)
  | error (message : String)
  | panicked
deriving DecidableEq,Repr

def Decoded.map {α β : Type} (f : α → β) : Decoded α → Decoded β
  | .ok value => .ok (f value)
  | .error message => .error message
  | .panicked => .panicked

/-! ### Numbers -/

/-- The value of a hexadecimal digit. -/
def to_digit (c : Char) : Option Nat :=
  let n := c.toNat
  if 48 ≤ n ∧ n ≤ 57 then some (n - 48)
  else if 97 ≤ n ∧ n ≤ 102 then some (n - 87)
  else if 65 ≤ n ∧ n ≤ 70 then some (n - 55)
  else none

def isHexDigit (c : Char) : Bool := (to_digit c).isSome

def parseDigits : List Char → Nat → Except String UInt8
  | [],value => .ok (UInt8.ofNat value)
  | c :: later,value =>
    match to_digit c with
    | none => .error "invalid digit found in string"
    | some d => if 255 < 16 * value + d then .error "number too large to fit in target type" else parseDigits later (16 * value + d)

/-- `u8::from_str_radix` in base 16. One plus sign may stand before the digits. -/
def from_str_radix (src : List Char) : Except String UInt8 :=
  match src with
  | [] => .error "cannot parse integer from empty string"
  | ['+'] | ['-'] => .error "invalid digit found in string"
  | '+' :: digits => parseDigits digits 0
  | digits => parseDigits digits 0

/-! ### Encoders and decoders -/

def hex_encode (bytes : Bytes) : List Char := bytes.flatMap fun b => hexDigits 2 b.toNat

/-- The numbers in the pairs of bytes at these offsets, up to the first that is none. -/
def collect (hex : List Char) : List Nat → Decoded Bytes
  | [] => .ok []
  | i :: later =>
    match slice hex i (i + 2) with
    | none => .panicked
    | some pair =>
      match from_str_radix pair with
      | .error message => .error message
      | .ok b => (collect hex later).map (b :: ·)

def hex_to_bytes (hex : List Char) : Decoded Bytes :=
  if size hex % 2 ≠ 0 then .error "odd-length hex string" else collect hex (List.range' 0 (size hex / 2) 2)

/-- An array of 32 bytes. -/
abbrev Hash := { bytes : Bytes // bytes.length = 32 }

namespace hash_serde

def serialize (hash : Hash) : List Char := hex_encode hash.1

def deserialize (hex : List Char) : Decoded Hash :=
  match hex_to_bytes hex with
  | .ok bytes => if length : bytes.length = 32 then .ok ⟨bytes,length⟩ else .error "expected exactly 32 bytes"
  | .error message => .error message
  | .panicked => .panicked

end hash_serde

namespace bytes_hex

def serialize (bytes : Bytes) : List Char := hex_encode bytes

def deserialize (hex : List Char) : Decoded Bytes :=
  if size hex % 2 ≠ 0 then .error "odd-length hex string" else collect hex (List.range' 0 (size hex / 2) 2)

end bytes_hex

structure NodeId where
  raw : Hash
deriving DecidableEq

def NodeId.to_hex (id : NodeId) : List Char := hash_serde.serialize id.raw
def NodeId.deserialize (hex : List Char) : Decoded NodeId := (hash_serde.deserialize hex).map NodeId.mk

structure Fingerprint where
  raw : Hash
deriving DecidableEq

def Fingerprint.to_hex (fingerprint : Fingerprint) : List Char := hash_serde.serialize fingerprint.raw
def Fingerprint.deserialize (hex : List Char) : Decoded Fingerprint := (hash_serde.deserialize hex).map Fingerprint.mk

/-! ### What they should accept -/

/-- The decoder does not panic, and succeeds on the texts of this kind only. -/
def Exact {α : Type} (decode : List Char → Decoded α) (accepted : Prop) (hex : List Char) : Prop :=
  decode hex ≠ .panicked ∧ ((∃ value, decode hex = .ok value) ↔ accepted)

def AllHex (hex : List Char) : Prop := ∀ c ∈ hex, isHexDigit c

/-- Two characters that are read as a number. -/
def Pair (c d : Char) : Prop := (isHexDigit c ∨ c = '+') ∧ isHexDigit d

instance (c d : Char) : Decidable (Pair c d) := inferInstanceAs (Decidable (_ ∧ _))

def AllPairs : List Char → Prop
  | [] => True
  | [_] => False
  | c :: d :: later => Pair c d ∧ AllPairs later

/-- Behind pairs that are numbers, two bytes end inside a character. -/
def Cut : List Char → Prop
  | [] => False
  | [c] => 2 < c.utf8Size
  | c :: d :: later => if Pair c d then Cut later else 2 < c.utf8Size ∨ c.utf8Size = 1 ∧ 1 < d.utf8Size

/-- The text has an even number of bytes, and is cut inside a character. -/
def Splits (hex : List Char) : Prop := size hex % 2 = 0 ∧ Cut hex

/-- The text is read as numbers, some with a plus sign. -/
def Signed (hex : List Char) : Prop := AllPairs hex ∧ '+' ∈ hex

/-! ### Pairs -/

section
variable {c d : Char} {hex later : List Char}

theorem toNat_of_digit (digit : isHexDigit c) : c.toNat ≤ 127 := by
  simp only [isHexDigit,to_digit] at digit
  split_ifs at digit
  · omega
  · omega
  · omega
  · exact nomatch digit

theorem utf8Size_eq_one (low : c.toNat ≤ 127) : c.utf8Size = 1 := Char.utf8Size_eq_one_iff.mpr (UInt32.le_iff_toNat_le.mpr low)

theorem digit_size (digit : isHexDigit c) : c.utf8Size = 1 := utf8Size_eq_one (toNat_of_digit digit)

theorem Pair.sizes (pair : Pair c d) : c.utf8Size = 1 ∧ d.utf8Size = 1 := by
  refine ⟨?_,digit_size pair.2⟩
  rcases pair.1 with digit | rfl
  · exact digit_size digit
  · rfl

theorem to_digit_lt {n : Nat} (digit : to_digit c = some n) : n < 16 := by
  simp only [to_digit] at digit
  split_ifs at digit <;> cases digit <;> omega

theorem isHexDigit_iff : isHexDigit c ↔ ∃ n, to_digit c = some n := Option.isSome_iff_exists

theorem parse_digit : (∃ b, parseDigits [c] 0 = .ok b) ↔ isHexDigit c := by
  rw [isHexDigit_iff,parseDigits]
  cases digit : to_digit c with
  | none => simp
  | some n =>
    have low := to_digit_lt digit
    simp only [if_neg (show ¬ 255 < 16 * 0 + n by omega),parseDigits]
    simp

theorem parse_digits : (∃ b, parseDigits [c,d] 0 = .ok b) ↔ isHexDigit c ∧ isHexDigit d := by
  rw [isHexDigit_iff,isHexDigit_iff,parseDigits]
  cases first : to_digit c with
  | none => simp
  | some m =>
    have low := to_digit_lt first
    simp only [if_neg (show ¬ 255 < 16 * 0 + m by omega),parseDigits]
    cases second : to_digit d with
    | none => simp
    | some n =>
      have low' := to_digit_lt second
      simp only [if_neg (show ¬ 255 < 16 * (16 * 0 + m) + n by omega)]
      simp

theorem parse_pair : (∃ b, from_str_radix [c,d] = .ok b) ↔ Pair c d := by
  by_cases plus : c = '+'
  · subst plus
    have after : from_str_radix ['+',d] = parseDigits [d] 0 := rfl
    rw [after,parse_digit,Pair]
    simp
  · have whole : from_str_radix [c,d] = parseDigits [c,d] 0 := by
      unfold from_str_radix
      split <;> simp_all
    rw [whole,parse_digits,Pair]
    simp [plus]

/-- A character of more than one byte is no number. -/
theorem parse_single (wide : 1 < c.utf8Size) : ∃ message, from_str_radix [c] = .error message := by
  have none_there : to_digit c = none := by
    cases digit : to_digit c with
    | none => rfl
    | some n =>
      have narrow := digit_size (isHexDigit_iff.mpr ⟨n,digit⟩)
      omega
  have unsigned : c ≠ '+' ∧ c ≠ '-' := by
    constructor
    all_goals
      rintro rfl
      exact absurd wide (by decide)
  have whole : from_str_radix [c] = parseDigits [c] 0 := by
    unfold from_str_radix
    split <;> simp_all
  exact ⟨_,by rw [whole,parseDigits,none_there]⟩

/-! ### Cutting the text in pairs -/

theorem take_two_narrow (narrow : c.utf8Size = 1) (narrow' : d.utf8Size = 1) : takeBytes 2 (c :: d :: later) = some [c,d] := by
  have text := takeBytes_append [c,d] later
  simpa [narrow,narrow'] using text

theorem take_two_wide (wide : c.utf8Size = 2) : takeBytes 2 (c :: later) = some [c] := by
  have text := takeBytes_append [c] later
  simpa [wide] using text

theorem take_two_cut (cut : 2 < c.utf8Size) : takeBytes 2 (c :: later) = none := by
  rw [takeBytes,if_neg (by omega)]

theorem take_two_inside (narrow : c.utf8Size = 1) (wide : 1 < d.utf8Size) : takeBytes 2 (c :: d :: later) = none := by
  rw [takeBytes,if_pos (by omega),narrow,takeBytes,if_neg (by omega)]
  rfl

/-- How the rest of a text is read: an array as long as there are pairs, or a panic at a cut. -/
structure Reads (count : Nat) (rest : List Char) (result : Decoded Bytes) : Prop where
  panics : result = .panicked ↔ Cut rest
  succeeds : (∃ bytes, result = .ok bytes) ↔ AllPairs rest
  length : ∀ bytes, result = .ok bytes → bytes.length = count

theorem Reads.stop {count : Nat} {rest : List Char} {result : Decoded Bytes} (stops : ∀ bytes, result ≠ .ok bytes) (unread : ¬ AllPairs rest)
    (panics : result = .panicked ↔ Cut rest) : Reads count rest result :=
  ⟨panics,⟨fun ⟨bytes,read⟩ => (stops bytes read).elim,fun pairs => (unread pairs).elim⟩,fun bytes read => (stops bytes read).elim⟩

theorem Reads.pair {count : Nat} {result : Decoded Bytes} (reads : Reads count later result) (number : Pair c d) (b : UInt8) :
    Reads (count + 1) (c :: d :: later) (result.map (b :: ·)) := by
  obtain ⟨panics,succeeds,length⟩ := reads
  have cut : Cut (c :: d :: later) ↔ Cut later := by rw [Cut,if_pos number]
  have pairs : AllPairs (c :: d :: later) ↔ AllPairs later := and_iff_right number
  cases result with
  | ok bytes => exact ⟨by rw [cut,← panics]; simp [Decoded.map],by rw [pairs,← succeeds]; simp [Decoded.map],by rintro _ ⟨⟩; simp [length bytes rfl]⟩
  | error message => exact ⟨by rw [cut,← panics]; simp [Decoded.map],by rw [pairs,← succeeds]; simp [Decoded.map],fun _ read => nomatch read⟩
  | panicked => exact ⟨by rw [cut,← panics]; simp [Decoded.map],by rw [pairs,← succeeds]; simp [Decoded.map],fun _ read => nomatch read⟩

/-- Behind an offset, by the characters that are there. -/
theorem collect_reads {before rest : List Char} {count : Nat} (even : size rest = 2 * count) :
    Reads count rest (collect (before ++ rest) (List.range' (size before) count 2)) := by
  induction count generalizing before rest with
  | zero =>
    cases rest with
    | nil => exact ⟨by simp [collect,Cut],by simp [collect,AllPairs],by rintro _ ⟨⟩; rfl⟩
    | cons c rest =>
      have positive := c.utf8Size_pos
      rw [size_cons] at even
      omega
  | succ count ih =>
    cases rest with
    | nil => simp at even
    | cons c rest =>
      rw [List.range'_succ,collect,slice_eq rfl,Nat.add_sub_cancel_left]
      have positive := c.utf8Size_pos
      rcases Nat.lt_trichotomy c.utf8Size 2 with narrow | wide | cut
      · have narrow : c.utf8Size = 1 := by omega
        cases rest with
        | nil => simp [narrow] at even; omega
        | cons d rest =>
          have positive' := d.utf8Size_pos
          by_cases wide : 1 < d.utf8Size
          · have no_pair : ¬ Pair c d := fun pair => by have := pair.sizes.2; omega
            rw [take_two_inside narrow wide]
            refine .stop (fun _ => nofun) (fun pairs => no_pair pairs.1) ⟨fun _ => ?_,fun _ => rfl⟩
            rw [Cut,if_neg no_pair]
            exact .inr ⟨narrow,wide⟩
          · have narrow' : d.utf8Size = 1 := by omega
            rw [take_two_narrow narrow narrow']
            simp only
            by_cases number : Pair c d
            · obtain ⟨b,parsed⟩ := parse_pair.mpr number
              have reads : Reads count rest (collect (before ++ [c,d] ++ rest) (List.range' (size (before ++ [c,d])) count 2)) :=
                ih (by simp [narrow,narrow'] at even; omega)
              have text : before ++ [c,d] ++ rest = before ++ c :: d :: rest := by simp
              have offset : size (before ++ [c,d]) = size before + 2 := by simp [narrow,narrow']
              rw [text,offset] at reads
              rw [parsed]
              exact reads.pair number b
            · have failed : ∃ message, from_str_radix [c,d] = .error message := by
                cases parsed : from_str_radix [c,d] with
                | error message => exact ⟨message,rfl⟩
                | ok b => exact absurd (parse_pair.mp ⟨b,parsed⟩) number
              obtain ⟨message,parsed⟩ := failed
              rw [parsed]
              refine .stop (fun _ => nofun) (fun pairs => number pairs.1) ⟨nofun,fun cut => ?_⟩
              rw [Cut,if_neg number] at cut
              omega
      · obtain ⟨message,parsed⟩ := parse_single (c := c) (by omega)
        rw [take_two_wide wide]
        simp only [parsed]
        cases rest with
        | nil => exact .stop (fun _ => nofun) (fun pairs => pairs) ⟨nofun,fun cut => by rw [Cut] at cut; omega⟩
        | cons d rest =>
          have no_pair : ¬ Pair c d := fun pair => by have := pair.sizes.1; omega
          refine .stop (fun _ => nofun) (fun pairs => no_pair pairs.1) ⟨nofun,fun cut => ?_⟩
          rw [Cut,if_neg no_pair] at cut
          omega
      · rw [take_two_cut cut]
        cases rest with
        | nil => exact .stop (fun _ => nofun) (fun pairs => pairs) ⟨fun _ => cut,fun _ => rfl⟩
        | cons d rest =>
          have no_pair : ¬ Pair c d := fun pair => by have := pair.sizes.1; omega
          refine .stop (fun _ => nofun) (fun pairs => no_pair pairs.1) ⟨fun _ => ?_,fun _ => rfl⟩
          rw [Cut,if_neg no_pair]
          exact .inl cut

/-! ### What the decoders accept -/

theorem AllPairs.even (pairs : AllPairs hex) : hex.length % 2 = 0 ∧ size hex = hex.length := by
  induction hex using induct with
  | case1 => exact ⟨rfl,rfl⟩
  | case2 c => exact pairs.elim
  | case3 c d later ih =>
    obtain ⟨lengths,sizes⟩ := ih pairs.2
    have narrow := pairs.1.sizes
    refine ⟨?_,?_⟩
    · simp only [List.length_cons]
      omega
    · simp only [size_cons,List.length_cons]
      omega

theorem allPairs_of_hex (all : AllHex hex) (even : hex.length % 2 = 0) : AllPairs hex := by
  induction hex using AllPairs.induct with
  | case1 => trivial
  | case2 c => exact nomatch even
  | case3 c d later ih =>
    have first := all c (by simp)
    have second := all d (by simp)
    refine ⟨⟨.inl first,second⟩,ih (fun e inside => all e (by simp [inside])) ?_⟩
    simp only [List.length_cons] at even
    omega

theorem AllPairs.digits (pairs : AllPairs hex) (unsigned : '+' ∉ hex) : AllHex hex := by
  induction hex using induct with
  | case1 => exact fun _ inside => nomatch inside
  | case2 c => exact pairs.elim
  | case3 c d later ih =>
    simp only [List.mem_cons,not_or] at unsigned
    have first : isHexDigit c := pairs.1.1.resolve_right (Ne.symm unsigned.1)
    have rest := ih pairs.2 unsigned.2.2
    intro e inside
    rcases List.mem_cons.mp inside with rfl | inside
    · exact first
    · rcases List.mem_cons.mp inside with rfl | inside
      · exact pairs.1.2
      · exact rest e inside

theorem AllHex.unsigned (all : AllHex hex) : '+' ∉ hex := fun inside => absurd (all '+' inside) (by decide)

/-- A text with whole pairs of bytes, read from its start. -/
theorem reads_even (even : size hex % 2 = 0) : Reads (size hex / 2) hex (bytes_hex.deserialize hex) := by
  have whole : size hex = 2 * (size hex / 2) := by omega
  have reads : Reads (size hex / 2) hex (collect ([] ++ hex) (List.range' (size []) (size hex / 2) 2)) := collect_reads whole
  rw [bytes_hex.deserialize,if_neg (by omega)]
  exact reads

theorem deserialize_odd (odd : size hex % 2 ≠ 0) : bytes_hex.deserialize hex = .error "odd-length hex string" := if_pos odd

theorem bytes_panics : bytes_hex.deserialize hex = .panicked ↔ Splits hex := by
  by_cases even : size hex % 2 = 0
  · rw [(reads_even even).panics,Splits,and_iff_right even]
  · rw [deserialize_odd even]
    exact ⟨nofun,fun splits => absurd splits.1 even⟩

theorem bytes_succeeds : (∃ bytes, bytes_hex.deserialize hex = .ok bytes) ↔ AllPairs hex := by
  by_cases even : size hex % 2 = 0
  · exact (reads_even even).succeeds
  · rw [deserialize_odd even]
    exact ⟨fun ⟨_,read⟩ => (nomatch read),fun pairs => absurd pairs.even.1 (by rw [← pairs.even.2]; exact even)⟩

theorem bytes_length {bytes : Bytes} (read : bytes_hex.deserialize hex = .ok bytes) : hex.length = 2 * bytes.length := by
  have pairs := Iff.mp bytes_succeeds ⟨bytes,read⟩
  have even := pairs.even
  have length := (reads_even (by rw [even.2]; exact even.1)).length bytes read
  omega

theorem hex_to_bytes_eq : hex_to_bytes hex = bytes_hex.deserialize hex := rfl

theorem hash_panics : hash_serde.deserialize hex = .panicked ↔ Splits hex := by
  rw [← bytes_panics,hash_serde.deserialize,hex_to_bytes_eq]
  cases bytes_hex.deserialize hex with
  | ok bytes => simp only [reduceCtorEq,iff_false]; split <;> nofun
  | error message => simp
  | panicked => simp

theorem hash_succeeds : (∃ hash, hash_serde.deserialize hex = .ok hash) ↔ AllPairs hex ∧ hex.length = 64 := by
  rw [hash_serde.deserialize,hex_to_bytes_eq]
  constructor
  · rintro ⟨hash,read⟩
    split at read
    · next bytes whole =>
      split at read
      · next length =>
        have lengths := bytes_length whole
        exact ⟨bytes_succeeds.mp ⟨bytes,whole⟩,by omega⟩
      · exact nomatch read
    · exact nomatch read
    · exact nomatch read
  · rintro ⟨pairs,long⟩
    obtain ⟨bytes,whole⟩ := bytes_succeeds.mpr pairs
    have length : bytes.length = 32 := by
      have lengths := bytes_length whole
      omega
    exact ⟨⟨bytes,length⟩,by rw [whole]; exact dif_pos length⟩

/-- A decoder that panics at splits and reads pairs is right exactly without splits and plus signs. -/
theorem exact_iff {α : Type} {decode : List Char → Decoded α} {long : Prop} (panics : decode hex = .panicked ↔ Splits hex)
    (succeeds : (∃ value, decode hex = .ok value) ↔ AllPairs hex ∧ long) (even : long ∧ AllHex hex → hex.length % 2 = 0) :
    Exact decode (long ∧ AllHex hex) hex ↔ ¬ Splits hex ∧ ¬ (Signed hex ∧ long) := by
  rw [Exact,ne_eq,panics,succeeds]
  refine and_congr_right fun _ => ?_
  constructor
  · rintro agree ⟨⟨pairs,plus⟩,here⟩
    exact (agree.mp ⟨pairs,here⟩).2.unsigned plus
  · intro unsigned
    constructor
    · rintro ⟨pairs,here⟩
      exact ⟨here,pairs.digits fun plus => unsigned ⟨⟨pairs,plus⟩,here⟩⟩
    · rintro ⟨here,all⟩
      exact ⟨allPairs_of_hex all (even ⟨here,all⟩),here⟩

theorem map_exact {α β : Type} {f : α → β} {decode : List Char → Decoded α} {accepted : Prop} :
    Exact (fun hex => (decode hex).map f) accepted hex ↔ Exact decode accepted hex := by
  unfold Exact
  rcases decoded : decode hex <;> simp [Decoded.map,decoded]

/-! ### Decoding undoes encoding -/

theorem to_digit_hexDigit {n : Nat} (low : n < 16) : to_digit (hexDigit n) = some n := by
  have all : ∀ n : Fin 16, to_digit (hexDigit n) = some n.1 := by decide
  exact all ⟨n,low⟩

theorem parse_two {m n : Nat} (first : to_digit c = some m) (second : to_digit d = some n) : from_str_radix [c,d] = .ok (UInt8.ofNat (16 * m + n)) := by
  have low := to_digit_lt first
  have low' := to_digit_lt second
  have unsigned : c ≠ '+' := by
    rintro rfl
    exact nomatch first
  have whole : from_str_radix [c,d] = parseDigits [c,d] 0 := by
    unfold from_str_radix
    split <;> simp_all
  simp only [whole,parseDigits,first,second,if_neg (show ¬ 255 < 16 * 0 + m by omega),if_neg (show ¬ 255 < 16 * (16 * 0 + m) + n by omega)]
  simp

theorem hexDigits_two (n : Nat) : hexDigits 2 n = [hexDigit (n / 16 % 16),hexDigit (n % 16)] := by simp [hexDigits]

theorem parse_byte (b : UInt8) : from_str_radix (hexDigits 2 b.toNat) = .ok b := by
  have range : b.toNat < 256 := b.toNat_lt
  rw [hexDigits_two,parse_two (to_digit_hexDigit (by omega)) (to_digit_hexDigit (by omega))]
  have value : 16 * (b.toNat / 16 % 16) + b.toNat % 16 = b.toNat := by omega
  rw [value,UInt8.ofNat_toNat]

theorem size_byte (b : UInt8) : size (hexDigits 2 b.toNat) = 2 := by
  have narrow (n : Nat) (low : n < 16) : (hexDigit n).utf8Size = 1 := digit_size (isHexDigit_iff.mpr ⟨n,to_digit_hexDigit low⟩)
  rw [hexDigits_two,size_cons,size_cons,size_nil,narrow _ (by omega),narrow _ (by omega)]

theorem hex_encode_cons (b : UInt8) (bytes : Bytes) : hex_encode (b :: bytes) = hexDigits 2 b.toNat ++ hex_encode bytes := List.flatMap_cons

theorem size_encode (bytes : Bytes) : size (hex_encode bytes) = 2 * bytes.length := by
  induction bytes with
  | nil => rfl
  | cons b bytes ih =>
    rw [hex_encode_cons,size_append,size_byte,ih,List.length_cons]
    omega

theorem collect_encode (before : List Char) (bytes : Bytes) :
    collect (before ++ hex_encode bytes) (List.range' (size before) bytes.length 2) = .ok bytes := by
  induction bytes generalizing before with
  | nil => rfl
  | cons b bytes ih =>
    have later := ih (before ++ hexDigits 2 b.toNat)
    rw [List.append_assoc,size_append,size_byte] at later
    rw [hex_encode_cons,List.length_cons,List.range'_succ,collect,slice_append rfl (by rw [size_byte])]
    simp only [parse_byte,later,Decoded.map]

theorem bytes_round_trip (bytes : Bytes) : bytes_hex.deserialize (bytes_hex.serialize bytes) = .ok bytes := by
  have pairs : size (bytes_hex.serialize bytes) / 2 = bytes.length := by
    rw [bytes_hex.serialize,size_encode]
    omega
  rw [bytes_hex.deserialize,if_neg (by rw [bytes_hex.serialize,size_encode]; omega),pairs]
  exact collect_encode [] bytes

theorem hash_round_trip (hash : Hash) : hash_serde.deserialize (hash_serde.serialize hash) = .ok hash := by
  have read : bytes_hex.deserialize (hash_serde.serialize hash) = .ok hash.1 := bytes_round_trip hash.1
  rw [hash_serde.deserialize,hex_to_bytes_eq,read]
  exact dif_pos hash.2

end

/-- The decoders are right exactly on the texts that are not cut inside a character and have no number with
a plus sign (for an array of 32 bytes, among 64 characters); and they undo the encoders. -/
theorem hex_exact (hex : List Char) :
    (Exact hash_serde.deserialize (hex.length = 64 ∧ AllHex hex) hex ↔ ¬ Splits hex ∧ ¬ (Signed hex ∧ hex.length = 64)) ∧
    (Exact NodeId.deserialize (hex.length = 64 ∧ AllHex hex) hex ↔ ¬ Splits hex ∧ ¬ (Signed hex ∧ hex.length = 64)) ∧
    (Exact Fingerprint.deserialize (hex.length = 64 ∧ AllHex hex) hex ↔ ¬ Splits hex ∧ ¬ (Signed hex ∧ hex.length = 64)) ∧
    (Exact bytes_hex.deserialize (hex.length % 2 = 0 ∧ AllHex hex) hex ↔ ¬ Splits hex ∧ ¬ Signed hex) ∧
    (∀ id : NodeId, NodeId.deserialize id.to_hex = .ok id) ∧ (∀ f : Fingerprint, Fingerprint.deserialize f.to_hex = .ok f) ∧
    (∀ hash, hash_serde.deserialize (hash_serde.serialize hash) = .ok hash) ∧
    ∀ bytes, bytes_hex.deserialize (bytes_hex.serialize bytes) = .ok bytes := by
  have hash : Exact hash_serde.deserialize (hex.length = 64 ∧ AllHex hex) hex ↔ _ := exact_iff hash_panics hash_succeeds (fun here => by omega)
  have succeeds : (∃ bytes, bytes_hex.deserialize hex = .ok bytes) ↔ AllPairs hex ∧ hex.length % 2 = 0 := by
    rw [bytes_succeeds]
    exact ⟨fun pairs => ⟨pairs,pairs.even.1⟩,And.left⟩
  have bytes : Exact bytes_hex.deserialize (hex.length % 2 = 0 ∧ AllHex hex) hex ↔ _ := exact_iff bytes_panics succeeds And.left
  refine ⟨hash,map_exact.trans hash,map_exact.trans hash,?_,fun id => ?_,fun f => ?_,hash_round_trip,bytes_round_trip⟩
  · rw [bytes]
    exact and_congr_right fun _ => not_congr ⟨And.left,fun signed => ⟨signed,signed.1.even.1⟩⟩
  · exact congrArg (Decoded.map NodeId.mk) (hash_round_trip id.raw)
  · exact congrArg (Decoded.map Fingerprint.mk) (hash_round_trip f.raw)

/-- A number with a plus sign is read, and a text that is cut inside a character panics. -/
theorem plus_read :
    bytes_hex.deserialize "+f".toList = .ok [15] ∧ ¬ Exact bytes_hex.deserialize ("+f".toList.length % 2 = 0 ∧ AllHex "+f".toList) "+f".toList ∧
    NodeId.deserialize "aéb".toList = .panicked ∧ ¬ Exact NodeId.deserialize ("aéb".toList.length = 64 ∧ AllHex "aéb".toList) "aéb".toList := by
  have read : bytes_hex.deserialize "+f".toList = .ok [15] := by decide
  have panics : NodeId.deserialize "aéb".toList = .panicked := by decide
  refine ⟨read,fun exact_ => ?_,panics,fun exact_ => exact_.1 panics⟩
  have all := (exact_.2.mp ⟨[15],read⟩).2
  exact absurd (all '+' (by decide)) (by decide)

end Daf.HexText
