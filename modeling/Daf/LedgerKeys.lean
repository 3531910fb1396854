import Daf.PrefixCode
import Daf.UuidText

/-!
The keys of the durable ledger: results, bindings and effects share one space of bytes, and each kind is
encoded in its own way.
-/
namespace Daf.LedgerKeys
open Daf.PrefixCode Daf.UuidText

abbrev Key := List UInt8

def utf8 (chars : List Char) : Key := chars.flatMap String.utf8EncodeChar

/-- The bytes of a UUID, most significant first. -/
def bytes : Nat → Nat → Key
  | 0,_ => []
  | width + 1,n => bytes width (n / 256) ++ [UInt8.ofNat (n % 256)]

def quote : Char := Char.ofNat 34
def backslash : Char := Char.ofNat 92

/-- A character of a JSON string: quotes, backslashes and control characters are escaped. -/
def escape (c : Char) : List Char :=
  if c = quote then [backslash,quote]
  else if c = backslash then [backslash,backslash]
  else if c.toNat = 8 then [backslash,'b']
  else if c.toNat = 9 then [backslash,'t']
  else if c.toNat = 10 then [backslash,'n']
  else if c.toNat = 12 then [backslash,'f']
  else if c.toNat = 13 then [backslash,'r']
  else if c.toNat < 32 then [backslash,'u','0','0',hexDigit (c.toNat / 16),hexDigit (c.toNat % 16)]
  else [c]

def quoted (s : String) : List Char := quote :: (s.toList.flatMap escape ++ [quote])

def resultKey (id : Uuid) : Key := utf8 "result/".toList ++ bytes 16 id.toNat

def bindingKey (id : Uuid) : Key := utf8 ("binding/".toList ++ toChars id)

/-- The pair is written as a JSON array of two strings. -/
def effectKey (principal name : String) : Key :=
  utf8 "effect/".toList ++ utf8 ('[' :: (quoted principal ++ ',' :: (quoted name ++ [']'])))

/-! ### No two records share a key -/

theorem utf8_inj {a b : List Char} (same : utf8 a = utf8 b) : a = b := by
  have texts : String.ofList a = String.ofList b := String.toByteArray_inj.mp (congrArg List.toByteArray same)
  exact String.ofList_injective texts

theorem bytes_inj {width a b : Nat} (low : a < 256 ^ width) (low' : b < 256 ^ width) (same : bytes width a = bytes width b) : a = b := by
  induction width generalizing a b with
  | zero => omega
  | succ width ih =>
    obtain ⟨high,last⟩ := List.append_inj' same rfl
    have quotients := ih (Nat.div_lt_of_lt_mul (by rwa [Nat.pow_succ'] at low)) (Nat.div_lt_of_lt_mul (by rwa [Nat.pow_succ'] at low')) high
    have remainders := congrArg UInt8.toNat (List.singleton_inj.mp last)
    rw [UInt8.toNat_ofNat',UInt8.toNat_ofNat'] at remainders
    omega

/-- The characters that are not written as they are. -/
def special : List Char := quote :: backslash :: (List.range 32).map Char.ofNat

theorem escape_special : ∀ a ∈ special, escape a = backslash :: (escape a).tail := by
  have all : special.all (fun a => escape a = backslash :: (escape a).tail) := by decide
  simpa only [List.all_eq_true,decide_eq_true_eq] using all

theorem escape_special_free : ∀ a ∈ special, ∀ b ∈ special, escape a <+: escape b → a = b := by
  have all : special.all (fun a => special.all (fun b => escape a <+: escape b → a = b)) := by decide
  simpa only [List.all_eq_true,decide_eq_true_eq] using all

theorem mem_special_of_lt {c : Char} (low : c.toNat < 32) : c ∈ special := by
  refine List.mem_cons_of_mem _ (List.mem_cons_of_mem _ (List.mem_map.mpr ⟨c.toNat,List.mem_range.mpr low,?_⟩))
  exact Char.ofNat_toNat c

theorem escape_plain {c : Char} (plain : c ∉ special) : escape c = [c] := by
  have notQuote : c ≠ quote := fun same => plain (same ▸ List.mem_cons_self)
  have notBackslash : c ≠ backslash := fun same => plain (same ▸ List.mem_cons_of_mem _ List.mem_cons_self)
  have high : ¬ c.toNat < 32 := fun low => plain (mem_special_of_lt low)
  unfold escape
  rw [if_neg notQuote,if_neg notBackslash,if_neg (by omega),if_neg (by omega),if_neg (by omega),if_neg (by omega),if_neg (by omega),if_neg high]

theorem escape_free : PrefixFree escape := by
  intro a b sub
  by_cases odd : a ∈ special <;> by_cases odd' : b ∈ special
  · exact escape_special_free a odd b odd' sub
  · rw [escape_special a odd,escape_plain odd'] at sub
    have same : backslash = b := (List.cons_prefix_cons.mp sub).1
    exact absurd (same ▸ List.mem_cons_of_mem _ List.mem_cons_self) odd'
  · rw [escape_plain odd,escape_special b odd'] at sub
    have same : a = backslash := (List.cons_prefix_cons.mp sub).1
    exact absurd (same ▸ List.mem_cons_of_mem _ List.mem_cons_self) odd
  · rw [escape_plain odd,escape_plain odd'] at sub
    exact (List.cons_prefix_cons.mp sub).1

theorem escape_stops : Stops escape quote := by
  intro c
  by_cases odd : c ∈ special
  · exact ⟨backslash,_,escape_special c odd,by decide⟩
  · refine ⟨c,[],escape_plain odd,fun same => odd (same ▸ List.mem_cons_self)⟩

theorem quoted_inj {a b : String} {r s : List Char} (same : quoted a ++ r = quoted b ++ s) : a = b ∧ r = s := by
  have inner : a.toList.flatMap escape ++ quote :: r = b.toList.flatMap escape ++ quote :: s := by
    simpa [quoted] using same
  obtain ⟨texts,after⟩ := flatMap_inj escape_free escape_stops inner
  exact ⟨String.toList_inj.mp texts,after⟩

/-- What a record of the ledger is about. -/
inductive Slot where
  | result (id : Uuid)
  | binding (id : Uuid)
  | effect (principal name : String)

def Slot.key : Slot → Key
  | .result id => resultKey id
  | .binding id => bindingKey id
  | .effect principal name => effectKey principal name

/-- The first byte of a key tells its kind. -/
def Slot.tag : Slot → UInt8
  | .result _ => 114
  | .binding _ => 98
  | .effect _ _ => 101

theorem head_key (slot : Slot) : slot.key.head? = some slot.tag := by
  cases slot with
  | result id => rfl
  | binding id => rfl
  | effect principal name => rfl

theorem resultKey_inj {a b : Uuid} (same : resultKey a = resultKey b) : a = b := by
  have low : ∀ u : Uuid, u.toNat < 256 ^ 16 := fun u => lt_of_lt_of_eq u.isLt (by norm_num)
  exact BitVec.eq_of_toNat_eq (bytes_inj (low a) (low b) (List.append_cancel_left same))

theorem bindingKey_inj {a b : Uuid} (same : bindingKey a = bindingKey b) : a = b :=
  toChars_inj (List.append_cancel_left (utf8_inj same))

theorem effectKey_inj {p q m n : String} (same : effectKey p m = effectKey q n) : p = q ∧ m = n := by
  have pair := (List.cons.inj (utf8_inj (List.append_cancel_left same))).2
  obtain ⟨principals,rest⟩ := quoted_inj pair
  exact ⟨principals,(quoted_inj (List.cons.inj rest).2).1⟩

theorem key_injective : Function.Injective Slot.key := by
  intro a b same
  have tags : a.tag = b.tag := by
    have heads := congrArg List.head? same
    rw [head_key,head_key] at heads
    exact Option.some.inj heads
  cases a <;> cases b
  case result.result a b => rw [resultKey_inj same]
  case binding.binding a b => rw [bindingKey_inj same]
  case effect.effect p m q n =>
    obtain ⟨principals,names⟩ := effectKey_inj same
    rw [principals,names]
  all_goals exact absurd tags (by simp [Slot.tag])

@[simp] theorem resultKey_eq_iff {a b : Uuid} : resultKey a = resultKey b ↔ a = b := ⟨resultKey_inj,congrArg _⟩

@[simp] theorem bindingKey_eq_iff {a b : Uuid} : bindingKey a = bindingKey b ↔ a = b := ⟨bindingKey_inj,congrArg _⟩

@[simp] theorem effectKey_eq_iff {p q m n : String} : effectKey p m = effectKey q n ↔ p = q ∧ m = n :=
  ⟨effectKey_inj,fun ⟨principals,names⟩ => by rw [principals,names]⟩

theorem key_ne {a b : Slot} (differ : a.tag ≠ b.tag) : a.key ≠ b.key := fun same => differ (by rw [key_injective same])

@[simp] theorem resultKey_ne_bindingKey (a b : Uuid) : resultKey a ≠ bindingKey b := key_ne (a := .result a) (b := .binding b) (by simp [Slot.tag])
@[simp] theorem bindingKey_ne_resultKey (a b : Uuid) : bindingKey a ≠ resultKey b := (resultKey_ne_bindingKey b a).symm
@[simp] theorem resultKey_ne_effectKey (a : Uuid) (p n : String) : resultKey a ≠ effectKey p n :=
  key_ne (a := .result a) (b := .effect p n) (by simp [Slot.tag])
@[simp] theorem effectKey_ne_resultKey (a : Uuid) (p n : String) : effectKey p n ≠ resultKey a := (resultKey_ne_effectKey a p n).symm
@[simp] theorem bindingKey_ne_effectKey (a : Uuid) (p n : String) : bindingKey a ≠ effectKey p n :=
  key_ne (a := .binding a) (b := .effect p n) (by simp [Slot.tag])
@[simp] theorem effectKey_ne_bindingKey (a : Uuid) (p n : String) : effectKey p n ≠ bindingKey a := (bindingKey_ne_effectKey a p n).symm

end Daf.LedgerKeys
