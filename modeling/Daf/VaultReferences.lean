import Daf.LedgerKeys
import Daf.Search
import Daf.VaultSecrets

/-!
Templates with references to secrets, and the chain of providers that is asked for them. A template is read once from left to right: the value of
a secret goes into the result and is never read again.
-/
namespace Daf.VaultReferences
open Daf.KeyRing Daf.VaultSecrets Daf.Search
open Daf.LedgerKeys (utf8)

abbrev Name := List Char

/-- What has been asked so far: the place of a provider in the chain, and the name it was asked for. -/
abbrev Asked := List (Nat × Name)

/-- A provider answers by the name and by all that was asked before. -/
abbrev SecretProvider := Asked → Name → Except VaultError (Secret Bytes)

structure ChainProvider where
  providers : List SecretProvider

/-- The first answer that is not that there is no such secret; `none` when the loop runs out of providers. -/
def asking (name : Name) : Nat → List SecretProvider → Asked → Option (Except VaultError (Secret Bytes)) × Asked
  | _,[],asked => (none,asked)
  | i,provider :: later,asked =>
    match provider asked name with
    | .ok secret => (some (.ok secret),asked ++ [(i,name)])
    | .error (.SecretNotFound _) => asking name (i + 1) later (asked ++ [(i,name)])
    | .error e => (some (.error e),asked ++ [(i,name)])

def ChainProvider.missing (chain : ChainProvider) (name : Name) : VaultError :=
  .SecretNotFound ("'" ++ String.ofList name ++ "' not found in any provider (" ++ toString chain.providers.length ++ " tried)")

def ChainProvider.resolve (chain : ChainProvider) (asked : Asked) (name : Name) : Except VaultError (Secret Bytes) × Asked :=
  match asking name 0 chain.providers asked with
  | (some answer,asked) => (answer,asked)
  | (none,asked) => (.error (chain.missing name),asked)

/-- The text of these bytes, if they are UTF-8. -/
def from_utf8 (bytes : Bytes) : Option (List Char) := bytes.toByteArray.utf8Decode?.map Array.toList

def opens : List Char := "$\x7bvault:".toList
def closes : List Char := ['}']

def unclosed : VaultError := .Provider "unclosed $\x7bvault:...\x7d reference"

def undecodable (secret_name : Name) : VaultError :=
  .Provider ("secret '" ++ String.ofList secret_name ++ "' is not valid UTF-8 for template interpolation")

def resolve_loop (chain : ChainProvider) (asked : Asked) (result rest : List Char) : Except VaultError (List Char) × Asked :=
  match _start : rest.dropInfix? opens with
  | none => (.ok (result ++ rest),asked)
  | some (literal, after_prefix) =>
    match _end : after_prefix.dropInfix? closes with
    | none => (.error unclosed,asked)
    | some (secret_name,later) =>
      match chain.resolve asked secret_name with
      | (.error e,asked) => (.error e,asked)
      | (.ok secret,asked) =>
        match from_utf8 secret.encrypted_value with
        | none => (.error (undecodable secret_name),asked)
        | some value_str => resolve_loop chain asked (result ++ literal ++ value_str) later
termination_by rest.length
decreasing_by
  have sizes := found_length _start
  have sizes' := found_length _end
  have some_left : opens.length = 8 := rfl
  omega

def resolve_template (chain : ChainProvider) (asked : Asked) (template : List Char) : Except VaultError (List Char) × Asked :=
  resolve_loop chain asked [] template

/-! ### What a template means -/

/-- A reference with the text before it. -/
structure Piece where
  literal : List Char
  name : Name

def source (pieces : List Piece) (last : List Char) : List Char := pieces.flatMap (fun p => p.literal ++ opens ++ p.name ++ closes) ++ last

/-- No reference in the text is closed. -/
def Ends (last : List Char) : Prop := ∀ before after, last = before ++ opens ++ after → '}' ∉ after

/-- The template is these references with the text before each, and a last text that has no reference that is closed. -/
structure Divides (template : List Char) (pieces : List Piece) (last : List Char) : Prop where
  whole : template = source pieces last
  literal : ∀ p ∈ pieces, ¬ opens <:+: p.literal
  name : ∀ p ∈ pieces, '}' ∉ p.name
  last : Ends last

/-- The first providers are asked for the name, one after the other. -/
def asks (name : Name) (start n : Nat) : Asked := (List.range' start n).map (·,name)

/-- The first providers do not have the secret. -/
def Passed (providers : List SecretProvider) (asked : Asked) (name : Name) (start n : Nat) : Prop :=
  ∀ i < n, ∃ provider message, providers[i]? = some provider ∧ provider (asked ++ asks name start i) name = .error (.SecretNotFound message)

/-- This is the answer of the first provider that does not say that there is no such secret. -/
structure Answered (providers : List SecretProvider) (asked : Asked) (name : Name) (start n : Nat) (answer : Except VaultError (Secret Bytes)) : Prop where
  passed : Passed providers asked name start n
  given : ∃ provider, providers[n]? = some provider ∧ provider (asked ++ asks name start n) name = answer
  known : ∀ message, answer ≠ .error (.SecretNotFound message)

/-- The texts of the secrets that the references name, each given for its own name, and what has been asked in the end. -/
inductive Values (chain : ChainProvider) : Asked → List Piece → List (List Char) → Asked → Prop where
  | nil (asked : Asked) : Values chain asked [] [] asked
  | cons {asked asked' : Asked} {p : Piece} {pieces : List Piece} {text : List Char} {texts : List (List Char)} {secret : Secret Bytes} {n : Nat}
      (answered : Answered chain.providers asked p.name 0 n (.ok secret)) (decoded : utf8 text = secret.encrypted_value)
      (later : Values chain (asked ++ asks p.name 0 (n + 1)) pieces texts asked') : Values chain asked (p :: pieces) (text :: texts) asked'

/-- What a reference fails with. -/
inductive Stuck (chain : ChainProvider) (asked : Asked) (name : Name) : VaultError → Prop where
  | missing (passed : Passed chain.providers asked name 0 chain.providers.length) : Stuck chain asked name (chain.missing name)
  | refused {n : Nat} {e : VaultError} (answered : Answered chain.providers asked name 0 n (.error e)) : Stuck chain asked name e
  | undecodable {n : Nat} {secret : Secret Bytes} (answered : Answered chain.providers asked name 0 n (.ok secret))
      (garbled : ∀ text, utf8 text ≠ secret.encrypted_value) : Stuck chain asked name (undecodable name)

/-- The template with the texts in place of the references. -/
def expected : List Piece → List (List Char) → List Char → List Char
  | p :: pieces,text :: texts,last => p.literal ++ text ++ expected pieces texts last
  | _,_,last => last

/-- The references one after the other, each asked of as many providers as it says. -/
def askedFor (pieces : List Piece) (tried : List Nat) : Asked := (pieces.zip tried).flatMap fun x => asks x.1.name 0 x.2

/-- A template is resolved in one pass: it becomes the template with the texts in place of the references, and fails where there is no such text;
    the names that the providers are asked for are those of the references from left to right. -/
structure SinglePass (chain : ChainProvider) (asked : Asked) (template : List Char) (pieces : List Piece) (last : List Char) : Prop where
  success : ∀ text asked', resolve_template chain asked template = (.ok text,asked') ↔
    ¬ opens <:+: last ∧ ∃ texts, Values chain asked pieces texts asked' ∧ text = expected pieces texts last
  failure : (∃ e asked', resolve_template chain asked template = (.error e,asked')) ↔
    opens <:+: last ∨ ∃ before p after texts mid e, pieces = before ++ p :: after ∧ Values chain asked before texts mid ∧ Stuck chain mid p.name e
  reason : ∀ e asked', resolve_template chain asked template = (.error e,asked') →
    (opens <:+: last ∧ e = unclosed ∧ ∃ texts, Values chain asked pieces texts asked') ∨
      ∃ before p after texts mid, pieces = before ++ p :: after ∧ Values chain asked before texts mid ∧ Stuck chain mid p.name e
  order : ∃ tried : List Nat, tried.length ≤ pieces.length ∧ (resolve_template chain asked template).2 = asked ++ askedFor pieces tried
  written : ∀ p ∈ pieces, p.name <:+: template

/-! ### Bytes and names -/

theorem from_utf8_iff {bytes : Bytes} {text : List Char} : from_utf8 bytes = some text ↔ utf8 text = bytes := by
  rw [from_utf8,Option.map_eq_some_iff]
  constructor
  · rintro ⟨chars,decoded,rfl⟩
    have encoded := ByteArray.utf8Encode_get_utf8Decode? (b := bytes.toByteArray) (h := by rw [decoded]; rfl)
    simp only [decoded,Option.get_some] at encoded
    rw [utf8]
    simpa only [List.utf8Encode,List.toList_data_toByteArray] using congrArg (fun bytes => bytes.data.toList) encoded
  · rintro rfl
    exact ⟨text.toArray,List.utf8Decode?_utf8Encode,rfl⟩

theorem from_utf8_none {bytes : Bytes} : from_utf8 bytes = none ↔ ∀ text, utf8 text ≠ bytes := by
  rw [Option.eq_none_iff_forall_ne_some]
  exact forall_congr' fun text => not_congr from_utf8_iff

theorem opens_ne_nil : opens ≠ [] := by decide

theorem closes_ne_nil : closes ≠ [] := by decide

theorem closed_split {name rest : List Char} (closed : '}' ∉ name) : (name ++ closes ++ rest).dropInfix? closes = some (name,rest) := by
  refine (first_iff closes_ne_nil).mpr ⟨rfl,?_⟩
  rintro ⟨p,s,split⟩
  have whole : p ++ closes ++ s = name := by simpa [closes] using split
  exact closed (by rw [← whole]; simp [closes])

theorem open_split {literal rest : List Char} (plain : ¬ opens <:+: literal) : (literal ++ opens ++ rest).dropInfix? opens = some (literal,rest) :=
  (first_iff opens_ne_nil).mpr ⟨rfl,fun inside => plain ((fresh_head (by decide)).mp inside)⟩

theorem asks_succ (name : Name) (start n : Nat) : asks name start (n + 1) = (start,name) :: asks name (start + 1) n := by
  simp [asks,List.range'_succ]

/-! ### The chain -/

variable {chain : ChainProvider} {providers : List SecretProvider} {asked asked' : Asked} {name : Name} {answer : Except VaultError (Secret Bytes)}

theorem passed_zero (start : Nat) : Passed providers asked name start 0 := nofun

/-- A provider that does not have the secret, and what the later ones say. -/
theorem passed_cons {provider : SecretProvider} {message : String} {start n : Nat} (lacks : provider asked name = .error (.SecretNotFound message)) :
    Passed (provider :: providers) asked name start (n + 1) ↔ Passed providers (asked ++ [(start,name)]) name (start + 1) n := by
  constructor
  · intro passed i less
    obtain ⟨other,text,there,answered⟩ := passed (i + 1) (by omega)
    refine ⟨other,text,there,?_⟩
    rw [asks_succ,← List.singleton_append,← List.append_assoc] at answered
    exact answered
  · intro passed i less
    cases i with
    | zero => exact ⟨provider,message,rfl,by simpa [asks] using lacks⟩
    | succ i =>
      obtain ⟨other,text,there,answered⟩ := passed i (by omega)
      refine ⟨other,text,there,?_⟩
      rw [asks_succ,← List.singleton_append,← List.append_assoc]
      exact answered

theorem answered_cons {provider : SecretProvider} {message : String} {start n : Nat} (lacks : provider asked name = .error (.SecretNotFound message)) :
    Answered (provider :: providers) asked name start (n + 1) answer ↔ Answered providers (asked ++ [(start,name)]) name (start + 1) n answer := by
  have moved : asked ++ asks name start (n + 1) = asked ++ [(start,name)] ++ asks name (start + 1) n := by
    rw [asks_succ,List.append_assoc,List.singleton_append]
  constructor
  · rintro ⟨passed,⟨other,there,answered⟩,known⟩
    exact ⟨(passed_cons lacks).mp passed,⟨other,there,moved ▸ answered⟩,known⟩
  · rintro ⟨passed,⟨other,there,answered⟩,known⟩
    exact ⟨(passed_cons lacks).mpr passed,⟨other,there,moved ▸ answered⟩,known⟩

/-- The loop ends with the first answer that is not that there is no such secret, or has asked all. -/
theorem asking_ends (name : Name) (start : Nat) (providers : List SecretProvider) (asked : Asked) :
    (∃ n answer, asking name start providers asked = (some answer,asked ++ asks name start (n + 1)) ∧ Answered providers asked name start n answer) ∨
      (asking name start providers asked = (none,asked ++ asks name start providers.length) ∧ Passed providers asked name start providers.length) := by
  induction providers generalizing start asked with
  | nil => exact .inr ⟨by simp [asking,asks],passed_zero start⟩
  | cons provider later ih =>
    have first (answer : Except VaultError (Secret Bytes)) (known : ∀ message, answer ≠ .error (.SecretNotFound message)) (answers : provider asked name = answer) :
        Answered (provider :: later) asked name start 0 answer := ⟨passed_zero start,⟨provider,rfl,by simpa [asks] using answers⟩,known⟩
    cases answers : provider asked name with
    | ok secret => exact .inl ⟨0,.ok secret,by simp [asking,answers,asks],first _ nofun answers⟩
    | error e =>
      by_cases lacks : ∃ message, e = .SecretNotFound message
      · obtain ⟨message,rfl⟩ := lacks
        have goes : asking name start (provider :: later) asked = asking name (start + 1) later (asked ++ [(start,name)]) := by
          simp only [asking,answers]
        have moved (n : Nat) : asked ++ [(start,name)] ++ asks name (start + 1) n = asked ++ asks name start (n + 1) := by
          rw [asks_succ,List.append_assoc,List.singleton_append]
        rw [goes]
        rcases ih (start + 1) (asked ++ [(start,name)]) with ⟨n,answer,ended,answered⟩ | ⟨ended,passed⟩
        · exact .inl ⟨n + 1,answer,by rw [ended,moved],(answered_cons answers).mpr answered⟩
        · exact .inr ⟨by rw [ended,moved]; rfl,(passed_cons answers).mpr passed⟩
      · have known : ∀ message, (Except.error e : Except VaultError (Secret Bytes)) ≠ .error (.SecretNotFound message) :=
          fun message same => lacks ⟨message,Except.error.inj same⟩
        refine .inl ⟨0,.error e,?_,first _ known answers⟩
        simp only [asking,answers]
        cases e with
        | SecretNotFound message => exact absurd ⟨message,rfl⟩ lacks
        | _ => simp [asks]

theorem Passed.not_answered {start n k : Nat} (passed : Passed providers asked name start k) (less : n < k) :
    ¬ Answered providers asked name start n answer := by
  rintro ⟨-,⟨provider,there,answered⟩,known⟩
  obtain ⟨other,message,same,lacks⟩ := passed n less
  rw [there] at same
  cases same
  exact known message (answered.symm.trans lacks)

theorem Answered.unique {start n k : Nat} {other : Except VaultError (Secret Bytes)} (first : Answered providers asked name start n answer)
    (second : Answered providers asked name start k other) : n = k ∧ answer = other := by
  rcases Nat.lt_trichotomy n k with less | rfl | more
  · exact absurd first (second.passed.not_answered less)
  · obtain ⟨provider,there,answered⟩ := first.given
    obtain ⟨provider',there',answered'⟩ := second.given
    rw [there] at there'
    cases there'
    exact ⟨rfl,answered.symm.trans answered'⟩
  · exact absurd second (first.passed.not_answered more)

theorem Answered.inside {start n : Nat} (answered : Answered providers asked name start n answer) : n < providers.length := by
  obtain ⟨provider,there,-⟩ := answered.given
  exact (List.getElem?_eq_some_iff.mp there).1

theorem resolve_answered {n : Nat} (answered : Answered chain.providers asked name 0 n answer) :
    chain.resolve asked name = (answer,asked ++ asks name 0 (n + 1)) := by
  rcases asking_ends name 0 chain.providers asked with ⟨k,other,ended,answered'⟩ | ⟨-,passed⟩
  · obtain ⟨rfl,rfl⟩ := answered.unique answered'
    rw [ChainProvider.resolve,ended]
  · exact absurd answered (passed.not_answered answered.inside)

theorem resolve_missing (passed : Passed chain.providers asked name 0 chain.providers.length) :
    chain.resolve asked name = (.error (chain.missing name),asked ++ asks name 0 chain.providers.length) := by
  rcases asking_ends name 0 chain.providers asked with ⟨k,other,-,answered⟩ | ⟨ended,-⟩
  · exact absurd answered (passed.not_answered answered.inside)
  · rw [ChainProvider.resolve,ended]

/-- The chain gives the first answer, or says that there is no such secret. -/
theorem resolve_cases (chain : ChainProvider) (asked : Asked) (name : Name) :
    (∃ n answer, Answered chain.providers asked name 0 n answer) ∨ Passed chain.providers asked name 0 chain.providers.length := by
  rcases asking_ends name 0 chain.providers asked with ⟨n,answer,-,answered⟩ | ⟨-,passed⟩
  · exact .inl ⟨n,answer,answered⟩
  · exact .inr passed

/-! ### Taking a template apart -/

theorem source_cons (p : Piece) (pieces : List Piece) (last : List Char) :
    source (p :: pieces) last = p.literal ++ opens ++ (p.name ++ closes ++ source pieces last) := by simp [source]

theorem divides_exists (template : List Char) : ∃ pieces last, Divides template pieces last := by
  cases start : template.dropInfix? opens with
  | none => exact ⟨[],template,rfl,nofun,nofun,fun before after split => absurd ⟨before,after,split.symm⟩ (absent_iff.mp start)⟩
  | some parts =>
    obtain ⟨whole,plain⟩ := (first_iff opens_ne_nil).mp start
    cases closed : parts.2.dropInfix? closes with
    | none =>
      refine ⟨[],template,rfl,nofun,nofun,fun before after split inside => ?_⟩
      have least := (found_iff.mp start).2 before after split
      have behind : after <:+ parts.2 := by
        have sizes := congrArg List.length (whole.symm.trans split)
        simp only [List.length_append] at sizes
        exact List.suffix_of_suffix_length_le (split ▸ List.suffix_append _ _) (whole ▸ List.suffix_append _ _) (by omega)
      exact absent_iff.mp closed (((List.singleton_infix_iff _ _).mpr inside).trans behind.isInfix)
    | some parts' =>
      obtain ⟨whole',open_name⟩ := (first_iff closes_ne_nil).mp closed
      have shorter := found_length start
      have shorter' := found_length closed
      obtain ⟨pieces,last,divides⟩ := divides_exists parts'.2
      refine ⟨⟨parts.1,parts'.1⟩ :: pieces,last,?_,List.forall_mem_cons.mpr ⟨?_,divides.literal⟩,List.forall_mem_cons.mpr ⟨?_,divides.name⟩,divides.last⟩
      · rw [source_cons,← divides.whole,← whole',whole]
      · exact fun inside => plain (inside.trans (List.prefix_append _ _).isInfix)
      · exact fun inside => open_name (((List.singleton_infix_iff _ _).mpr inside).trans (List.prefix_append _ _).isInfix)
termination_by template.length
decreasing_by
  have some_left : opens.length = 8 := rfl
  omega

/-! ### The loop -/

/-- A text without a reference that is closed is the end of the loop. -/
theorem loop_last {last : List Char} (ends : Ends last) (asked : Asked) (result : List Char) :
    resolve_loop chain asked result last = (if opens <:+: last then .error unclosed else .ok (result ++ last),asked) := by
  rw [resolve_loop]
  split
  case h_1 absent => rw [if_neg (absent_iff.mp absent)]
  case h_2 literal after_prefix found =>
    obtain ⟨whole,-⟩ := found_iff.mp found
    have absent : after_prefix.dropInfix? closes = none := absent_iff.mpr fun inside =>
      ends literal after_prefix whole ((List.singleton_infix_iff _ _).mp inside)
    split
    case h_1 => rw [if_pos ⟨literal, after_prefix,whole.symm⟩]
    case h_2 found' => exact absurd (found'.symm.trans absent) (Option.some_ne_none _)

/-- The first reference is resolved, and the loop goes on behind it. -/
theorem loop_step {p : Piece} (plain : ¬ opens <:+: p.literal) (closed : '}' ∉ p.name) (rest : List Char) (asked : Asked) (result : List Char) :
    resolve_loop chain asked result (p.literal ++ opens ++ (p.name ++ closes ++ rest)) =
      match chain.resolve asked p.name with
      | (.error e,asked) => (.error e,asked)
      | (.ok secret,asked) =>
        match from_utf8 secret.encrypted_value with
        | none => (.error (undecodable p.name),asked)
        | some value_str => resolve_loop chain asked (result ++ p.literal ++ value_str) rest := by
  rw [resolve_loop]
  split
  case h_1 absent => exact absurd ((open_split plain).symm.trans absent) (Option.some_ne_none _)
  case h_2 found =>
    obtain ⟨rfl,rfl⟩ := Prod.mk.inj (Option.some.inj ((open_split plain).symm.trans found))
    split
    case h_1 absent => exact absurd ((closed_split closed).symm.trans absent) (Option.some_ne_none _)
    case h_2 found' =>
      obtain ⟨rfl,rfl⟩ := Prod.mk.inj (Option.some.inj ((closed_split closed).symm.trans found'))
      rfl

variable {p : Piece} {pieces : List Piece} {last text result : List Char} {texts : List (List Char)}

/-- Where a piece may stand in a template. -/
structure Piece.Clear (p : Piece) : Prop where
  literal : ¬ opens <:+: p.literal
  name : '}' ∉ p.name

theorem loop_goes (clear : p.Clear) {n : Nat} {secret : Secret Bytes} (answered : Answered chain.providers asked p.name 0 n (.ok secret))
    (decoded : utf8 text = secret.encrypted_value) :
    resolve_loop chain asked result (source (p :: pieces) last) =
      resolve_loop chain (asked ++ asks p.name 0 (n + 1)) (result ++ p.literal ++ text) (source pieces last) := by
  rw [source_cons,loop_step clear.literal clear.name,resolve_answered answered]
  simp only [from_utf8_iff.mpr decoded]

theorem loop_stuck (clear : p.Clear) {e : VaultError} (stuck : Stuck chain asked p.name e) (pieces : List Piece) (last result : List Char) :
    ∃ n, resolve_loop chain asked result (source (p :: pieces) last) = (.error e,asked ++ asks p.name 0 n) := by
  rw [source_cons,loop_step clear.literal clear.name]
  cases stuck with
  | missing passed => exact ⟨chain.providers.length,by rw [resolve_missing passed]⟩
  | refused answered => exact ⟨_,by rw [resolve_answered answered]⟩
  | undecodable answered garbled =>
    rw [resolve_answered answered]
    exact ⟨_,by simp only [from_utf8_none.mpr garbled]; rfl⟩

/-- A reference has a text, or it fails. -/
theorem piece_cases (chain : ChainProvider) (asked : Asked) (name : Name) :
    (∃ n secret text, Answered chain.providers asked name 0 n (.ok secret) ∧ utf8 text = secret.encrypted_value) ∨ ∃ e, Stuck chain asked name e := by
  rcases resolve_cases chain asked name with ⟨n,e | secret,answered⟩ | passed
  · exact .inr ⟨e,.refused answered⟩
  · by_cases decoded : ∃ text, utf8 text = secret.encrypted_value
    · obtain ⟨text,decoded⟩ := decoded
      exact .inl ⟨n,secret,text,answered,decoded⟩
    · exact .inr ⟨_,.undecodable answered (not_exists.mp decoded)⟩
  · exact .inr ⟨_,.missing passed⟩

theorem loop_ok (ends : Ends last) (clear : ∀ p ∈ pieces, p.Clear) :
    resolve_loop chain asked result (source pieces last) = (.ok text,asked') ↔
      ¬ opens <:+: last ∧ ∃ texts, Values chain asked pieces texts asked' ∧ text = result ++ expected pieces texts last := by
  constructor
  · intro resolved
    induction pieces generalizing asked result with
    | nil =>
      have nothing : source [] last = last := rfl
      rw [nothing,loop_last ends asked result] at resolved
      split_ifs at resolved with opened
      · cases resolved
      · cases resolved
        exact ⟨opened,[],.nil _,rfl⟩
    | cons p pieces ih =>
      obtain ⟨first,later⟩ := List.forall_mem_cons.mp clear
      rcases piece_cases chain asked p.name with ⟨n,secret,value,answered,decoded⟩ | ⟨e,stuck⟩
      · rw [loop_goes first answered decoded] at resolved
        obtain ⟨complete,texts,values,rfl⟩ := ih later resolved
        exact ⟨complete,value :: texts,.cons answered decoded values,by simp [expected]⟩
      · obtain ⟨n,failed⟩ := loop_stuck first stuck pieces last result
        rw [failed] at resolved
        cases resolved
  · rintro ⟨complete,texts,values,rfl⟩
    induction values generalizing result with
    | nil =>
      refine (loop_last ends _ result).trans ?_
      rw [if_neg complete]
      rfl
    | cons answered decoded values ih =>
      obtain ⟨first,later⟩ := List.forall_mem_cons.mp clear
      rw [loop_goes first answered decoded,ih later]
      simp [expected]

/-- A loop that fails has come to a reference that does, or to one that is not closed. -/
theorem loop_error (ends : Ends last) (clear : ∀ p ∈ pieces, p.Clear) {e : VaultError} (failed : resolve_loop chain asked result (source pieces last) = (.error e,asked')) :
    (opens <:+: last ∧ e = unclosed ∧ ∃ texts, Values chain asked pieces texts asked') ∨
      ∃ before p after texts mid, pieces = before ++ p :: after ∧ Values chain asked before texts mid ∧ Stuck chain mid p.name e := by
  induction pieces generalizing asked result with
  | nil =>
    have nothing : source [] last = last := rfl
    rw [nothing,loop_last ends asked result] at failed
    split_ifs at failed with opened
    · cases failed
      exact .inl ⟨opened,rfl,[],.nil _⟩
    · cases failed
  | cons p pieces ih =>
    obtain ⟨first,later⟩ := List.forall_mem_cons.mp clear
    rcases piece_cases chain asked p.name with ⟨n,secret,value,answered,decoded⟩ | ⟨e',stuck⟩
    · rw [loop_goes first answered decoded] at failed
      rcases ih later failed with ⟨opened,same,texts,values⟩ | ⟨before,q,after,texts,mid,rfl,values,stuck⟩
      · exact .inl ⟨opened,same,value :: texts,.cons answered decoded values⟩
      · exact .inr ⟨p :: before,q,after,value :: texts,mid,rfl,.cons answered decoded values,stuck⟩
    · obtain ⟨n,failed'⟩ := loop_stuck first stuck pieces last result
      rw [failed'] at failed
      cases failed
      exact .inr ⟨[],p,pieces,[],asked,rfl,.nil asked,stuck⟩

theorem loop_fails {before after : List Piece} {mid : Asked} {e : VaultError} (values : Values chain asked before texts mid)
    (clear : ∀ q ∈ before ++ p :: after, q.Clear) (stuck : Stuck chain mid p.name e) :
    ∃ asked', resolve_loop chain asked result (source (before ++ p :: after) last) = (.error e,asked') := by
  induction values generalizing result with
  | nil =>
    obtain ⟨n,failed⟩ := loop_stuck (clear p List.mem_cons_self) stuck after last result
    exact ⟨_,failed⟩
  | cons answered decoded values ih =>
    obtain ⟨first,later⟩ := List.forall_mem_cons.mp clear
    obtain ⟨asked',failed⟩ := ih later stuck
    exact ⟨asked',(loop_goes first answered decoded).trans failed⟩

/-- The names are asked for in the order of the references. -/
theorem loop_order (ends : Ends last) (clear : ∀ p ∈ pieces, p.Clear) :
    ∃ tried : List Nat, tried.length ≤ pieces.length ∧ (resolve_loop chain asked result (source pieces last)).2 = asked ++ askedFor pieces tried := by
  induction pieces generalizing asked result with
  | nil =>
    have nothing : source [] last = last := rfl
    rw [nothing,loop_last ends asked result]
    exact ⟨[],Nat.le_refl _,(List.append_nil _).symm⟩
  | cons p pieces ih =>
    obtain ⟨first,later⟩ := List.forall_mem_cons.mp clear
    rcases piece_cases chain asked p.name with ⟨n,secret,value,answered,decoded⟩ | ⟨e,stuck⟩
    · rw [loop_goes first answered decoded]
      obtain ⟨tried,short,order⟩ := ih later
      exact ⟨(n + 1) :: tried,Nat.succ_le_succ short,by rw [order]; simp [askedFor]⟩
    · obtain ⟨n,failed⟩ := loop_stuck first stuck pieces last result
      exact ⟨[n],by simp,by rw [failed]; simp [askedFor]⟩

/-- Every template is made of references and the texts between them, and is resolved in one pass over these. -/
theorem resolve_template_single_pass (chain : ChainProvider) (asked : Asked) (template : List Char) :
    (∃ pieces last, Divides template pieces last) ∧ ∀ pieces last, Divides template pieces last → SinglePass chain asked template pieces last := by
  refine ⟨divides_exists template,fun pieces last divides => ?_⟩
  obtain ⟨rfl,literal,name,ends⟩ := divides
  have clear : ∀ p ∈ pieces, p.Clear := fun p member => ⟨literal p member,name p member⟩
  have success : ∀ text asked', resolve_template chain asked (source pieces last) = (.ok text,asked') ↔
      ¬ opens <:+: last ∧ ∃ texts, Values chain asked pieces texts asked' ∧ text = expected pieces texts last := fun _ _ => loop_ok ends clear
  refine {
    success := success
    failure := ⟨?_,?_⟩
    reason := fun _ _ failed => loop_error ends clear failed
    order := loop_order ends clear
    written := fun p member => ?_
  }
  · rintro ⟨e,asked',failed⟩
    rcases loop_error ends clear failed with ⟨opened,-⟩ | ⟨before,p,after,texts,mid,split,values,stuck⟩
    · exact .inl opened
    · exact .inr ⟨before,p,after,texts,mid,e,split,values,stuck⟩
  · rintro (opened | ⟨before,p,after,texts,mid,e,rfl,values,stuck⟩)
    · cases resolved : resolve_template chain asked (source pieces last) with
      | mk outcome asked' =>
        cases outcome with
        | error e => exact ⟨e,asked',rfl⟩
        | ok text => exact absurd opened ((success text asked').mp resolved).1
    · exact ⟨e,loop_fails values clear stuck⟩
  · obtain ⟨before,after,rfl⟩ := List.append_of_mem member
    exact ⟨source before p.literal ++ opens,closes ++ source after last,by simp [source]⟩

end Daf.VaultReferences
