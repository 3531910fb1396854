import Daf.HexText
import Daf.IdealSignatures
import Daf.JsonAccess
import Daf.MissionPlan
import Mathlib.Data.List.Forall2
import Mathlib.Data.List.Nodup

/-!
Payloads that are signed, sent as JSON and verified. A payload type is put together of types that are written in one way only and of maps
from strings to strings, which are written in the order in which they are iterated; verification writes the decoded payload again.
-/
namespace Daf.SignedPayloads
open Daf.HexText Daf.IdealSignatures Daf.Json
open Daf.MissionPlan (DafError)
open scoped List

/-! ### Payload types -/

mutual

/-- A type as serde sees it. -/
inductive Ty where
  /-- A type whose values are known by their JSON: strings, numbers, enumerations and what has no map in it. -/
  | plain (accepts : Value → Bool)
  /-- `HashMap<String, String>` -/
  | labels
  | vec (item : Ty)
  | struct (fields : Fields)

inductive Fields where
  | nil
  | cons (name : String) (ty : Ty) (rest : Fields)

end

def Fields.names : Fields → List String
  | .nil => []
  | .cons name _ rest => name :: rest.names

mutual

/-- No struct has two fields of one name. -/
def Ty.Distinct : Ty → Prop
  | .plain _ => True
  | .labels => True
  | .vec item => item.Distinct
  | .struct fields => fields.Distinct

def Fields.Distinct : Fields → Prop
  | .nil => True
  | .cons name ty rest => name ∉ rest.names ∧ ty.Distinct ∧ rest.Distinct

end

structure PayloadType where
  ty : Ty
  distinct : ty.Distinct

/-- A map, with its entries in the order in which it is iterated. -/
structure Labels where
  entries : List (String × String)
  distinct : (entries.map Prod.fst).Nodup

mutual

def Ty.Val : Ty → Type
  | .plain accepts => { json : Value // accepts json = true }
  | .labels => Labels
  | .vec item => List item.Val
  | .struct fields => fields.Val

def Fields.Val : Fields → Type
  | .nil => Unit
  | .cons _ ty rest => ty.Val × rest.Val

end

mutual

/-- The document that a value is written as. -/
def toValue : (ty : Ty) → ty.Val → Value
  | .plain _,json => json.1
  | .labels,(map : Labels) => .object (map.entries.map fun entry => (entry.1,.string entry.2))
  | .vec item,(items : List item.Val) => .array (items.map (toValue item))
  | .struct fields,value => .object (toFields fields value)

def toFields : (fields : Fields) → fields.Val → List (String × Value)
  | .nil,_ => []
  | .cons name ty rest,(value,later) => (name,toValue ty value) :: toFields rest later

end

mutual

/-- Two values are equal: their maps hold the same entries. -/
def Same : (ty : Ty) → ty.Val → ty.Val → Prop
  | .plain _,a,b => a = b
  | .labels,(a : Labels),(b : Labels) => a.entries ~ b.entries
  | .vec item,(as : List item.Val),(bs : List item.Val) => List.Forall₂ (Same item) as bs
  | .struct fields,a,b => SameFields fields a b

def SameFields : (fields : Fields) → fields.Val → fields.Val → Prop
  | .nil,_,_ => True
  | .cons _ ty rest,(a,as),(b,bs) => Same ty a b ∧ SameFields rest as bs

end

mutual

/-- No map in the value has more than one entry. -/
def Small : (ty : Ty) → ty.Val → Prop
  | .plain _,_ => True
  | .labels,(map : Labels) => map.entries.length ≤ 1
  | .vec item,(items : List item.Val) => ∀ value ∈ items, Small item value
  | .struct fields,value => SmallFields fields value

def SmallFields : (fields : Fields) → fields.Val → Prop
  | .nil,_ => True
  | .cons _ ty rest,(value,later) => Small ty value ∧ SmallFields rest later

end

/-! ### Decoding -/

/-- Where in a payload a map stands. -/
inductive Place where
  | item (index : Nat)
  | field (name : String)
deriving DecidableEq,Repr

/-- The order in which each map is iterated that decoding makes. -/
structure Arrangement where
  order : List Place → List (String × String) → List (String × String)
  perm : ∀ path entries, order path entries ~ entries

/-- An entry is put into a map; a key that is there loses its value. -/
def put (entries : List (String × String)) (entry : String × String) : List (String × String) :=
  entries.filter (fun other => other.1 ≠ entry.1) ++ [entry]

theorem put_distinct {entries : List (String × String)} (distinct : (entries.map Prod.fst).Nodup) (entry : String × String) :
    ((put entries entry).map Prod.fst).Nodup := by
  unfold put
  rw [List.map_append,List.nodup_append]
  refine ⟨distinct.sublist (List.filter_sublist.map _),by simp,?_⟩
  intro key inside key' last same
  obtain ⟨other,kept,rfl⟩ := List.mem_map.mp inside
  have apart := (List.mem_filter.mp kept).2
  simp_all

theorem fold_distinct (fields : List (String × String)) {entries : List (String × String)} (distinct : (entries.map Prod.fst).Nodup) :
    ((fields.foldl put entries).map Prod.fst).Nodup := by
  induction fields generalizing entries with
  | nil => exact distinct
  | cons field fields ih => exact ih (put_distinct distinct field)

def Labels.of (arrange : Arrangement) (path : List Place) (fields : List (String × String)) : Labels :=
  ⟨arrange.order path (fields.foldl put []),
    (((arrange.perm path _).map Prod.fst).nodup_iff).mpr (fold_distinct fields List.nodup_nil)⟩

/-- The fields of an object whose values are all strings. -/
def stringFields : List (String × Value) → Option (List (String × String))
  | [] => some []
  | (key,json) :: rest =>
    match json.as_str with
    | none => none
    | some text => (stringFields rest).map ((key,text) :: ·)

def decodeItems {α : Type} (item : Nat → Value → Option α) : Nat → List Value → Option (List α)
  | _,[] => some []
  | index,json :: rest =>
    match item index json with
    | none => none
    | some value => (decodeItems item (index + 1) rest).map (value :: ·)

def as_object : Value → Option (List (String × Value))
  | .object fields => some fields
  | _ => none

mutual

def decode (arrange : Arrangement) : (ty : Ty) → List Place → Value → Option ty.Val
  | .plain accepts,_,json => if accepted : accepts json = true then some ⟨json,accepted⟩ else none
  | .labels,path,json => (as_object json).bind fun entries => (stringFields entries).map fun fields => (Labels.of arrange path fields : Labels)
  | .vec item,path,json => json.as_array.bind fun items => decodeItems (fun index json => decode arrange item (.item index :: path) json) 0 items
  | .struct fields,path,json => (as_object json).bind fun entries => decodeFields arrange fields path entries

/-- The fields are found by their names. -/
def decodeFields (arrange : Arrangement) : (fields : Fields) → List Place → List (String × Value) → Option fields.Val
  | .nil,_,_ => some ()
  | .cons name ty rest,path,entries =>
    match (Value.get (.object entries) name).bind (decode arrange ty (.field name :: path)) with
    | none => none
    | some value => (decodeFields arrange rest path entries).map fun later => (value,later)

end

/-! ### What decoding makes of what was encoded -/

def rearrangeItems {α : Type} (item : Nat → α → α) : Nat → List α → List α
  | _,[] => []
  | index,value :: rest => item index value :: rearrangeItems item (index + 1) rest

mutual

/-- The value with each map in the order that decoding gives to it. -/
def rearranged (arrange : Arrangement) : (ty : Ty) → List Place → ty.Val → ty.Val
  | .plain _,_,json => json
  | .labels,path,(map : Labels) =>
    (⟨arrange.order path map.entries,(((arrange.perm path _).map Prod.fst).nodup_iff).mpr map.distinct⟩ : Labels)
  | .vec item,path,(items : List item.Val) => rearrangeItems (fun index => rearranged arrange item (.item index :: path)) 0 items
  | .struct fields,path,value => rearrangedFields arrange fields path value

def rearrangedFields (arrange : Arrangement) : (fields : Fields) → List Place → fields.Val → fields.Val
  | .nil,_,_ => ()
  | .cons name ty rest,path,(value,later) => (rearranged arrange ty (.field name :: path) value,rearrangedFields arrange rest path later)

end

section
variable {arrange : Arrangement}

theorem Labels.ext {a b : Labels} (same : a.entries = b.entries) : a = b := by
  cases a
  cases b
  cases same
  rfl

theorem map_fields_inj {as bs : List (String × String)}
    (same : as.map (fun entry => (entry.1,Value.string entry.2)) = bs.map fun entry => (entry.1,Value.string entry.2)) : as = bs := by
  apply List.map_injective_iff.mpr ?_ same
  rintro ⟨k,v⟩ ⟨l,w⟩ equal
  obtain ⟨keys,texts⟩ := Prod.mk.inj equal
  exact Prod.ext keys (Value.string.inj texts)

mutual

theorem toValue_inj : ∀ (ty : Ty) (a b : ty.Val), toValue ty a = toValue ty b → a = b
  | .plain _,_,_,same => Subtype.ext same
  | .labels,(_ : Labels),(_ : Labels),same => Labels.ext (map_fields_inj (Value.object.inj same))
  | .vec item,(_ : List item.Val),(_ : List item.Val),same => List.map_injective_iff.mpr (fun a b => toValue_inj item a b) (Value.array.inj same)
  | .struct fields,a,b,same => toFields_inj fields a b (Value.object.inj same)

theorem toFields_inj : ∀ (fields : Fields) (a b : fields.Val), toFields fields a = toFields fields b → a = b
  | .nil,_,_,_ => rfl
  | .cons _ ty rest,(a,as),(b,bs),same => by
    obtain ⟨first,later⟩ := List.cons.inj same
    rw [toValue_inj ty a b (Prod.mk.inj first).2,toFields_inj rest as bs later]

end

theorem stringFields_map (entries : List (String × String)) : stringFields (entries.map fun entry => (entry.1,.string entry.2)) = some entries := by
  induction entries with
  | nil => rfl
  | cons entry entries ih =>
    rw [List.map_cons,stringFields,ih]
    rfl

theorem fold_put (entries : List (String × String)) {acc : List (String × String)} (distinct : ((acc ++ entries).map Prod.fst).Nodup) :
    entries.foldl put acc = acc ++ entries := by
  induction entries generalizing acc with
  | nil => simp
  | cons entry entries ih =>
    have fresh : ∀ other ∈ acc, other.1 ≠ entry.1 := by
      intro other inside
      rw [List.map_append,List.nodup_append] at distinct
      exact distinct.2.2 other.1 (List.mem_map_of_mem inside) entry.1 (by simp)
    have added : put acc entry = acc ++ [entry] := by
      unfold put
      rw [List.filter_eq_self.mpr]
      intro other inside
      simpa using fresh other inside
    rw [List.foldl_cons,added,ih (by simpa using distinct)]
    simp

theorem decodeItems_map {α : Type} {item : Nat → Value → Option α} {write : α → Value} {rearrange : Nat → α → α}
    (reads : ∀ index value, item index (write value) = some (rearrange index value)) (values : List α) (index : Nat) :
    decodeItems item index (values.map write) = some (rearrangeItems rearrange index values) := by
  induction values generalizing index with
  | nil => rfl
  | cons value values ih =>
    rw [List.map_cons,decodeItems,reads,ih]
    rfl

mutual

/-- Decoding undoes encoding, but for the order of the maps. -/
theorem decode_toValue : ∀ (ty : Ty) (path : List Place) (value : ty.Val), ty.Distinct →
    decode arrange ty path (toValue ty value) = some (rearranged arrange ty path value)
  | .plain _,_,json,_ => dif_pos json.2
  | .labels,path,(map : Labels),_ => by
    have all : map.entries.foldl put [] = map.entries := fold_put map.entries (by simpa using map.distinct)
    have read : (stringFields (map.entries.map fun entry => (entry.1,.string entry.2))).map (Labels.of arrange path) =
        some (⟨arrange.order path map.entries,(((arrange.perm path _).map Prod.fst).nodup_iff).mpr map.distinct⟩ : Labels) := by
      rw [stringFields_map,Option.map_some]
      congr 1
      apply Labels.ext
      show arrange.order path (map.entries.foldl put []) = arrange.order path map.entries
      rw [all]
    exact read
  | .vec item,path,(items : List item.Val),distinct =>
    decodeItems_map (fun index value => decode_toValue item (.item index :: path) value distinct) items 0
  | .struct fields,path,value,distinct => decode_toFields fields path value [] distinct (by simp)

theorem decode_toFields : ∀ (fields : Fields) (path : List Place) (value : fields.Val) (before : List (String × Value)), fields.Distinct →
    (∀ entry ∈ before, entry.1 ∉ fields.names) →
    decodeFields arrange fields path (before ++ toFields fields value) = some (rearrangedFields arrange fields path value)
  | .nil,_,_,_,_,_ => rfl
  | .cons name ty rest,path,(value,later),before,distinct,apart => by
    have found : Value.get (.object (before ++ toFields (.cons name ty rest) (value,later))) name = some (toValue ty value) := by
      have none : before.find? (fun entry => entry.1 = name) = none := by
        apply List.find?_eq_none.mpr
        intro entry inside same
        exact apart entry inside (by rw [of_decide_eq_true same]; exact List.mem_cons_self)
      rw [Value.get,List.find?_append,none,Option.none_or,toFields,List.find?_cons_of_pos (by simp)]
      rfl
    have next := decode_toFields rest path later (before ++ [(name,toValue ty value)]) distinct.2.2 (by
      intro entry inside
      rcases List.mem_append.mp inside with old | new
      · exact fun there => apart entry old (List.mem_cons_of_mem _ there)
      · rw [List.mem_singleton.mp new]
        exact distinct.1)
    rw [List.append_assoc,List.singleton_append] at next
    rw [decodeFields,found,Option.bind_some,decode_toValue ty (.field name :: path) value distinct.2.1]
    simp only
    rw [toFields,next]
    rfl

end

theorem rearrangeItems_same {α : Type} {R : α → α → Prop} {item : Nat → α → α} (same : ∀ index value, R value (item index value))
    (values : List α) (index : Nat) : List.Forall₂ R values (rearrangeItems item index values) := by
  induction values generalizing index with
  | nil => exact .nil
  | cons value values ih => exact .cons (same index value) (ih (index + 1))

mutual

theorem same_rearranged : ∀ (ty : Ty) (path : List Place) (value : ty.Val), Same ty value (rearranged arrange ty path value)
  | .plain _,_,_ => rfl
  | .labels,path,(map : Labels) => (arrange.perm path map.entries).symm
  | .vec item,path,(items : List item.Val) => rearrangeItems_same (fun index value => same_rearranged item (.item index :: path) value) items 0
  | .struct fields,path,value => same_rearrangedFields fields path value

theorem same_rearrangedFields : ∀ (fields : Fields) (path : List Place) (value : fields.Val),
    SameFields fields value (rearrangedFields arrange fields path value)
  | .nil,_,_ => trivial
  | .cons name ty rest,path,(value,later) => ⟨same_rearranged ty (.field name :: path) value,same_rearrangedFields rest path later⟩

end

mutual

theorem same_refl : ∀ (ty : Ty) (value : ty.Val), Same ty value value
  | .plain _,_ => rfl
  | .labels,(map : Labels) => List.Perm.refl map.entries
  | .vec item,(_ : List item.Val) => List.forall₂_same.mpr fun value _ => same_refl item value
  | .struct fields,value => sameFields_refl fields value

theorem sameFields_refl : ∀ (fields : Fields) (value : fields.Val), SameFields fields value value
  | .nil,_ => trivial
  | .cons _ ty rest,(value,later) => ⟨same_refl ty value,sameFields_refl rest later⟩

end

theorem rearrangeItems_eq {α : Type} {item : Nat → α → α} {values : List α} (same : ∀ value ∈ values, ∀ index, item index value = value)
    (index : Nat) : rearrangeItems item index values = values := by
  induction values generalizing index with
  | nil => rfl
  | cons value values ih =>
    rw [rearrangeItems,same value List.mem_cons_self,ih fun other inside => same other (List.mem_cons_of_mem _ inside)]

mutual

theorem rearranged_small : ∀ (ty : Ty) (path : List Place) (value : ty.Val), Small ty value → rearranged arrange ty path value = value
  | .plain _,_,_,_ => rfl
  | .labels,path,(map : Labels),small => by
    apply Labels.ext
    show arrange.order path map.entries = map.entries
    have perm := arrange.perm path map.entries
    have few : map.entries.length ≤ 1 := small
    cases entries : map.entries with
    | nil =>
      rw [entries] at perm
      exact perm.eq_nil
    | cons entry rest =>
      cases rest with
      | nil =>
        rw [entries] at perm
        exact List.perm_singleton.mp perm
      | cons other rest =>
        rw [entries] at few
        simp at few
  | .vec item,path,(items : List item.Val),small =>
    rearrangeItems_eq (fun value inside index => rearranged_small item (.item index :: path) value (small value inside)) 0
  | .struct fields,path,value,small => rearrangedFields_small fields path value small

theorem rearrangedFields_small : ∀ (fields : Fields) (path : List Place) (value : fields.Val), SmallFields fields value →
    rearrangedFields arrange fields path value = value
  | .nil,_,_,_ => rfl
  | .cons name ty rest,path,(value,later),small => by
    rw [rearrangedFields,rearranged_small ty (.field name :: path) value small.1,rearrangedFields_small rest path later small.2]

end
end

/-- Every map is iterated backwards. -/
def reversed : Arrangement := ⟨fun _ entries => entries.reverse,fun _ entries => List.reverse_perm entries⟩

theorem short_of_reverse {entries : List (String × String)} (distinct : (entries.map Prod.fst).Nodup) (same : entries.reverse = entries) :
    entries.length ≤ 1 := by
  cases entries with
  | nil => simp
  | cons entry rest =>
    cases rest using List.reverseRecOn with
    | nil => simp
    | append_singleton middle last =>
      simp at same
      simp [same.1] at distinct

mutual

theorem small_of_reversed : ∀ (ty : Ty) (path : List Place) (value : ty.Val), rearranged reversed ty path value = value → Small ty value
  | .plain _,_,_,_ => trivial
  | .labels,_,(map : Labels),same => short_of_reverse map.distinct (congrArg Labels.entries same)
  | .vec item,path,(items : List item.Val),same => by
    have all : ∀ (values : List item.Val) (index : Nat),
        rearrangeItems (fun index => rearranged reversed item (.item index :: path)) index values = values → ∀ value ∈ values, Small item value := by
      intro values
      induction values with
      | nil =>
        intro _ _ value inside
        cases inside
      | cons first values ih =>
        intro index same value inside
        obtain ⟨head,tail⟩ := List.cons.inj same
        rcases List.mem_cons.mp inside with rfl | later
        · exact small_of_reversed item (.item index :: path) _ head
        · exact ih (index + 1) tail value later
    exact all items 0 same
  | .struct fields,path,value,same => smallFields_of_reversed fields path value same

theorem smallFields_of_reversed : ∀ (fields : Fields) (path : List Place) (value : fields.Val),
    rearrangedFields reversed fields path value = value → SmallFields fields value
  | .nil,_,_,_ => trivial
  | .cons name ty rest,path,(value,later),same =>
    ⟨small_of_reversed ty (.field name :: path) value (Prod.mk.inj same).1,smallFields_of_reversed rest path later (Prod.mk.inj same).2⟩

end

/-! ### Signing and verifying -/

/-- The JSON of documents, written and read. -/
structure Serde (Text : Type) where
  to_vec : Value → Text
  from_slice : Text → Option Value

/-- The document is read back as it was written. -/
def Serde.Restores {Text : Type} (serde : Serde Text) (json : Value) : Prop := serde.from_slice (serde.to_vec json) = some json

/-- Ed25519, whose signatures are 64 bytes; some arrays of 32 bytes are no public keys. -/
structure Ed25519 (Text : Type) extends Scheme Text Hash Bytes where
  sign_length : ∀ key text, (sign key text).length = 64
  valid : Hash → Bool
  public_valid : ∀ key, valid (public_key key) = true

section
variable {Text : Type} [DecidableEq Text] (ed : Ed25519 Text) (serde : Serde Text) {ty : Ty}

def verify_signature (issued : ed.Issued) (public_key : Hash) (message : Text) (signature : Bytes) : Except DafError Unit :=
  if !ed.valid public_key then .error (.CryptoError "invalid public key: signature error")
  else if signature.length ≠ 64 then .error (.CryptoError "signature must be exactly 64 bytes")
  else if !ed.verify issued public_key message signature then .error (.CryptoError "signature verification failed: signature error")
  else .ok ()

structure SignedPayload (ty : Ty) where
  payload : ty.Val
  signature : Bytes
  signer_public_key : Hash

def SignedPayload.sign (payload : ty.Val) (key_pair : ed.Key) : SignedPayload ty :=
  let bytes := serde.to_vec (toValue ty payload)
  ⟨payload,ed.sign key_pair bytes,ed.public_key key_pair⟩

/-- The decoded payload is written again for the check. -/
def SignedPayload.verify (signed : SignedPayload ty) (issued : ed.Issued) : Except DafError ty.Val :=
  let bytes := serde.to_vec (toValue ty signed.payload)
  match verify_signature ed issued signed.signer_public_key bytes signed.signature with
  | .error e => .error e
  | .ok () => .ok signed.payload

def SignedPayload.toValue (signed : SignedPayload ty) : Value :=
  .object [("payload",SignedPayloads.toValue ty signed.payload),("signature",.string (String.ofList (bytes_hex.serialize signed.signature))),
    ("signer_public_key",.string (String.ofList (hash_serde.serialize signed.signer_public_key)))]

def SignedPayload.decode (arrange : Arrangement) (ty : Ty) (json : Value) : Decoded (SignedPayload ty) :=
  match (json.get "payload").bind (SignedPayloads.decode arrange ty []) with
  | none => .error "invalid payload"
  | some payload =>
    match (json.get "signature").bind Value.as_str,(json.get "signer_public_key").bind Value.as_str with
    | some signature,some key =>
      match bytes_hex.deserialize signature.toList with
      | .error e => .error e
      | .panicked => .panicked
      | .ok signature => (hash_serde.deserialize key.toList).map fun key => ⟨payload,signature,key⟩
    | _,_ => .error "missing field"

/-- A text that was received, as a signed payload of this type. -/
def receive (arrange : Arrangement) (ty : Ty) (text : Text) : Decoded (SignedPayload ty) :=
  match serde.from_slice text with
  | none => .error "expected value"
  | some json => SignedPayload.decode arrange ty json

/-- What the calls of `sign` have signed. -/
def issued (calls : List (ed.Key × ty.Val)) : ed.Issued := calls.map fun call => (call.1,serde.to_vec (toValue ty call.2))

variable {ed serde} {issuedSoFar : ed.Issued}

theorem verify_ok {key : Hash} {message : Text} {signature : Bytes} : verify_signature ed issuedSoFar key message signature = .ok () ↔
    ed.valid key = true ∧ signature.length = 64 ∧ ed.verify issuedSoFar key message signature = true := by
  unfold verify_signature
  split_ifs with invalid long refused
  · simp_all
  · simp_all
  · simp_all
  · simp_all

theorem SignedPayload.verify_ok {signed : SignedPayload ty} {payload : ty.Val} : signed.verify ed serde issuedSoFar = .ok payload ↔
    payload = signed.payload ∧
    verify_signature ed issuedSoFar signed.signer_public_key (serde.to_vec (SignedPayloads.toValue ty signed.payload)) signed.signature = .ok () := by
  cases checked : verify_signature ed issuedSoFar signed.signer_public_key (serde.to_vec (SignedPayloads.toValue ty signed.payload)) signed.signature with
  | error e => simp [SignedPayload.verify,checked]
  | ok done => simp [SignedPayload.verify,checked,eq_comm]

theorem SignedPayload.decode_toValue (arrange : Arrangement) (distinct : ty.Distinct) (signed : SignedPayload ty) :
    SignedPayload.decode arrange ty signed.toValue =
      .ok ⟨rearranged arrange ty [] signed.payload,signed.signature,signed.signer_public_key⟩ := by
  have payload : (signed.toValue.get "payload").bind (SignedPayloads.decode arrange ty []) = some (rearranged arrange ty [] signed.payload) :=
    SignedPayloads.decode_toValue ty [] signed.payload distinct
  have signature : (signed.toValue.get "signature").bind Value.as_str = some (String.ofList (bytes_hex.serialize signed.signature)) := rfl
  have key : (signed.toValue.get "signer_public_key").bind Value.as_str = some (String.ofList (hash_serde.serialize signed.signer_public_key)) := rfl
  simp only [SignedPayload.decode,payload,signature,key,String.toList_ofList,bytes_round_trip,hash_round_trip,Decoded.map]

omit [DecidableEq Text] in
theorem receive_sign (arrange : Arrangement) (distinct : ty.Distinct) {signed : SignedPayload ty} (restored : serde.Restores signed.toValue) :
    receive serde arrange ty (serde.to_vec signed.toValue) =
      .ok ⟨rearranged arrange ty [] signed.payload,signed.signature,signed.signer_public_key⟩ := by
  unfold receive
  rw [restored]
  exact SignedPayload.decode_toValue arrange distinct signed

/-- What was decoded verifies if and only if its maps are iterated as they were when it was signed. -/
theorem verify_rearranged {calls : List (ed.Key × ty.Val)} (binds : ed.Binds (issued ed serde calls)) {call : ed.Key × ty.Val} (member : call ∈ calls)
    (restored : ∀ other, Same ty call.2 other → serde.Restores (toValue ty other)) (arrange : Arrangement) :
    SignedPayload.verify ed serde ⟨rearranged arrange ty [] call.2,(SignedPayload.sign ed serde call.2 call.1).signature,ed.public_key call.1⟩
      (issued ed serde calls) = .ok (rearranged arrange ty [] call.2) ↔ rearranged arrange ty [] call.2 = call.2 := by
  have signed : (call.1,serde.to_vec (toValue ty call.2)) ∈ issued ed serde calls := List.mem_map_of_mem member
  have accepted := verify_signed binds signed (serde.to_vec (toValue ty (rearranged arrange ty [] call.2)))
  rw [SignedPayload.verify_ok,verify_ok]
  constructor
  · rintro ⟨-,-,-,verified⟩
    have texts := accepted.mp verified
    have documents := congrArg serde.from_slice texts
    rw [restored _ (same_rearranged ty [] call.2),restored _ (same_refl ty call.2)] at documents
    exact toValue_inj ty _ _ (Option.some.inj documents)
  · intro same
    refine ⟨rfl,ed.public_valid call.1,ed.sign_length _ _,accepted.mpr ?_⟩
    rw [same]

/-- A payload of a type, signed, sent and received, is an equal payload; it verifies if and only if each of its maps is iterated in the order in
which it was signed, so it verifies however maps are iterated if and only if none has more than one entry; and what verifies was signed. -/
theorem signed_payload_exact (ed : Ed25519 Text) (serde : Serde Text) (type : PayloadType) (calls : List (ed.Key × type.ty.Val))
    (binds : ed.Binds (issued ed serde calls))
    (restored : ∀ call ∈ calls, serde.Restores (SignedPayload.sign ed serde call.2 call.1).toValue ∧
      ∀ other, Same type.ty call.2 other → serde.Restores (toValue type.ty other)) :
    (∀ call ∈ calls, ∀ arrange, ∃ received,
      receive serde arrange type.ty (serde.to_vec (SignedPayload.sign ed serde call.2 call.1).toValue) = .ok received ∧
      Same type.ty call.2 received.payload ∧
      (received.verify ed serde (issued ed serde calls) = .ok received.payload ↔ rearranged arrange type.ty [] call.2 = call.2)) ∧
    (∀ call ∈ calls, (∀ arrange, ∃ received,
      receive serde arrange type.ty (serde.to_vec (SignedPayload.sign ed serde call.2 call.1).toValue) = .ok received ∧
      received.verify ed serde (issued ed serde calls) = .ok received.payload) ↔ Small type.ty call.2) ∧
    ∀ (signed : SignedPayload type.ty) (payload : type.ty.Val), signed.verify ed serde (issued ed serde calls) = .ok payload →
      ∃ call ∈ calls, ed.public_key call.1 = signed.signer_public_key ∧ signed.signature = (SignedPayload.sign ed serde call.2 call.1).signature ∧
        serde.to_vec (toValue type.ty call.2) = serde.to_vec (toValue type.ty signed.payload) ∧
        (serde.Restores (toValue type.ty signed.payload) → call.2 = payload) := by
  have received : ∀ call ∈ calls, ∀ arrange, receive serde arrange type.ty (serde.to_vec (SignedPayload.sign ed serde call.2 call.1).toValue) =
      .ok ⟨rearranged arrange type.ty [] call.2,(SignedPayload.sign ed serde call.2 call.1).signature,ed.public_key call.1⟩ :=
    fun call member arrange => receive_sign arrange type.distinct (restored call member).1
  have verifies := fun call (member : call ∈ calls) arrange => verify_rearranged binds member (restored call member).2 arrange
  refine ⟨?_,?_,?_⟩
  · intro call member arrange
    exact ⟨_,received call member arrange,same_rearranged type.ty [] call.2,verifies call member arrange⟩
  · intro call member
    constructor
    · intro always
      obtain ⟨got,same,verified⟩ := always reversed
      rw [received call member reversed] at same
      cases same
      exact small_of_reversed type.ty [] call.2 ((verifies call member reversed).mp verified)
    · intro small arrange
      exact ⟨_,received call member arrange,(verifies call member arrange).mpr (rearranged_small type.ty [] call.2 small)⟩
  · intro signed payload verified
    obtain ⟨rfl,checked⟩ := SignedPayload.verify_ok.mp verified
    obtain ⟨-,-,accepted⟩ := verify_ok.mp checked
    obtain ⟨signer,inside,keys,signatures⟩ := verify_iff.mp accepted
    obtain ⟨call,member,same⟩ := List.mem_map.mp inside
    obtain ⟨rfl,texts⟩ := Prod.mk.inj same
    refine ⟨call,member,keys,?_,texts,?_⟩
    · rw [← signatures,← texts]
      rfl
    · intro reads
      have documents := congrArg serde.from_slice texts
      rw [reads,(restored call member).2 _ (same_refl type.ty call.2)] at documents
      exact toValue_inj type.ty _ _ (Option.some.inj documents)

end

/-! ### Labelled tasks -/

section

def text : Ty := .plain fun json => json.as_str.isSome

def number : Ty := .plain fun json => json.as_u64.isSome

def anything : Ty := .plain fun _ => true

/-- The type `TaskSpec`, by its fields. -/
def taskFields : Fields :=
  .cons "id" text (.cons "name" text (.cons "description" text (.cons "agent_kind_required" anything (.cons "inputs" anything
    (.cons "timeout" anything (.cons "max_retries" number (.cons "dependencies" (.vec text)
      (.cons "priority" number (.cons "required_capabilities" (.vec text) (.cons "labels" .labels .nil))))))))))

def taskSpec : PayloadType where
  ty := .struct taskFields
  distinct := by simp [Ty.Distinct,taskFields,Fields.Distinct,Fields.names,text,number,anything]

/-- A task as `TaskSpec::new` makes it, with these labels. -/
def task (labels : Labels) : taskSpec.ty.Val :=
  (⟨.string "00000000-0000-0000-0000-00000000000c",rfl⟩,⟨.string "build",rfl⟩,⟨.string "build it",rfl⟩,⟨.null,rfl⟩,⟨.object [],rfl⟩,
    ⟨.object [("secs",.number (.int 300)),("nanos",.number (.int 0))],rfl⟩,⟨.number (.int 3),rfl⟩,([] : List text.Val),
    ⟨.number (.int 100),rfl⟩,([] : List text.Val),labels,())

/-- Documents themselves as texts. -/
def documents : Serde Value := ⟨id,some⟩

/-- One key, whose signatures of one text are known. -/
def oneKey : Ed25519 Value where
  Key := Unit
  public_key _ := ⟨List.replicate 32 0,rfl⟩
  sign _ _ := List.replicate 64 0
  sign_length _ _ := rfl
  valid _ := true
  public_valid _ := rfl

theorem binds_one (value : taskSpec.ty.Val) : oneKey.Binds (issued oneKey documents [((),value)]) := by
  intro a inside b inside' _ _
  rw [List.mem_singleton.mp inside,List.mem_singleton.mp inside']

def oneLabel : Labels := ⟨[("team","core")],by decide⟩

def twoLabels : Labels := ⟨[("team","core"),("stage","test")],by decide⟩

theorem one_label_verifies :
    (∀ call ∈ [((),task oneLabel)], ∀ arrange, ∃ received,
      receive documents arrange taskSpec.ty (documents.to_vec (SignedPayload.sign oneKey documents call.2 call.1).toValue) = .ok received ∧
      Same taskSpec.ty call.2 received.payload ∧
      (received.verify oneKey documents (issued oneKey documents [((),task oneLabel)]) = .ok received.payload ↔
        rearranged arrange taskSpec.ty [] call.2 = call.2)) ∧
    (∀ call ∈ [((),task oneLabel)], (∀ arrange, ∃ received,
      receive documents arrange taskSpec.ty (documents.to_vec (SignedPayload.sign oneKey documents call.2 call.1).toValue) = .ok received ∧
      received.verify oneKey documents (issued oneKey documents [((),task oneLabel)]) = .ok received.payload) ↔ Small taskSpec.ty call.2) ∧
    ∀ (signed : SignedPayload taskSpec.ty) (payload : taskSpec.ty.Val),
      signed.verify oneKey documents (issued oneKey documents [((),task oneLabel)]) = .ok payload →
      ∃ call ∈ [((),task oneLabel)], oneKey.public_key call.1 = signed.signer_public_key ∧
        signed.signature = (SignedPayload.sign oneKey documents call.2 call.1).signature ∧
        documents.to_vec (toValue taskSpec.ty call.2) = documents.to_vec (toValue taskSpec.ty signed.payload) ∧
        (documents.Restores (toValue taskSpec.ty signed.payload) → call.2 = payload) :=
  signed_payload_exact oneKey documents taskSpec [((),task oneLabel)] (binds_one _) fun _ _ => ⟨rfl,fun _ _ => rfl⟩

/-- A task with two labels, decoded into a map that is iterated the other way, is equal to the signed one and does not verify. -/
theorem two_labels_refused : ∃ received,
    receive documents reversed taskSpec.ty (documents.to_vec (SignedPayload.sign oneKey documents (task twoLabels) ()).toValue) = .ok received ∧
    Same taskSpec.ty (task twoLabels) received.payload ∧
    received.verify oneKey documents (issued oneKey documents [((),task twoLabels)]) ≠ .ok received.payload := by
  have member : ((),task twoLabels) ∈ [((),task twoLabels)] := List.mem_singleton_self _
  refine ⟨_,receive_sign reversed taskSpec.distinct rfl,same_rearranged taskSpec.ty [] _,?_⟩
  intro verified
  have kept := (verify_rearranged (binds_one _) member (fun _ _ => rfl) reversed).mp verified
  have small := small_of_reversed taskSpec.ty [] _ kept
  have few : twoLabels.entries.length ≤ 1 := small.2.2.2.2.2.2.2.2.2.2.1
  exact absurd few (by decide)

end
end Daf.SignedPayloads
