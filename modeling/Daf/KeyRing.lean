import Daf.IdealCrypto
import Daf.UuidText
import Mathlib.Data.List.AList

/-!
The key ring of the vault: a master key that is derived from a passphrase, and data keys
that are wrapped by it. Randomness comes from outside; a draw that fails, or an encryption
that fails, is a missing draw.
-/
namespace Daf.KeyRing
open Daf.IdealCrypto

abbrev Bytes := List UInt8

/-- The array of this many bytes. -/
abbrev Block (n : Nat) := { bytes : Bytes // bytes.length = n }

abbrev Salt := Block 32
abbrev Material := Block 32
abbrev Nonce := Block 12

abbrev Crypto := Ideal Bytes Salt Material Nonce Bytes

structure KeyId where
  uuid : BitVec 128
deriving DecidableEq,Repr

inductive VaultError where
  | Sealed
  | SecretNotFound (name : String)
  | AccessDenied (message : String)
  | Crypto (message : String)
  | KeyNotFound (id : String)
  | Storage (message : String)
  | Serialization (message : String)
  | Rotation (message : String)
  | Provider (message : String)
  | InvalidPassphrase
  | Internal (message : String)
deriving DecidableEq,Repr

structure DataKey where
  id : KeyId
  key_material : Material
deriving DecidableEq

section
variable (C : Crypto)

structure MasterKey where
  key : C.Key
  salt : Salt

structure WrappedDataKey where
  id : KeyId
  wrapped : C.Cipher

structure Ring where
  master : Option (MasterKey C)
  salt : Option Salt
  wrapped_keys : AList (fun _ : KeyId => WrappedDataKey C)
  seal_check : Option C.Cipher

end

/-- The text "daf-vault-seal-check-v1". -/
def SEAL_CHECK_PLAINTEXT : Bytes :=
  [100,97,102,45,118,97,117,108,116,45,115,101,97,108,45,99,104,101,99,107,45,118,49]

variable {C : Crypto}

def Ring.new : Ring C := ⟨none,none,∅,none⟩

def encrypt (key : C.Key) (nonce : Option Nonce) (plaintext : Bytes) : Except VaultError C.Cipher :=
  match nonce with
  | none => .error (.Crypto "nonce generation failed")
  | some nonce => .ok (C.encrypt key nonce plaintext)

def decrypt (key : C.Key) (ciphertext : C.Cipher) : Except VaultError Bytes :=
  match C.decrypt key ciphertext with
  | none => .error (.Crypto "decryption failed — wrong key or corrupted data")
  | some plaintext => .ok plaintext

/-- A master key from a passphrase and a fresh salt. -/
def MasterKey.derive (passphrase : Bytes) (salt : Option Salt) : Except VaultError (MasterKey C) :=
  match salt with
  | none => .error (.Crypto "failed to generate salt")
  | some salt => .ok ⟨C.derive passphrase salt,salt⟩

def MasterKey.derive_with_salt (passphrase : Bytes) (salt : Salt) : MasterKey C := ⟨C.derive passphrase salt,salt⟩

def DataKey.generate (id : KeyId) (material : Option Material) : Except VaultError DataKey :=
  match material with
  | none => .error (.Crypto "failed to generate data key")
  | some material => .ok ⟨id,material⟩

/-- A call on the ring: how it ends, and the ring it leaves. -/
abbrev Outcome (C : Crypto) (ε α : Type) := Except ε α × Ring C

def Ring.initialize_ring (r : Ring C) (passphrase : Bytes) (salt : Option Salt) (nonce : Option Nonce) : Outcome C VaultError Unit :=
  match (MasterKey.derive passphrase salt : Except VaultError (MasterKey C)) with
  | .error e => (.error e,r)
  | .ok master =>
    match encrypt master.key nonce SEAL_CHECK_PLAINTEXT with
    | .error e => (.error e,r)
    | .ok check =>
      let r := { r with salt := some master.salt }
      let r := { r with seal_check := some check }
      (.ok (),{ r with master := some master })

/-- Drop the master key from memory. -/
def Ring.seal (r : Ring C) : Ring C := { r with master := none }

def Ring.unseal (r : Ring C) (passphrase : Bytes) : Outcome C VaultError Unit :=
  match r.salt with
  | none => (.error (.Internal "key ring not initialized — call initialize() first"),r)
  | some salt =>
    let candidate : MasterKey C := MasterKey.derive_with_salt passphrase salt
    match r.seal_check with
    | none => (.error (.Internal "missing seal check"),r)
    | some check_ct =>
      match decrypt candidate.key check_ct with
      | .error _ => (.error .InvalidPassphrase,r)
      | .ok plaintext =>
        if plaintext ≠ SEAL_CHECK_PLAINTEXT then (.error .InvalidPassphrase,r)
        else (.ok (),{ r with master := some candidate })

def Ring.is_unsealed (r : Ring C) : Bool := r.master.isSome

def Ring.generate_data_key (r : Ring C) (id : KeyId) (material : Option Material) (nonce : Option Nonce) :
    Outcome C VaultError DataKey :=
  match r.master with
  | none => (.error .Sealed,r)
  | some master =>
    match DataKey.generate id material with
    | .error e => (.error e,r)
    | .ok dk =>
      match encrypt master.key nonce dk.key_material.val with
      | .error e => (.error e,r)
      | .ok wrapped => (.ok dk,{ r with wrapped_keys := r.wrapped_keys.insert dk.id ⟨dk.id,wrapped⟩ })

def KeyId.toString (id : KeyId) : String := "key:" ++ UuidText.toText id.uuid

def Ring.unwrap_data_key (r : Ring C) (key_id : KeyId) : Except VaultError DataKey :=
  match r.master with
  | none => .error .Sealed
  | some master =>
    match r.wrapped_keys.lookup key_id with
    | none => .error (.KeyNotFound key_id.toString)
    | some wdk =>
      match decrypt master.key wdk.wrapped with
      | .error e => .error e
      | .ok raw => if size : raw.length = 32 then .ok ⟨key_id,raw,size⟩ else .error (.Crypto "invalid data key length")

def Ring.remove_data_key (r : Ring C) (key_id : KeyId) : Bool × Ring C :=
  ((r.wrapped_keys.lookup key_id).isSome,{ r with wrapped_keys := r.wrapped_keys.erase key_id })

/-- How a rotation fails: with an error, or in a panic on material of the wrong length. -/
inductive Failure where
  | error (e : VaultError)
  | panic
deriving DecidableEq,Repr

/-- The material of the keys, read with the old master key. -/
def unwrapAll (master : MasterKey C) : List (Σ _ : KeyId, WrappedDataKey C) → Except Failure (List (KeyId × Material))
  | [] => .ok []
  | ⟨kid,wdk⟩ :: later =>
    match decrypt master.key wdk.wrapped with
    | .error e => .error (.error e)
    | .ok raw =>
      if size : raw.length = 32 then
        match unwrapAll master later with
        | .error e => .error e
        | .ok keys => .ok ((kid,⟨raw,size⟩) :: keys)
      else .error .panic

/-- The keys wrapped by the new master key, each with a draw of its own. -/
def wrapAll (master : MasterKey C) (nonces : KeyId → Option Nonce) (wrapped : AList (fun _ : KeyId => WrappedDataKey C)) :
    List (KeyId × Material) → Except VaultError (AList (fun _ : KeyId => WrappedDataKey C))
  | [] => .ok wrapped
  | (kid,material) :: later =>
    match encrypt master.key (nonces kid) material.val with
    | .error e => .error e
    | .ok key => wrapAll master nonces (wrapped.insert kid ⟨kid,key⟩) later

def Ring.rotate_master_key (r : Ring C) (new_passphrase : Bytes) (salt : Option Salt) (nonce : Option Nonce)
    (nonces : KeyId → Option Nonce) : Outcome C Failure Unit :=
  match r.master with
  | none => (.error (.error .Sealed),r)
  | some old_master =>
    match unwrapAll old_master r.wrapped_keys.entries with
    | .error e => (.error e,r)
    | .ok unwrapped =>
      match (MasterKey.derive new_passphrase salt : Except VaultError (MasterKey C)) with
      | .error e => (.error (.error e),r)
      | .ok new_master =>
        match encrypt new_master.key nonce SEAL_CHECK_PLAINTEXT with
        | .error e => (.error (.error e),r)
        | .ok check =>
          match wrapAll new_master nonces ∅ unwrapped with
          | .error e => (.error (.error e),r)
          | .ok new_wrapped =>
            let r := { r with salt := some new_master.salt }
            let r := { r with seal_check := some check }
            let r := { r with wrapped_keys := new_wrapped }
            (.ok (),{ r with master := some new_master })

/-- A sealed ring with the persisted state. -/
def Ring.restore (salt : Salt) (seal_check : C.Cipher) (wrapped_keys : AList (fun _ : KeyId => WrappedDataKey C)) : Ring C :=
  ⟨none,some salt,wrapped_keys,some seal_check⟩

def Ring.import_wrapped_key (r : Ring C) (wdk : WrappedDataKey C) : Ring C := { r with wrapped_keys := r.wrapped_keys.insert wdk.id wdk }

end Daf.KeyRing
