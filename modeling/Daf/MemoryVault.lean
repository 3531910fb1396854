import Daf.Fallible
import Daf.VaultSecrets

/-!
The vault in memory. Its secrets are encrypted like those on disk; only the draws can fail.
-/
namespace Daf.MemoryVault
open Daf.KeyRing Daf.VaultSecrets Daf.Fallible

structure Memory (C : Crypto) where
  secrets : AList (fun _ : String => StoredSecret C)
  keyring : Ring C
  audit : List AuditEntry
  /-- The number of draws so far. -/
  tick : Nat

variable {C : Crypto}

abbrev Program (C : Crypto) (α : Type) := Call VaultError (Memory C) α

def Memory.ticked (m : Memory C) : Memory C := { m with tick := m.tick + 1 }

def look {α : Type} (f : Memory C → α) : Program C α := Fallible.step (fun m => (some (.ok (f m)),m))

def record (entry : AuditEntry) : Program C Unit := Fallible.step (fun m => (some (.ok ()),{ m with audit := m.audit ++ [entry] }))

def insert (name : String) (stored : StoredSecret C) : Program C Unit :=
  Fallible.step (fun m => (some (.ok ()),{ m with secrets := m.secrets.insert name stored }))

def remove (name : String) : Program C Unit := Fallible.step (fun m => (some (.ok ()),{ m with secrets := m.secrets.erase name }))

variable (draws : Draws)

def generate_data_key : Program C DataKey := Fallible.step (fun m =>
  let made := m.keyring.generate_data_key (draws.keyId m.tick) (draws.material m.tick) (draws.nonce m.tick)
  (some made.1,{ m.ticked with keyring := made.2 }))

def encryptWith (dk : DataKey) (plaintext : Bytes) : Program C C.Cipher := Fallible.step (fun m =>
  (some (DataKey.encrypt dk (draws.nonce m.tick) plaintext),m.ticked))

def remove_data_key (key_id : KeyId) : Program C Unit := Fallible.step (fun m =>
  (some (.ok ()),{ m with keyring := (m.keyring.remove_data_key key_id).2 }))

def Memory.new (passphrase : Bytes) (audit : List AuditEntry) : Except VaultError (Memory C) :=
  match (Ring.new : Ring C).initialize_ring passphrase (draws.salt 0) (draws.nonce 0) with
  | (.error e,_) => .error e
  | (.ok (),keyring) => .ok ⟨∅,keyring,audit,1⟩

def seal_vault : Program C Unit := Fallible.step (fun m => (some (.ok ()),{ m with keyring := m.keyring.seal }))

def unseal_vault (passphrase : Bytes) : Program C Unit := Fallible.step (fun m =>
  (some (m.keyring.unseal passphrase).1,{ m with keyring := (m.keyring.unseal passphrase).2 }))

def store_secret (name : String) (kind : SecretKind) (plaintext : Bytes) (policy : AccessPolicy) : Program C SecretRef := do
  if ← look (fun m => (m.secrets.lookup name).isSome) then
    throw (.Storage ("secret '" ++ name ++ "' already exists"))
  else
    let dk ← generate_data_key draws
    let encrypted ← encryptWith draws dk plaintext
    let tick ← look (·.tick)
    let secret := (Secret.new (draws.secretId tick) (draws.now tick) name kind encrypted).with_access_policy policy
    insert name ⟨secret,dk.id⟩
    record ((AuditEntry.succeeded .Write).with_secret secret.as_ref)
    pure secret.as_ref

/-- The stored secret, or an error when there is none. -/
def find (name : String) : Program C (StoredSecret C) := do
  match ← look (fun m => m.secrets.lookup name) with
  | none => throw (.SecretNotFound name)
  | some stored => pure stored

def get_secret (name : String) : Program C (Secret Bytes) := do
  let stored ← find name
  let plaintext ← Fallible.step (fun m =>
    match m.keyring.unwrap_data_key stored.data_key_id with
    | .error e => (some (.error e),m)
    | .ok dk => (some (DataKey.decrypt dk stored.secret.encrypted_value),m))
  record ((AuditEntry.succeeded .Read).with_secret stored.secret.as_ref)
  pure (stored.secret.withValue plaintext)

/-- The references of all secrets. The map gives them in no particular order. -/
def list_secrets : Program C (List SecretRef) := do
  let refs ← look (fun m => m.secrets.entries.map (·.2.secret.as_ref))
  record (.succeeded .List)
  pure refs

def delete_secret (name : String) : Program C Unit := do
  let stored ← find name
  remove name
  remove_data_key stored.data_key_id
  record ((AuditEntry.succeeded .Delete).with_secret stored.secret.as_ref)

def rotate_secret (name : String) (new_plaintext : Bytes) : Program C SecretRef := do
  let stored ← find name
  let new_dk ← generate_data_key draws
  let encrypted ← encryptWith draws new_dk new_plaintext
  remove_data_key stored.data_key_id
  let tick ← look (·.tick)
  let rotated := stored.rotated encrypted (draws.now tick) new_dk.id
  insert name rotated
  record ((AuditEntry.succeeded .Rotate).with_secret rotated.secret.as_ref)
  pure rotated.secret.as_ref

end Daf.MemoryVault
