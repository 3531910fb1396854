import Daf.CrashLog
import Daf.Fallible
import Daf.VaultSecrets

/-!
The vault on disk. Every step that touches the store or a serializer can fail, a write that
fails may still be done, and the process can end at any of them. The trees are what the log
of the store says.
-/
namespace Daf.SledVault
open Daf.KeyRing Daf.VaultSecrets Daf.CrashLog Daf.Fallible

section
variable (C : Crypto)

/-- A write to one of the trees. -/
inductive Op where
  | insertSecret (name : String) (stored : StoredSecret C)
  | removeSecret (name : String)
  | insertKey (key : String) (wdk : WrappedDataKey C)
  | removeKey (key : String)
  | insertSalt (salt : Bytes)
  | insertSealCheck (check : C.Cipher)

structure Trees where
  secrets : AList (fun _ : String => StoredSecret C)
  keys : AList (fun _ : String => WrappedDataKey C)
  salt : Option Bytes
  seal_check : Option C.Cipher

structure Vault where
  db : Disk (Op C)
  keyring : Ring C
  audit : List AuditEntry
  /-- The number of steps so far. -/
  tick : Nat

end

variable {C : Crypto}

def Trees.apply (t : Trees C) : Op C → Trees C
  | .insertSecret name stored => { t with secrets := t.secrets.insert name stored }
  | .removeSecret name => { t with secrets := t.secrets.erase name }
  | .insertKey key wdk => { t with keys := t.keys.insert key wdk }
  | .removeKey key => { t with keys := t.keys.erase key }
  | .insertSalt salt => { t with salt := some salt }
  | .insertSealCheck check => { t with seal_check := some check }

def trees (log : List (Op C)) : Trees C := log.foldl Trees.apply ⟨∅,∅,none,none⟩

def Vault.trees (v : Vault C) : Trees C := SledVault.trees v.db.log

/-- How a step ends. -/
inductive Answer where
  | done
  | failed (applied : Bool) (message : String)
  | crash
deriving DecidableEq,Repr

structure Env extends Draws where
  answer : Nat → Answer

abbrev Program (C : Crypto) (α : Type) := Call VaultError (Vault C) α

/-! ### Steps -/

def Vault.ticked (v : Vault C) : Vault C := { v with tick := v.tick + 1 }

def Vault.write (op : Op C) (v : Vault C) : Vault C := { v with db := v.db.write op }

def Vault.flushed (v : Vault C) : Vault C := { v with db := v.db.flush }

variable (env : Env)

/-- A step of the store or of a serializer. -/
def action (error : String → VaultError) (effect : Vault C → Vault C) : Program C Unit :=
  Fallible.step (fun v =>
    match env.answer v.tick with
    | .done => (some (.ok ()),effect v.ticked)
    | .failed applied message => (some (.error (error message)),if applied then effect v.ticked else v.ticked)
    | .crash => (none,v.ticked))

/-- A step of the store that only reads. -/
def access : Program C Unit := action env .Storage id

/-- A step of the serializer. -/
def convert : Program C Unit := action env .Serialization id

def write (op : Op C) : Program C Unit := action env .Storage (Vault.write op)

def flush : Program C Unit := action env .Storage Vault.flushed

/-- The state as it is. -/
def look {α : Type} (f : Vault C → α) : Program C α := Fallible.step (fun v => (some (.ok (f v)),v))

def record (entry : AuditEntry) : Program C Unit := Fallible.step (fun v => (some (.ok ()),{ v with audit := v.audit ++ [entry] }))

def generate_data_key : Program C DataKey := Fallible.step (fun v =>
  let made := v.keyring.generate_data_key (env.keyId v.tick) (env.material v.tick) (env.nonce v.tick)
  (some made.1,{ v.ticked with keyring := made.2 }))

def encryptWith (dk : DataKey) (plaintext : Bytes) : Program C C.Cipher := Fallible.step (fun v =>
  (some (DataKey.encrypt dk (env.nonce v.tick) plaintext),v.ticked))

def remove_data_key (key_id : KeyId) : Program C Unit := Fallible.step (fun v =>
  (some (.ok ()),{ v with keyring := (v.keyring.remove_data_key key_id).2 }))

/-- The key of a data key in its tree. -/
def keyPath (id : KeyId) : String := UuidText.toText id.uuid

def persist_wrapped_key (wdk : WrappedDataKey C) : Program C Unit := do
  access env
  convert env
  write env (.insertKey (keyPath wdk.id) wdk)

def remove_persisted_key (key_id : KeyId) : Program C Unit := do
  access env
  write env (.removeKey (keyPath key_id))

/-- The wrapped form of a new data key goes to its tree. -/
def persistNew (id : KeyId) : Program C Unit := do
  match ← look (fun v => v.keyring.wrapped_keys.lookup id) with
  | none => throw (.Internal "data key not in keyring")
  | some wdk => persist_wrapped_key env wdk

/-- A new data key, in the ring and in its tree, and the plaintext under it. -/
def encryptNew (plaintext : Bytes) : Program C (KeyId × C.Cipher) := do
  let dk ← generate_data_key env
  let encrypted ← encryptWith env dk plaintext
  persistNew env dk.id
  pure (dk.id,encrypted)

/-! ### Opening and sealing -/

/-- The wrapped keys of the tree, entry by entry. -/
def restoreKeys (wrapped : AList (fun _ : KeyId => WrappedDataKey C)) : List (WrappedDataKey C) → Program C (AList (fun _ : KeyId => WrappedDataKey C))
  | [] => pure wrapped
  | wdk :: later => do
    access env
    convert env
    restoreKeys (wrapped.insert wdk.id wdk) later

def open_vault : Program C Unit := do
  access env
  access env
  access env
  access env
  let salt ← look (·.trees.salt)
  access env
  let check ← look (·.trees.seal_check)
  match salt,check with
  | some salt_iv,some check_iv =>
    if size : salt_iv.length = 32 then
      let entries ← look (fun v => v.trees.keys.entries.map Sigma.snd)
      let wrapped ← restoreKeys env ∅ entries
      Fallible.step (fun v => (some (.ok ()),{ v with keyring := .restore ⟨salt_iv,size⟩ check_iv wrapped }))
    else throw (.Storage "invalid vault salt length")
  | _,_ => Fallible.step (fun v => (some (.ok ()),{ v with keyring := .new }))

def initialize_vault (passphrase : Bytes) : Program C Unit := do
  Fallible.step (fun v =>
    let made := v.keyring.initialize_ring passphrase (env.salt v.tick) (env.nonce v.tick)
    (some made.1,{ v.ticked with keyring := made.2 }))
  access env
  match ← look (·.keyring.salt) with
  | none => pure ()
  | some salt => write env (.insertSalt salt.val)
  match ← look (·.keyring.seal_check) with
  | none => pure ()
  | some check => write env (.insertSealCheck check)
  flush env
  record ((AuditEntry.succeeded .Unseal).with_detail "vault initialized")

def seal_vault : Program C Unit := do
  Fallible.step (fun v => (some (.ok ()),{ v with keyring := v.keyring.seal }))
  record (.succeeded .Seal)

def unseal_vault (passphrase : Bytes) : Program C Unit := Fallible.step (fun v =>
  let opened := v.keyring.unseal passphrase
  match opened.1 with
  | .error e => (some (.error e),{ v with keyring := opened.2, audit := v.audit ++ [.failure .Unseal (errorText e)] })
  | .ok () => (some (.ok ()),{ v with keyring := opened.2, audit := v.audit ++ [.succeeded .Unseal] }))

/-! ### Secrets -/

def store_secret (name : String) (kind : SecretKind) (plaintext : Bytes) (policy : AccessPolicy) : Program C SecretRef := do
  access env
  access env
  if ← look (fun v => (v.trees.secrets.lookup name).isSome) then
    let err := VaultError.Storage ("secret '" ++ name ++ "' already exists")
    record (.failure .Write (errorText err))
    throw err
  else
    let (data_key_id,encrypted) ← encryptNew env plaintext
    let tick ← look (·.tick)
    let secret := (Secret.new (env.secretId tick) (env.now tick) name kind encrypted).with_access_policy policy
    convert env
    write env (.insertSecret name ⟨secret,data_key_id⟩)
    flush env
    record ((AuditEntry.succeeded .Write).with_secret secret.as_ref)
    pure secret.as_ref

/-- The stored secret, or an error when there is none. -/
def find (name : String) : Program C (StoredSecret C) := do
  access env
  access env
  match ← look (fun v => v.trees.secrets.lookup name) with
  | none => throw (.SecretNotFound name)
  | some stored =>
    convert env
    pure stored

def get_secret (name : String) : Program C (Secret Bytes) := do
  let stored ← find env name
  let plaintext ← Fallible.step (fun v =>
    match v.keyring.unwrap_data_key stored.data_key_id with
    | .error e => (some (.error e),v)
    | .ok dk => (some (DataKey.decrypt dk stored.secret.encrypted_value),v))
  record ((AuditEntry.succeeded .Read).with_secret stored.secret.as_ref)
  pure (stored.secret.withValue plaintext)

/-- The references of the entries, one by one. -/
def collectRefs (refs : List SecretRef) : List (StoredSecret C) → Program C (List SecretRef)
  | [] => pure refs
  | stored :: later => do
    access env
    convert env
    collectRefs (refs ++ [stored.secret.as_ref]) later

/-- The entries of the secrets tree in the order of their names. -/
def Trees.sorted (t : Trees C) : List (StoredSecret C) :=
  (t.secrets.entries.mergeSort (fun a b => a.1 ≤ b.1)).map Sigma.snd

def list_secrets : Program C (List SecretRef) := do
  access env
  let entries ← look (·.trees.sorted)
  let refs ← collectRefs env [] entries
  record (.succeeded .List)
  pure refs

def delete_secret (name : String) : Program C Unit := do
  access env
  let removed ← look (fun v => v.trees.secrets.lookup name)
  write env (.removeSecret name)
  match removed with
  | none => throw (.SecretNotFound name)
  | some stored =>
    convert env
    remove_data_key stored.data_key_id
    remove_persisted_key env stored.data_key_id
    flush env
    record ((AuditEntry.succeeded .Delete).with_secret stored.secret.as_ref)

def rotate_secret (name : String) (new_plaintext : Bytes) : Program C SecretRef := do
  let stored ← find env name
  let (data_key_id,encrypted) ← encryptNew env new_plaintext
  let tick ← look (·.tick)
  let rotated := stored.rotated encrypted (env.now tick) data_key_id
  convert env
  write env (.insertSecret name rotated)
  flush env
  -- the old key goes only now that the new secret is durable
  remove_data_key stored.data_key_id
  remove_persisted_key env stored.data_key_id
  flush env
  record ((AuditEntry.succeeded .Rotate).with_secret rotated.secret.as_ref)
  pure rotated.secret.as_ref

end Daf.SledVault
