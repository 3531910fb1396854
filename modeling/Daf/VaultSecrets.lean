import Daf.KeyRing
import Daf.MissionPlan

/-!
The secrets of the vault and its audit trail, as both stores use them.
-/
namespace Daf.VaultSecrets
open Daf.KeyRing Daf.MissionPlan

abbrev DateTime := Int

structure SecretId where
  uuid : BitVec 128
deriving DecidableEq,Repr

inductive SecretKind where
  | ApiKey
  | Token
  | Certificate
  | Password
  | PrivateKey
  | Custom (tag : String)
deriving DecidableEq,Repr

inductive AgentKind where
  | Orchestrator
  | Specialist
  | Worker
  | Monitor
  | Router
deriving DecidableEq,Repr

inductive AccessPolicy where
  | AnyAgent
  | SpecificAgents (ids : List AgentId)
  | ByCapability (capability : String)
  | ByKind (kind : AgentKind)

structure SecretRef where
  id : SecretId
  name : String
  kind : SecretKind
  version : UInt32
deriving DecidableEq,Repr

/-- A secret. Its value is a ciphertext at rest and the plaintext when it is returned. -/
structure Secret (V : Type) where
  id : SecretId
  kind : SecretKind
  name : String
  encrypted_value : V
  metadata : List (String × String)
  created_at : DateTime
  expires_at : Option DateTime
  rotated_at : Option DateTime
  version : UInt32
  access_policy : AccessPolicy

def Secret.new {V : Type} (id : SecretId) (now : DateTime) (name : String) (kind : SecretKind) (encrypted_value : V) : Secret V :=
  ⟨id,kind,name,encrypted_value,[],now,none,none,1,.AnyAgent⟩

def Secret.with_access_policy {V : Type} (secret : Secret V) (policy : AccessPolicy) : Secret V := { secret with access_policy := policy }

def Secret.as_ref {V : Type} (secret : Secret V) : SecretRef := ⟨secret.id,secret.name,secret.kind,secret.version⟩

/-- The secret with another value. -/
def Secret.withValue {V W : Type} (secret : Secret V) (value : W) : Secret W := { secret with encrypted_value := value }

structure StoredSecret (C : Crypto) where
  secret : Secret C.Cipher
  data_key_id : KeyId

/-- The stored secret under a new data key, one version on. -/
def StoredSecret.rotated {C : Crypto} (stored : StoredSecret C) (encrypted : C.Cipher) (now : DateTime) (id : KeyId) : StoredSecret C :=
  ⟨{ stored.secret with encrypted_value := encrypted, version := stored.secret.version + 1, rotated_at := some now },id⟩

inductive AuditAction where
  | Read
  | Write
  | Delete
  | Rotate
  | Seal
  | Unseal
  | List
deriving DecidableEq,Repr

structure AuditEntry where
  action : AuditAction
  secret_ref : Option SecretRef
  success : Bool
  detail : Option String
deriving DecidableEq,Repr

def AuditEntry.succeeded (action : AuditAction) : AuditEntry := ⟨action,none,true,none⟩
def AuditEntry.failure (action : AuditAction) (detail : String) : AuditEntry := ⟨action,none,false,some detail⟩
def AuditEntry.with_secret (entry : AuditEntry) (secret_ref : SecretRef) : AuditEntry := { entry with secret_ref := some secret_ref }
def AuditEntry.with_detail (entry : AuditEntry) (detail : String) : AuditEntry := { entry with detail := some detail }

def errorText : VaultError → String
  | .Sealed => "vault is sealed — unseal before performing operations"
  | .SecretNotFound name => "secret not found: " ++ name
  | .AccessDenied message => "access denied: " ++ message
  | .Crypto message => "crypto error: " ++ message
  | .KeyNotFound id => "key not found: " ++ id
  | .Storage message => "storage error: " ++ message
  | .Serialization message => "serialization error: " ++ message
  | .Rotation message => "rotation error: " ++ message
  | .Provider message => "provider error: " ++ message
  | .InvalidPassphrase => "invalid passphrase"
  | .Internal message => message

/-- What the outside gives to each step of a store: fresh ids, random draws and the time. -/
structure Draws where
  keyId : Nat → KeyId
  secretId : Nat → SecretId
  material : Nat → Option Material
  nonce : Nat → Option Nonce
  salt : Nat → Option Salt
  now : Nat → DateTime

/-- The data key under the plaintext. -/
def DataKey.encrypt {C : Crypto} (dk : DataKey) (nonce : Option Nonce) (plaintext : Bytes) : Except VaultError C.Cipher :=
  KeyRing.encrypt (C.ofMaterial dk.key_material) nonce plaintext

def DataKey.decrypt {C : Crypto} (dk : DataKey) (ciphertext : C.Cipher) : Except VaultError Bytes :=
  KeyRing.decrypt (C.ofMaterial dk.key_material) ciphertext

end Daf.VaultSecrets
