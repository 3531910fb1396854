import Daf.MemoryVault
import Daf.VaultRuns

/-!
The requests that both vaults answer, and the states that the vaults can reach. In each of
them a secret is stored under its own name, and what was in the audit log is still there.
-/
namespace Daf.VaultRequests
open Daf.KeyRing Daf.VaultSecrets Daf.CrashLog Daf.Fallible

inductive Request where
  | store_secret (name : String) (kind : SecretKind) (plaintext : Bytes) (policy : AccessPolicy)
  | get_secret (name : String)
  | list_secrets
  | delete_secret (name : String)
  | rotate_secret (name : String) (new_plaintext : Bytes)

/-- Whether the call returned and with success, and the state it left. -/
abbrev Outcome (σ : Type) := Option Bool × σ

def outcome {ε σ α : Type} (m : Call ε σ α) (s : σ) : Outcome σ := ((ending m s).1.map Except.isOk,(ending m s).2)

theorem outcome_of {ε σ α : Type} {m : Call ε σ α} {s t : σ} {result : Except ε α} (ended : ending m s = (some result,t)) :
    outcome m s = (some result.isOk,t) := by
  rw [outcome,ended]
  rfl

section
variable {C : Crypto}

def performSled (env : SledVault.Env) (v : SledVault.Vault C) : Request → Outcome (SledVault.Vault C)
  | .store_secret name kind plaintext policy => outcome (SledVault.store_secret env name kind plaintext policy) v
  | .get_secret name => outcome (SledVault.get_secret env name) v
  | .list_secrets => outcome (SledVault.list_secrets env) v
  | .delete_secret name => outcome (SledVault.delete_secret env name) v
  | .rotate_secret name new_plaintext => outcome (SledVault.rotate_secret env name new_plaintext) v

def performMemory (draws : Draws) (m : MemoryVault.Memory C) : Request → Outcome (MemoryVault.Memory C)
  | .store_secret name kind plaintext policy => outcome (MemoryVault.store_secret draws name kind plaintext policy) m
  | .get_secret name => outcome (MemoryVault.get_secret name) m
  | .list_secrets => outcome MemoryVault.list_secrets m
  | .delete_secret name => outcome (MemoryVault.delete_secret name) m
  | .rotate_secret name new_plaintext => outcome (MemoryVault.rotate_secret draws name new_plaintext) m

/-- What can be asked of a vault. -/
inductive Operation where
  | request (request : Request)
  | seal_vault
  | unseal_vault (passphrase : Bytes)

def stepSled (env : SledVault.Env) (v : SledVault.Vault C) : Operation → SledVault.Vault C
  | .request request => (performSled env v request).2
  | .seal_vault => (ending SledVault.seal_vault v).2
  | .unseal_vault passphrase => (ending (SledVault.unseal_vault passphrase) v).2

def stepMemory (draws : Draws) (m : MemoryVault.Memory C) : Operation → MemoryVault.Memory C
  | .request request => (performMemory draws m request).2
  | .seal_vault => (ending MemoryVault.seal_vault m).2
  | .unseal_vault passphrase => (ending (MemoryVault.unseal_vault passphrase) m).2

/-! ### The vault on disk -/

section
open Daf.SledVault

/-- The states of a vault on disk, each step in an environment of its own. -/
inductive ReachedSled : Vault C → Prop
  | blank (audit : List AuditEntry) : ReachedSled ⟨.empty,.new,audit,0⟩
  | initialize_vault {v : Vault C} (env : Env) (passphrase : Bytes) (reached : ReachedSled v) :
    ReachedSled (ending (SledVault.initialize_vault env passphrase) v).2
  | open_vault {v : Vault C} (env : Env) (keep : Nat) (audit : List AuditEntry) (reached : ReachedSled v) :
    ReachedSled (ending (SledVault.open_vault env) { VaultRuns.crashed v keep with audit := audit }).2
  | seal_vault {v : Vault C} (reached : ReachedSled v) : ReachedSled (ending SledVault.seal_vault v).2
  | unseal_vault {v : Vault C} (passphrase : Bytes) (reached : ReachedSled v) : ReachedSled (ending (SledVault.unseal_vault passphrase) v).2
  | request {v : Vault C} (env : Env) (request : Request) (reached : ReachedSled v) : ReachedSled (performSled env v request).2

/-- A secret is written under its own name. -/
def NamedOp : Op C → Prop
  | .insertSecret name stored => stored.secret.name = name
  | _ => True

def Named (v : Vault C) : Prop := ∀ op ∈ v.db.log, NamedOp op

theorem named_trees {log : List (Op C)} (named : ∀ op ∈ log, NamedOp op) :
    ∀ name stored, (trees log).secrets.lookup name = some stored → stored.secret.name = name := by
  induction log using List.reverseRecOn with
  | nil =>
    intro name stored there
    cases there
  | append_singleton log op ih =>
    have before := ih (fun op inside => named op (List.mem_append_left _ inside))
    intro name stored there
    have own := named op (by simp)
    cases op with
    | insertSecret other new =>
      rw [VaultCrash.trees_insertSecret] at there
      by_cases same : name = other
      · rw [if_pos same] at there
        cases there
        rw [same]
        exact own
      · rw [if_neg same] at there
        exact before name stored there
    | removeSecret other =>
      rw [VaultCrash.trees_removeSecret] at there
      by_cases same : name = other
      · rw [if_pos same] at there
        cases there
      · rw [if_neg same] at there
        exact before name stored there
    | _ =>
      rw [VaultCrash.trees_append] at there
      exact before name stored there

theorem Named.lookup {v : Vault C} (named : Named v) {name : String} {stored : StoredSecret C} (there : v.trees.secrets.lookup name = some stored) :
    stored.secret.name = name := named_trees named name stored there

/-- Secrets have their own names, and the log goes on from these entries. -/
def Sound (a : List AuditEntry) (v : Vault C) : Prop := Named v ∧ a <+: v.audit

section
variable {env : Env} {a : List AuditEntry}

theorem sound_read {error : String → VaultError} : Invariant (Sound a) (action env error id : Program C Unit) :=
  VaultCalls.spec_action (fun _ sound => sound) (fun _ sound => sound) (fun _ sound => sound)

theorem sound_flush : Invariant (Sound a) (flush env : Program C Unit) :=
  VaultCalls.spec_action (fun _ sound => sound) (fun _ sound => sound) (fun _ sound => sound)

theorem sound_write {op : Op C} (own : NamedOp op) : Invariant (Sound a) (write env op) := by
  have after : ∀ v : Vault C, Sound a v → Sound a (v.ticked.write op) := by
    intro v ⟨named,grown⟩
    refine ⟨fun other inside => ?_,grown⟩
    rcases List.mem_append.1 inside with old | new
    · exact named other old
    · rw [List.mem_singleton.1 new]
      exact own
  exact VaultCalls.spec_action after after (fun _ sound => sound)

/-- A step that writes nothing and at most appends to the audit log. -/
theorem sound_step {α : Type} {f : Vault C → Ending VaultError (Vault C) α} (same : ∀ v, (f v).2.db.log = v.db.log)
    (grows : ∀ v, v.audit <+: (f v).2.audit) : Invariant (Sound a) (Fallible.step f) := by
  refine invariant_step (fun v sound => ⟨?_,sound.2.trans (grows v)⟩)
  unfold Named
  rw [same]
  exact sound.1

theorem sound_look {α : Type} (f : Vault C → α) : Invariant (Sound a) (look f) := sound_step (fun _ => rfl) (fun _ => List.prefix_rfl)

theorem sound_record (entry : AuditEntry) : Invariant (Sound a) (record entry : Program C Unit) :=
  sound_step (fun _ => rfl) (fun _ => List.prefix_append _ _)

theorem sound_encryptNew (plaintext : Bytes) : Invariant (Sound a) (encryptNew env plaintext : Program C (KeyId × C.Cipher)) := by
  refine spec_bind (sound_step (fun _ => rfl) (fun _ => List.prefix_rfl))
    (fun dk => spec_bind (sound_step (fun _ => rfl) (fun _ => List.prefix_rfl)) (fun encrypted => ?_))
  refine spec_bind (R := fun _ => Sound a) (spec_bind (sound_look _) (fun found => ?_)) (fun _ => spec_pure (fun _ sound => sound))
  cases found with
  | none => exact spec_throw (fun _ sound => sound)
  | some wdk => exact spec_bind sound_read (fun _ => spec_bind sound_read (fun _ => sound_write trivial))

theorem sound_find (name : String) :
    Spec (Sound a) (find env name) (fun (stored : StoredSecret C) v => Sound a v ∧ stored.secret.name = name) (fun _ => Sound a) (Sound a) := by
  refine spec_bind sound_read (fun _ => spec_bind sound_read (fun _ => ?_))
  refine spec_bind (R := fun found v => Sound a v ∧ ∀ stored, found = some stored → stored.secret.name = name)
    (fun v sound => ⟨sound,fun stored there => sound.1.lookup there⟩) (fun found => ?_)
  cases found with
  | none => exact spec_throw (fun _ sound => sound.1)
  | some stored =>
    intro v found
    exact spec_bind sound_read (fun _ => spec_pure (fun _ after => ⟨after,found.2 stored rfl⟩)) v found.1

theorem sound_store (name : String) (kind : SecretKind) (plaintext : Bytes) (policy : AccessPolicy) :
    Invariant (Sound a) (store_secret env name kind plaintext policy : Program C SecretRef) := by
  refine spec_bind sound_read (fun _ => spec_bind sound_read (fun _ => spec_bind (sound_look _) (fun dup => spec_ite (fun _ => ?_) (fun _ => ?_))))
  · exact spec_bind (sound_record _) (fun _ => spec_throw (fun _ sound => sound))
  · refine spec_bind (sound_encryptNew plaintext) (fun made => spec_bind (sound_look _) (fun tick => spec_bind sound_read (fun _ => ?_)))
    refine spec_bind (sound_write ?_) (fun _ => spec_bind sound_flush (fun _ => spec_bind (sound_record _) (fun _ => spec_pure (fun _ sound => sound))))
    rfl

theorem sound_forget (key_id : KeyId) : Invariant (Sound a) (remove_persisted_key env key_id : Program C Unit) :=
  spec_bind sound_read (fun _ => sound_write trivial)

theorem sound_rotate (name : String) (plaintext : Bytes) : Invariant (Sound a) (rotate_secret env name plaintext : Program C SecretRef) := by
  refine spec_bind (sound_find name) (fun stored v found => ?_)
  suffices run : Invariant (Sound a) _ from run v found.1
  refine spec_bind (sound_encryptNew plaintext) (fun made => spec_bind (sound_look _) (fun tick => spec_bind sound_read (fun _ => ?_)))
  refine spec_bind (sound_write ?_) (fun _ => spec_bind sound_flush (fun _ => spec_bind (sound_step (fun _ => rfl) (fun _ => List.prefix_rfl)) (fun _ => ?_)))
  · exact found.2
  · refine spec_bind (sound_forget _) (fun _ => spec_bind sound_flush (fun _ => spec_bind (sound_record _) (fun _ => ?_)))
    exact spec_pure (fun _ sound => sound)

theorem sound_delete (name : String) : Invariant (Sound a) (delete_secret env name : Program C Unit) := by
  refine spec_bind sound_read (fun _ => spec_bind (sound_look _) (fun removed => spec_bind (sound_write trivial) (fun _ => ?_)))
  cases removed with
  | none => exact spec_throw (fun _ sound => sound)
  | some stored =>
    refine spec_bind sound_read (fun _ => spec_bind (sound_step (fun _ => rfl) (fun _ => List.prefix_rfl)) (fun _ => spec_bind (sound_forget _) (fun _ => ?_)))
    exact spec_bind sound_flush (fun _ => sound_record _)

theorem sound_get (name : String) : Invariant (Sound a) (get_secret env name : Program C (Secret Bytes)) := by
  refine spec_bind ((sound_find name).post (fun _ _ found => found.1)) (fun stored => spec_bind (sound_step (fun v => ?_) (fun v => ?_)) (fun _ => ?_))
  · cases v.keyring.unwrap_data_key stored.data_key_id <;> rfl
  · cases v.keyring.unwrap_data_key stored.data_key_id <;> exact List.prefix_rfl
  · exact spec_bind (sound_record _) (fun _ => spec_pure (fun _ sound => sound))

theorem sound_list : Invariant (Sound a) (list_secrets env : Program C (List SecretRef)) := by
  have collected : ∀ (entries : List (StoredSecret C)) refs, Invariant (Sound a) (collectRefs env refs entries) := by
    intro entries
    induction entries with
    | nil => exact fun refs => spec_pure (fun _ sound => sound)
    | cons stored later ih => exact fun refs => spec_bind sound_read (fun _ => spec_bind sound_read (fun _ => ih _))
  refine spec_bind sound_read (fun _ => spec_bind (sound_look _) (fun entries => spec_bind (collected entries []) (fun refs => ?_)))
  exact spec_bind (sound_record _) (fun _ => spec_pure (fun _ sound => sound))

theorem sound_initializing (passphrase : Bytes) : Invariant (Sound a) (initialize_vault env passphrase : Program C Unit) := by
  refine spec_bind (sound_step (fun _ => rfl) (fun _ => List.prefix_rfl)) (fun _ => spec_bind sound_read (fun _ => spec_bind (sound_look _) (fun salt => ?_)))
  cases salt with
  | none =>
    refine spec_bind (sound_look _) (fun check => ?_)
    cases check with
    | none => exact spec_bind sound_flush (fun _ => sound_record _)
    | some check => exact spec_bind (sound_write trivial) (fun _ => spec_bind sound_flush (fun _ => sound_record _))
  | some salt =>
    refine spec_bind (sound_write trivial) (fun _ => spec_bind (sound_look _) (fun check => ?_))
    cases check with
    | none => exact spec_bind sound_flush (fun _ => sound_record _)
    | some check => exact spec_bind (sound_write trivial) (fun _ => spec_bind sound_flush (fun _ => sound_record _))

theorem sound_open : Invariant (Sound a) (open_vault env : Program C Unit) := by
  have restored : ∀ (entries : List (WrappedDataKey C)) wrapped, Invariant (Sound a) (restoreKeys env wrapped entries) := by
    intro entries
    induction entries with
    | nil => exact fun wrapped => spec_pure (fun _ sound => sound)
    | cons wdk later ih => exact fun wrapped => spec_bind sound_read (fun _ => spec_bind sound_read (fun _ => ih _))
  refine spec_bind sound_read (fun _ => spec_bind sound_read (fun _ => spec_bind sound_read (fun _ => spec_bind sound_read (fun _ => ?_))))
  refine spec_bind (sound_look _) (fun salt => spec_bind sound_read (fun _ => spec_bind (sound_look _) (fun check => ?_)))
  split
  · split
    · exact spec_bind (sound_look _) (fun _ => spec_bind (restored _ _) (fun _ => sound_step (fun _ => rfl) (fun _ => List.prefix_rfl)))
    · exact spec_throw (fun _ sound => sound)
  · exact sound_step (fun _ => rfl) (fun _ => List.prefix_rfl)

theorem sound_seal : Invariant (Sound a) (seal_vault : Program C Unit) := spec_bind (sound_step (fun _ => rfl) (fun _ => List.prefix_rfl)) (fun _ => sound_record _)

theorem sound_unseal (passphrase : Bytes) : Invariant (Sound a) (unseal_vault passphrase : Program C Unit) := by
  refine sound_step (fun v => ?_) (fun v => ?_)
  · simp only
    split <;> rfl
  · simp only
    split <;> exact List.prefix_append _ _

theorem crashed_named {v : Vault C} (named : Named v) (keep : Nat) (audit : List AuditEntry) :
    Named { VaultRuns.crashed v keep with audit := audit } :=
  fun op inside => named op (List.mem_of_mem_take inside)

end

theorem request_sound {a : List AuditEntry} (env : Env) (request : Request) {v : Vault C} (sound : Sound a v) : Sound a (performSled env v request).2 := by
  cases request with
  | store_secret name kind plaintext policy => exact (sound_store name kind plaintext policy).after sound
  | get_secret name => exact (sound_get name).after sound
  | list_secrets => exact sound_list.after sound
  | delete_secret name => exact (sound_delete name).after sound
  | rotate_secret name new_plaintext => exact (sound_rotate name new_plaintext).after sound

theorem Named.sound {v : Vault C} (named : Named v) : Sound v.audit v := ⟨named,List.prefix_rfl⟩

theorem ReachedSled.named {v : Vault C} (reached : ReachedSled v) : Named v := by
  induction reached with
  | blank audit => exact fun op inside => by cases inside
  | initialize_vault env passphrase _ named => exact ((sound_initializing passphrase).after named.sound).1
  | open_vault env keep audit _ named => exact (sound_open.after (crashed_named named keep audit).sound).1
  | seal_vault _ named => exact (sound_seal.after named.sound).1
  | unseal_vault passphrase _ named => exact ((sound_unseal passphrase).after named.sound).1
  | request env request _ named => exact (request_sound env request named.sound).1

end

/-! ### The vault in memory -/

section
open Daf.MemoryVault

/-- The states of a vault in memory. -/
inductive ReachedMemory (draws : Draws) : Memory C → Prop
  | new {m : Memory C} (passphrase : Bytes) (audit : List AuditEntry) (made : Memory.new draws passphrase audit = .ok m) : ReachedMemory draws m
  | seal_vault {m : Memory C} (reached : ReachedMemory draws m) : ReachedMemory draws (ending MemoryVault.seal_vault m).2
  | unseal_vault {m : Memory C} (passphrase : Bytes) (reached : ReachedMemory draws m) :
    ReachedMemory draws (ending (MemoryVault.unseal_vault passphrase) m).2
  | request {m : Memory C} (request : Request) (reached : ReachedMemory draws m) : ReachedMemory draws (performMemory draws m request).2

def NamedMemory (m : Memory C) : Prop := ∀ name stored, m.secrets.lookup name = some stored → stored.secret.name = name

/-- Secrets have their own names, and the log goes on from these entries. -/
def SoundMemory (a : List AuditEntry) (m : Memory C) : Prop := NamedMemory m ∧ a <+: m.audit

section
variable {draws : Draws} {a : List AuditEntry}

theorem memory_sound_step {α : Type} {f : Memory C → Ending VaultError (Memory C) α} (same : ∀ m, (f m).2.secrets = m.secrets)
    (grows : ∀ m, m.audit <+: (f m).2.audit) : Invariant (SoundMemory a) (Fallible.step f) := by
  refine invariant_step (fun m sound => ⟨?_,sound.2.trans (grows m)⟩)
  unfold NamedMemory
  rw [same]
  exact sound.1

theorem memory_sound_record (entry : AuditEntry) : Invariant (SoundMemory a) (record entry : Program C Unit) :=
  memory_sound_step (fun _ => rfl) (fun _ => List.prefix_append _ _)

theorem memory_sound_insert {name : String} {stored : StoredSecret C} (own : stored.secret.name = name) :
    Invariant (SoundMemory a) (insert name stored) := by
  refine invariant_step (fun m sound => ⟨fun other found there => ?_,sound.2⟩)
  by_cases same : other = name
  · subst same
    cases (AList.lookup_insert _).symm.trans there
    exact own
  · exact sound.1 other found ((AList.lookup_insert_ne same).symm.trans there)

theorem memory_sound_remove (name : String) : Invariant (SoundMemory a) (remove name : Program C Unit) := by
  refine invariant_step (fun m sound => ⟨fun other found there => ?_,sound.2⟩)
  by_cases same : other = name
  · subst same
    cases (AList.lookup_erase _ _).symm.trans there
  · exact sound.1 other found ((AList.lookup_erase_ne same).symm.trans there)

theorem memory_sound_find (name : String) :
    Spec (SoundMemory a) (find name) (fun (stored : StoredSecret C) m => SoundMemory a m ∧ stored.secret.name = name)
      (fun _ => SoundMemory a) (SoundMemory a) := by
  refine spec_bind (R := fun found m => SoundMemory a m ∧ ∀ stored, found = some stored → stored.secret.name = name)
    (fun m sound => ⟨sound,fun stored there => sound.1 name stored there⟩) (fun found => ?_)
  cases found with
  | none => exact spec_throw (fun _ found => found.1)
  | some stored => exact spec_pure (fun _ found => ⟨found.1,found.2 stored rfl⟩)

theorem memory_sound_store (name : String) (kind : SecretKind) (plaintext : Bytes) (policy : AccessPolicy) :
    Invariant (SoundMemory a) (store_secret draws name kind plaintext policy : Program C SecretRef) := by
  refine spec_bind (memory_sound_step (fun _ => rfl) (fun _ => List.prefix_rfl)) (fun dup => spec_ite (fun _ => spec_throw (fun _ sound => sound)) (fun _ => ?_))
  refine spec_bind (memory_sound_step (fun _ => rfl) (fun _ => List.prefix_rfl))
    (fun dk => spec_bind (memory_sound_step (fun _ => rfl) (fun _ => List.prefix_rfl)) (fun encrypted => ?_))
  refine spec_bind (memory_sound_step (fun _ => rfl) (fun _ => List.prefix_rfl)) (fun tick => spec_bind (memory_sound_insert rfl) (fun _ => ?_))
  exact spec_bind (memory_sound_record _) (fun _ => spec_pure (fun _ sound => sound))

theorem memory_sound_rotate (name : String) (plaintext : Bytes) : Invariant (SoundMemory a) (rotate_secret draws name plaintext : Program C SecretRef) := by
  refine spec_bind (memory_sound_find name) (fun stored m found => ?_)
  suffices run : Invariant (SoundMemory a) _ from run m found.1
  refine spec_bind (memory_sound_step (fun _ => rfl) (fun _ => List.prefix_rfl))
    (fun dk => spec_bind (memory_sound_step (fun _ => rfl) (fun _ => List.prefix_rfl)) (fun encrypted => ?_))
  refine spec_bind (memory_sound_step (fun _ => rfl) (fun _ => List.prefix_rfl))
    (fun _ => spec_bind (memory_sound_step (fun _ => rfl) (fun _ => List.prefix_rfl)) (fun tick => ?_))
  refine spec_bind (memory_sound_insert ?_) (fun _ => spec_bind (memory_sound_record _) (fun _ => spec_pure (fun _ sound => sound)))
  exact found.2

theorem memory_sound_delete (name : String) : Invariant (SoundMemory a) (delete_secret name : Program C Unit) := by
  refine spec_bind ((memory_sound_find name).post (fun _ _ found => found.1)) (fun stored => spec_bind (memory_sound_remove name) (fun _ => ?_))
  exact spec_bind (memory_sound_step (fun _ => rfl) (fun _ => List.prefix_rfl)) (fun _ => memory_sound_record _)

theorem memory_sound_get (name : String) : Invariant (SoundMemory a) (get_secret name : Program C (Secret Bytes)) := by
  refine spec_bind ((memory_sound_find name).post (fun _ _ found => found.1)) (fun stored => spec_bind (memory_sound_step (fun m => ?_) (fun m => ?_)) (fun _ => ?_))
  · cases m.keyring.unwrap_data_key stored.data_key_id <;> rfl
  · cases m.keyring.unwrap_data_key stored.data_key_id <;> exact List.prefix_rfl
  · exact spec_bind (memory_sound_record _) (fun _ => spec_pure (fun _ sound => sound))

theorem memory_sound_list : Invariant (SoundMemory a) (list_secrets : Program C (List SecretRef)) :=
  spec_bind (memory_sound_step (fun _ => rfl) (fun _ => List.prefix_rfl)) (fun _ => spec_bind (memory_sound_record _) (fun _ => spec_pure (fun _ sound => sound)))

theorem memory_request_sound (request : Request) {m : Memory C} (sound : SoundMemory a m) : SoundMemory a (performMemory draws m request).2 := by
  cases request with
  | store_secret name kind plaintext policy => exact (memory_sound_store name kind plaintext policy).after sound
  | get_secret name => exact (memory_sound_get name).after sound
  | list_secrets => exact memory_sound_list.after sound
  | delete_secret name => exact (memory_sound_delete name).after sound
  | rotate_secret name new_plaintext => exact (memory_sound_rotate name new_plaintext).after sound

theorem NamedMemory.sound {m : Memory C} (named : NamedMemory m) : SoundMemory m.audit m := ⟨named,List.prefix_rfl⟩

theorem ReachedMemory.named {m : Memory C} (reached : ReachedMemory draws m) : NamedMemory m := by
  induction reached with
  | new passphrase audit made =>
    unfold Memory.new at made
    split at made
    · cases made
    · cases made
      intro name stored there
      cases there
  | seal_vault _ named => exact named
  | unseal_vault passphrase _ named => exact named
  | request request _ named => exact (memory_request_sound request named.sound).1

end
end
end
end Daf.VaultRequests
