import Daf.Runs
import Daf.VaultContents
import Daf.VaultSealed

/-!
The vault in memory and the vault on disk, when every draw is made and every step is done: both answer as the safe of their passphrase does, so that
their users cannot tell them apart.
-/
namespace Daf.VaultEquivalence
open Daf.KeyRing Daf.KeyEnvelope Daf.VaultSecrets Daf.CrashLog Daf.Fallible Daf.Runs Daf.VaultCalls Daf.VaultRequests Daf.VaultSealed Daf.VaultSafe Daf.VaultContents
open Daf.VaultRuns (Faultless answering_distinct)

section
variable {σ α : Type}

/-- What is seen of the end of a call, and the state that it leaves. -/
def seen (view : α → View) (m : Call VaultError σ α) (s : σ) : Option (Except VaultError View) × σ :=
  ((ending m s).1.map fun result => result.map view,(ending m s).2)

theorem seen_of {view : α → View} {m : Call VaultError σ α} {s t : σ} {result : Except VaultError α} (ended : ending m s = (some result,t)) :
    seen view m s = (some (result.map view),t) := by
  rw [seen,ended]
  rfl

end

section
variable {C : Crypto}

def answerMemory (draws : Draws) (m : MemoryVault.Memory C) : Operation → Option (Except VaultError View) × MemoryVault.Memory C
  | .request (.store_secret name kind plaintext policy) => seen referenceView (MemoryVault.store_secret draws name kind plaintext policy) m
  | .request (.get_secret name) => seen secretView (MemoryVault.get_secret name) m
  | .request .list_secrets => seen listView MemoryVault.list_secrets m
  | .request (.delete_secret name) => seen (fun _ => .done) (MemoryVault.delete_secret name) m
  | .request (.rotate_secret name new_plaintext) => seen referenceView (MemoryVault.rotate_secret draws name new_plaintext) m
  | .seal_vault => seen (fun _ => .done) MemoryVault.seal_vault m
  | .unseal_vault passphrase => seen (fun _ => .done) (MemoryVault.unseal_vault passphrase) m

def answerSled (env : SledVault.Env) (v : SledVault.Vault C) : Operation → Option (Except VaultError View) × SledVault.Vault C
  | .request (.store_secret name kind plaintext policy) => seen referenceView (SledVault.store_secret env name kind plaintext policy) v
  | .request (.get_secret name) => seen secretView (SledVault.get_secret env name) v
  | .request .list_secrets => seen listView (SledVault.list_secrets env) v
  | .request (.delete_secret name) => seen (fun _ => .done) (SledVault.delete_secret env name) v
  | .request (.rotate_secret name new_plaintext) => seen referenceView (SledVault.rotate_secret env name new_plaintext) v
  | .seal_vault => seen (fun _ => .done) SledVault.seal_vault v
  | .unseal_vault passphrase => seen (fun _ => .done) (SledVault.unseal_vault passphrase) v

/-- The safe is never interrupted. -/
def answerSafe (p : Bytes) (safe : Safe) (op : Operation) : Option (Except VaultError View) × Safe := (some (safe.act p op).1,(safe.act p op).2)

/-! ### Draws -/

/-- No draw fails. -/
structure Fair (draws : Draws) : Prop where
  material : ∀ n, ∃ a, draws.material n = some a
  nonce : ∀ n, ∃ a, draws.nonce n = some a
  salt : ∀ n, ∃ t, draws.salt n = some t

/-- What is drawn by a call that makes its data key at one step and its secret at another. -/
structure Drawn (draws : Draws) (n k : Nat) (d : Draw) : Prop where
  id : draws.keyId n = d.id
  material : draws.material n = some d.material
  nonce : draws.nonce n = some d.nonce
  inner : draws.nonce (n + 1) = some d.inner
  secretId : draws.secretId k = d.secretId
  now : draws.now k = d.now

variable {draws : Draws} {p : Bytes} {s : Salt} {safe : Safe}

theorem Fair.drawn (fair : Fair draws) (n k : Nat) : ∃ d, Drawn draws n k d := by
  obtain ⟨a,material⟩ := fair.material n
  obtain ⟨nonce,outer⟩ := fair.nonce n
  obtain ⟨inner,under⟩ := fair.nonce (n + 1)
  exact ⟨⟨draws.keyId n,draws.secretId k,a,nonce,inner,draws.now k⟩,rfl,material,outer,under,rfl,rfl⟩

/-- An open ring makes a data key. -/
theorem generate_open {n k : Nat} {d : Draw} (drawn : Drawn draws n k d) {r : Ring C} {master : MasterKey C} (held : r.master = some master) :
    r.generate_data_key (draws.keyId n) (draws.material n) (draws.nonce n) = (.ok ⟨d.id,d.material⟩,r.import_wrapped_key (d.wrapped master)) := by
  simp [Ring.generate_data_key,held,drawn.id,drawn.material,drawn.nonce,DataKey.generate,encrypt,Ring.import_wrapped_key,Draw.wrapped]

/-! ### In memory -/

section
open Daf.MemoryVault
variable {m : Memory C}

def contentsMemory (m : Memory C) : Contents C := ⟨m.secrets,m.keyring⟩

/-- The call returns, and it is a step on what is in the vault. -/
def MemorySteps (draws : Draws) (m : Memory C) (op : Operation) (ended : Option (Except VaultError View) × Memory C) : Prop :=
  ∃ answer, ended.1 = some answer ∧ Step draws (contentsMemory m) m.tick op answer (contentsMemory ended.2) ended.2.tick

theorem memory_encrypts {α : Type} {k : Nat} {d : Draw} (drawn : Drawn draws m.tick k d) {master : MasterKey C} (held : m.keyring.master = some master)
    (plaintext : Bytes) (f : DataKey → C.Cipher → Program C α) :
    ending (generate_data_key draws >>= fun dk => encryptWith draws dk plaintext >>= f dk) m =
      ending (f ⟨d.id,d.material⟩ (d.encrypted plaintext)) ⟨m.secrets,m.keyring.import_wrapped_key (d.wrapped master),m.audit,m.tick + 2⟩ := by
  rw [ending_bind,generate_data_key,ending_step,generate_open drawn held]
  show ending (encryptWith draws _ plaintext >>= _) _ = _
  rw [ending_bind,encryptWith,ending_step]
  show continue_ _ (some (DataKey.encrypt _ (draws.nonce (m.tick + 1)) plaintext),_) = _
  rw [drawn.inner]
  rfl

theorem memory_refuses {α : Type} (sealed : m.keyring.master = none) (f : DataKey → Program C α) :
    ending (generate_data_key draws >>= f) m = (some (.error .Sealed),m.ticked) := by
  rw [ending_bind,generate_data_key,ending_step,generate_sealed sealed]
  rfl

theorem memory_store (fair : Fair draws) (m : Memory C) (name : String) (kind : SecretKind) (plaintext : Bytes) (policy : AccessPolicy) :
    MemorySteps draws m (.request (.store_secret name kind plaintext policy)) (seen referenceView (store_secret draws name kind plaintext policy) m) := by
  cases there : m.secrets.lookup name with
  | some stored =>
    rw [seen_of (MemoryRuns.store_duplicate draws there kind plaintext policy)]
    exact ⟨_,rfl,.duplicate there (Nat.le_refl _)⟩
  | none =>
    have begun := MemoryRuns.store_begins draws there kind plaintext policy
    cases held : m.keyring.master with
    | none =>
      rw [seen_of (begun.trans (memory_refuses held _))]
      exact ⟨_,rfl,.store_sealed there held (Nat.le_succ _)⟩
    | some master =>
      obtain ⟨d,drawn⟩ := fair.drawn m.tick (m.tick + 2)
      have ended : ending (store_secret draws name kind plaintext policy) m =
          (some (.ok (d.stored name kind plaintext policy : StoredSecret C).secret.as_ref),
            ⟨m.secrets.insert name (d.stored name kind plaintext policy),m.keyring.import_wrapped_key (d.wrapped master),
              m.audit ++ [(AuditEntry.succeeded .Write).with_secret (d.stored name kind plaintext policy : StoredSecret C).secret.as_ref],m.tick + 2⟩) := by
        refine (begun.trans (memory_encrypts drawn held plaintext _)).trans ?_
        rw [Draw.stored,← drawn.secretId,← drawn.now]
        rfl
      rw [seen_of ended]
      exact ⟨_,rfl,.store there held ⟨m.tick,Nat.le_refl _,Nat.lt_add_of_pos_right (by decide),drawn.id⟩⟩

theorem memory_get (m : Memory C) (name : String) : MemorySteps draws m (.request (.get_secret name)) (seen secretView (get_secret name) m) := by
  cases there : m.secrets.lookup name with
  | none =>
    have ended : ending (get_secret name) m = (some (.error (.SecretNotFound name)),m) := MemoryRuns.find_missing there _
    rw [seen_of ended]
    exact ⟨_,rfl,.get_missing there (Nat.le_refl _)⟩
  | some stored =>
    obtain ⟨audit,ended⟩ : ∃ audit, ending (get_secret name) m = (some ((contentsMemory m).read stored),{ m with audit := audit }) := by
      rw [get_secret,MemoryRuns.find_there there]
      simp only [ending_bind,ending_step,Contents.read,contentsMemory]
      cases m.keyring.unwrap_data_key stored.data_key_id with
      | error e => exact ⟨m.audit,rfl⟩
      | ok dk =>
        simp only
        cases DataKey.decrypt dk stored.secret.encrypted_value with
        | error e => exact ⟨m.audit,rfl⟩
        | ok plaintext => exact ⟨m.audit ++ [(AuditEntry.succeeded .Read).with_secret stored.secret.as_ref],rfl⟩
    rw [seen_of ended]
    exact ⟨_,rfl,.get there (Nat.le_refl _)⟩

theorem memory_delete (m : Memory C) (name : String) : MemorySteps draws m (.request (.delete_secret name)) (seen (fun _ => .done) (delete_secret name) m) := by
  cases there : m.secrets.lookup name with
  | none =>
    have ended : ending (delete_secret name) m = (some (.error (.SecretNotFound name)),m) := MemoryRuns.find_missing there _
    rw [seen_of ended]
    exact ⟨_,rfl,.delete_missing there (Nat.le_refl _)⟩
  | some stored =>
    rw [seen_of (MemoryRuns.delete_ends there)]
    exact ⟨_,rfl,.delete there (Nat.le_refl _)⟩

theorem memory_rotate (fair : Fair draws) (m : Memory C) (name : String) (plaintext : Bytes) :
    MemorySteps draws m (.request (.rotate_secret name plaintext)) (seen referenceView (rotate_secret draws name plaintext) m) := by
  cases there : m.secrets.lookup name with
  | none =>
    have ended : ending (rotate_secret draws name plaintext) m = (some (.error (.SecretNotFound name)),m) := MemoryRuns.find_missing there _
    rw [seen_of ended]
    exact ⟨_,rfl,.rotate_missing there (Nat.le_refl _)⟩
  | some old =>
    have begun := MemoryRuns.rotate_begins draws there plaintext
    cases held : m.keyring.master with
    | none =>
      rw [seen_of (begun.trans (memory_refuses held _))]
      exact ⟨_,rfl,.rotate_sealed there held (Nat.le_succ _)⟩
    | some master =>
      obtain ⟨d,drawn⟩ := fair.drawn m.tick (m.tick + 2)
      have ended : ending (rotate_secret draws name plaintext) m =
          (some (.ok (d.rotated old plaintext).secret.as_ref),⟨m.secrets.insert name (d.rotated old plaintext),
            ((m.keyring.import_wrapped_key (d.wrapped master)).remove_data_key old.data_key_id).2,
            m.audit ++ [(AuditEntry.succeeded .Rotate).with_secret (d.rotated old plaintext).secret.as_ref],m.tick + 2⟩) := by
        refine (begun.trans (memory_encrypts drawn held plaintext _)).trans ?_
        rw [Draw.rotated,← drawn.now]
        rfl
      rw [seen_of ended]
      exact ⟨_,rfl,.rotate there held ⟨m.tick,Nat.le_refl _,Nat.lt_add_of_pos_right (by decide),drawn.id⟩⟩

theorem memory_steps (fair : Fair draws) (m : Memory C) (op : Operation) : MemorySteps draws m op (answerMemory draws m op) := by
  cases op with
  | request request =>
    cases request with
    | store_secret name kind plaintext policy => exact memory_store fair m name kind plaintext policy
    | get_secret name => exact memory_get m name
    | list_secrets => exact ⟨_,rfl,.list (List.Perm.refl _) (Nat.le_refl _)⟩
    | delete_secret name => exact memory_delete m name
    | rotate_secret name new_plaintext => exact memory_rotate fair m name new_plaintext
  | seal_vault => exact ⟨_,rfl,.sealing (Nat.le_refl _)⟩
  | unseal_vault passphrase => exact ⟨_,rfl,.unsealing (Nat.le_refl _)⟩

end

/-! ### On disk -/

section
open Daf.SledVault
variable {env : Env} {v : Vault C}

def contentsSled (v : Vault C) : Contents C := ⟨v.trees.secrets,v.keyring⟩

def SledSteps (env : Env) (v : Vault C) (op : Operation) (ended : Option (Except VaultError View) × Vault C) : Prop :=
  ∃ answer, ended.1 = some answer ∧ Step env.toDraws (contentsSled v) v.tick op answer (contentsSled ended.2) ended.2.tick

/-- A step that is done is followed by the rest. -/
theorem action_then {α : Type} (faultless : Faultless env) (error : String → VaultError) (effect : Vault C → Vault C) (f : Unit → Program C α) (v : Vault C) :
    ending (action env error effect >>= f) v = ending (f ()) (effect v.ticked) := by
  rw [ending_bind,action,ending_step,faultless]
  rfl

theorem access_then {α : Type} (faultless : Faultless env) (f : Unit → Program C α) (v : Vault C) : ending (access env >>= f) v = ending (f ()) v.ticked :=
  action_then faultless _ _ f v

theorem convert_then {α : Type} (faultless : Faultless env) (f : Unit → Program C α) (v : Vault C) : ending (convert env >>= f) v = ending (f ()) v.ticked :=
  action_then faultless _ _ f v

theorem write_then {α : Type} (faultless : Faultless env) (op : Op C) (f : Unit → Program C α) (v : Vault C) :
    ending (write env op >>= f) v = ending (f ()) (v.ticked.write op) := action_then faultless _ _ f v

theorem flush_then {α : Type} (faultless : Faultless env) (f : Unit → Program C α) (v : Vault C) :
    ending (flush env >>= f) v = ending (f ()) v.ticked.flushed := action_then faultless _ _ f v

theorem look_then {α β : Type} (g : Vault C → α) (f : α → Program C β) (v : Vault C) : ending (look g >>= f) v = ending (f (g v)) v := rfl

theorem persist_run (faultless : Faultless env) {id : KeyId} {wdk : WrappedDataKey C} (there : v.keyring.wrapped_keys.lookup id = some wdk) :
    ending (persistNew env id) v = (some (.ok ()),⟨v.db.write (.insertKey (keyPath wdk.id) wdk),v.keyring,v.audit,v.tick + 3⟩) := by
  rw [persistNew,look_then,there]
  show ending (persist_wrapped_key env wdk) v = _
  rw [persist_wrapped_key,access_then faultless,convert_then faultless,write,action,ending_step,faultless]
  rfl

theorem sled_encrypts {α : Type} (faultless : Faultless env) {k : Nat} {d : Draw} (drawn : Drawn env.toDraws v.tick k d) {master : MasterKey C}
    (held : v.keyring.master = some master) (plaintext : Bytes) (f : KeyId × C.Cipher → Program C α) :
    ending (encryptNew env plaintext >>= f) v = ending (f (d.id,d.encrypted plaintext))
      ⟨v.db.write (.insertKey (keyPath d.id) (d.wrapped master)),v.keyring.import_wrapped_key (d.wrapped master),v.audit,v.tick + 5⟩ := by
  have wrapped : (v.keyring.import_wrapped_key (d.wrapped master)).wrapped_keys.lookup d.id = some (d.wrapped master) := AList.lookup_insert _
  have ended : ending (encryptNew env plaintext) v = (some (.ok (d.id,d.encrypted plaintext)),
      ⟨v.db.write (.insertKey (keyPath d.id) (d.wrapped master)),v.keyring.import_wrapped_key (d.wrapped master),v.audit,v.tick + 5⟩) := by
    rw [encryptNew,ending_bind,generate_data_key,ending_step,generate_open drawn held]
    show ending (encryptWith env _ plaintext >>= _) _ = _
    rw [ending_bind,encryptWith,ending_step]
    show continue_ _ (some (DataKey.encrypt _ (env.nonce (v.tick + 1)) plaintext),_) = _
    rw [drawn.inner]
    show ending (persistNew env d.id >>= _) _ = _
    rw [ending_bind,persist_run faultless wrapped]
    rfl
  rw [ending_bind,ended]
  rfl

theorem sled_refuses {α : Type} (sealed : v.keyring.master = none) (plaintext : Bytes) (f : KeyId × C.Cipher → Program C α) :
    ending (encryptNew env plaintext >>= f) v = (some (.error .Sealed),v.ticked) := by
  rw [ending_bind,encryptNew,ending_bind,generate_data_key,ending_step,generate_sealed sealed]
  rfl

theorem find_missing {α : Type} (faultless : Faultless env) {name : String} (absent : v.trees.secrets.lookup name = none) (f : StoredSecret C → Program C α) :
    ending (find env name >>= f) v = (some (.error (.SecretNotFound name)),v.ticked.ticked) := by
  have again : v.ticked.ticked.trees.secrets.lookup name = none := absent
  rw [ending_bind,find,access_then faultless,access_then faultless,look_then,again]
  rfl

theorem find_there {α : Type} (faultless : Faultless env) {name : String} {stored : StoredSecret C} (there : v.trees.secrets.lookup name = some stored)
    (f : StoredSecret C → Program C α) : ending (find env name >>= f) v = ending (f stored) v.ticked.ticked.ticked := by
  have again : v.ticked.ticked.trees.secrets.lookup name = some stored := there
  rw [ending_bind,find,access_then faultless,access_then faultless,look_then,again]
  simp only
  rw [convert_then faultless]
  rfl

theorem sled_store (faultless : Faultless env) (fair : Fair env.toDraws) (v : Vault C) (name : String) (kind : SecretKind) (plaintext : Bytes)
    (policy : AccessPolicy) :
    SledSteps env v (.request (.store_secret name kind plaintext policy)) (seen referenceView (store_secret env name kind plaintext policy) v) := by
  have begun : ending (store_secret env name kind plaintext policy) v = ending (if (v.trees.secrets.lookup name).isSome then do
        let err := VaultError.Storage ("secret '" ++ name ++ "' already exists")
        record (.failure .Write (errorText err))
        throw err
      else do
        let made ← encryptNew env plaintext
        let tick ← look (·.tick)
        let secret := (Secret.new (env.secretId tick) (env.now tick) name kind made.2).with_access_policy policy
        convert env
        write env (.insertSecret name ⟨secret,made.1⟩)
        flush env
        record ((AuditEntry.succeeded .Write).with_secret secret.as_ref)
        pure secret.as_ref) v.ticked.ticked := by
    rw [store_secret,access_then faultless,access_then faultless,look_then]
    rfl
  cases there : v.trees.secrets.lookup name with
  | some stored =>
    rw [there] at begun
    rw [seen_of begun]
    exact ⟨_,rfl,.duplicate there (Nat.le_add_right _ 2)⟩
  | none =>
    rw [there] at begun
    obtain ⟨d,drawn⟩ := fair.drawn (v.tick + 2) (v.tick + 7)
    cases held : v.keyring.master with
    | none =>
      rw [seen_of (begun.trans (sled_refuses (v := v.ticked.ticked) held plaintext _))]
      exact ⟨_,rfl,.store_sealed there held (Nat.le_add_right _ 3)⟩
    | some master =>
      have ended : ending (store_secret env name kind plaintext policy) v =
          (some (.ok (d.stored name kind plaintext policy : StoredSecret C).secret.as_ref),
            ⟨((v.db.write (.insertKey (keyPath d.id) (d.wrapped master))).write (.insertSecret name (d.stored name kind plaintext policy))).flush,
              v.keyring.import_wrapped_key (d.wrapped master),
              v.audit ++ [(AuditEntry.succeeded .Write).with_secret (d.stored name kind plaintext policy : StoredSecret C).secret.as_ref],v.tick + 10⟩) := by
        refine (begun.trans (sled_encrypts (v := v.ticked.ticked) faultless drawn held plaintext _)).trans ?_
        rw [look_then,convert_then faultless,write_then faultless,flush_then faultless,Draw.stored,← drawn.secretId,← drawn.now]
        rfl
      rw [seen_of ended]
      refine ⟨_,rfl,?_⟩
      show Step _ _ _ _ _ ⟨(SledVault.trees (v.db.log ++ [_] ++ [_])).secrets,_⟩ _
      rw [VaultCrash.trees_append,VaultCrash.trees_append]
      exact .store there held ⟨v.tick + 2,Nat.le_add_right _ 2,Nat.add_lt_add_left (by decide) _,drawn.id⟩

theorem sled_get (faultless : Faultless env) (v : Vault C) (name : String) :
    SledSteps env v (.request (.get_secret name)) (seen secretView (get_secret env name) v) := by
  cases there : v.trees.secrets.lookup name with
  | none =>
    have ended : ending (get_secret env name) v = (some (.error (.SecretNotFound name)),v.ticked.ticked) := find_missing faultless there _
    rw [seen_of ended]
    exact ⟨_,rfl,.get_missing there (Nat.le_add_right _ 2)⟩
  | some stored =>
    obtain ⟨audit,ended⟩ : ∃ audit, ending (get_secret env name) v = (some ((contentsSled v).read stored),{ v with audit := audit, tick := v.tick + 3 }) := by
      rw [get_secret,find_there faultless there]
      simp only [ending_bind,ending_step,Contents.read,contentsSled]
      have again : v.ticked.ticked.ticked.keyring = v.keyring := rfl
      rw [again]
      cases v.keyring.unwrap_data_key stored.data_key_id with
      | error e => exact ⟨v.audit,rfl⟩
      | ok dk =>
        simp only
        cases DataKey.decrypt dk stored.secret.encrypted_value with
        | error e => exact ⟨v.audit,rfl⟩
        | ok plaintext => exact ⟨v.audit ++ [(AuditEntry.succeeded .Read).with_secret stored.secret.as_ref],rfl⟩
    rw [seen_of ended]
    exact ⟨_,rfl,.get there (Nat.le_add_right _ 3)⟩

theorem collect_run (faultless : Faultless env) (v : Vault C) (refs : List SecretRef) (entries : List (StoredSecret C)) :
    ending (collectRefs env refs entries) v = (some (.ok (refs ++ entries.map (·.secret.as_ref))),{ v with tick := v.tick + 2 * entries.length }) := by
  induction entries generalizing refs v with
  | nil =>
    rw [List.map_nil,List.append_nil]
    rfl
  | cons stored later ih =>
    rw [collectRefs,access_then faultless,convert_then faultless,ih,List.map_cons,List.append_assoc,List.length_cons,Nat.mul_succ]
    show (_,(⟨_,_,_,v.tick + 1 + 1 + 2 * later.length⟩ : Vault C)) = (_,(⟨_,_,_,v.tick + (2 * later.length + 2)⟩ : Vault C))
    rw [Nat.add_assoc v.tick 1 1,Nat.add_assoc,Nat.add_comm 2]
    rfl

theorem sorted_perm (t : Trees C) : t.sorted.Perm (t.secrets.entries.map Sigma.snd) := (List.mergeSort_perm _ _).map _

theorem sled_list (faultless : Faultless env) (v : Vault C) : SledSteps env v (.request .list_secrets) (seen listView (list_secrets env) v) := by
  have ended : ending (list_secrets env) v = (some (.ok (v.trees.sorted.map (·.secret.as_ref))),
      ⟨v.db,v.keyring,v.audit ++ [AuditEntry.succeeded .List],v.tick + 1 + 2 * v.trees.sorted.length⟩) := by
    rw [list_secrets,access_then faultless,look_then,ending_bind,collect_run faultless]
    rfl
  rw [seen_of ended]
  have all := (sorted_perm v.trees).map (·.secret.as_ref)
  rw [List.map_map] at all
  refine ⟨_,rfl,.list all ?_⟩
  show v.tick ≤ v.tick + 1 + 2 * v.trees.sorted.length
  omega

theorem forget_then {α : Type} (faultless : Faultless env) (id : KeyId) (f : Unit → Program C α) (v : Vault C) :
    ending (remove_data_key id >>= fun _ => remove_persisted_key env id >>= f) v =
      ending (f ()) ⟨v.db.write (.removeKey (keyPath id)),(v.keyring.remove_data_key id).2,v.audit,v.tick + 2⟩ := by
  have ended : ∀ u : Vault C, ending (remove_persisted_key env id) u = (some (.ok ()),⟨u.db.write (.removeKey (keyPath id)),u.keyring,u.audit,u.tick + 2⟩) := by
    intro u
    rw [remove_persisted_key,access_then faultless,write,action,ending_step,faultless]
    rfl
  rw [ending_bind,remove_data_key,ending_step]
  show ending (remove_persisted_key env id >>= f) _ = _
  rw [ending_bind,ended]
  rfl

theorem sled_delete (faultless : Faultless env) (v : Vault C) (name : String) :
    SledSteps env v (.request (.delete_secret name)) (seen (fun _ => .done) (delete_secret env name) v) := by
  cases there : v.trees.secrets.lookup name with
  | none =>
    have ended : ending (delete_secret env name) v = (some (.error (.SecretNotFound name)),v.ticked.ticked.write (.removeSecret name)) := by
      have again : v.ticked.trees.secrets.lookup name = none := there
      rw [delete_secret,access_then faultless,look_then,write_then faultless,again]
      rfl
    rw [seen_of ended]
    refine ⟨_,rfl,?_⟩
    have missing : name ∉ v.trees.secrets := AList.lookup_eq_none.mp there
    show Step _ _ _ _ _ ⟨(SledVault.trees (v.db.log ++ [_])).secrets,_⟩ _
    rw [trees_missing missing]
    exact .delete_missing there (Nat.le_add_right _ 2)
  | some stored =>
    have ended : ending (delete_secret env name) v = (some (.ok ()),
        ⟨((v.db.write (.removeSecret name)).write (.removeKey (keyPath stored.data_key_id))).flush,(v.keyring.remove_data_key stored.data_key_id).2,
          v.audit ++ [(AuditEntry.succeeded .Delete).with_secret stored.secret.as_ref],v.tick + 6⟩) := by
      have again : v.ticked.trees.secrets.lookup name = some stored := there
      rw [delete_secret,access_then faultless,look_then,write_then faultless,again]
      simp only
      rw [convert_then faultless,forget_then faultless,flush_then faultless]
      rfl
    rw [seen_of ended]
    refine ⟨_,rfl,?_⟩
    show Step _ _ _ _ _ ⟨(SledVault.trees (v.db.log ++ [_] ++ [_])).secrets,_⟩ _
    rw [VaultCrash.trees_append,VaultCrash.trees_append]
    exact .delete there (Nat.le_add_right _ 6)

theorem sled_rotate (faultless : Faultless env) (fair : Fair env.toDraws) (v : Vault C) (name : String) (plaintext : Bytes) :
    SledSteps env v (.request (.rotate_secret name plaintext)) (seen referenceView (rotate_secret env name plaintext) v) := by
  cases there : v.trees.secrets.lookup name with
  | none =>
    have ended : ending (rotate_secret env name plaintext) v = (some (.error (.SecretNotFound name)),v.ticked.ticked) := find_missing faultless there _
    rw [seen_of ended]
    exact ⟨_,rfl,.rotate_missing there (Nat.le_add_right _ 2)⟩
  | some old =>
    have begun : ending (rotate_secret env name plaintext) v = ending (do
        let made ← encryptNew env plaintext
        let tick ← look (·.tick)
        let rotated := old.rotated made.2 (env.now tick) made.1
        convert env
        write env (.insertSecret name rotated)
        flush env
        remove_data_key old.data_key_id
        remove_persisted_key env old.data_key_id
        flush env
        record ((AuditEntry.succeeded .Rotate).with_secret rotated.secret.as_ref)
        pure rotated.secret.as_ref) v.ticked.ticked.ticked := find_there faultless there _
    obtain ⟨d,drawn⟩ := fair.drawn (v.tick + 3) (v.tick + 8)
    cases held : v.keyring.master with
    | none =>
      rw [seen_of (begun.trans (sled_refuses (v := v.ticked.ticked.ticked) held plaintext _))]
      exact ⟨_,rfl,.rotate_sealed there held (Nat.le_add_right _ 4)⟩
    | some master =>
      have ended : ending (rotate_secret env name plaintext) v = (some (.ok (d.rotated old plaintext).secret.as_ref),
          ⟨((((v.db.write (.insertKey (keyPath d.id) (d.wrapped master))).write (.insertSecret name (d.rotated old plaintext))).flush).write
              (.removeKey (keyPath old.data_key_id))).flush,
            ((v.keyring.import_wrapped_key (d.wrapped master)).remove_data_key old.data_key_id).2,
            v.audit ++ [(AuditEntry.succeeded .Rotate).with_secret (d.rotated old plaintext).secret.as_ref],v.tick + 14⟩) := by
        refine (begun.trans (sled_encrypts (v := v.ticked.ticked.ticked) faultless drawn held plaintext _)).trans ?_
        rw [look_then,convert_then faultless,write_then faultless,flush_then faultless,forget_then faultless,flush_then faultless,
          Draw.rotated,← drawn.now]
        rfl
      rw [seen_of ended]
      refine ⟨_,rfl,?_⟩
      show Step _ _ _ _ _ ⟨(SledVault.trees (v.db.log ++ [_] ++ [_] ++ [_])).secrets,_⟩ _
      rw [VaultCrash.trees_append,VaultCrash.trees_append,VaultCrash.trees_append]
      exact .rotate there held ⟨v.tick + 3,Nat.le_add_right _ 3,Nat.add_lt_add_left (by decide) _,drawn.id⟩

theorem sled_steps (faultless : Faultless env) (fair : Fair env.toDraws) (v : Vault C) (op : Operation) : SledSteps env v op (answerSled env v op) := by
  cases op with
  | request request =>
    cases request with
    | store_secret name kind plaintext policy => exact sled_store faultless fair v name kind plaintext policy
    | get_secret name => exact sled_get faultless v name
    | list_secrets => exact sled_list faultless v
    | delete_secret name => exact sled_delete faultless v name
    | rotate_secret name new_plaintext => exact sled_rotate faultless fair v name new_plaintext
  | seal_vault => exact ⟨_,rfl,.sealing (Nat.le_refl _)⟩
  | unseal_vault passphrase =>
    refine ⟨(v.keyring.unseal passphrase).1.map fun _ => .done,?_⟩
    obtain ⟨audit,ended⟩ : ∃ audit, ending (unseal_vault passphrase) v =
        (some (v.keyring.unseal passphrase).1,⟨v.db,(v.keyring.unseal passphrase).2,audit,v.tick⟩) := by
      rw [unseal_vault,ending_step]
      generalize v.keyring.unseal passphrase = opened
      obtain ⟨_ | _,r⟩ := opened
      · exact ⟨_,rfl⟩
      · exact ⟨_,rfl⟩
    rw [answerSled,seen_of ended]
    exact ⟨rfl,.unsealing (Nat.le_refl _)⟩

end

/-! ### From the start -/

theorem memory_opened (fair : Fair draws) (p : Bytes) (audit : List AuditEntry) :
    ∃ (m : MemoryVault.Memory C) (s : Salt), MemoryVault.Memory.new draws p audit = .ok m ∧ (contentsMemory m).Show (usedAt draws m.tick) p s ⟨∅,true⟩ := by
  obtain ⟨t,salted⟩ := fair.salt 0
  obtain ⟨nonce,under⟩ := fair.nonce 0
  refine ⟨⟨∅,⟨some ⟨C.derive p t,t⟩,some t,∅,some (C.encrypt (C.derive p t) nonce SEAL_CHECK_PLAINTEXT)⟩,audit,1⟩,t,?_,shows_new p t nonce⟩
  rw [MemoryVault.Memory.new,salted,under]
  rfl

section
open Daf.SledVault
variable {env : Env}

theorem open_run (faultless : Faultless env) (audit : List AuditEntry) :
    ending (open_vault env) (⟨.empty,.new,audit,0⟩ : Vault C) = (some (.ok ()),⟨.empty,.new,audit,5⟩) := by
  rw [open_vault,access_then faultless,access_then faultless,access_then faultless,access_then faultless,look_then,access_then faultless,look_then]
  rfl

theorem sled_opened (faultless : Faultless env) (fair : Fair env.toDraws) (p : Bytes) (audit : List AuditEntry) :
    ∃ (v : Vault C) (s : Salt), ending (do open_vault env; initialize_vault env p) ⟨.empty,.new,audit,0⟩ = (some (.ok ()),v) ∧
      (contentsSled v).Show (usedAt env.toDraws v.tick) p s ⟨∅,true⟩ := by
  obtain ⟨t,salted⟩ := fair.salt 5
  obtain ⟨nonce,under⟩ := fair.nonce 5
  let check := C.encrypt (C.derive p t) nonce SEAL_CHECK_PLAINTEXT
  let ring : Ring C := ⟨some ⟨C.derive p t,t⟩,some t,∅,some check⟩
  refine ⟨⟨((Disk.empty.write (.insertSalt t.val)).write (.insertSealCheck check)).flush,ring,
    audit ++ [(AuditEntry.succeeded .Unseal).with_detail "vault initialized"],10⟩,t,?_,shows_new p t nonce⟩
  have made : (Ring.new : Ring C).initialize_ring p (env.salt 5) (env.nonce 5) = (.ok (),ring) := by
    rw [salted,under]
    rfl
  rw [ending_bind,open_run faultless]
  show ending (initialize_vault env p) _ = _
  rw [initialize_vault,ending_bind,ending_step]
  simp only [made]
  show ending (access env >>= _) _ = _
  rw [access_then faultless,look_then]
  show ending (write env (.insertSalt t.val) >>= _) _ = _
  rw [write_then faultless,look_then]
  show ending (write env (.insertSealCheck check) >>= _) _ = _
  rw [write_then faultless,flush_then faultless]
  rfl

end

theorem memory_implements (fair : Fair draws) (p : Bytes) (s : Salt) :
    Implements (answerMemory draws) (answerSafe p) (fun safe (m : MemoryVault.Memory C) => (contentsMemory m).Show (usedAt draws m.tick) p s safe)
      fun m => Distinct draws m.tick := by
  intro safe m shows op distinct
  obtain ⟨answer,ended,step⟩ := memory_steps fair m op
  obtain ⟨same,after⟩ := step.shown distinct shows
  exact ⟨ended.trans (congrArg some same),after⟩

theorem sled_implements {env : SledVault.Env} (faultless : Faultless env) (fair : Fair env.toDraws) (p : Bytes) (s : Salt) :
    Implements (answerSled env) (answerSafe p) (fun safe (v : SledVault.Vault C) => (contentsSled v).Show (usedAt env.toDraws v.tick) p s safe)
      fun v => Distinct env.toDraws v.tick := by
  intro safe v shows op distinct
  obtain ⟨answer,ended,step⟩ := sled_steps faultless fair v op
  obtain ⟨same,after⟩ := step.shown distinct shows
  exact ⟨ended.trans (congrArg some same),after⟩

/-- When no draw and no step fails and no id is drawn twice, both vaults answer every run of calls as a safe does, and one as the other. After each
    run the ring of either has one data key for each secret: the one that the secret refers to. -/
theorem vaults_equivalent (C : Crypto) (p : Bytes) (audit log : List AuditEntry) {draws : Draws} {env : SledVault.Env} (fair : Fair draws)
    (fair_env : Fair env.toDraws) (faultless : Faultless env) :
    ∃ (m : MemoryVault.Memory C) (v : SledVault.Vault C), MemoryVault.Memory.new draws p audit = .ok m ∧
      ending (do SledVault.open_vault env; SledVault.initialize_vault env p) ⟨.empty,.new,log,0⟩ = (some (.ok ()),v) ∧
      ∀ ops : List Operation,
        let in_memory := replies (answerMemory draws) m ops
        let on_disk := replies (answerSled env) v ops
        Distinct draws in_memory.2.tick → Distinct env.toDraws on_disk.2.tick →
          in_memory.1 = on_disk.1 ∧ in_memory.1 = (replies (answerSafe p) ⟨∅,true⟩ ops).1 ∧
            Exact in_memory.2.secrets in_memory.2.keyring ∧ Exact on_disk.2.trees.secrets on_disk.2.keyring := by
  obtain ⟨m,s,new,left⟩ := memory_opened (C := C) fair p audit
  obtain ⟨v,t,opened,right⟩ := sled_opened (C := C) faultless fair_env p log
  refine ⟨m,v,new,opened,fun ops distinct distinct_env => ?_⟩
  have earlier : ∀ (m : MemoryVault.Memory C) op, Distinct draws (answerMemory draws m op).2.tick → Distinct draws m.tick := by
    intro m op distinct
    obtain ⟨answer,-,step⟩ := memory_steps fair m op
    exact distinct.mono step.later
  have earlier_env : ∀ (v : SledVault.Vault C) op, Distinct env.toDraws (answerSled env v op).2.tick → Distinct env.toDraws v.tick := by
    intro v op distinct
    obtain ⟨answer,-,step⟩ := sled_steps faultless fair_env v op
    exact distinct.mono step.later
  obtain ⟨same,after⟩ := (memory_implements fair p s).replies earlier left ops distinct
  obtain ⟨same_env,after_env⟩ := (sled_implements faultless fair_env p t).replies earlier_env right ops distinct_env
  exact ⟨same.trans same_env.symm,same,after.exact,after_env.exact⟩

end

/-! ### A fixed run -/

theorem calm_fair : Fair calm.toDraws := ⟨fun _ => ⟨_,rfl⟩,fun _ => ⟨_,rfl⟩,fun _ => ⟨_,rfl⟩⟩

/-- A secret is stored and replaced, with a sealed time between. -/
def errands : List Operation :=
  [.request (.store_secret "a" .Token [1] .AnyAgent),.seal_vault,.request (.rotate_secret "a" [2]),.request (.store_secret "a" .Token [3] .AnyAgent),
   .unseal_vault [113],.unseal_vault [112],.request (.rotate_secret "a" [2]),.request (.get_secret "a"),.request (.delete_secret "b")]

def calmOpened : SledVault.Vault IdealCrypto.symbolic :=
  (ending (do SledVault.open_vault calm; SledVault.initialize_vault calm [112]) ⟨.empty,.new,[],0⟩).2

set_option maxRecDepth 1024 in
theorem errands_equivalent :
    let in_memory := replies (answerMemory calm.toDraws) calmMemory errands
    let on_disk := replies (answerSled calm) calmOpened errands
    in_memory.2.secrets.keys = ["a"] ∧ in_memory.1 = on_disk.1 ∧ in_memory.1 = (replies (answerSafe [112]) ⟨∅,true⟩ errands).1 ∧
      Exact in_memory.2.secrets in_memory.2.keyring ∧ Exact on_disk.2.trees.secrets on_disk.2.keyring := by
  obtain ⟨m,v,new,opened,alike⟩ := vaults_equivalent IdealCrypto.symbolic [112] [] [] calm_fair calm_fair fun _ => rfl
  obtain rfl : calmMemory = m := Except.ok.inj new
  obtain rfl : calmOpened = v := congrArg Prod.snd opened
  have memory : (replies (answerMemory calm.toDraws) calmMemory errands).2.tick ≤ 2 ^ 128 := by decide
  have sled : (replies (answerSled calm) calmOpened errands).2.tick ≤ 2 ^ 128 := by decide
  exact ⟨by decide,alike errands (answering_distinct _ memory) (answering_distinct _ sled)⟩

end Daf.VaultEquivalence
