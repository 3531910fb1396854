import Daf.VaultRequests

/-!
The audit trail of both vaults. Entries are only appended, but a request is recorded only on
the way to a success, and in the vault on disk when the name is already taken.
-/
namespace Daf.VaultAudit
open Daf.KeyRing Daf.KeyEnvelope Daf.VaultSecrets Daf.Fallible Daf.VaultRequests

def action : Request → AuditAction
  | .store_secret .. => .Write
  | .get_secret _ => .Read
  | .list_secrets => .List
  | .delete_secret _ => .Delete
  | .rotate_secret .. => .Rotate

/-- The secret that the request is about. -/
def subject : Request → Option String
  | .store_secret name .. => some name
  | .get_secret name => some name
  | .list_secrets => none
  | .delete_secret name => some name
  | .rotate_secret name _ => some name

/-- The log grew by one entry that tells of this request and how it ended. -/
def Records (request : Request) (ok : Bool) (before after : List AuditEntry) : Prop :=
  ∃ entry, after = before ++ [entry] ∧ entry.action = action request ∧ entry.success = ok ∧ (ok → entry.secret_ref.map (·.name) = subject request)

section
variable {σ : Type}

def Audited (audit : σ → List AuditEntry) (request : Request) (before : List AuditEntry) (x : Outcome σ) : Prop :=
  ∃ ok, x.1 = some ok ∧ Records request ok before (audit x.2)

variable {audit : σ → List AuditEntry} {request : Request} {before : List AuditEntry} {α β : Type} {m : Call VaultError σ α} {s t : σ}

theorem outcome_next {f : α → Call VaultError σ β} {a : α} (ended : ending m s = (some (.ok a),t)) : outcome (m >>= f) s = outcome (f a) t := by
  unfold outcome
  rw [ending_bind,ended]
  rfl

theorem outcome_error {f : α → Call VaultError σ β} {e : VaultError} (ended : ending m s = (some (.error e),t)) :
    outcome (m >>= f) s = (some false,t) := by
  unfold outcome
  rw [ending_bind,ended]
  rfl

/-- Nothing was recorded. -/
theorem not_audited (audit : σ → List AuditEntry) {ok : Option Bool} (same : audit t = before) : ¬ Audited audit request before (ok,t) := by
  rintro ⟨_,-,entry,grown,-⟩
  have lengths := congrArg List.length (same.symm.trans grown)
  simp at lengths

/-- An error without an entry is not what was asked for. -/
theorem audited_error {f : α → Call VaultError σ β} {e : VaultError} (ended : ending m s = (some (.error e),t)) (same : audit t = before) :
    ¬ Audited audit request before (outcome (m >>= f) s) := by
  rw [outcome_error ended]
  exact not_audited audit same

/-- A step that decrypts leaves the state as it is. -/
theorem audited_decrypt {C : Crypto} (audit : σ → List AuditEntry) {f : Bytes → Call VaultError σ β} {m : Call VaultError σ Bytes} {r : Ring C}
    {id : KeyId} {c : C.Cipher} (rest : Prop)
    (ended : ending m s = match r.unwrap_data_key id with
      | .error e => (some (.error e),s)
      | .ok dk => (some (DataKey.decrypt dk c),s))
    (next : ∀ value, Audited audit request (audit s) (outcome (f value) s) ↔ rest) :
    Audited audit request (audit s) (outcome (m >>= f) s) ↔ (∃ dk value, r.unwrap_data_key id = .ok dk ∧ DataKey.decrypt dk c = .ok value) ∧ rest := by
  cases unwrapped : r.unwrap_data_key id with
  | error e =>
    rw [unwrapped] at ended
    exact iff_of_false (audited_error ended rfl) (fun ⟨⟨dk,value,same,_⟩,_⟩ => by cases same)
  | ok dk =>
    rw [unwrapped] at ended
    cases decrypted : DataKey.decrypt dk c with
    | error e =>
      simp only [decrypted] at ended
      refine iff_of_false (audited_error ended rfl) (fun ⟨⟨dk',value,same,other⟩,_⟩ => ?_)
      cases same
      cases decrypted.symm.trans other
    | ok value =>
      simp only [decrypted] at ended
      rw [outcome_next ended,next value]
      exact ⟨fun holds => ⟨⟨dk,value,rfl,decrypted⟩,holds⟩,fun all => all.2⟩

variable {C : Crypto}

/-- A data key can be generated. -/
structure CanGenerate (r : Ring C) (material : Option Material) (nonce : Option Nonce) : Prop where
  unsealed : r.is_unsealed
  material : material.isSome
  nonce : nonce.isSome

theorem generate_decides (r : Ring C) (id : KeyId) (material : Option Material) (nonce : Option Nonce) :
    (¬ CanGenerate r material nonce ∧ ∃ e, r.generate_data_key id material nonce = (.error e,r)) ∨
      (CanGenerate r material nonce ∧ ∃ a wdk, wdk.id = id ∧ r.generate_data_key id material nonce = (.ok ⟨id,a⟩,r.import_wrapped_key wdk)) := by
  rcases generate_cases r id material nonce with ⟨e,run⟩ | ⟨m,a,n,held,rfl,rfl,run⟩
  · refine .inl ⟨fun ⟨unsealed,drawn,nonced⟩ => ?_,e,run⟩
    obtain ⟨m,held⟩ := Option.isSome_iff_exists.1 unsealed
    obtain ⟨a,rfl⟩ := Option.isSome_iff_exists.1 drawn
    obtain ⟨n,rfl⟩ := Option.isSome_iff_exists.1 nonced
    simp [Ring.generate_data_key,held,DataKey.generate,encrypt] at run
  · refine .inr ⟨⟨?_,rfl,rfl⟩,a,_,rfl,run⟩
    rw [Ring.is_unsealed,held]
    rfl

theorem audited_generate (audit : σ → List AuditEntry) {f : DataKey → Call VaultError σ β} {m : Call VaultError σ DataKey} {r : Ring C} {id : KeyId}
    {material : Option Material}
    {nonce : Option Nonce} (put : Ring C → σ) (rest : Prop)
    (ended : ending m s = (some (r.generate_data_key id material nonce).1,put (r.generate_data_key id material nonce).2))
    (quiet : ∀ r', audit (put r') = before)
    (next : ∀ a wdk, wdk.id = id → (Audited audit request before (outcome (f ⟨id,a⟩) (put (r.import_wrapped_key wdk))) ↔ rest)) :
    Audited audit request before (outcome (m >>= f) s) ↔ CanGenerate r material nonce ∧ rest := by
  rcases generate_decides r id material nonce with ⟨cannot,e,run⟩ | ⟨can,a,wdk,own,run⟩
  · rw [run] at ended
    exact iff_of_false (audited_error ended (quiet r)) (fun all => cannot all.1)
  · rw [run] at ended
    rw [outcome_next ended,next a wdk own]
    exact ⟨fun holds => ⟨can,holds⟩,fun all => all.2⟩

theorem audited_encryptWith (audit : σ → List AuditEntry) {f : C.Cipher → Call VaultError σ β} {m : Call VaultError σ C.Cipher} {dk : DataKey}
    {nonce : Option Nonce} {plaintext : Bytes}
    (rest : Prop) (ended : ending m s = (some (DataKey.encrypt dk nonce plaintext),t)) (quiet : audit t = before)
    (next : ∀ c, Audited audit request before (outcome (f c) t) ↔ rest) :
    Audited audit request before (outcome (m >>= f) s) ↔ nonce.isSome ∧ rest := by
  cases nonce with
  | none => exact iff_of_false (audited_error ended quiet) (fun all => by cases all.1)
  | some n =>
    rw [outcome_next ended]
    simp only [Option.isSome_some,true_and]
    exact next _

/-- A data key can be generated and a value encrypted with it. -/
def CanEncrypt (draws : Draws) (r : Ring C) (tick : Nat) : Prop :=
  CanGenerate r (draws.material tick) (draws.nonce tick) ∧ (draws.nonce (tick + 1)).isSome

/-- The stored secret can be decrypted. -/
def CanDecrypt (r : Ring C) (secrets : AList (fun _ : String => StoredSecret C)) (name : String) : Prop :=
  ∃ stored dk value, secrets.lookup name = some stored ∧ r.unwrap_data_key stored.data_key_id = .ok dk ∧
    DataKey.decrypt dk stored.secret.encrypted_value = .ok value

theorem mem_of_lookup {β : String → Type} {secrets : AList β} {name : String} {stored : β name} (there : secrets.lookup name = some stored) : name ∈ secrets :=
  AList.lookup_isSome.1 (by rw [there]; rfl)

theorem not_mem_of_lookup {β : String → Type} {secrets : AList β} {name : String} (absent : secrets.lookup name = none) : name ∉ secrets :=
  AList.lookup_eq_none.1 absent

end

/-! ### The vault on disk -/

section
open Daf.SledVault
variable {C : Crypto} {env : Env} {v : Vault C} {request : Request}

/-- These steps, counted from here, are done. -/
def Done (env : Env) (tick : Nat) (steps : List Nat) : Prop := ∀ k ∈ steps, env.answer (tick + k) = .done

/-- When the request is recorded. -/
def RecordedSled (env : Env) (v : Vault C) : Request → Prop
  | .store_secret name .. =>
    Done env v.tick [0,1] ∧ (name ∈ v.trees.secrets ∨ (CanEncrypt env.toDraws v.keyring (v.tick + 2) ∧ Done env v.tick [4,5,6,7,8,9]))
  | .get_secret name => Done env v.tick [0,1,2] ∧ CanDecrypt v.keyring v.trees.secrets name
  | .list_secrets => Done env v.tick (List.range (2 * v.trees.secrets.entries.length + 1))
  | .delete_secret name => name ∈ v.trees.secrets ∧ Done env v.tick [0,1,2,3,4,5]
  | .rotate_secret name _ =>
    name ∈ v.trees.secrets ∧ Done env v.tick [0,1,2] ∧ CanEncrypt env.toDraws v.keyring (v.tick + 3) ∧ Done env v.tick [5,6,7,8,9,10,11,12,13]

theorem audited_action {α : Type} {error : String → VaultError} {effect : Vault C → Vault C} {f : Unit → Program C α} (steady : ∀ n, env.answer n ≠ .crash)
    (quiet : ∀ u, (effect u).audit = u.audit) :
    Audited (·.audit) request v.audit (outcome (SledVault.action env error effect >>= f) v) ↔
      env.answer v.tick = .done ∧ Audited (·.audit) request (effect v.ticked).audit (outcome (f ()) (effect v.ticked)) := by
  rw [show (effect v.ticked).audit = v.audit from quiet v.ticked]
  cases answer : env.answer v.tick with
  | done =>
    rw [outcome_next (t := effect v.ticked) (a := ()) (by rw [SledVault.action,ending_step,answer])]
    simp
  | failed applied message =>
    simp only [reduceCtorEq,false_and,iff_false]
    refine audited_error (t := if applied then effect v.ticked else v.ticked) (e := error message) (by rw [SledVault.action,ending_step,answer]) ?_
    cases applied
    · rfl
    · exact quiet v.ticked
  | crash => exact absurd answer (steady v.tick)

theorem audited_look {α β : Type} {g : Vault C → α} {f : α → Program C β} :
    Audited (·.audit) request v.audit (outcome (look g >>= f) v) ↔ Audited (·.audit) request v.audit (outcome (f (g v)) v) := by
  rw [outcome_next (m := look g) (t := v) (a := g v) rfl]

theorem audited_access {α : Type} {f : Unit → Program C α} (steady : ∀ n, env.answer n ≠ .crash) :
    Audited (·.audit) request v.audit (outcome (access env >>= f) v) ↔
      env.answer v.tick = .done ∧ Audited (·.audit) request v.ticked.audit (outcome (f ()) v.ticked) := audited_action steady (fun _ => rfl)

theorem audited_convert {α : Type} {f : Unit → Program C α} (steady : ∀ n, env.answer n ≠ .crash) :
    Audited (·.audit) request v.audit (outcome (convert env >>= f) v) ↔
      env.answer v.tick = .done ∧ Audited (·.audit) request v.ticked.audit (outcome (f ()) v.ticked) := audited_action steady (fun _ => rfl)

theorem audited_write {α : Type} {op : Op C} {f : Unit → Program C α} (steady : ∀ n, env.answer n ≠ .crash) :
    Audited (·.audit) request v.audit (outcome (write env op >>= f) v) ↔
      env.answer v.tick = .done ∧ Audited (·.audit) request (v.ticked.write op).audit (outcome (f ()) (v.ticked.write op)) :=
  audited_action steady (fun _ => rfl)

theorem audited_flush {α : Type} {f : Unit → Program C α} (steady : ∀ n, env.answer n ≠ .crash) :
    Audited (·.audit) request v.audit (outcome (flush env >>= f) v) ↔
      env.answer v.tick = .done ∧ Audited (·.audit) request v.ticked.flushed.audit (outcome (f ()) v.ticked.flushed) :=
  audited_action steady (fun _ => rfl)

/-- The vault whose ring forgot a data key. -/
def forgot (v : Vault C) (id : KeyId) : Vault C := { v with keyring := (v.keyring.remove_data_key id).2 }

theorem audited_remove {α : Type} {id : KeyId} {f : Unit → Program C α} :
    Audited (·.audit) request v.audit (outcome (remove_data_key id >>= f) v) ↔ Audited (·.audit) request (forgot v id).audit (outcome (f ()) (forgot v id)) := by
  rw [outcome_next (m := remove_data_key id) (t := forgot v id) (a := ()) rfl]
  rfl

/-- The last step of a request. -/
theorem audited_record {α : Type} {a : α} {entry : AuditEntry} (own : entry.action = action request) (success : entry.success = true)
    (names : entry.secret_ref.map (·.name) = subject request) :
    Audited (·.audit) request v.audit (outcome (do record entry; pure a : Program C α) v) :=
  ⟨true,rfl,entry,rfl,own,success,fun _ => names⟩

/-- A refusal that is recorded. -/
theorem audited_refusal {α : Type} {e : VaultError} {entry : AuditEntry} (own : entry.action = action request) (failure : entry.success = false) :
    Audited (·.audit) request v.audit (outcome (do record entry; throw e : Program C α) v) :=
  ⟨false,rfl,entry,rfl,own,failure,fun ok => by cases ok⟩

theorem audited_last {entry : AuditEntry} (own : entry.action = action request) (success : entry.success = true)
    (names : entry.secret_ref.map (·.name) = subject request) : Audited (·.audit) request v.audit (outcome (record entry : Program C Unit) v) :=
  ⟨true,rfl,entry,rfl,own,success,fun _ => names⟩

theorem audited_persistNew {α : Type} {id : KeyId} {wdk : WrappedDataKey C} {f : Unit → Program C α} (steady : ∀ n, env.answer n ≠ .crash)
    (found : v.keyring.wrapped_keys.lookup id = some wdk) :
    Audited (·.audit) request v.audit (outcome (persistNew env id >>= f) v) ↔ Done env v.tick [0,1,2] ∧
      Audited (·.audit) request v.audit (outcome (f ()) (v.ticked.ticked.ticked.write (.insertKey (keyPath wdk.id) wdk))) := by
  simp only [persistNew,persist_wrapped_key,bind_assoc]
  rw [audited_look]
  simp only [found,bind_assoc]
  rw [audited_access steady,audited_convert steady,audited_write steady]
  simp [Done,Vault.ticked,Vault.write,and_assoc]

/-- A new data key and the plaintext under it take five steps, three of them of the store. -/
theorem audited_encryptNew {α : Type} {plaintext : Bytes} {f : KeyId × C.Cipher → Program C α} (steady : ∀ n, env.answer n ≠ .crash)
    (rest : Prop) (next : ∀ made u, u.tick = v.tick + 5 → u.audit = v.audit → (Audited (·.audit) request u.audit (outcome (f made) u) ↔ rest)) :
    Audited (·.audit) request v.audit (outcome (encryptNew env plaintext >>= f) v) ↔
      CanEncrypt env.toDraws v.keyring v.tick ∧ Done env v.tick [2,3,4] ∧ rest := by
  simp only [encryptNew,bind_assoc,pure_bind]
  refine (audited_generate (fun u : Vault C => u.audit) (fun r => { v.ticked with keyring := r }) ((env.nonce (v.tick + 1)).isSome ∧ Done env v.tick [2,3,4] ∧ rest)
    rfl (fun _ => rfl) (fun a wdk own => ?_)).trans and_assoc.symm
  refine audited_encryptWith (fun u : Vault C => u.audit) (Done env v.tick [2,3,4] ∧ rest) rfl rfl (fun c => ?_)
  have found : (v.keyring.import_wrapped_key wdk).wrapped_keys.lookup (env.keyId v.tick) = some wdk := by
    rw [← own]
    exact AList.lookup_insert _
  refine (audited_persistNew steady found).trans (and_congr ?_ (next (env.keyId v.tick,c) _ rfl rfl))
  simp [Done,Vault.ticked]

theorem store_recorded (steady : ∀ n, env.answer n ≠ .crash) (name : String) (kind : SecretKind) (plaintext : Bytes) (policy : AccessPolicy) :
    Audited (·.audit) (.store_secret name kind plaintext policy) v.audit (performSled env v (.store_secret name kind plaintext policy)) ↔
      RecordedSled env v (.store_secret name kind plaintext policy) := by
  show Audited _ _ _ (outcome (SledVault.store_secret env name kind plaintext policy) v) ↔ _
  unfold SledVault.store_secret
  rw [audited_access steady,audited_access steady,audited_look]
  cases there : v.trees.secrets.lookup name with
  | some stored =>
    have again : v.ticked.ticked.trees.secrets.lookup name = some stored := there
    simp only [again,Option.isSome_some,↓reduceIte]
    rw [iff_true_intro (audited_refusal rfl rfl)]
    simp [RecordedSled,Done,Vault.ticked,mem_of_lookup there]
  | none =>
    have again : v.ticked.ticked.trees.secrets.lookup name = none := there
    simp only [again,Option.isSome_none,Bool.false_eq_true,↓reduceIte]
    rw [audited_encryptNew steady (Done env v.tick [7,8,9])]
    · simp [RecordedSled,Done,Vault.ticked,not_mem_of_lookup there,and_assoc]
    intro made u tick same
    rw [audited_look,audited_convert steady,audited_write steady,audited_flush steady,iff_true_intro (audited_record rfl rfl rfl)]
    simp [Done,Vault.ticked,Vault.write,tick]

theorem audited_find {α : Type} {name : String} {f : StoredSecret C → Program C α} (steady : ∀ n, env.answer n ≠ .crash) (rest : StoredSecret C → Prop)
    (next : ∀ stored, v.trees.secrets.lookup name = some stored →
      (Audited (·.audit) request v.audit (outcome (f stored) v.ticked.ticked.ticked) ↔ rest stored)) :
    Audited (·.audit) request v.audit (outcome (find env name >>= f) v) ↔
      Done env v.tick [0,1,2] ∧ ∃ stored, v.trees.secrets.lookup name = some stored ∧ rest stored := by
  simp only [find,bind_assoc]
  rw [audited_access steady,audited_access steady,audited_look]
  have again : v.ticked.ticked.trees.secrets.lookup name = v.trees.secrets.lookup name := rfl
  rw [again]
  cases there : v.trees.secrets.lookup name with
  | none =>
    refine iff_of_false (fun all => ?_) (fun ⟨_,stored,found,_⟩ => by cases found)
    exact audited_error (m := (throw (.SecretNotFound name) : Program C (StoredSecret C))) (f := f) rfl rfl all.2.2
  | some stored =>
    simp only [bind_assoc,pure_bind]
    rw [audited_convert steady,show v.ticked.ticked.ticked.audit = v.audit from rfl,next stored there]
    simp [Done,Vault.ticked,and_assoc]

theorem get_recorded (steady : ∀ n, env.answer n ≠ .crash) (named : Named v) (name : String) :
    Audited (·.audit) (.get_secret name) v.audit (performSled env v (.get_secret name)) ↔ RecordedSled env v (.get_secret name) := by
  show Audited _ _ _ (outcome (SledVault.get_secret env name) v) ↔ _
  unfold SledVault.get_secret
  rw [audited_find steady (fun stored => ∃ dk value, v.keyring.unwrap_data_key stored.data_key_id = .ok dk ∧
    DataKey.decrypt dk stored.secret.encrypted_value = .ok value)]
  · simp only [RecordedSled,CanDecrypt]
    constructor
    · rintro ⟨steps,stored,there,dk,value,all⟩
      exact ⟨steps,stored,dk,value,there,all⟩
    · rintro ⟨steps,stored,dk,value,there,all⟩
      exact ⟨steps,stored,there,dk,value,all⟩
  intro stored there
  have own : some stored.secret.name = some name := congrArg some (named.lookup there)
  refine (audited_decrypt (fun u : Vault C => u.audit) (s := v.ticked.ticked.ticked) (r := v.keyring) True rfl (fun value => ?_)).trans (iff_of_eq (and_true _))
  exact iff_true_intro (audited_record rfl rfl own)

theorem audited_removePersisted {α : Type} {id : KeyId} {f : Unit → Program C α} (steady : ∀ n, env.answer n ≠ .crash) :
    Audited (·.audit) request v.audit (outcome (remove_persisted_key env id >>= f) v) ↔
      Done env v.tick [0,1] ∧ Audited (·.audit) request (v.ticked.ticked.write (.removeKey (keyPath id))).audit
        (outcome (f ()) (v.ticked.ticked.write (.removeKey (keyPath id)))) := by
  simp only [remove_persisted_key,bind_assoc]
  rw [audited_access steady,audited_write steady]
  simp [Done,Vault.ticked,and_assoc]

theorem delete_recorded (steady : ∀ n, env.answer n ≠ .crash) (named : Named v) (name : String) :
    Audited (·.audit) (.delete_secret name) v.audit (performSled env v (.delete_secret name)) ↔ RecordedSled env v (.delete_secret name) := by
  show Audited _ _ _ (outcome (SledVault.delete_secret env name) v) ↔ _
  unfold SledVault.delete_secret
  rw [audited_access steady,audited_look,audited_write steady]
  have again : v.ticked.trees.secrets.lookup name = v.trees.secrets.lookup name := rfl
  rw [again]
  cases there : v.trees.secrets.lookup name with
  | none =>
    refine iff_of_false (fun all => ?_) (fun all => not_mem_of_lookup there all.1)
    exact not_audited (fun u : Vault C => u.audit) rfl all.2.2
  | some stored =>
    have own : some stored.secret.name = some name := congrArg some (named.lookup there)
    have recorded : ∀ w : Vault C, Audited (·.audit) (.delete_secret name) w.audit
        (outcome (record ((AuditEntry.succeeded .Delete).with_secret stored.secret.as_ref)) w) := fun w => audited_last rfl rfl own
    simp only
    rw [audited_convert steady,audited_remove,audited_removePersisted steady,audited_flush steady,iff_true_intro (recorded _)]
    simp [RecordedSled,Done,Vault.ticked,Vault.write,forgot,mem_of_lookup there,and_assoc]

theorem rotate_recorded (steady : ∀ n, env.answer n ≠ .crash) (named : Named v) (name : String) (new_plaintext : Bytes) :
    Audited (·.audit) (.rotate_secret name new_plaintext) v.audit (performSled env v (.rotate_secret name new_plaintext)) ↔
      RecordedSled env v (.rotate_secret name new_plaintext) := by
  show Audited _ _ _ (outcome (SledVault.rotate_secret env name new_plaintext) v) ↔ _
  unfold SledVault.rotate_secret
  rw [audited_find steady (fun _ => CanEncrypt env.toDraws v.keyring (v.tick + 3) ∧ Done env v.tick [5,6,7,8,9,10,11,12,13])]
  · simp only [RecordedSled]
    constructor
    · rintro ⟨steps,stored,there,all⟩
      exact ⟨mem_of_lookup there,steps,all⟩
    · rintro ⟨inside,steps,all⟩
      obtain ⟨stored,there⟩ := Option.isSome_iff_exists.1 (AList.lookup_isSome.2 inside)
      exact ⟨steps,stored,there,all⟩
  intro stored there
  have recorded : ∀ (w : Vault C) encrypted now id, Audited (·.audit) (.rotate_secret name new_plaintext) w.audit
      (outcome (do record ((AuditEntry.succeeded .Rotate).with_secret (stored.rotated encrypted now id).secret.as_ref)
                   pure (stored.rotated encrypted now id).secret.as_ref) w) := by
    intro w encrypted now id
    have own : some stored.secret.name = some name := congrArg some (named.lookup there)
    exact audited_record rfl rfl own
  refine (audited_encryptNew (v := v.ticked.ticked.ticked) steady (Done env v.tick [8,9,10,11,12,13]) (fun made u tick same => ?_)).trans ?_
  · rw [audited_look,audited_convert steady,audited_write steady,audited_flush steady,audited_remove,audited_removePersisted steady,
      audited_flush steady,iff_true_intro (recorded _ _ _ _)]
    simp [Done,Vault.ticked,Vault.write,Vault.flushed,forgot,tick,and_assoc]
  · simp [Done,Vault.ticked,and_assoc]

/-- The entries of the tree take two steps each. -/
theorem audited_collectRefs {α : Type} (entries : List (StoredSecret C)) (refs : List SecretRef) {f : List SecretRef → Program C α}
    (steady : ∀ n, env.answer n ≠ .crash) (v : Vault C)
    (next : ∀ refs (u : Vault C), Audited (·.audit) request u.audit (outcome (f refs) u)) :
    Audited (·.audit) request v.audit (outcome (collectRefs env refs entries >>= f) v) ↔ Done env v.tick (List.range (2 * entries.length)) := by
  induction entries generalizing refs v with
  | nil =>
    have first := next refs v
    simpa [collectRefs,Done] using first
  | cons stored later ih =>
    simp only [collectRefs,bind_assoc]
    rw [audited_access steady,audited_convert steady,ih _ v.ticked.ticked]
    constructor
    · rintro ⟨first,second,all⟩ k inside
      rw [List.mem_range,List.length_cons] at inside
      match k with
      | 0 => exact first
      | 1 => exact second
      | k + 2 =>
        have there := all k (List.mem_range.2 (by omega))
        rwa [show v.ticked.ticked.tick + k = v.tick + (k + 2) by simp [Vault.ticked]; omega] at there
    · intro all
      refine ⟨all 0 (by simp),all 1 (List.mem_range.2 (by rw [List.length_cons]; omega)),fun k inside => ?_⟩
      rw [List.mem_range] at inside
      have there := all (k + 2) (List.mem_range.2 (by rw [List.length_cons]; omega))
      rwa [show v.ticked.ticked.tick + k = v.tick + (k + 2) by simp [Vault.ticked]; omega]

theorem list_recorded (steady : ∀ n, env.answer n ≠ .crash) :
    Audited (·.audit) .list_secrets v.audit (performSled env v .list_secrets) ↔ RecordedSled env v .list_secrets := by
  show Audited _ _ _ (outcome (SledVault.list_secrets env) v) ↔ _
  unfold SledVault.list_secrets
  rw [audited_access steady,audited_look,audited_collectRefs _ [] steady _ (fun refs u => audited_record rfl rfl rfl)]
  have length : v.ticked.trees.sorted.length = v.trees.secrets.entries.length := by
    simp [Trees.sorted,Vault.trees,Vault.ticked]
  rw [length]
  constructor
  · rintro ⟨first,all⟩ k inside
    rw [List.mem_range] at inside
    cases k with
    | zero => exact first
    | succ k =>
      have there := all k (List.mem_range.2 (by omega))
      rwa [show v.ticked.tick + k = v.tick + (k + 1) by simp [Vault.ticked]; omega] at there
  · intro all
    refine ⟨all 0 (by simp),fun k inside => ?_⟩
    rw [List.mem_range] at inside
    have there := all (k + 1) (List.mem_range.2 (by omega))
    rwa [show v.ticked.tick + k = v.tick + (k + 1) by simp [Vault.ticked]; omega]

theorem sled_recorded (steady : ∀ n, env.answer n ≠ .crash) (named : Named v) (request : Request) :
    Audited (·.audit) request v.audit (performSled env v request) ↔ RecordedSled env v request := by
  cases request with
  | store_secret name kind plaintext policy => exact store_recorded steady name kind plaintext policy
  | get_secret name => exact get_recorded steady named name
  | list_secrets => exact list_recorded steady
  | delete_secret name => exact delete_recorded steady named name
  | rotate_secret name new_plaintext => exact rotate_recorded steady named name new_plaintext

end
/-! ### The vault in memory -/

section
open Daf.MemoryVault
variable {C : Crypto} {draws : Draws} {m : Memory C}

/-- When the request is recorded. -/
def RecordedMemory (draws : Draws) (m : Memory C) : Request → Prop
  | .store_secret name .. => name ∉ m.secrets ∧ CanEncrypt draws m.keyring m.tick
  | .get_secret name => CanDecrypt m.keyring m.secrets name
  | .list_secrets => True
  | .delete_secret name => name ∈ m.secrets
  | .rotate_secret name _ => name ∈ m.secrets ∧ CanEncrypt draws m.keyring m.tick

/-- A new data key and the plaintext under it. -/
theorem memory_audited_encrypt {α : Type} {request : Request} {plaintext : Bytes} {f : DataKey → C.Cipher → Program C α}
    (next : ∀ dk c u, u.audit = m.audit → Audited (·.audit) request u.audit (outcome (f dk c) u)) :
    Audited (·.audit) request m.audit (outcome (generate_data_key draws >>= fun dk => encryptWith draws dk plaintext >>= f dk) m) ↔
      CanEncrypt draws m.keyring m.tick := by
  refine audited_generate (fun u : Memory C => u.audit) (fun r => { m.ticked with keyring := r }) ((draws.nonce (m.tick + 1)).isSome = true)
    rfl (fun _ => rfl) (fun a wdk own => ?_)
  rw [← and_true ((draws.nonce (m.tick + 1)).isSome = true)]
  exact audited_encryptWith (fun u : Memory C => u.audit) True rfl rfl (fun c => iff_true_intro (next _ c _ rfl))

theorem memory_audited_find {α : Type} {request : Request} {name : String} {f : StoredSecret C → Program C α} (rest : StoredSecret C → Prop)
    (next : ∀ stored, m.secrets.lookup name = some stored → (Audited (·.audit) request m.audit (outcome (f stored) m) ↔ rest stored)) :
    Audited (·.audit) request m.audit (outcome (find name >>= f) m) ↔ ∃ stored, m.secrets.lookup name = some stored ∧ rest stored := by
  cases there : m.secrets.lookup name with
  | none =>
    have ended : ending (find name) m = (some (.error (.SecretNotFound name)),m) := by
      rw [find,ending_bind]
      simp [look,continue_,there]
    exact iff_of_false (audited_error ended rfl) (fun ⟨stored,found,_⟩ => by cases found)
  | some stored =>
    have ended : ending (find name) m = (some (.ok stored),m) := by
      rw [find,ending_bind]
      simp [look,continue_,there]
    rw [outcome_next ended,next stored there]
    simp

theorem exists_iff_mem {rest : Prop} {name : String} :
    (∃ stored, m.secrets.lookup name = some stored ∧ rest) ↔ name ∈ m.secrets ∧ rest := by
  rw [← AList.lookup_isSome,Option.isSome_iff_exists]
  simp

theorem memory_recorded (named : NamedMemory m) (request : Request) :
    Audited (·.audit) request m.audit (performMemory draws m request) ↔ RecordedMemory draws m request := by
  cases request with
  | store_secret name kind plaintext policy =>
    show Audited _ _ _ (outcome (store_secret draws name kind plaintext policy) m) ↔ _
    unfold store_secret
    rw [outcome_next (m := look _) (t := m) rfl]
    cases there : m.secrets.lookup name with
    | some stored => exact iff_of_false (not_audited (fun u : Memory C => u.audit) rfl) (fun all => all.1 (mem_of_lookup there))
    | none =>
      refine (memory_audited_encrypt (fun dk c u _ => ?_)).trans ?_
      · exact ⟨true,rfl,_,rfl,rfl,rfl,fun _ => rfl⟩
      · simp [RecordedMemory,not_mem_of_lookup there]
  | get_secret name =>
    show Audited _ _ _ (outcome (get_secret name) m) ↔ _
    unfold get_secret
    rw [memory_audited_find (fun stored => ∃ dk value, m.keyring.unwrap_data_key stored.data_key_id = .ok dk ∧
      DataKey.decrypt dk stored.secret.encrypted_value = .ok value)]
    · simp only [RecordedMemory,CanDecrypt]
      constructor
      · rintro ⟨stored,there,dk,value,all⟩
        exact ⟨stored,dk,value,there,all⟩
      · rintro ⟨stored,dk,value,there,all⟩
        exact ⟨stored,there,dk,value,all⟩
    intro stored there
    refine (audited_decrypt (fun u : Memory C => u.audit) (s := m) (r := m.keyring) True rfl (fun value => ?_)).trans (iff_of_eq (and_true _))
    exact iff_true_intro ⟨true,rfl,_,rfl,rfl,rfl,fun _ => congrArg some (named name stored there)⟩
  | list_secrets => exact iff_true_intro ⟨true,rfl,_,rfl,rfl,rfl,fun _ => rfl⟩
  | delete_secret name =>
    show Audited _ _ _ (outcome (delete_secret name) m) ↔ _
    unfold delete_secret
    rw [memory_audited_find (fun _ => True),exists_iff_mem,and_true]
    · rfl
    intro stored there
    exact iff_true_intro ⟨true,rfl,_,rfl,rfl,rfl,fun _ => congrArg some (named name stored there)⟩
  | rotate_secret name new_plaintext =>
    show Audited _ _ _ (outcome (rotate_secret draws name new_plaintext) m) ↔ _
    unfold rotate_secret
    rw [memory_audited_find (fun _ => CanEncrypt draws m.keyring m.tick),exists_iff_mem]
    · rfl
    intro stored there
    refine memory_audited_encrypt (fun dk c u _ => ?_)
    exact ⟨true,rfl,_,rfl,rfl,rfl,fun _ => congrArg some (named name stored there)⟩

end
/-- In every reachable state of either vault a request is told by one truthful entry exactly when it can be carried out to its end, or when
    it stores a name that the vault on disk already has; and no call changes or removes an entry. -/
theorem audit_trail (C : Crypto) (env : SledVault.Env) (v : SledVault.Vault C) (steady : ∀ n, env.answer n ≠ .crash) (onDisk : ReachedSled v)
    (draws : Draws) (m : MemoryVault.Memory C) (inMemory : ReachedMemory draws m) (request : Request) (passphrase : Bytes) :
    ((Audited (·.audit) request v.audit (performSled env v request) ↔ RecordedSled env v request) ∧ v.audit <+: (performSled env v request).2.audit ∧
      v.audit <+: (ending SledVault.seal_vault v).2.audit ∧ v.audit <+: (ending (SledVault.unseal_vault passphrase) v).2.audit ∧
      v.audit <+: (ending (SledVault.initialize_vault env passphrase) v).2.audit) ∧
    (Audited (·.audit) request m.audit (performMemory draws m request) ↔ RecordedMemory draws m request) ∧
      m.audit <+: (performMemory draws m request).2.audit ∧ m.audit <+: (ending MemoryVault.seal_vault m).2.audit ∧
      m.audit <+: (ending (MemoryVault.unseal_vault passphrase) m).2.audit := by
  have named := onDisk.named
  have namedMemory := inMemory.named
  refine ⟨⟨sled_recorded steady named request,(request_sound env request named.sound).2,(sound_seal.after named.sound).2,?_,?_⟩,
    memory_recorded namedMemory request,(memory_request_sound request namedMemory.sound).2,List.prefix_rfl,List.prefix_rfl⟩
  · exact ((sound_unseal passphrase).after named.sound).2
  · exact ((sound_initializing passphrase).after named.sound).2

/-! ### Fixed states -/

/-- A vault on disk with one secret. -/
def filled : SledVault.Vault IdealCrypto.symbolic :=
  let env := VaultRuns.answering (fun _ => .done)
  let v := (ending (SledVault.initialize_vault env [112]) ⟨.empty,.new,[],0⟩).2
  (performSled env v (.store_secret "a" .Token [1] .AnyAgent)).2

theorem filled_reached : ReachedSled filled := .request _ _ (.initialize_vault _ _ (.blank []))

/-- The vault in memory that was just made. -/
def made : MemoryVault.Memory IdealCrypto.symbolic :=
  match MemoryVault.Memory.new (VaultRuns.answering (fun _ => .done)).toDraws [112] [] with
  | .ok m => m
  | .error _ => ⟨∅,.new,[],0⟩

theorem made_reached : ReachedMemory (VaultRuns.answering (fun _ => .done)).toDraws made := .new [112] [] rfl

/-- A rotation of the stored secret is recorded by the vault on disk; the empty vault in memory records none. -/
theorem filled_audit_trail :
    ((Audited (·.audit) (.rotate_secret "a" [2]) filled.audit (performSled (VaultRuns.answering (fun _ => .done)) filled (.rotate_secret "a" [2])) ↔
      RecordedSled (VaultRuns.answering (fun _ => .done)) filled (.rotate_secret "a" [2])) ∧ "a" ∈ filled.trees.secrets) ∧
    (Audited (·.audit) (.rotate_secret "a" [2]) made.audit
        (performMemory (VaultRuns.answering (fun _ => .done)).toDraws made (.rotate_secret "a" [2])) ↔
      RecordedMemory (VaultRuns.answering (fun _ => .done)).toDraws made (.rotate_secret "a" [2])) ∧ "a" ∉ made.secrets := by
  have trail := audit_trail _ (VaultRuns.answering (fun _ => .done)) filled (fun _ same => by cases same) filled_reached _ made made_reached
    (.rotate_secret "a" [2]) [112]
  exact ⟨⟨trail.1.1,by decide⟩,trail.2.1,by decide⟩

/-- Reading a secret that is not there fails without an entry, in both vaults. -/
theorem missing_not_audited :
    (ReachedSled filled ∧ ¬ Audited (·.audit) (.get_secret "b") filled.audit (performSled (VaultRuns.answering (fun _ => .done)) filled (.get_secret "b"))) ∧
    ReachedMemory (VaultRuns.answering (fun _ => .done)).toDraws made ∧
      ¬ Audited (·.audit) (.get_secret "b") made.audit (performMemory (VaultRuns.answering (fun _ => .done)).toDraws made (.get_secret "b")) := by
  have sled : (performSled (VaultRuns.answering (fun _ => .done)) filled (.get_secret "b")).2.audit = filled.audit := by decide
  have memory : (performMemory (VaultRuns.answering (fun _ => .done)).toDraws made (.get_secret "b")).2.audit = made.audit := by decide
  exact ⟨⟨filled_reached,not_audited _ sled⟩,made_reached,not_audited _ memory⟩

end Daf.VaultAudit
