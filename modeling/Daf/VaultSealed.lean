import Daf.MemoryRuns

/-!
Sealed vaults. No request needs the master key except through the key ring, so a sealed vault
refuses to store, to read and to rotate; it does not refuse to delete.
-/
namespace Daf.VaultSealed
open Daf.KeyRing Daf.KeyEnvelope Daf.VaultSecrets Daf.CrashLog Daf.Fallible Daf.VaultCrash Daf.VaultCalls Daf.VaultRuns Daf.VaultRequests Daf.MemoryRuns

/-- A request that must fail on a sealed vault. -/
def Guarded : Request → Prop
  | .list_secrets => False
  | _ => True

theorem generate_sealed {C : Crypto} {r : Ring C} (sealed : r.master = none) (id : KeyId) (material : Option Material) (nonce : Option Nonce) :
    r.generate_data_key id material nonce = (.error .Sealed,r) := by
  unfold Ring.generate_data_key
  rw [sealed]

theorem unwrap_sealed {C : Crypto} {r : Ring C} (sealed : r.master = none) (id : KeyId) : r.unwrap_data_key id = .error .Sealed := by
  unfold Ring.unwrap_data_key
  rw [sealed]

/-! ### The vault on disk -/

section
open Daf.SledVault
variable {C : Crypto} {io : Env} {v : Vault C}

/-- The trees and the ring are as they were. -/
def Same (v u : Vault C) : Prop := u.trees = v.trees ∧ u.keyring = v.keyring

/-- The removal of the secret is carried out. -/
def Removes (io : Env) (v : Vault C) (name : String) : Prop :=
  name ∈ v.trees.secrets ∧ io.answer v.tick = .done ∧
    (io.answer (v.tick + 1) = .done ∨ ∃ message, io.answer (v.tick + 1) = .failed true message)

/-- The request does not remove a secret. -/
def SparesSled (io : Env) (v : Vault C) : Request → Prop
  | .delete_secret name => ¬ Removes io v name
  | _ => True

/-- A step that reads, of a store that does not crash. -/
theorem same_read {error : String → VaultError} (steady : ∀ n, io.answer n ≠ .crash) :
    Spec (Same v) (action io error id) (fun _ => Same v) (fun _ => Same v) (fun _ => False) := by
  intro u same
  rw [action,ending_step]
  cases answer : io.answer u.tick with
  | done => exact same
  | failed applied message => cases applied <;> exact same
  | crash => exact steady _ answer

theorem same_encryptNew (sealed : v.keyring.master = none) (plaintext : Bytes) :
    Spec (Same v) (encryptNew io plaintext) (fun _ _ => False) (fun _ => Same v) (fun _ => False) := by
  refine spec_bind (R := fun _ _ => False) (fun u same => ?_) (fun _ _ no => no.elim)
  rw [generate_data_key,ending_step,generate_sealed (by rw [same.2,sealed])]
  exact ⟨same.1,same.2⟩

theorem same_find (steady : ∀ n, io.answer n ≠ .crash) (name : String) :
    Spec (Same v) (find io name) (fun _ => Same v) (fun _ => Same v) (fun _ => False) := by
  refine spec_bind (same_read steady) (fun _ => spec_bind (same_read steady) (fun _ => spec_bind (R := fun _ => Same v) (fun _ same => same) (fun found => ?_)))
  cases found with
  | none => exact spec_throw (fun _ same => same)
  | some stored => exact spec_bind (same_read steady) (fun _ => spec_pure (fun _ same => same))

theorem store_refused (steady : ∀ n, io.answer n ≠ .crash) (sealed : v.keyring.master = none) (name : String) (kind : SecretKind) (plaintext : Bytes)
    (policy : AccessPolicy) : Spec (Same v) (store_secret io name kind plaintext policy) (fun _ _ => False) (fun _ => Same v) (fun _ => False) := by
  refine spec_bind (same_read steady) (fun _ => spec_bind (same_read steady) (fun _ => spec_bind (R := fun _ => Same v) (fun _ same => same) (fun dup => ?_)))
  refine spec_ite (fun _ => ?_) (fun _ => spec_bind (same_encryptNew sealed plaintext) (fun _ _ no => no.elim))
  exact spec_bind (R := fun _ => Same v) (fun _ same => same) (fun _ => spec_throw (fun _ same => same))

theorem rotate_refused (steady : ∀ n, io.answer n ≠ .crash) (sealed : v.keyring.master = none) (name : String) (new_plaintext : Bytes) :
    Spec (Same v) (rotate_secret io name new_plaintext) (fun _ _ => False) (fun _ => Same v) (fun _ => False) :=
  spec_bind (same_find steady name) (fun _ => spec_bind (same_encryptNew sealed new_plaintext) (fun _ _ no => no.elim))

theorem get_refused (steady : ∀ n, io.answer n ≠ .crash) (sealed : v.keyring.master = none) (name : String) :
    Spec (Same v) (get_secret io name) (fun _ _ => False) (fun _ => Same v) (fun _ => False) := by
  refine spec_bind (same_find steady name) (fun stored => spec_bind (R := fun _ _ => False) (fun u same => ?_) (fun _ _ no => no.elim))
  rw [ending_step,unwrap_sealed (by rw [same.2,sealed])]
  exact same

theorem trees_missing {log : List (Op C)} {name : String} (missing : name ∉ (trees log).secrets) : trees (log ++ [.removeSecret name]) = trees log := by
  rw [trees_append]
  show { trees log with secrets := (trees log).secrets.erase name } = _
  rw [erase_missing missing]

theorem delete_refused (steady : ∀ n, io.answer n ≠ .crash) (name : String) (spares : ¬ Removes io v name) :
    Spec (fun u => u = v) (delete_secret io name) (fun _ _ => False) (fun _ => Same v) (fun _ => False) := by
  refine spec_bind (R := fun _ u => u = v.ticked ∧ io.answer v.tick = .done) ?_ (fun _ => ?_)
  · rintro u rfl
    rw [access,action,ending_step]
    cases answer : io.answer u.tick with
    | done => exact ⟨rfl,rfl⟩
    | failed applied message => cases applied <;> exact ⟨rfl,rfl⟩
    | crash => exact steady _ answer
  refine spec_bind (R := fun removed u => (u = v.ticked ∧ io.answer v.tick = .done) ∧ removed = v.trees.secrets.lookup name)
    (fun u same => ⟨same,by rw [same.1]; rfl⟩) (fun removed => ?_)
  refine spec_bind (R := fun _ u => Same v u ∧ removed = none) ?_ (fun _ => ?_)
  · rintro u ⟨⟨rfl,first⟩,rfl⟩
    by_cases there : name ∈ v.trees.secrets
    · -- only a removal that the store refuses is left
      have refused : ∀ applied message, io.answer (v.tick + 1) = .failed applied message → applied = false := by
        intro applied message answer
        cases applied with
        | true => exact absurd ⟨there,first,.inr ⟨message,answer⟩⟩ spares
        | false => rfl
      rw [write,action,ending_step]
      cases answer : io.answer v.ticked.tick with
      | done => exact absurd ⟨there,first,.inl answer⟩ spares
      | failed applied message =>
        rw [refused applied message answer]
        exact ⟨rfl,rfl⟩
      | crash => exact (steady _ answer).elim
    · have absent : v.trees.secrets.lookup name = none := AList.lookup_eq_none.2 there
      have same : Same v (v.ticked.ticked.write (.removeSecret name)) := ⟨trees_missing there,rfl⟩
      rw [write,action,ending_step]
      cases answer : io.answer v.ticked.tick with
      | done => exact ⟨same,absent⟩
      | failed applied message =>
        cases applied
        · exact ⟨rfl,rfl⟩
        · exact same
      | crash => exact (steady _ answer).elim
  · rintro u ⟨same,rfl⟩
    exact same

theorem list_same (steady : ∀ n, io.answer n ≠ .crash) : Spec (Same v) (list_secrets io) (fun _ => Same v) (fun _ => Same v) (fun _ => False) := by
  have collected : ∀ (entries : List (StoredSecret C)) refs, Spec (Same v) (collectRefs io refs entries) (fun _ => Same v) (fun _ => Same v) (fun _ => False) := by
    intro entries
    induction entries with
    | nil => exact fun refs => spec_pure (fun _ same => same)
    | cons stored later ih => exact fun refs => spec_bind (same_read steady) (fun _ => spec_bind (same_read steady) (fun _ => ih _))
  refine spec_bind (same_read steady) (fun _ => spec_bind (R := fun _ => Same v) (fun _ same => same)
    (fun entries => spec_bind (collected entries []) (fun refs => ?_)))
  exact spec_bind (R := fun _ => Same v) (fun _ same => same) (fun _ => spec_pure (fun _ same => same))

/-- A sealed vault refuses a request that removes nothing and stays as it is. -/
theorem request_inert (steady : ∀ n, io.answer n ≠ .crash) (sealed : v.keyring.master = none) (request : Request) (spares : SparesSled io v request) :
    Same v (performSled io v request).2 ∧ (Guarded request → (performSled io v request).1 = some false) := by
  have refused : ∀ {α : Type} {m : Program C α} {P : Vault C → Prop}, Spec P m (fun _ _ => False) (fun _ => Same v) (fun _ => False) → P v →
      Same v (outcome m v).2 ∧ (outcome m v).1 = some false := by
    intro α m P spec before
    obtain ⟨e,u,ended,same⟩ := spec.refuses before
    rw [outcome_of ended]
    exact ⟨same,rfl⟩
  have start : Same v v := ⟨rfl,rfl⟩
  cases request with
  | store_secret name kind plaintext policy =>
    obtain ⟨same,failed⟩ := refused (store_refused steady sealed name kind plaintext policy) start
    exact ⟨same,fun _ => failed⟩
  | get_secret name =>
    obtain ⟨same,failed⟩ := refused (get_refused steady sealed name) start
    exact ⟨same,fun _ => failed⟩
  | list_secrets => exact ⟨Invariant.after (P := Same v) ((list_same steady).weaken (fun _ same => same) (fun _ _ same => same) (fun _ _ same => same)
      (fun _ no => no.elim)) start,fun no => no.elim⟩
  | delete_secret name =>
    obtain ⟨same,failed⟩ := refused (delete_refused steady name spares) rfl
    exact ⟨same,fun _ => failed⟩
  | rotate_secret name new_plaintext =>
    obtain ⟨same,failed⟩ := refused (rotate_refused steady sealed name new_plaintext) start
    exact ⟨same,fun _ => failed⟩

/-- The operation neither removes a secret nor opens the vault. -/
def KeepsSled (io : Env) (p : Bytes) (v : Vault C) : Operation → Prop
  | .request request => SparesSled io v request
  | .seal_vault => True
  | .unseal_vault passphrase => passphrase ≠ p

/-- So does every operation of the run. -/
def KeepsRunSled (io : Env) (p : Bytes) (v : Vault C) : List Operation → Prop
  | [] => True
  | op :: later => KeepsSled io p v op ∧ KeepsRunSled io p (stepSled io v op) later

/-- Every operation of the run leaves the vault as it is, and every request that must fail does. -/
def InertSled (io : Env) (v : Vault C) : List Operation → Prop
  | [] => True
  | op :: later => Same v (stepSled io v op) ∧
    (∀ request, op = .request request → Guarded request → (performSled io v request).1 = some false) ∧ InertSled io (stepSled io v op) later

theorem step_inert {p : Bytes} {s : Salt} (steady : ∀ n, io.answer n ≠ .crash) (belongs : Belongs p s v.keyring) (sealed : v.keyring.master = none) (op : Operation)
    (keeps : KeepsSled io p v op) :
    Same v (stepSled io v op) ∧ ∀ request, op = .request request → Guarded request → (performSled io v request).1 = some false := by
  cases op with
  | request request =>
    obtain ⟨same,failed⟩ := request_inert steady sealed request keeps
    refine ⟨same,fun other equal => ?_⟩
    cases equal
    exact failed
  | seal_vault =>
    refine ⟨⟨rfl,?_⟩,fun other equal => by cases equal⟩
    show { v.keyring with master := none } = v.keyring
    rw [← sealed]
  | unseal_vault passphrase =>
    refine ⟨?_,fun other equal => by cases equal⟩
    rcases belongs.unseal passphrase with ⟨right,-⟩ | ⟨-,run⟩
    · exact absurd right keeps
    · show Same v (ending (SledVault.unseal_vault passphrase) v).2
      rw [unseal_vault,ending_step,run]
      exact ⟨rfl,rfl⟩

theorem run_inert {p : Bytes} {s : Salt} (steady : ∀ n, io.answer n ≠ .crash) (ops : List Operation) (belongs : Belongs p s v.keyring)
    (sealed : v.keyring.master = none) (keeps : KeepsRunSled io p v ops) : InertSled io v ops ∧ Same v (ops.foldl (stepSled io) v) := by
  induction ops generalizing v with
  | nil => exact ⟨trivial,rfl,rfl⟩
  | cons op later ih =>
    obtain ⟨same,failed⟩ := step_inert steady belongs sealed op keeps.1
    obtain ⟨inert,after⟩ := ih (v := stepSled io v op) (by rw [same.2]; exact belongs) (by rw [same.2]; exact sealed) keeps.2
    exact ⟨⟨same,failed,inert⟩,after.1.trans same.1,after.2.trans same.2⟩

/-- A vault with the same trees and ring returns the same secrets. -/
theorem same_returns {used : KeyId → Prop} {p : Bytes} {s : Salt} {w : World C} {u : Vault C} (safe : Safe used p s w) (running : w.opened) (same : Same w.vault u)
    {name : String} {stored : StoredSecret C} (there : w.vault.trees.secrets.lookup name = some stored) :
    ∃ value, (w.book name).Allows (some value) ∧ ∀ env, Faultless env →
      ∃ x, ending (do SledVault.unseal_vault p; SledVault.get_secret env name) u = (some (.ok (stored.secret.withValue value)),x) := by
  obtain ⟨value,readable,allowed⟩ := safe.disk.now.secrets name stored there
  have before := (safe.inv running).held
  have trees : SledVault.trees u.db.log = SledVault.trees w.vault.db.log := same.1
  have held : Held p s used u.db.log u.keyring := by
    rw [same.2]
    refine ⟨before.belongs,before.used,?_⟩
    rw [trees]
    exact before.keys
  refine ⟨value,allowed,fun env faultless => unseal_get_returns env held faultless ?_ ?_⟩
  · rw [Vault.trees,trees]
    exact there
  · rw [Vault.trees,trees]
    exact readable.sealed

end

/-! ### The vault in memory -/

section
open Daf.MemoryVault
variable {C : Crypto} (draws : Draws)

/-- The secrets and the ring are as they were. -/
def SameMemory (m n : Memory C) : Prop := n.secrets = m.secrets ∧ n.keyring = m.keyring

/-- The request does not remove a secret. -/
def SparesMemory (m : Memory C) : Request → Prop
  | .delete_secret name => name ∉ m.secrets
  | _ => True

def KeepsMemory (p : Bytes) (m : Memory C) : Operation → Prop
  | .request request => SparesMemory m request
  | .seal_vault => True
  | .unseal_vault passphrase => passphrase ≠ p

def KeepsRunMemory (p : Bytes) (m : Memory C) : List Operation → Prop
  | [] => True
  | op :: later => KeepsMemory p m op ∧ KeepsRunMemory p (stepMemory draws m op) later

def InertMemory (m : Memory C) : List Operation → Prop
  | [] => True
  | op :: later => SameMemory m (stepMemory draws m op) ∧
    (∀ request, op = .request request → Guarded request → (performMemory draws m request).1 = some false) ∧
    InertMemory (stepMemory draws m op) later

theorem memory_find_same {m : Memory C} (name : String) :
    Spec (SameMemory m) (find name) (fun _ => SameMemory m) (fun _ => SameMemory m) (fun _ => False) := by
  refine spec_bind (R := fun _ => SameMemory m) (fun _ same => same) (fun found => ?_)
  cases found with
  | none => exact spec_throw (fun _ same => same)
  | some stored => exact spec_pure (fun _ same => same)

theorem memory_generate_refused {m : Memory C} (sealed : m.keyring.master = none) :
    Spec (SameMemory m) (generate_data_key draws) (fun _ _ => False) (fun _ => SameMemory m) (fun _ => False) := by
  intro n same
  rw [generate_data_key,ending_step,generate_sealed (by rw [same.2,sealed])]
  exact ⟨same.1,same.2⟩

theorem memory_request_inert {m : Memory C} (sealed : m.keyring.master = none) (request : Request) (spares : SparesMemory m request) :
    SameMemory m (performMemory draws m request).2 ∧ (Guarded request → (performMemory draws m request).1 = some false) := by
  have refused : ∀ {α : Type} {q : Program C α}, Spec (SameMemory m) q (fun _ _ => False) (fun _ => SameMemory m) (fun _ => False) →
      SameMemory m (outcome q m).2 ∧ (outcome q m).1 = some false := by
    intro α q spec
    obtain ⟨e,n,ended,same⟩ := spec.refuses ⟨rfl,rfl⟩
    rw [outcome_of ended]
    exact ⟨same,rfl⟩
  cases request with
  | store_secret name kind plaintext policy =>
    obtain ⟨same,failed⟩ := refused (q := store_secret draws name kind plaintext policy) (spec_bind (R := fun _ => SameMemory m) (fun _ same => same)
      (fun dup => spec_ite (fun _ => spec_throw (fun _ same => same)) (fun _ => spec_bind (memory_generate_refused draws sealed) (fun _ _ no => no.elim))))
    exact ⟨same,fun _ => failed⟩
  | get_secret name =>
    obtain ⟨same,failed⟩ := refused (q := get_secret name) (spec_bind (memory_find_same name) (fun stored => spec_bind (R := fun _ _ => False)
      (fun n same => by rw [ending_step,unwrap_sealed (by rw [same.2,sealed])]; exact same) (fun _ _ no => no.elim)))
    exact ⟨same,fun _ => failed⟩
  | list_secrets => exact ⟨⟨rfl,rfl⟩,fun no => no.elim⟩
  | delete_secret name =>
    have absent : m.secrets.lookup name = none := AList.lookup_eq_none.2 spares
    have ended : ending (delete_secret name) m = (some (.error (.SecretNotFound name)),m) := by
      simp [delete_secret,find,look,ending_bind,continue_,absent]
    show SameMemory m (outcome (delete_secret name) m).2 ∧ (True → (outcome (delete_secret name) m).1 = some false)
    rw [outcome_of ended]
    exact ⟨⟨rfl,rfl⟩,fun _ => rfl⟩
  | rotate_secret name new_plaintext =>
    obtain ⟨same,failed⟩ := refused (q := rotate_secret draws name new_plaintext) (spec_bind (memory_find_same name) (fun stored =>
      spec_bind (memory_generate_refused draws sealed) (fun _ _ no => no.elim)))
    exact ⟨same,fun _ => failed⟩

theorem memory_step_inert {m : Memory C} {p : Bytes} {s : Salt} (belongs : Belongs p s m.keyring) (sealed : m.keyring.master = none) (op : Operation)
    (keeps : KeepsMemory p m op) :
    SameMemory m (stepMemory draws m op) ∧ ∀ request, op = .request request → Guarded request → (performMemory draws m request).1 = some false := by
  cases op with
  | request request =>
    obtain ⟨same,failed⟩ := memory_request_inert draws sealed request keeps
    refine ⟨same,fun other equal => ?_⟩
    cases equal
    exact failed
  | seal_vault =>
    refine ⟨⟨rfl,?_⟩,fun other equal => by cases equal⟩
    show { m.keyring with master := none } = m.keyring
    rw [← sealed]
  | unseal_vault passphrase =>
    refine ⟨⟨rfl,?_⟩,fun other equal => by cases equal⟩
    rcases belongs.unseal passphrase with ⟨right,-⟩ | ⟨-,run⟩
    · exact absurd right keeps
    · show (m.keyring.unseal passphrase).2 = m.keyring
      rw [run]

theorem memory_run_inert {m : Memory C} {p : Bytes} {s : Salt} (ops : List Operation) (belongs : Belongs p s m.keyring) (sealed : m.keyring.master = none)
    (keeps : KeepsRunMemory draws p m ops) : InertMemory draws m ops ∧ SameMemory m (ops.foldl (stepMemory draws) m) := by
  induction ops generalizing m with
  | nil => exact ⟨trivial,rfl,rfl⟩
  | cons op later ih =>
    obtain ⟨same,failed⟩ := memory_step_inert draws belongs sealed op keeps.1
    obtain ⟨inert,after⟩ := ih (m := stepMemory draws m op) (by rw [same.2]; exact belongs) (by rw [same.2]; exact sealed) keeps.2
    exact ⟨⟨same,failed,inert⟩,after.1.trans same.1,after.2.trans same.2⟩

end
/-- While a vault is sealed and nothing removes a secret, every request to store, read, rotate or delete fails and changes nothing, and unsealed
    with its passphrase the vault returns every secret with its value. -/
theorem sealed_inert (C : Crypto) (p : Bytes) (ops : List Operation) :
    (∀ (env : SledVault.Env) (blank initialized : SledVault.Vault C), Blank blank →
      ending (SledVault.initialize_vault env p) blank = (some (.ok ()),initialized) → ∀ events,
      let w := VaultRuns.run env initialized events
      Distinct env.toDraws w.vault.tick → w.opened → w.vault.keyring.is_unsealed = false →
      ∀ io : SledVault.Env, (∀ n, io.answer n ≠ .crash) → KeepsRunSled io p w.vault ops →
        InertSled io w.vault ops ∧ ∀ name stored, w.vault.trees.secrets.lookup name = some stored →
          ∃ value, (w.book name).Allows (some value) ∧ ∀ later, Faultless later →
            ∃ x, ending (do SledVault.unseal_vault p; SledVault.get_secret later name) (ops.foldl (stepSled io) w.vault) =
              (some (.ok (stored.secret.withValue value)),x)) ∧
    ∀ (draws : Draws) (audit : List AuditEntry) (new : MemoryVault.Memory C), MemoryVault.Memory.new draws p audit = .ok new →
      ∀ before : List Operation,
      let x := before.foldl (Tracked.step draws) ⟨new,fun _ => none⟩
      Distinct draws x.memory.tick → x.memory.keyring.is_unsealed = false →
      KeepsRunMemory draws p x.memory ops →
        InertMemory draws x.memory ops ∧ ∀ name value, x.values name = some value →
          ∃ stored n, x.memory.secrets.lookup name = some stored ∧
            ending (do MemoryVault.unseal_vault p; MemoryVault.get_secret name) (ops.foldl (stepMemory draws) x.memory) =
              (some (.ok (stored.secret.withValue value)),n) := by
  have none_of : ∀ {C : Crypto} {r : Ring C}, r.is_unsealed = false → r.master = none := by
    intro C r sealed
    rwa [Ring.is_unsealed,Option.isSome_eq_false_iff,Option.isNone_iff_eq_none] at sealed
  refine ⟨?_,?_⟩
  · intro env blank initialized empty done events w fresh running sealed io steady keeps
    obtain ⟨s,kept⟩ := (initialize_spec env).returns empty done
    have safe : Safe _ p s w := VaultRuns.run_lasting (lasting_opened kept) events fresh
    obtain ⟨inert,same⟩ := run_inert steady ops (safe.inv running).held.belongs (none_of sealed) keeps
    exact ⟨inert,fun name stored there => same_returns safe running same there⟩
  · intro draws audit new made before x fresh sealed keeps
    obtain ⟨s,lasting⟩ := new_lasting made
    have inv := MemoryRuns.run_lasting (x := ⟨new,fun _ => none⟩) lasting before fresh
    obtain ⟨inert,secrets,keyring⟩ := memory_run_inert draws ops inv.belongs (none_of sealed) keeps
    refine ⟨inert,fun name value known => ?_⟩
    have after : MemoryRuns.Inv (usedAt draws x.memory.tick) p s x.values (ops.foldl (stepMemory draws) x.memory).secrets
      (ops.foldl (stepMemory draws) x.memory).keyring := by
      rw [secrets,keyring]
      exact inv
    obtain ⟨stored,n,there,ended⟩ := MemoryRuns.unseal_get_returns after known
    rw [secrets] at there
    exact ⟨stored,n,there,ended⟩

/-! ### Fixed runs -/

/-- One secret is stored and the vault is sealed. -/
def sealing : List Event := [.store_secret "a" .Token [1] .AnyAgent false,.seal_vault]

/-- The sealed vault is asked for everything but the removal of its secret. -/
def knocking : List Operation :=
  [.request (.store_secret "b" .Token [2] .AnyAgent),.request (.get_secret "a"),.request (.rotate_secret "a" [3]),.request (.delete_secret "b"),
   .request .list_secrets,.unseal_vault [113]]

def calm : SledVault.Env := answering (fun _ => .done)

def calmInitialized : SledVault.Vault IdealCrypto.symbolic := (ending (SledVault.initialize_vault calm [112]) ⟨.empty,.new,[],0⟩).2

theorem knocking_keeps : KeepsRunSled calm [112] (VaultRuns.run calm calmInitialized sealing).vault knocking := by
  refine ⟨trivial,trivial,trivial,?_,trivial,?_,trivial⟩
  · rintro ⟨there,-⟩
    revert there
    decide
  · show ([113] : Bytes) ≠ [112]
    decide

/-- The same on the vault in memory. -/
def sealingMemory : List Operation := [.request (.store_secret "a" .Token [1] .AnyAgent),.seal_vault]

def calmMemory : MemoryVault.Memory IdealCrypto.symbolic :=
  match MemoryVault.Memory.new calm.toDraws [112] [] with
  | .ok m => m
  | .error _ => ⟨∅,.new,[],0⟩

theorem knocking_keeps_memory :
    KeepsRunMemory calm.toDraws [112] (sealingMemory.foldl (Tracked.step calm.toDraws) ⟨calmMemory,fun _ => none⟩).memory knocking := by
  refine ⟨trivial,trivial,trivial,?_,trivial,?_,trivial⟩
  · show "b" ∉ AList.keys _
    decide
  · show ([113] : Bytes) ≠ [112]
    decide

theorem knocking_sealed_inert :
    (InertSled calm (VaultRuns.run calm calmInitialized sealing).vault knocking ∧
      "a" ∈ (VaultRuns.run calm calmInitialized sealing).vault.trees.secrets) ∧
    InertMemory calm.toDraws (sealingMemory.foldl (Tracked.step calm.toDraws) ⟨calmMemory,fun _ => none⟩).memory knocking ∧
      (sealingMemory.foldl (Tracked.step calm.toDraws) ⟨calmMemory,fun _ => none⟩).values "a" = some [1] := by
  have sled : (VaultRuns.run calm calmInitialized sealing).vault.tick ≤ 2 ^ 128 := by decide
  have memory : (sealingMemory.foldl (Tracked.step calm.toDraws) ⟨calmMemory,fun _ => none⟩).memory.tick ≤ 2 ^ 128 := by decide
  refine ⟨⟨?_,by decide⟩,?_,by decide⟩
  · exact ((sealed_inert _ [112] knocking).1 calm ⟨.empty,.new,[],0⟩ calmInitialized ⟨rfl,rfl,rfl⟩ (Prod.ext rfl rfl) sealing (answering_distinct _ sled)
      (by decide) (by decide) calm (fun _ same => by cases same) knocking_keeps).1
  · exact ((sealed_inert _ [112] knocking).2 calm.toDraws [] calmMemory rfl sealingMemory (answering_distinct _ memory) (by decide)
      knocking_keeps_memory).1

/-- Both vaults delete a secret while they are sealed. -/
theorem sealed_delete :
    (let v := (VaultRuns.run calm calmInitialized sealing).vault
     (v.keyring.is_unsealed = false ∧ "a" ∈ v.trees.secrets ∧ (performSled calm v (.delete_secret "a")).1 = some true ∧
       "a" ∉ (performSled calm v (.delete_secret "a")).2.trees.secrets) ∧ ¬ InertSled calm v [.request (.delete_secret "a")]) ∧
    let m := (sealingMemory.foldl (Tracked.step calm.toDraws) ⟨calmMemory,fun _ => none⟩).memory
    (m.keyring.is_unsealed = false ∧ "a" ∈ m.secrets ∧ (performMemory calm.toDraws m (.delete_secret "a")).1 = some true ∧
      "a" ∉ (performMemory calm.toDraws m (.delete_secret "a")).2.secrets) ∧ ¬ InertMemory calm.toDraws m [.request (.delete_secret "a")] := by
  refine ⟨⟨by decide,fun inert => ?_⟩,by decide,fun inert => ?_⟩
  · have refused := inert.2.1 _ rfl trivial
    revert refused
    decide
  · have refused := inert.2.1 _ rfl trivial
    revert refused
    decide

end Daf.VaultSealed
