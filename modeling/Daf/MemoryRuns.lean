import Daf.VaultRequests

/-!
Runs of the vault in memory. The ring has the data key of every secret, and every secret is
the value that was last stored under its name.
-/
namespace Daf.MemoryRuns
open Daf.KeyRing Daf.KeyEnvelope Daf.VaultSecrets Daf.MemoryVault Daf.Fallible Daf.VaultCalls Daf.VaultRequests

section
variable {C : Crypto}

/-- The values by name. -/
abbrev Values := String → Option Bytes

def Values.put (values : Values) (name : String) (value : Option Bytes) : Values := fun other => if other = name then value else values other

theorem put_self (values : Values) (name : String) (value : Option Bytes) : values.put name value name = value := if_pos rfl

theorem put_other (values : Values) {name other : String} (value : Option Bytes) (differ : other ≠ name) : values.put name value other = values other :=
  if_neg differ

/-- The vault and what its users stored in it. -/
structure Tracked (C : Crypto) where
  memory : Memory C
  values : Values

/-- What a successful request changes. -/
def learned (values : Values) : Request → Values
  | .store_secret name _ plaintext _ => values.put name (some plaintext)
  | .get_secret _ => values
  | .list_secrets => values
  | .delete_secret name => values.put name none
  | .rotate_secret name new_plaintext => values.put name (some new_plaintext)

def Tracked.step (draws : Draws) (x : Tracked C) (op : Operation) : Tracked C :=
  ⟨stepMemory draws x.memory op,
    match op with
    | .request request => if (performMemory draws x.memory request).1 = some true then learned x.values request else x.values
    | _ => x.values⟩

/-- The value is under the data key of the secret, and the ring has the data key. -/
def Holds (key : C.Key) (r : Ring C) (stored : StoredSecret C) (value : Bytes) : Prop :=
  ∃ material nonce inner, r.wrapped_keys.lookup stored.data_key_id = some ⟨stored.data_key_id,C.encrypt key nonce material.val⟩ ∧
    stored.secret.encrypted_value = C.encrypt (C.ofMaterial material) inner value

structure Inv (used : KeyId → Prop) (p : Bytes) (s : Salt) (values : Values) (secrets : AList (fun _ : String => StoredSecret C)) (r : Ring C) : Prop where
  belongs : Belongs p s r
  used : ∀ id wdk, r.wrapped_keys.lookup id = some wdk → used id
  stored : ∀ name value, values name = some value → ∃ stored, secrets.lookup name = some stored ∧ Holds (C.derive p s) r stored value
  missing : ∀ name, values name = none → secrets.lookup name = none
  apart : ∀ n m a b, secrets.lookup n = some a → secrets.lookup m = some b → a.data_key_id = b.data_key_id → n = m

variable {used : KeyId → Prop} {p : Bytes} {s : Salt} {values : Values} {secrets : AList (fun _ : String => StoredSecret C)} {r : Ring C}

/-- No secret has this data key. -/
def Unused (secrets : AList (fun _ : String => StoredSecret C)) (id : KeyId) : Prop :=
  ∀ name stored, secrets.lookup name = some stored → stored.data_key_id ≠ id

theorem Inv.mono {used' : KeyId → Prop} (inv : Inv used p s values secrets r) (more : ∀ id, used id → used' id) : Inv used' p s values secrets r :=
  { inv with used := fun id wdk there => more id (inv.used id wdk there) }

theorem Inv.holds (inv : Inv used p s values secrets r) {name : String} {stored : StoredSecret C} (there : secrets.lookup name = some stored) :
    ∃ value, values name = some value ∧ Holds (C.derive p s) r stored value := by
  cases known : values name with
  | none => cases (inv.missing name known).symm.trans there
  | some value =>
    obtain ⟨other,found,holds⟩ := inv.stored name value known
    cases found.symm.trans there
    exact ⟨value,rfl,holds⟩

theorem Inv.used_key (inv : Inv used p s values secrets r) {name : String} {stored : StoredSecret C} (there : secrets.lookup name = some stored) :
    used stored.data_key_id := by
  obtain ⟨value,-,material,nonce,inner,wrapped,-⟩ := inv.holds there
  exact inv.used _ _ wrapped

theorem Inv.imported (inv : Inv used p s values secrets r) {wdk : WrappedDataKey C} (unused : Unused secrets wdk.id) (drawn : used wdk.id) :
    Inv used p s values secrets (r.import_wrapped_key wdk) where
  belongs := ⟨inv.belongs.salt,inv.belongs.seal_check,inv.belongs.master⟩
  used := by
    intro id other there
    by_cases same : id = wdk.id
    · rwa [same]
    · exact inv.used id other ((AList.lookup_insert_ne same).symm.trans there)
  stored := by
    intro name value known
    obtain ⟨stored,there,material,nonce,inner,wrapped,under⟩ := inv.stored name value known
    exact ⟨stored,there,material,nonce,inner,(AList.lookup_insert_ne (unused name stored there)).trans wrapped,under⟩
  missing := inv.missing
  apart := inv.apart

theorem Inv.forgotten (inv : Inv used p s values secrets r) {id : KeyId} (unused : Unused secrets id) :
    Inv used p s values secrets (r.remove_data_key id).2 where
  belongs := ⟨inv.belongs.salt,inv.belongs.seal_check,inv.belongs.master⟩
  used := by
    intro other wdk there
    by_cases same : other = id
    · subst same
      cases (AList.lookup_erase _ _).symm.trans there
    · exact inv.used other wdk ((AList.lookup_erase_ne same).symm.trans there)
  stored := by
    intro name value known
    obtain ⟨stored,there,material,nonce,inner,wrapped,under⟩ := inv.stored name value known
    exact ⟨stored,there,material,nonce,inner,(AList.lookup_erase_ne (unused name stored there)).trans wrapped,under⟩
  missing := inv.missing
  apart := inv.apart

/-- A secret can be written whose data key is in the ring and no one's. -/
theorem Inv.inserted (inv : Inv used p s values secrets r) {name : String} {new : StoredSecret C} {value : Bytes} (unused : Unused secrets new.data_key_id)
    (holds : Holds (C.derive p s) r new value) : Inv used p s (values.put name (some value)) (secrets.insert name new) r where
  belongs := inv.belongs
  used := inv.used
  stored := by
    intro other found known
    by_cases same : other = name
    · subst same
      rw [put_self] at known
      cases known
      exact ⟨new,AList.lookup_insert _,holds⟩
    · rw [put_other _ _ same] at known
      rw [AList.lookup_insert_ne same]
      exact inv.stored other found known
  missing := by
    intro other unknown
    by_cases same : other = name
    · subst same
      rw [put_self] at unknown
      cases unknown
    · rw [put_other _ _ same] at unknown
      rw [AList.lookup_insert_ne same]
      exact inv.missing other unknown
  apart := by
    intro n m a b first second same
    by_cases left : n = name
    · by_cases right : m = name
      · rw [left,right]
      · subst left
        rw [AList.lookup_insert] at first
        rw [AList.lookup_insert_ne right] at second
        cases first
        exact absurd same.symm (unused m b second)
    · rw [AList.lookup_insert_ne left] at first
      by_cases right : m = name
      · subst right
        rw [AList.lookup_insert] at second
        cases second
        exact absurd same (unused n a first)
      · rw [AList.lookup_insert_ne right] at second
        exact inv.apart n m a b first second same

theorem Inv.removed (inv : Inv used p s values secrets r) (name : String) : Inv used p s (values.put name none) (secrets.erase name) r where
  belongs := inv.belongs
  used := inv.used
  stored := by
    intro other found known
    by_cases same : other = name
    · subst same
      rw [put_self] at known
      cases known
    · rw [put_other _ _ same] at known
      rw [AList.lookup_erase_ne same]
      exact inv.stored other found known
  missing := by
    intro other unknown
    by_cases same : other = name
    · subst same
      exact AList.lookup_erase _ _
    · rw [put_other _ _ same] at unknown
      rw [AList.lookup_erase_ne same]
      exact inv.missing other unknown
  apart := by
    intro n m a b first second same
    by_cases left : n = name
    · subst left
      cases (AList.lookup_erase _ _).symm.trans first
    · by_cases right : m = name
      · subst right
        cases (AList.lookup_erase _ _).symm.trans second
      · rw [AList.lookup_erase_ne left] at first
        rw [AList.lookup_erase_ne right] at second
        exact inv.apart n m a b first second same

/-- A secret that is replaced was the only one with its data key. -/
theorem Inv.unused_replaced (inv : Inv used p s values secrets r) {name : String} {old new : StoredSecret C} (there : secrets.lookup name = some old)
    (unused : Unused secrets new.data_key_id) : Unused (secrets.insert name new) old.data_key_id := by
  intro other stored found same
  by_cases own : other = name
  · subst own
    rw [AList.lookup_insert] at found
    cases found
    exact unused other old there same.symm
  · rw [AList.lookup_insert_ne own] at found
    exact own (inv.apart _ _ _ _ found there same)

theorem Inv.unused_removed (inv : Inv used p s values secrets r) {name : String} {old : StoredSecret C} (there : secrets.lookup name = some old) :
    Unused (secrets.erase name) old.data_key_id := by
  intro other stored found same
  by_cases own : other = name
  · subst own
    cases (AList.lookup_erase _ _).symm.trans found
  · rw [AList.lookup_erase_ne own] at found
    exact own (inv.apart _ _ _ _ found there same)

/-! ### Steps -/

variable {draws : Draws}

/-- The invariant, as long as the ids are distinct. -/
def Lasting (draws : Draws) (p : Bytes) (s : Salt) (values : Values) (m : Memory C) : Prop :=
  Distinct draws m.tick → Inv (usedAt draws m.tick) p s values m.secrets m.keyring

variable {m : Memory C}

theorem Lasting.later (lasting : Lasting draws p s values m) {n : Memory C} (secrets : n.secrets = m.secrets) (keyring : n.keyring = m.keyring)
    (later : m.tick ≤ n.tick) : Lasting draws p s values n := by
  intro distinct
  rw [secrets,keyring]
  exact (lasting (distinct.mono later)).mono (fun _ => usedAt_mono later)

theorem Lasting.unused (lasting : Lasting draws p s values m) {n : Nat} (distinct : Distinct draws n) (later : m.tick + 1 ≤ n) :
    Unused m.secrets (draws.keyId m.tick) := by
  intro name stored there same
  obtain ⟨k,below,drawn⟩ := (lasting (distinct.mono (by omega))).used_key there
  exact distinct k m.tick below (by omega) (drawn.trans same)

/-- A fresh data key is imported. -/
theorem Lasting.imported (lasting : Lasting draws p s values m) {n : Nat} (distinct : Distinct draws n) (later : m.tick + 1 ≤ n) (wdk : WrappedDataKey C)
    (own : wdk.id = draws.keyId m.tick) : Inv (usedAt draws n) p s values m.secrets (m.keyring.import_wrapped_key wdk) := by
  have inv := (lasting (distinct.mono (by omega))).mono (fun _ => usedAt_mono (show m.tick ≤ n by omega))
  refine inv.imported ?_ ⟨m.tick,by omega,own.symm⟩
  rw [own]
  exact lasting.unused distinct later

/-- How a new data key and the plaintext under it come about. -/
theorem encrypt_ends {α : Type} (draws : Draws) (m : Memory C) (plaintext : Bytes) (f : DataKey → C.Cipher → Program C α) :
    (∃ e n, ending (generate_data_key draws >>= fun dk => encryptWith draws dk plaintext >>= f dk) m = (some (.error e),n) ∧ n.secrets = m.secrets ∧
      (n.keyring = m.keyring ∧ m.tick ≤ n.tick ∨
        ∃ wdk, wdk.id = draws.keyId m.tick ∧ n.keyring = m.keyring.import_wrapped_key wdk ∧ m.tick + 1 ≤ n.tick)) ∨
    ∃ master a nonce inner, m.keyring.master = some master ∧
      ending (generate_data_key draws >>= fun dk => encryptWith draws dk plaintext >>= f dk) m =
        ending (f ⟨draws.keyId m.tick,a⟩ (C.encrypt (C.ofMaterial a) inner plaintext))
          ⟨m.secrets,m.keyring.import_wrapped_key ⟨draws.keyId m.tick,C.encrypt master.key nonce a.val⟩,m.audit,m.tick + 2⟩ := by
  rcases generate_cases m.keyring (draws.keyId m.tick) (draws.material m.tick) (draws.nonce m.tick) with ⟨e,run⟩ | ⟨master,a,n,held,-,-,run⟩
  · refine .inl ⟨e,{ m.ticked with keyring := m.keyring },?_,rfl,.inl ⟨rfl,Nat.le_succ _⟩⟩
    rw [ending_bind,generate_data_key,ending_step,run]
    rfl
  · have encrypting : ending (generate_data_key draws >>= fun dk => encryptWith draws dk plaintext >>= f dk) m =
        continue_ (f ⟨draws.keyId m.tick,a⟩) (some (DataKey.encrypt ⟨draws.keyId m.tick,a⟩ (draws.nonce (m.tick + 1)) plaintext),
          ⟨m.secrets,m.keyring.import_wrapped_key ⟨draws.keyId m.tick,C.encrypt master.key n a.val⟩,m.audit,m.tick + 2⟩) := by
      rw [ending_bind,generate_data_key,ending_step,run]
      show ending (encryptWith draws _ plaintext >>= _) _ = _
      rw [ending_bind,encryptWith,ending_step]
      rfl
    cases drawn : draws.nonce (m.tick + 1) with
    | none =>
      rw [drawn] at encrypting
      exact .inl ⟨_,_,encrypting,rfl,.inr ⟨_,rfl,rfl,Nat.le_succ _⟩⟩
    | some inner =>
      rw [drawn] at encrypting
      exact .inr ⟨master,a,n,inner,held,encrypting⟩

theorem find_ends (m : Memory C) (name : String) :
    ending (find name) m = match m.secrets.lookup name with
      | none => (some (.error (.SecretNotFound name)),m)
      | some stored => (some (.ok stored),m) := by
  rw [find,ending_bind]
  show ending (match m.secrets.lookup name with | none => throw _ | some stored => pure stored) m = _
  cases m.secrets.lookup name <;> rfl

theorem find_missing {α : Type} {name : String} (absent : m.secrets.lookup name = none) (f : StoredSecret C → Program C α) :
    ending (find name >>= f) m = (some (.error (.SecretNotFound name)),m) := by
  rw [ending_bind,find_ends,absent]
  rfl

theorem find_there {α : Type} {name : String} {stored : StoredSecret C} (there : m.secrets.lookup name = some stored) (f : StoredSecret C → Program C α) :
    ending (find name >>= f) m = ending (f stored) m := by
  rw [ending_bind,find_ends,there]
  rfl

theorem store_duplicate (draws : Draws) {name : String} {stored : StoredSecret C} (there : m.secrets.lookup name = some stored) (kind : SecretKind)
    (plaintext : Bytes) (policy : AccessPolicy) :
    ending (store_secret draws name kind plaintext policy) m = (some (.error (.Storage ("secret '" ++ name ++ "' already exists"))),m) := by
  rw [store_secret,ending_bind]
  show ending (if (m.secrets.lookup name).isSome then _ else _) m = _
  rw [there]
  rfl

/-- A secret of an unknown name is encrypted and inserted. -/
theorem store_begins (draws : Draws) {name : String} (absent : m.secrets.lookup name = none) (kind : SecretKind) (plaintext : Bytes) (policy : AccessPolicy) :
    ending (store_secret draws name kind plaintext policy) m = ending (do
      let dk ← generate_data_key draws
      let encrypted ← encryptWith draws dk plaintext
      let tick ← look (·.tick)
      let secret := (Secret.new (draws.secretId tick) (draws.now tick) name kind encrypted).with_access_policy policy
      insert name ⟨secret,dk.id⟩
      record ((AuditEntry.succeeded .Write).with_secret secret.as_ref)
      pure secret.as_ref) m := by
  rw [store_secret,ending_bind]
  show ending (if (m.secrets.lookup name).isSome then _ else _) m = _
  rw [absent]
  rfl

/-- The request changes the values only when it succeeds. -/
def Learns (draws : Draws) (p : Bytes) (s : Salt) (values changed : Values) (e : Outcome (Memory C)) : Prop :=
  Lasting draws p s (if e.1 = some true then changed else values) e.2

theorem Lasting.refused (lasting : Lasting draws p s values m) {n : Memory C} (secrets : n.secrets = m.secrets)
    (ring : n.keyring = m.keyring ∧ m.tick ≤ n.tick ∨
      ∃ wdk, wdk.id = draws.keyId m.tick ∧ n.keyring = m.keyring.import_wrapped_key wdk ∧ m.tick + 1 ≤ n.tick) : Lasting draws p s values n := by
  rcases ring with ⟨same,later⟩ | ⟨wdk,own,imported,later⟩
  · exact lasting.later secrets same later
  · intro distinct
    rw [secrets,imported]
    exact lasting.imported distinct later wdk own

theorem holds_new {master : MasterKey C} (inv : Inv used p s values secrets r) (held : r.master = some master) (id : KeyId) (a : Material) (nonce inner : Nonce)
    (stored : StoredSecret C) (own : stored.data_key_id = id) {plaintext : Bytes}
    (under : stored.secret.encrypted_value = C.encrypt (C.ofMaterial a) inner plaintext) :
    Holds (C.derive p s) (r.import_wrapped_key ⟨id,C.encrypt master.key nonce a.val⟩) stored plaintext := by
  have key := inv.belongs.master master held
  subst key
  subst own
  exact ⟨a,nonce,inner,AList.lookup_insert _,under⟩

theorem store_lasting (lasting : Lasting draws p s values m) (name : String) (kind : SecretKind) (plaintext : Bytes) (policy : AccessPolicy) :
    Learns draws p s values (values.put name (some plaintext)) (outcome (store_secret draws name kind plaintext policy) m) := by
  cases there : m.secrets.lookup name with
  | some stored =>
    rw [outcome_of (store_duplicate draws there kind plaintext policy)]
    exact lasting
  | none =>
    have begun := store_begins draws there kind plaintext policy
    rcases encrypt_ends draws m plaintext _ with ⟨e,n,run,secrets,ring⟩ | ⟨master,a,nonce,inner,held,run⟩
    · rw [outcome_of (begun.trans run)]
      exact lasting.refused secrets ring
    · rw [outcome_of (begun.trans run)]
      show Lasting draws p s (values.put name (some plaintext)) _
      intro distinct
      refine (lasting.imported distinct (Nat.le_succ _) _ rfl).inserted ?_
        (holds_new (lasting (distinct.mono (Nat.le_add_right _ 2))) held _ a nonce inner _ rfl rfl)
      exact lasting.unused distinct (Nat.le_succ _)

/-- A stored secret is encrypted anew, and its old data key is forgotten. -/
theorem rotate_begins (draws : Draws) {name : String} {old : StoredSecret C} (there : m.secrets.lookup name = some old) (plaintext : Bytes) :
    ending (rotate_secret draws name plaintext) m = ending (do
      let new_dk ← generate_data_key draws
      let encrypted ← encryptWith draws new_dk plaintext
      remove_data_key old.data_key_id
      let tick ← look (·.tick)
      let rotated := old.rotated encrypted (draws.now tick) new_dk.id
      insert name rotated
      record ((AuditEntry.succeeded .Rotate).with_secret rotated.secret.as_ref)
      pure rotated.secret.as_ref) m := find_there there _

theorem rotate_lasting (lasting : Lasting draws p s values m) (name : String) (plaintext : Bytes) :
    Learns draws p s values (values.put name (some plaintext)) (outcome (rotate_secret draws name plaintext) m) := by
  cases there : m.secrets.lookup name with
  | none =>
    have ended : ending (rotate_secret draws name plaintext) m = (some (.error (.SecretNotFound name)),m) := find_missing there _
    rw [outcome_of ended]
    exact lasting
  | some old =>
    have begun := rotate_begins draws there plaintext
    rcases encrypt_ends draws m plaintext _ with ⟨e,n,run,secrets,ring⟩ | ⟨master,a,nonce,inner,held,run⟩
    · rw [outcome_of (begun.trans run)]
      exact lasting.refused secrets ring
    · rw [outcome_of (begun.trans run)]
      show Lasting draws p s (values.put name (some plaintext)) _
      intro distinct
      have inv := lasting (distinct.mono (Nat.le_add_right _ 2))
      have unused : Unused m.secrets (draws.keyId m.tick) := lasting.unused distinct (Nat.le_succ _)
      have imported := lasting.imported distinct (Nat.le_succ _) ⟨_,C.encrypt master.key nonce a.val⟩ rfl
      exact (imported.inserted unused (holds_new inv held _ a nonce inner _ rfl rfl)).forgotten (inv.unused_replaced there unused)

/-- A stored secret is removed, and its data key is forgotten. -/
theorem delete_ends {name : String} {old : StoredSecret C} (there : m.secrets.lookup name = some old) :
    ending (delete_secret name) m = (some (.ok ()),⟨m.secrets.erase name,(m.keyring.remove_data_key old.data_key_id).2,
      m.audit ++ [(AuditEntry.succeeded .Delete).with_secret old.secret.as_ref],m.tick⟩) := find_there there _

theorem delete_lasting (lasting : Lasting draws p s values m) (name : String) :
    Learns draws p s values (values.put name none) (outcome (delete_secret name) m) := by
  cases there : m.secrets.lookup name with
  | none =>
    have ended : ending (delete_secret name) m = (some (.error (.SecretNotFound name)),m) := find_missing there _
    rw [outcome_of ended]
    exact lasting
  | some old =>
    rw [outcome_of (delete_ends there)]
    show Lasting draws p s (values.put name none) _
    intro distinct
    have inv := lasting distinct
    exact (inv.removed name).forgotten (inv.unused_removed there)

theorem get_lasting (lasting : Lasting draws p s values m) (name : String) : Lasting draws p s values (outcome (get_secret name) m).2 := by
  have kept : Invariant (fun n : Memory C => n.secrets = m.secrets ∧ n.keyring = m.keyring ∧ n.tick = m.tick) (get_secret name) := by
    refine spec_bind (R := fun _ n => n.secrets = m.secrets ∧ n.keyring = m.keyring ∧ n.tick = m.tick) (fun n same => ?_) (fun stored => ?_)
    · rw [find_ends]
      cases n.secrets.lookup name <;> exact same
    · refine spec_bind (invariant_step (fun n same => ?_)) (fun _ => spec_bind (invariant_step (fun _ same => same)) (fun _ => spec_pure (fun _ same => same)))
      cases n.keyring.unwrap_data_key stored.data_key_id <;> exact same
  obtain ⟨secrets,keyring,tick⟩ := kept.after (s := m) ⟨rfl,rfl,rfl⟩
  exact lasting.later secrets keyring (Nat.le_of_eq tick.symm)

theorem step_lasting {x : Tracked C} (lasting : Lasting draws p s x.values x.memory) (op : Operation) :
    Lasting draws p s (x.step draws op).values (x.step draws op).memory := by
  cases op with
  | request request =>
    cases request with
    | store_secret name kind plaintext policy => exact store_lasting lasting name kind plaintext policy
    | get_secret name =>
      show Learns draws p s x.values x.values _
      rw [Learns,ite_self]
      exact get_lasting lasting name
    | list_secrets =>
      show Learns draws p s x.values x.values _
      rw [Learns,ite_self]
      exact lasting.later rfl rfl (Nat.le_refl _)
    | delete_secret name => exact delete_lasting lasting name
    | rotate_secret name new_plaintext => exact rotate_lasting lasting name new_plaintext
  | seal_vault =>
    intro distinct
    have inv := lasting distinct
    exact { inv with belongs := inv.belongs.sealed }
  | unseal_vault passphrase =>
    intro distinct
    have inv := lasting distinct
    show Inv _ p s x.values x.memory.secrets (x.memory.keyring.unseal passphrase).2
    rcases inv.belongs.unseal passphrase with ⟨-,run⟩ | ⟨-,run⟩
    · rw [run]
      exact { inv with belongs := inv.belongs.opened }
    · rw [run]
      exact inv

theorem run_lasting {x : Tracked C} (lasting : Lasting draws p s x.values x.memory) (ops : List Operation) :
    Lasting draws p s (ops.foldl (Tracked.step draws) x).values (ops.foldl (Tracked.step draws) x).memory := by
  induction ops generalizing x with
  | nil => exact lasting
  | cons op later ih => exact ih (step_lasting lasting op)

/-- A vault that was just made has no secrets. -/
theorem new_lasting {audit : List AuditEntry} (made : Memory.new draws p audit = .ok m) : ∃ s, Lasting draws p s (fun _ => none) m := by
  unfold Memory.new at made
  rcases initialize_ring_cases (Ring.new : Ring C) p (draws.salt 0) (draws.nonce 0) with ⟨-,e,run⟩ | ⟨t,n,-,-,run⟩
  · rw [run] at made
    cases made
  · rw [run] at made
    cases made
    refine ⟨t,fun _ => ⟨belongs_new p t n _,fun id wdk there => ?_,fun name value known => ?_,fun _ _ => rfl,fun n m a b first => ?_⟩⟩
    · cases there
    · cases known
    · cases first

/-- Unsealed, the vault returns what was stored. -/
theorem unseal_get_returns (inv : Inv used p s values m.secrets m.keyring) {name : String} {value : Bytes} (known : values name = some value) :
    ∃ stored n, m.secrets.lookup name = some stored ∧
      ending (do unseal_vault p; get_secret name) m = (some (.ok (stored.secret.withValue value)),n) := by
  obtain ⟨stored,there,material,nonce,inner,wrapped,under⟩ := inv.stored name value known
  rcases inv.belongs.unseal p with ⟨-,run⟩ | ⟨differ,-⟩
  · have unwrapped : Ring.unwrap_data_key { m.keyring with master := some ⟨C.derive p s,s⟩ } stored.data_key_id = .ok ⟨stored.data_key_id,material⟩ := by
      simp [Ring.unwrap_data_key,wrapped,decrypt_wrapped,material.property]
    have decrypted : DataKey.decrypt ⟨stored.data_key_id,material⟩ stored.secret.encrypted_value = .ok value := by
      rw [under]
      exact decrypt_wrapped _ _ _
    refine ⟨stored,⟨m.secrets,{ m.keyring with master := some ⟨C.derive p s,s⟩ },
      m.audit ++ [(AuditEntry.succeeded .Read).with_secret stored.secret.as_ref],m.tick⟩,there,?_⟩
    rw [ending_bind,unseal_vault,ending_step,run]
    show ending (get_secret name) _ = _
    rw [get_secret,ending_bind,find_ends]
    simp only [there]
    show ending (Fallible.step _ >>= _) _ = _
    rw [ending_bind,ending_step]
    simp only [unwrapped,decrypted]
    rfl
  · exact absurd rfl differ

end
end Daf.MemoryRuns
