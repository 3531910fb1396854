import Daf.VaultCalls

/-!
Runs of the vault on disk: calls with steps that fail, crashes at any step, and reopening
from whatever part of the log is left.
-/
namespace Daf.VaultRuns
open Daf.KeyRing Daf.KeyEnvelope Daf.VaultSecrets Daf.SledVault Daf.CrashLog Daf.Fallible Daf.VaultCrash Daf.VaultCalls

/-! ### Opening -/

section
variable {C : Crypto}

/-- The keys by their own ids. -/
def byId (wrapped : AList (fun _ : KeyId => WrappedDataKey C)) (entries : List (WrappedDataKey C)) : AList (fun _ : KeyId => WrappedDataKey C) :=
  entries.foldl (fun wrapped wdk => wrapped.insert wdk.id wdk) wrapped

theorem lookup_byId (entries : List (WrappedDataKey C)) (functional : ∀ a ∈ entries, ∀ b ∈ entries, a.id = b.id → a = b)
    (wrapped : AList (fun _ : KeyId => WrappedDataKey C)) (id : KeyId) (wdk : WrappedDataKey C) :
    (byId wrapped entries).lookup id = some wdk ↔ (wdk ∈ entries ∧ wdk.id = id) ∨ ((∀ a ∈ entries, a.id ≠ id) ∧ wrapped.lookup id = some wdk) := by
  induction entries generalizing wrapped with
  | nil => simp [byId]
  | cons first later ih =>
    have tail := ih (fun a inside b there => functional a (List.mem_cons_of_mem _ inside) b (List.mem_cons_of_mem _ there)) (wrapped.insert first.id first)
    show (byId (wrapped.insert first.id first) later).lookup id = some wdk ↔ _
    rw [tail]
    by_cases same : first.id = id
    · subst same
      rw [AList.lookup_insert]
      constructor
      · rintro (⟨inside,own⟩ | ⟨-,equal⟩)
        · exact .inl ⟨List.mem_cons_of_mem _ inside,own⟩
        · cases equal
          exact .inl ⟨List.mem_cons_self,rfl⟩
      · rintro (⟨inside,own⟩ | ⟨none,-⟩)
        · have equal := functional wdk inside first List.mem_cons_self own
          subst equal
          by_cases again : ∃ a ∈ later, a.id = wdk.id
          · obtain ⟨a,there,own⟩ := again
            have equal := functional a (List.mem_cons_of_mem _ there) wdk List.mem_cons_self own
            subst equal
            exact .inl ⟨there,rfl⟩
          · exact .inr ⟨fun a there own => again ⟨a,there,own⟩,rfl⟩
        · exact absurd rfl (none first List.mem_cons_self)
    · rw [AList.lookup_insert_ne (Ne.symm same)]
      simp only [List.mem_cons,forall_eq_or_imp]
      constructor
      · rintro (⟨inside,own⟩ | ⟨none,there⟩)
        · exact .inl ⟨.inr inside,own⟩
        · exact .inr ⟨⟨same,none⟩,there⟩
      · rintro (⟨rfl | inside,own⟩ | ⟨none,there⟩)
        · exact absurd own same
        · exact .inl ⟨inside,own⟩
        · exact .inr ⟨none.2,there⟩

/-- The keys of a tree that is keyed by their ids. -/
theorem lookup_restored (keys : AList (fun _ : String => WrappedDataKey C)) (keyed : ∀ path wdk, keys.lookup path = some wdk → path = keyPath wdk.id)
    (id : KeyId) : (byId ∅ (keys.entries.map Sigma.snd)).lookup id = keys.lookup (keyPath id) := by
  have inside : ∀ wdk, wdk ∈ keys.entries.map Sigma.snd ↔ keys.lookup (keyPath wdk.id) = some wdk := by
    intro wdk
    rw [List.mem_map]
    constructor
    · rintro ⟨⟨path,_⟩,there,rfl⟩
      have found := AList.mem_lookup_iff.2 there
      rw [← keyed path _ found]
      exact found
    · intro found
      exact ⟨⟨keyPath wdk.id,wdk⟩,AList.mem_lookup_iff.1 found,rfl⟩
  ext wdk
  rw [lookup_byId]
  · simp only [inside]
    constructor
    · rintro (⟨found,rfl⟩ | ⟨-,absurd_⟩)
      · exact found
      · cases absurd_
    · intro found
      have same := keyPath_inj (keyed _ _ found)
      exact .inl ⟨same ▸ found,same.symm⟩
  · intro a first b second same
    rw [inside] at first second
    rw [same,second] at first
    cases first
    rfl

/-- Every step is done. -/
def Faultless (env : Env) : Prop := ∀ n, env.answer n = .done

section
variable {used : KeyId → Prop} {p : Bytes} {s : Salt} {book : Book} (io : Env)

/-- A step that reads keeps what does not speak of the number of steps, unless it fails. -/
theorem spec_read {P I : Vault C → Prop} {error : String → VaultError} (ticked : ∀ v, P v → P v.ticked) (missed : ∀ v, P v → Faultless io ∨ I v) :
    Spec P (action io error id) (fun _ => P) (fun _ => I) I := by
  intro v before
  rw [action,ending_step]
  cases answer : io.answer v.tick with
  | done => exact ticked v before
  | failed applied message =>
    rcases missed v.ticked (ticked v before) with all | post
    · cases (all v.tick).symm.trans answer
    · cases applied <;> exact post
  | crash =>
    rcases missed v.ticked (ticked v before) with all | post
    · cases (all v.tick).symm.trans answer
    · exact post

/-- The log is still as it was found when the vault was opened. -/
def Found (used : KeyId → Prop) (p : Bytes) (s : Salt) (book : Book) (log : List (Op C)) (v : Vault C) : Prop :=
  OnDisk used p s book v ∧ v.db.log = log

theorem restore_spec {I : Vault C → Prop} {log : List (Op C)} (missed : ∀ v, Found used p s book log v → Faultless io ∨ I v)
    (entries : List (WrappedDataKey C)) (wrapped : AList (fun _ : KeyId => WrappedDataKey C)) :
    Spec (Found used p s book log) (restoreKeys io wrapped entries) (fun keys v => Found used p s book log v ∧ keys = byId wrapped entries)
      (fun _ => I) I := by
  induction entries generalizing wrapped with
  | nil => exact spec_pure (fun _ found => ⟨found,rfl⟩)
  | cons wdk later ih =>
    exact spec_bind (spec_read io (fun _ found => found) missed) (fun _ => spec_bind (spec_read io (fun _ found => found) missed) (fun _ => ih _))

/-- Opened, the vault has the keys of all its secrets in its ring. -/
theorem Found.restored {log : List (Op C)} {v : Vault C} (found : Found used p s book log v) (nonce : Nonce) (size : s.val.length = 32) :
    Inv used p s book { v with
      keyring := .restore ⟨s.val,size⟩ (C.encrypt (C.derive p s) nonce SEAL_CHECK_PLAINTEXT) (byId ∅ ((trees log).keys.entries.map Sigma.snd)) } := by
  have good : Good p s book used log := found.2 ▸ found.1.now
  have lookup := lookup_restored (trees log).keys (fun path wdk there => (good.keys path wdk there).1)
  refine ⟨found.1,⟨rfl,⟨nonce,rfl⟩,fun m held => by cases held⟩,fun id wdk there => ?_,fun name stored there => ?_⟩
  · have in_tree := (lookup id).symm.trans there
    have own := keyPath_inj (good.keys _ _ in_tree).1
    rw [own]
    exact (good.keys _ _ in_tree).2
  · show (byId ∅ _).lookup _ = (trees v.db.log).keys.lookup _
    rw [found.2]
    exact lookup stored.data_key_id

theorem open_spec {I : Vault C → Prop} (missed : ∀ v, OnDisk used p s book v → Faultless io ∨ I v) :
    Spec (OnDisk used p s book) (open_vault io) (fun _ => Inv used p s book) (fun _ => I) I := by
  intro v disk
  have good := disk.now
  obtain ⟨nonce,check⟩ := good.seal_check
  have missed' : ∀ u, Found used p s book v.db.log u → Faultless io ∨ I u := fun u found => missed u found.1
  have read : ∀ error, Spec (Found used p s book v.db.log) (action io error id : Program C Unit) (fun _ => Found used p s book v.db.log) (fun _ => I) I :=
    fun error => spec_read io (fun _ found => found) missed'
  suffices run : Spec (Found used p s book v.db.log) (open_vault io) (fun _ => Inv used p s book) (fun _ => I) I from run v ⟨disk,rfl⟩
  refine spec_bind (read _) (fun _ => spec_bind (read _) (fun _ => spec_bind (read _) (fun _ => spec_bind (read _) (fun _ => ?_))))
  refine spec_bind (R := fun salt u => Found used p s book v.db.log u ∧ salt = some s.val)
    (fun u found => ⟨found,(congrArg (fun log => (trees log).salt) found.2).trans good.salt⟩) (fun salt => ?_)
  refine spec_bind (spec_read io (fun _ found => found) (fun u found => missed' u found.1)) (fun _ => ?_)
  refine spec_bind (R := fun check u => (Found used p s book v.db.log u ∧ salt = some s.val) ∧ check = some (C.encrypt (C.derive p s) nonce SEAL_CHECK_PLAINTEXT))
    (fun u found => ⟨found,(congrArg (fun log => (trees log).seal_check) found.1.2).trans check⟩) (fun check_ => ?_)
  rintro u ⟨⟨found,rfl⟩,rfl⟩
  suffices run : Spec (Found used p s book v.db.log) (do
      let entries ← look (fun v : Vault C => v.trees.keys.entries.map Sigma.snd)
      let wrapped ← restoreKeys io ∅ entries
      Fallible.step (fun v : Vault C => (some (.ok ()),
        { v with keyring := .restore ⟨s.val,s.property⟩ (C.encrypt (C.derive p s) nonce SEAL_CHECK_PLAINTEXT) wrapped })))
      (fun _ => Inv used p s book) (fun _ => I) I by
    have size : s.val.length = 32 := s.property
    simp only [size,↓reduceDIte]
    exact run u found
  refine spec_bind (R := fun entries u => Found used p s book v.db.log u ∧ entries = (trees v.db.log).keys.entries.map Sigma.snd)
    (fun u found => ⟨found,congrArg (fun log => (trees log).keys.entries.map Sigma.snd) found.2⟩) (fun entries => ?_)
  rintro w ⟨found,rfl⟩
  refine spec_bind (restore_spec io missed' _ ∅) (fun wrapped => ?_) w found
  rintro x ⟨found,rfl⟩
  exact found.restored nonce s.property

/-- Opening goes on with the count of steps. -/
theorem open_later (n : Nat) : Spec (fun v : Vault C => n ≤ v.tick) (open_vault io) (fun _ v => n ≤ v.tick) (fun _ v => n ≤ v.tick) (fun v => n ≤ v.tick) := by
  have read : ∀ error, Spec (fun v : Vault C => n ≤ v.tick) (action io error id) (fun _ v => n ≤ v.tick) (fun _ v => n ≤ v.tick) (fun v => n ≤ v.tick) :=
    fun error => spec_action (fun _ => Nat.le_succ_of_le) (fun _ => Nat.le_succ_of_le) (fun _ => Nat.le_succ_of_le)
  have seen : ∀ {α : Type} (f : Vault C → α), Spec (fun v : Vault C => n ≤ v.tick) (look f) (fun _ v => n ≤ v.tick) (fun _ v => n ≤ v.tick) (fun v => n ≤ v.tick) :=
    fun f v later => later
  have restored : ∀ entries wrapped, Spec (fun v : Vault C => n ≤ v.tick) (restoreKeys io wrapped entries) (fun _ v => n ≤ v.tick)
      (fun _ v => n ≤ v.tick) (fun v => n ≤ v.tick) := by
    intro entries
    induction entries with
    | nil => exact fun wrapped => spec_pure (fun _ later => later)
    | cons wdk later ih => exact fun wrapped => spec_bind (read _) (fun _ => spec_bind (read _) (fun _ => ih _))
  refine spec_bind (read _) (fun _ => spec_bind (read _) (fun _ => spec_bind (read _) (fun _ => spec_bind (read _) (fun _ => ?_))))
  refine spec_bind (seen _) (fun salt => spec_bind (read _) (fun _ => spec_bind (seen _) (fun check => ?_)))
  split
  · split
    · exact spec_bind (seen _) (fun _ => spec_bind (restored _ _) (fun _ _ later => later))
    · exact spec_throw (fun _ later => later)
  · exact fun _ later => later

/-! ### Initializing -/

/-- No secret was stored and no key was made yet. -/
structure Blank (v : Vault C) : Prop where
  secrets : (trees v.db.log).secrets = ∅
  keys : (trees v.db.log).keys = ∅
  wrapped : v.keyring.wrapped_keys = ∅

/-- The vault on the way from blank to initialized, by what its log has to say yet. -/
structure Begun (p : Bytes) (s : Salt) (check : C.Cipher) (said : List (Op C) → Prop) (v : Vault C) : Prop extends Blank v where
  belongs : Belongs p s v.keyring
  salt : v.keyring.salt = some s
  seal_check : v.keyring.seal_check = some check
  said : said v.db.log

/-- A blank log with its salt and its seal check is good. -/
theorem Begun.inv (used : KeyId → Prop) {check : C.Cipher} {v : Vault C}
    (begun : Begun p s check (fun log => (trees log).salt = some s.val ∧ (trees log).seal_check = some check) v) :
    Good p s (fun _ => ⟨none,[]⟩) used v.db.log ∧ Held p s used v.db.log v.keyring := by
  have no_secret : ∀ name stored, (trees v.db.log).secrets.lookup name ≠ some stored := by
    intro name stored there
    rw [begun.secrets] at there
    cases there
  refine ⟨⟨begun.said.1,?_,fun path wdk there => ?_,fun name stored there => absurd there (no_secret name stored),fun _ _ => .inl rfl,
    fun n m a b first => absurd first (no_secret n a)⟩,begun.belongs,fun id wdk there => ?_,fun name stored there => absurd there (no_secret name stored)⟩
  · obtain ⟨nonce,own⟩ := begun.belongs.seal_check
    rw [begun.seal_check] at own
    cases own
    exact ⟨nonce,begun.said.2⟩
  · rw [begun.keys] at there
    cases there
  · rw [begun.wrapped] at there
    cases there

theorem Begun.step {check : C.Cipher} {said said' : List (Op C) → Prop} {v : Vault C} (begun : Begun p s check said v) {op : Op C}
    (secrets : (trees (v.db.log ++ [op])).secrets = (trees v.db.log).secrets) (keys : (trees (v.db.log ++ [op])).keys = (trees v.db.log).keys)
    (after : said v.db.log → said' (v.db.log ++ [op])) : Begun p s check said' (v.ticked.write op) where
  secrets := secrets.trans begun.secrets
  keys := keys.trans begun.keys
  wrapped := begun.wrapped
  belongs := begun.belongs
  salt := begun.salt
  seal_check := begun.seal_check
  said := after begun.said

theorem spec_begun {check : C.Cipher} {said : List (Op C) → Prop} (said' : List (Op C) → Prop) {op : Op C}
    (secrets : ∀ log, (trees (log ++ [op])).secrets = (trees log).secrets)
    (keys : ∀ log, (trees (log ++ [op])).keys = (trees log).keys) (after : ∀ log, said log → said' (log ++ [op])) :
    Spec (Begun p s check said) (write io op) (fun _ => Begun p s check said') (fun _ _ => True) (fun _ => True) :=
  spec_action (fun _ begun => begun.step (secrets _) (keys _) (after _)) (fun _ _ => trivial) (fun _ _ => trivial)

theorem Begun.ticked {check : C.Cipher} {said : List (Op C) → Prop} {v : Vault C} (begun : Begun p s check said v) : Begun p s check said v.ticked :=
  ⟨⟨begun.secrets,begun.keys,begun.wrapped⟩,begun.belongs,begun.salt,begun.seal_check,begun.said⟩

theorem initialize_spec (env : Env) : Spec Blank (initialize_vault env p) (fun _ (v : Vault C) => ∃ s, Kept env p s (fun _ => ⟨none,[]⟩) v)
    (fun _ _ => True) (fun _ => True) := by
  refine spec_bind (R := fun _ v => ∃ s check, Begun p s check (fun _ => True) v) (fun v blank => ?_) (fun _ => ?_)
  · rw [ending_step]
    rcases initialize_ring_cases v.keyring p (env.salt v.tick) (env.nonce v.tick) with ⟨-,e,run⟩ | ⟨t,n,-,-,run⟩
    · rw [run]
      trivial
    · rw [run]
      exact ⟨t,_,⟨blank.secrets,blank.keys,blank.wrapped⟩,belongs_new p t n _,rfl,rfl,trivial⟩
  rintro v ⟨s,check,begun⟩
  suffices run : Spec (Begun p s check (fun _ => True)) _ _ _ _ from run v begun
  refine spec_bind (R := fun _ => Begun p s check (fun _ => True))
    (spec_action (fun _ begun => begun.ticked) (fun _ _ => trivial) (fun _ _ => trivial)) (fun _ => ?_)
  refine spec_bind (R := fun salt v => Begun p s check (fun _ => True) v ∧ salt = some s) (fun v begun => ⟨begun,begun.salt⟩) (fun salt => ?_)
  rintro v ⟨begun,rfl⟩
  refine spec_bind (spec_begun env (fun log => (trees log).salt = some s.val) ?_ ?_ ?_) (fun _ => ?_) v begun
  · exact fun log => by rw [trees_append]; rfl
  · exact fun log => by rw [trees_append]; rfl
  · exact fun log _ => by rw [trees_append]; rfl
  refine spec_bind (R := fun found v => Begun p s check (fun log => (trees log).salt = some s.val) v ∧ found = some check)
    (fun v begun => ⟨begun,begun.seal_check⟩) (fun found => ?_)
  rintro v ⟨begun,rfl⟩
  refine spec_bind (spec_begun env (fun log => (trees log).salt = some s.val ∧ (trees log).seal_check = some check) ?_ ?_ ?_) (fun _ => ?_) v begun
  · exact fun log => by rw [trees_append]; rfl
  · exact fun log => by rw [trees_append]; rfl
  · exact fun log salt => by rw [trees_append]; exact ⟨salt,rfl⟩
  refine spec_bind (R := fun _ v => ∃ s, Kept env p s (fun _ => ⟨none,[]⟩) v) (spec_action (fun v begun => ⟨s,?_⟩) (fun _ _ => trivial) (fun _ _ => trivial))
    (fun _ v kept => ?_)
  · intro _
    obtain ⟨good,held⟩ := begun.ticked.inv (usedAt env.toDraws (v.tick + 1))
    exact ⟨survives_flush good,held⟩
  · obtain ⟨s,kept⟩ := kept
    exact ⟨s,fun distinct => ⟨(kept distinct).disk,(kept distinct).held⟩⟩

/-! ### Reading -/

theorem decrypted_of {log : List (Op C)} {name : String} {stored : StoredSecret C} {value : Bytes} {r : Ring C}
    (held : Held p s used log r) (open_ : r.master = some ⟨C.derive p s,s⟩) (there : (trees log).secrets.lookup name = some stored)
    (readable : Holds (C.derive p s) (trees log) stored value) :
    ∃ dk, r.unwrap_data_key stored.data_key_id = .ok dk ∧ DataKey.decrypt dk stored.secret.encrypted_value = .ok value := by
  obtain ⟨material,nonce,inner,wrapped,under⟩ := readable
  have in_ring := (held.keys name stored there).trans wrapped
  refine ⟨⟨stored.data_key_id,material⟩,?_,?_⟩
  · simp [Ring.unwrap_data_key,open_,in_ring,decrypt_wrapped,material.property]
  · rw [under]
    exact decrypt_wrapped _ _ _

/-- An unsealed vault returns the secret unless a step fails. -/
theorem get_returns {v : Vault C} (held : Held p s used v.db.log v.keyring) (open_ : v.keyring.is_unsealed) (faultless : Faultless io) {name : String}
    {stored : StoredSecret C} {value : Bytes} (there : v.trees.secrets.lookup name = some stored)
    (readable : Holds (C.derive p s) v.trees stored value) :
    ∃ w, ending (get_secret io name) v = (some (.ok (stored.secret.withValue value)),w) := by
  have read : ∀ {P : Vault C → Prop} error, (∀ v, P v → P v.ticked) → Spec P (action io error id) (fun _ => P) (fun _ _ => False) (fun _ => False) :=
    fun error ticked => spec_read io ticked (fun _ _ => .inl faultless)
  have found : Spec (fun u => u.db.log = v.db.log ∧ u.keyring = v.keyring) (find io name) (fun found u => found = stored ∧ u.keyring = v.keyring)
      (fun _ _ => False) (fun _ => False) := by
    refine spec_bind (read _ (fun _ same => same)) (fun _ => spec_bind (read _ (fun _ same => same)) (fun _ => ?_))
    refine spec_bind (R := fun found u => found = some stored ∧ u.keyring = v.keyring)
      (fun u same => ⟨(congrArg (fun log => (trees log).secrets.lookup name) same.1).trans there,same.2⟩) (fun found => ?_)
    rintro u ⟨rfl,same⟩
    exact spec_bind (read (P := fun u => u.keyring = v.keyring) _ (fun _ same => same)) (fun _ => spec_pure (fun _ same => ⟨rfl,same⟩)) u same
  obtain ⟨m,master⟩ := Option.isSome_iff_exists.1 open_
  have own := held.belongs.master m master
  subst own
  obtain ⟨dk,unwrapped,decrypted⟩ := decrypted_of held master there readable
  have run : Spec (fun u => u.db.log = v.db.log ∧ u.keyring = v.keyring) (get_secret io name) (fun secret _ => secret = stored.secret.withValue value)
      (fun _ _ => False) (fun _ => False) := by
    refine spec_bind found (fun other => ?_)
    rintro u ⟨rfl,same⟩
    rw [ending_bind,ending_step]
    simp only [same,unwrapped,decrypted]
    rfl
  obtain ⟨secret,w,ended,rfl⟩ := run.total ⟨rfl,rfl⟩
  exact ⟨w,ended⟩

/-- Unsealed with its passphrase, so does every vault. -/
theorem unseal_get_returns {v : Vault C} (held : Held p s used v.db.log v.keyring) (faultless : Faultless io) {name : String}
    {stored : StoredSecret C} {value : Bytes}
    (there : v.trees.secrets.lookup name = some stored) (readable : Holds (C.derive p s) v.trees stored value) :
    ∃ w, ending (do unseal_vault p; get_secret io name) v = (some (.ok (stored.secret.withValue value)),w) := by
  rcases held.belongs.unseal p with ⟨-,opened⟩ | ⟨differ,-⟩
  · rw [ending_bind,unseal_vault,ending_step]
    simp only [opened]
    have after : Held p s used v.db.log { v.keyring with master := some ⟨C.derive p s,s⟩ } := { held with belongs := held.belongs.opened }
    exact get_returns io (v := ⟨v.db,_,v.audit ++ [AuditEntry.succeeded .Unseal],v.tick⟩) after rfl faultless there readable
  · exact absurd rfl differ

end

/-! ### Runs -/

/-- The vault, whether its process runs, and what its users know. -/
structure World (C : Crypto) where
  vault : Vault C
  opened : Bool
  book : Book

/-- What happens to the vault. The process of a call whose acknowledgement is lost ends after the last step of the call. -/
inductive Event where
  | store_secret (name : String) (kind : SecretKind) (plaintext : Bytes) (policy : AccessPolicy) (lost : Bool)
  | get_secret (name : String)
  | list_secrets
  | delete_secret (name : String) (lost : Bool)
  | rotate_secret (name : String) (new_plaintext : Bytes) (lost : Bool)
  | seal_vault
  | unseal_vault (passphrase : Bytes)
  | reopen (keep : Nat)

/-- A call that may change a name. -/
def World.change {α : Type} (w : World C) (m : Program C α) (name : String) (a : Attempt) (lost : Bool) : World C :=
  match ending m w.vault with
  | (some (.ok _),v) => if lost then ⟨v,false,w.book.attempt name a⟩ else ⟨v,true,w.book.ack name a.value⟩
  | (some (.error _),v) => ⟨v,true,w.book.attempt name a⟩
  | (none,v) => ⟨v,false,w.book.attempt name a⟩

/-- A call that changes no secret. -/
def World.ask {α : Type} (w : World C) (m : Program C α) : World C :=
  match ending m w.vault with
  | (some _,v) => ⟨v,true,w.book⟩
  | (none,v) => ⟨v,false,w.book⟩

/-- The vault after a crash that keeps this much of what was not flushed. -/
def crashed (v : Vault C) (keep : Nat) : Vault C := { v with db := v.db.crash keep, keyring := .new }

def World.reopen (env : Env) (w : World C) (keep : Nat) : World C :=
  match ending (open_vault env) (crashed w.vault keep) with
  | (some (.ok _),v) => ⟨v,true,w.book⟩
  | (_,v) => ⟨v,false,w.book⟩

/-- Calls reach the vault only while its process runs. -/
def World.step (env : Env) (w : World C) : Event → World C
  | .reopen keep => w.reopen env keep
  | .store_secret name kind plaintext policy lost =>
    if w.opened then w.change (SledVault.store_secret env name kind plaintext policy) name (.store plaintext) lost else w
  | .rotate_secret name new_plaintext lost =>
    if w.opened then w.change (SledVault.rotate_secret env name new_plaintext) name (.rotate new_plaintext) lost else w
  | .delete_secret name lost => if w.opened then w.change (SledVault.delete_secret env name) name .delete lost else w
  | .get_secret name => if w.opened then w.ask (SledVault.get_secret env name) else w
  | .list_secrets => if w.opened then w.ask (SledVault.list_secrets env) else w
  | .seal_vault => if w.opened then w.ask SledVault.seal_vault else w
  | .unseal_vault passphrase => if w.opened then w.ask (SledVault.unseal_vault passphrase) else w

/-- A run from the vault that was just initialized, when no name has a value. -/
def run (env : Env) (v : Vault C) (events : List Event) : World C := events.foldl (World.step env) ⟨v,true,fun _ => ⟨none,[]⟩⟩

/-- What is on the disk is good, and so is the ring while the process runs. -/
structure Safe (used : KeyId → Prop) (p : Bytes) (s : Salt) (w : World C) : Prop where
  disk : OnDisk used p s w.book w.vault
  inv : w.opened → Inv used p s w.book w.vault

/-- It is so as long as the ids are distinct. -/
def Lasting (env : Env) (p : Bytes) (s : Salt) (w : World C) : Prop := Distinct env.toDraws w.vault.tick → Safe (usedAt env.toDraws w.vault.tick) p s w

variable {env : Env} {used : KeyId → Prop} {p : Bytes} {s : Salt} {w : World C}

theorem safe_opened {v : Vault C} {book : Book} (inv : Inv used p s book v) : Safe used p s ⟨v,true,book⟩ := ⟨inv.disk,fun _ => inv⟩

theorem safe_closed {v : Vault C} {book : Book} (disk : OnDisk used p s book v) : Safe used p s ⟨v,false,book⟩ := ⟨disk,fun opened => by cases opened⟩

theorem lasting_opened {v : Vault C} {book : Book} (kept : Kept env p s book v) : Lasting env p s ⟨v,true,book⟩ :=
  fun distinct => safe_opened (kept distinct)

theorem lasting_closed {v : Vault C} {book : Book} (kept : Kept env p s book v) : Lasting env p s ⟨v,false,book⟩ :=
  fun distinct => safe_closed (kept distinct).disk

theorem change_lasting {α : Type} {m : Program C α} {name : String} {a : Attempt} (spec : Acknowledges env p s name a m) (lost : Bool)
    (kept : Kept env p s w.book w.vault) : Lasting env p s (w.change m name a lost) := by
  have before : Kept env p s (w.book.attempt name a) w.vault := kept.loosen (fun _ _ => allows_attempt)
  unfold World.change
  rcases ended : ending m w.vault with ⟨_ | e | r,v⟩
  · exact lasting_closed ((spec w.book).interrupted before ended)
  · exact lasting_opened ((spec w.book).fails before ended)
  · have after := (spec w.book).returns before ended
    cases lost with
    | true => exact lasting_closed (after.loosen (fun _ _ => ack_attempt a))
    | false => exact lasting_opened after

theorem ask_lasting {α : Type} {m : Program C α} (keeps : Keeps env p s w.book (fun _ _ => True) m (fun _ _ _ => True))
    (kept : Kept env p s w.book w.vault) : Lasting env p s (w.ask m) := by
  have before : Within env p s w.book (fun _ _ => True) w.vault := fun distinct => ⟨kept distinct,trivial⟩
  unfold World.ask
  rcases ended : ending m w.vault with ⟨_ | e | r,v⟩
  · exact lasting_closed (keeps.interrupted before ended)
  · exact lasting_opened (keeps.fails before ended)
  · exact lasting_opened (Within.kept (keeps.returns before ended))

theorem crashed_disk {book : Book} {v : Vault C} (disk : OnDisk used p s book v) (keep : Nat) : OnDisk used p s book (crashed v keep) := Survives.crash disk keep

theorem Safe.mono {used' : KeyId → Prop} (safe : Safe used p s w) (more : ∀ id, used id → used' id) : Safe used' p s w :=
  ⟨Survives.mono safe.disk (fun _ good => good.mono more),fun running => (safe.inv running).mono more⟩

theorem reopen_lasting (lasting : Lasting env p s w) (keep : Nat) : Lasting env p s (w.reopen env keep) := by
  have spec : Distinct env.toDraws w.vault.tick → _ :=
    fun distinct => open_spec env (fun (v : Vault C) (disk : OnDisk (usedAt env.toDraws w.vault.tick) p s w.book v) => .inr disk)
    _ (crashed_disk (lasting distinct).disk keep)
  have later := open_later env w.vault.tick (crashed w.vault keep) (Nat.le_refl _)
  unfold World.reopen
  intro distinct
  rcases ended : ending (open_vault env) (crashed w.vault keep) with ⟨_ | e | r,v⟩
  all_goals
    rw [ended] at spec later distinct
    have before := spec (Distinct.mono distinct later)
    refine Safe.mono ?_ (fun _ => usedAt_mono later)
  · exact safe_closed before
  · exact safe_closed before
  · exact safe_opened before

theorem step_lasting (lasting : Lasting env p s w) (event : Event) : Lasting env p s (w.step env event) := by
  cases running : w.opened with
  | false =>
    cases event with
    | reopen keep => exact reopen_lasting lasting keep
    | _ =>
      simp only [World.step,running]
      exact lasting
  | true =>
    have kept : Kept env p s w.book w.vault := fun distinct => (lasting distinct).inv running
    cases event with
    | reopen keep => exact reopen_lasting lasting keep
    | store_secret name kind plaintext policy lost =>
      simp only [World.step,running]
      exact change_lasting (store_acknowledges name kind plaintext policy) lost kept
    | rotate_secret name new_plaintext lost =>
      simp only [World.step,running]
      exact change_lasting (rotate_acknowledges name new_plaintext) lost kept
    | delete_secret name lost =>
      simp only [World.step,running]
      exact change_lasting (delete_acknowledges name) lost kept
    | get_secret name =>
      simp only [World.step,running]
      exact ask_lasting (keeps_get name) kept
    | list_secrets =>
      simp only [World.step,running]
      exact ask_lasting keeps_list kept
    | seal_vault =>
      simp only [World.step,running]
      exact ask_lasting keeps_seal kept
    | unseal_vault passphrase =>
      simp only [World.step,running]
      exact ask_lasting (keeps_unseal passphrase) kept

theorem run_lasting (lasting : Lasting env p s w) (events : List Event) : Lasting env p s (events.foldl (World.step env) w) := by
  induction events generalizing w with
  | nil => exact lasting
  | cons event later ih => exact ih (step_lasting lasting event)

/-- What the users of the vault rely on: a secret that is there has its data key, in its tree and in the ring, it counts its rotations,
    and it can be read, as the value of its last acknowledged call or of an attempt after it; and a secret is missing only where such a call says so. -/
structure Dependable (p : Bytes) (w : World C) : Prop where
  keyed : ∀ name stored, w.vault.trees.secrets.lookup name = some stored →
    ∃ wdk, w.vault.trees.keys.lookup (keyPath stored.data_key_id) = some wdk ∧ wdk.id = stored.data_key_id ∧
      (w.opened → w.vault.keyring.wrapped_keys.lookup stored.data_key_id = some wdk)
  version : ∀ name stored, w.vault.trees.secrets.lookup name = some stored → stored.secret.version = UInt32.ofNat (rotations w.vault.db.log name + 1)
  reads : ∀ name stored, w.vault.trees.secrets.lookup name = some stored →
    ∃ value, (w.book name).Allows (some value) ∧ (w.opened → ∀ io, Faultless io →
      (w.vault.keyring.is_unsealed → ∃ v, ending (SledVault.get_secret io name) w.vault = (some (.ok (stored.secret.withValue value)),v)) ∧
      ∃ v, ending (do SledVault.unseal_vault p; SledVault.get_secret io name) w.vault = (some (.ok (stored.secret.withValue value)),v))
  absent : ∀ name, w.vault.trees.secrets.lookup name = none → (w.book name).Allows none

theorem Safe.dependable (safe : Safe used p s w) : Dependable p w where
  keyed := by
    intro name stored there
    obtain ⟨value,⟨⟨material,nonce,inner,wrapped,-⟩,-⟩,-⟩ := safe.disk.now.secrets name stored there
    exact ⟨_,wrapped,rfl,fun running => ((safe.inv running).held.keys name stored there).trans wrapped⟩
  version := by
    intro name stored there
    obtain ⟨value,readable,-⟩ := safe.disk.now.secrets name stored there
    exact readable.version
  reads := by
    intro name stored there
    obtain ⟨value,readable,allowed⟩ := safe.disk.now.secrets name stored there
    refine ⟨value,allowed,fun running io faultless => ⟨fun unsealed => ?_,?_⟩⟩
    · exact get_returns io (safe.inv running).held unsealed faultless there readable.sealed
    · exact unseal_get_returns io (safe.inv running).held faultless there readable.sealed
  absent := safe.disk.now.absent

/-- Reopened without a fault, the vault is as dependable as before. -/
theorem Safe.recovers (safe : Safe used p s w) (keep : Nat) {io : Env} (faultless : Faultless io) :
    ∃ v, ending (open_vault io) (crashed w.vault keep) = (some (.ok ()),v) ∧ Dependable p ⟨v,true,w.book⟩ := by
  obtain ⟨_,v,ended,inv⟩ := (open_spec io (fun _ _ => .inl faultless)).total (crashed_disk safe.disk keep)
  exact ⟨v,ended,(safe_opened inv).dependable⟩

/-- After one successful initialization, whatever calls follow, whichever steps fail and wherever the process ends and is started again,
    the vault is dependable, and so it is after a crash that leaves any part of what was not flushed. -/
theorem crash_safety (env : Env) (p : Bytes) (blank initialized : Vault C) (empty : Blank blank)
    (done : ending (initialize_vault env p) blank = (some (.ok ()),initialized)) (events : List Event)
    (fresh : Distinct env.toDraws (run env initialized events).vault.tick) :
    Dependable p (run env initialized events) ∧ ∀ keep io, Faultless io →
      ∃ v, ending (open_vault io) (crashed (run env initialized events).vault keep) = (some (.ok ()),v) ∧
        Dependable p ⟨v,true,(run env initialized events).book⟩ := by
  obtain ⟨s,kept⟩ := (initialize_spec env).returns empty done
  have safe := run_lasting (lasting_opened kept) events fresh
  exact ⟨safe.dependable,fun keep io faultless => safe.recovers keep faultless⟩

end
/-! ### A fixed run -/

/-- Fixed draws, counted ids, and these answers. -/
def answering (answer : Nat → Answer) : Env where
  keyId n := ⟨BitVec.ofNat 128 n⟩
  secretId n := ⟨BitVec.ofNat 128 n⟩
  material _ := some (block 32 2)
  nonce _ := some (block 12 1)
  salt _ := some (block 32 1)
  now _ := 0
  answer := answer

theorem answering_distinct (answer : Nat → Answer) {n : Nat} (bound : n ≤ 2 ^ 128) : Distinct (answering answer).toDraws n := by
  intro j k below inside same
  have values := congrArg (fun id => id.uuid.toNat) same
  simp only [answering,BitVec.toNat_ofNat] at values
  rw [Nat.mod_eq_of_lt (by omega),Nat.mod_eq_of_lt (by omega)] at values
  omega

/-- The flush of the first rotation fails, and the second one ends before its secret is written. -/
def faulty : Env := answering (fun n => if n = 25 then .failed false "disk full" else if n = 34 then .crash else .done)

def faultyStart : Vault IdealCrypto.symbolic := ⟨.empty,.new,[],0⟩

def faultyInitialized : Vault IdealCrypto.symbolic := (ending (initialize_vault faulty [112]) faultyStart).2

def faultyEvents : List Event :=
  [.store_secret "a" .Token [1] .AnyAgent false,.rotate_secret "a" [2] false,.rotate_secret "a" [3] false,.reopen 6,.unseal_vault [112],.get_secret "a"]

theorem faulty_crash_safety :
    let w := run faulty faultyInitialized faultyEvents
    (w.opened ∧ w.vault.keyring.is_unsealed ∧ (w.vault.trees.secrets.lookup "a").map (·.secret.version) = some 2 ∧ rotations w.vault.db.log "a" = 1 ∧
      (w.book "a").acked = some [1] ∧ (w.book "a").attempts = [.rotate [2],.rotate [3]]) ∧
      Dependable [112] w ∧ ∀ keep io, Faultless io →
        ∃ v, ending (open_vault io) (crashed w.vault keep) = (some (.ok ()),v) ∧ Dependable [112] ⟨v,true,w.book⟩ := by
  have fresh : (run faulty faultyInitialized faultyEvents).vault.tick ≤ 2 ^ 128 := by decide
  refine ⟨by decide,crash_safety faulty [112] faultyStart faultyInitialized ⟨rfl,rfl,rfl⟩ ?_ faultyEvents (answering_distinct _ fresh)⟩
  exact Prod.ext rfl rfl

end Daf.VaultRuns
