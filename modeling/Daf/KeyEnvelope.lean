import Daf.KeyRing

/-!
The envelope of the key ring. The master key, its salt, the seal check and every wrapped
data key belong to one passphrase (`Under`), and every call keeps it so as long as the ring
is not initialized over keys it holds.
-/
namespace Daf.KeyEnvelope
open Daf.IdealCrypto Daf.KeyRing

/-- The material of the data keys, by id. -/
abbrev Made := AList (fun _ : KeyId => Material)

section
variable {C : Crypto}

/-- The ring holds the data key wrapped by this key, or the data key does not exist. -/
inductive Wraps (key : C.Key) (id : KeyId) : Option Material → Option (WrappedDataKey C) → Prop
  | absent : Wraps key id none none
  | present (material : Material) (nonce : Nonce) : Wraps key id (some material) (some ⟨id,C.encrypt key nonce material.val⟩)

/-- The salt, the seal check and the master key of the ring belong to this passphrase. -/
structure Belongs (p : Bytes) (s : Salt) (r : Ring C) : Prop where
  salt : r.salt = some s
  seal_check : ∃ nonce, r.seal_check = some (C.encrypt (C.derive p s) nonce SEAL_CHECK_PLAINTEXT)
  master : ∀ m, r.master = some m → m = ⟨C.derive p s,s⟩

/-- All parts of the ring belong to the master key of this passphrase and salt. -/
structure Under (p : Bytes) (s : Salt) (made : Made) (r : Ring C) : Prop extends Belongs p s r where
  wrapped : ∀ id, Wraps (C.derive p s) id (made.lookup id) (r.wrapped_keys.lookup id)

variable {p : Bytes} {s : Salt} {made : Made} {r : Ring C}

theorem decrypt_wrapped (key : C.Key) (nonce : Nonce) (plaintext : Bytes) : decrypt key (C.encrypt key nonce plaintext) = .ok plaintext := by
  simp [decrypt]

theorem encrypt_ok {key : C.Key} {nonce : Option Nonce} {plaintext : Bytes} {c : C.Cipher} (done : encrypt key nonce plaintext = .ok c) :
    ∃ n, nonce = some n ∧ c = C.encrypt key n plaintext := by
  unfold encrypt at done
  split at done
  · cases done
  · cases done
    exact ⟨_,rfl,rfl⟩

theorem derive_ok {passphrase : Bytes} {salt : Option Salt} {m : MasterKey C} (done : MasterKey.derive passphrase salt = .ok m) :
    ∃ t, salt = some t ∧ m = ⟨C.derive passphrase t,t⟩ := by
  unfold MasterKey.derive at done
  split at done
  · cases done
  · cases done
    exact ⟨_,rfl,rfl⟩

theorem Under.unwrap (under : Under p s made r) (open_ : r.is_unsealed) {id : KeyId} {material : Material}
    (known : made.lookup id = some material) : r.unwrap_data_key id = .ok ⟨id,material⟩ := by
  obtain ⟨m,held⟩ := Option.isSome_iff_exists.1 open_
  have stored := under.wrapped id
  rw [known] at stored
  generalize at_id : r.wrapped_keys.lookup id = found at stored
  cases stored with
  | present _ nonce =>
    have own := under.master m held
    subst own
    simp [Ring.unwrap_data_key,held,at_id,decrypt_wrapped,material.property]

/-- Only the passphrase opens the ring, and it always does. -/
theorem Belongs.unseal (under : Belongs p s r) (q : Bytes) :
    (q = p ∧ r.unseal q = (.ok (),{ r with master := some ⟨C.derive p s,s⟩ })) ∨ (q ≠ p ∧ r.unseal q = (.error .InvalidPassphrase,r)) := by
  obtain ⟨nonce,check⟩ := under.seal_check
  by_cases same : q = p
  · subst same
    left
    refine ⟨rfl,?_⟩
    simp [Ring.unseal,under.salt,check,MasterKey.derive_with_salt,decrypt_wrapped]
  · right
    refine ⟨same,?_⟩
    have keys : C.derive p s ≠ C.derive q s := fun equal => same (C.derive_inj _ _ _ _ equal).1.symm
    have fails := C.decrypt_other _ _ nonce SEAL_CHECK_PLAINTEXT keys
    simp [Ring.unseal,under.salt,check,MasterKey.derive_with_salt,decrypt,fails]

theorem Belongs.sealed (belongs : Belongs p s r) : Belongs p s r.seal :=
  { belongs with master := fun m held => by cases held }

theorem Belongs.opened (belongs : Belongs p s r) : Belongs p s { r with master := some ⟨C.derive p s,s⟩ } :=
  { belongs with master := fun m held => by cases held; rfl }

/-- A ring with a new master key belongs to its passphrase. -/
theorem belongs_new (q : Bytes) (t : Salt) (n : Nonce) (keys : AList (fun _ : KeyId => WrappedDataKey C)) :
    Belongs q t (⟨some ⟨C.derive q t,t⟩,some t,keys,some (C.encrypt (C.derive q t) n SEAL_CHECK_PLAINTEXT)⟩ : Ring C) :=
  ⟨rfl,⟨n,rfl⟩,fun m held => by cases held; rfl⟩

theorem Under.sealed (under : Under p s made r) : Under p s made r.seal :=
  { under with toBelongs := under.toBelongs.sealed }

theorem Under.opened (under : Under p s made r) : Under p s made { r with master := some ⟨C.derive p s,s⟩ } :=
  { under with toBelongs := under.toBelongs.opened }

theorem Wraps.insert {key : C.Key} {wrapped : AList (fun _ : KeyId => WrappedDataKey C)}
    (all : ∀ id, Wraps key id (made.lookup id) (wrapped.lookup id)) (new : KeyId) (material : Material) (nonce : Nonce) (id : KeyId) :
    Wraps key id ((made.insert new material).lookup id) ((wrapped.insert new ⟨new,C.encrypt key nonce material.val⟩).lookup id) := by
  by_cases same : id = new
  · subst same
    rw [AList.lookup_insert,AList.lookup_insert]
    exact .present material nonce
  · rw [AList.lookup_insert_ne same,AList.lookup_insert_ne same]
    exact all id

theorem Wraps.erase {key : C.Key} {wrapped : AList (fun _ : KeyId => WrappedDataKey C)}
    (all : ∀ id, Wraps key id (made.lookup id) (wrapped.lookup id)) (old id : KeyId) :
    Wraps key id ((made.erase old).lookup id) ((wrapped.erase old).lookup id) := by
  by_cases same : id = old
  · subst same
    rw [AList.lookup_erase,AList.lookup_erase]
    exact .absent
  · rw [AList.lookup_erase_ne same,AList.lookup_erase_ne same]
    exact all id

theorem Under.imported (under : Under p s made r) (id : KeyId) (material : Material) (nonce : Nonce) :
    Under p s (made.insert id material) (r.import_wrapped_key ⟨id,C.encrypt (C.derive p s) nonce material.val⟩) :=
  { under with wrapped := Wraps.insert under.wrapped id material nonce }

theorem Under.removed (under : Under p s made r) (id : KeyId) : Under p s (made.erase id) (r.remove_data_key id).2 :=
  { under with wrapped := Wraps.erase under.wrapped id }

/-- A data key is generated, or nothing happens. -/
theorem generate_cases (r : Ring C) (id : KeyId) (material : Option Material) (nonce : Option Nonce) :
    (∃ e, r.generate_data_key id material nonce = (.error e,r)) ∨
      ∃ m a n, r.master = some m ∧ material = some a ∧ nonce = some n ∧
        r.generate_data_key id material nonce = (.ok ⟨id,a⟩,r.import_wrapped_key ⟨id,C.encrypt m.key n a.val⟩) := by
  unfold Ring.generate_data_key
  cases held : r.master with
  | none => exact .inl ⟨_,rfl⟩
  | some m =>
    cases material with
    | none => exact .inl ⟨_,rfl⟩
    | some a =>
      cases nonce with
      | none => exact .inl ⟨_,rfl⟩
      | some n => exact .inr ⟨m,a,n,rfl,rfl,rfl,by simp [DataKey.generate,encrypt,Ring.import_wrapped_key,held]⟩

/-- The ring gets a new master key, or nothing happens. -/
theorem initialize_ring_cases (r : Ring C) (passphrase : Bytes) (salt : Option Salt) (nonce : Option Nonce) :
    ((salt = none ∨ nonce = none) ∧ ∃ e, r.initialize_ring passphrase salt nonce = (.error e,r)) ∨
      ∃ t n, salt = some t ∧ nonce = some n ∧
        r.initialize_ring passphrase salt nonce =
          (.ok (),⟨some ⟨C.derive passphrase t,t⟩,some t,r.wrapped_keys,some (C.encrypt (C.derive passphrase t) n SEAL_CHECK_PLAINTEXT)⟩) := by
  unfold Ring.initialize_ring
  cases salt with
  | none => exact .inl ⟨.inl rfl,_,rfl⟩
  | some t =>
    cases nonce with
    | none => exact .inl ⟨.inr rfl,_,rfl⟩
    | some n => exact .inr ⟨t,n,rfl,rfl,rfl⟩

theorem unseal_cases (r : Ring C) (passphrase : Bytes) :
    (∃ e, r.unseal passphrase = (.error e,r)) ∨ ∃ t, r.unseal passphrase = (.ok (),{ r with master := some ⟨C.derive passphrase t,t⟩ }) := by
  unfold Ring.unseal
  cases r.salt with
  | none => exact .inl ⟨_,rfl⟩
  | some t =>
    cases r.seal_check with
    | none => exact .inl ⟨_,rfl⟩
    | some check =>
      simp only
      cases decrypt (MasterKey.derive_with_salt passphrase t : MasterKey C).key check with
      | error e => exact .inl ⟨_,rfl⟩
      | ok plaintext =>
        by_cases same : plaintext = SEAL_CHECK_PLAINTEXT
        · exact .inr ⟨t,by simp [same,MasterKey.derive_with_salt]⟩
        · exact .inl ⟨.InvalidPassphrase,by simp [same]⟩

/-! ### Rotation of the master key -/

theorem unwrapAll_ok {key : C.Key} (entries : List (Σ _ : KeyId, WrappedDataKey C))
    (all : ∀ entry ∈ entries, Wraps key entry.1 (made.lookup entry.1) (some entry.2)) :
    ∃ keys, unwrapAll ⟨key,s⟩ entries = .ok keys ∧ keys.map Prod.fst = entries.map Sigma.fst ∧
      ∀ id material, (id,material) ∈ keys → made.lookup id = some material := by
  induction entries with
  | nil => exact ⟨[],rfl,rfl,by simp⟩
  | cons entry later ih =>
    obtain ⟨kid,wdk⟩ := entry
    obtain ⟨keys,run,ids,known⟩ := ih (fun e there => all e (List.mem_cons_of_mem _ there))
    have first : Wraps key kid (made.lookup kid) (some wdk) := all ⟨kid,wdk⟩ List.mem_cons_self
    generalize at_kid : made.lookup kid = found at first
    cases first with
    | present material nonce =>
      refine ⟨(kid,material) :: keys,?_,?_,?_⟩
      · simp [unwrapAll,decrypt_wrapped,run,material.property]
      · simp [ids]
      · intro id m there
        cases there with
        | head => exact at_kid
        | tail _ there => exact known id m there

theorem wrapAll_ok {key : C.Key} {nonces : KeyId → Option Nonce} (keys : List (KeyId × Material))
    (known : ∀ id material, (id,material) ∈ keys → made.lookup id = some material) :
    ∀ {acc w : AList (fun _ : KeyId => WrappedDataKey C)}, wrapAll ⟨key,s⟩ nonces acc keys = .ok w →
      ∀ id, (id ∈ keys.map Prod.fst → Wraps key id (made.lookup id) (w.lookup id)) ∧
        (id ∉ keys.map Prod.fst → w.lookup id = acc.lookup id) := by
  induction keys with
  | nil =>
    intro acc w done id
    cases done
    simp
  | cons pair later ih =>
    obtain ⟨kid,material⟩ := pair
    intro acc w done id
    simp only [wrapAll] at done
    split at done
    · cases done
    · rename_i c wrapped
      obtain ⟨n,-,rfl⟩ := encrypt_ok wrapped
      obtain ⟨inside,outside⟩ := ih (fun i m there => known i m (List.mem_cons_of_mem _ there)) done id
      constructor
      · intro there
        by_cases again : id ∈ later.map Prod.fst
        · exact inside again
        · have first : id = kid := by simpa [again] using there
          subst first
          rw [outside again,AList.lookup_insert,known id material List.mem_cons_self]
          exact .present material n
      · intro away
        obtain ⟨other,again⟩ : id ≠ kid ∧ id ∉ later.map Prod.fst := by simpa using away
        rw [outside again,AList.lookup_insert_ne other]

theorem Under.entries (under : Under p s made r) :
    ∀ entry ∈ r.wrapped_keys.entries, Wraps (C.derive p s) entry.1 (made.lookup entry.1) (some entry.2) := by
  intro entry there
  have found : r.wrapped_keys.lookup entry.1 = some entry.2 := AList.mem_lookup_iff.2 there
  rw [← found]
  exact under.wrapped entry.1

/-- The ring goes over to the new passphrase with every key, or nothing happens. -/
theorem Under.rotate (under : Under p s made r) (q : Bytes) (salt : Option Salt) (nonce : Option Nonce) (nonces : KeyId → Option Nonce) :
    (∃ e, r.rotate_master_key q salt nonce nonces = (.error (.error e),r)) ∨
      ∃ t r', r.rotate_master_key q salt nonce nonces = (.ok (),r') ∧ Under q t made r' := by
  unfold Ring.rotate_master_key
  cases held : r.master with
  | none => exact .inl ⟨_,rfl⟩
  | some m =>
    have own := under.master m held
    subst own
    obtain ⟨keys,run,ids,known⟩ := unwrapAll_ok (s := s) r.wrapped_keys.entries under.entries
    simp only [run]
    cases new : (MasterKey.derive q salt : Except VaultError (MasterKey C)) with
    | error e => exact .inl ⟨_,rfl⟩
    | ok master =>
      obtain ⟨t,-,rfl⟩ := derive_ok new
      simp only
      cases sealing : encrypt (C.derive q t) nonce SEAL_CHECK_PLAINTEXT with
      | error e => exact .inl ⟨_,rfl⟩
      | ok check =>
        obtain ⟨n,-,rfl⟩ := encrypt_ok sealing
        simp only
        cases wrapping : wrapAll (⟨C.derive q t,t⟩ : MasterKey C) nonces ∅ keys with
        | error e => exact .inl ⟨_,rfl⟩
        | ok w =>
          refine .inr ⟨t,_,rfl,⟨belongs_new q t n w,fun id => ?_⟩⟩
          obtain ⟨inside,outside⟩ := wrapAll_ok keys known wrapping id
          by_cases there : id ∈ keys.map Prod.fst
          · exact inside there
          · -- the id was not in the ring, so it stands for no key
            have missing : r.wrapped_keys.lookup id = none := by
              rw [AList.lookup_eq_none,AList.mem_keys]
              rw [ids] at there
              exact there
            have before := under.wrapped id
            rw [missing] at before
            show Wraps _ id _ (w.lookup id)
            rw [outside there]
            cases stands : made.lookup id with
            | none => exact .absent
            | some m =>
              rw [stands] at before
              cases before

/-! ### Runs of calls -/

variable (C) in
/-- A call with its draws. An imported key comes with the material it wraps. -/
inductive Call where
  | initialize_ring (passphrase : Bytes) (salt : Option Salt) (nonce : Option Nonce)
  | generate_data_key (id : KeyId) (material : Option Material) (nonce : Option Nonce)
  | remove_data_key (id : KeyId)
  | seal_ring
  | unseal_ring (passphrase : Bytes)
  | rotate_master_key (new_passphrase : Bytes) (salt : Option Salt) (nonce : Option Nonce) (nonces : KeyId → Option Nonce)
  | import_wrapped_key (wdk : WrappedDataKey C) (material : Material)

/-- Whether the call succeeds, and the ring it leaves. -/
def Call.run : Call C → Ring C → Bool × Ring C
  | .initialize_ring passphrase salt nonce,r => ((r.initialize_ring passphrase salt nonce).1.isOk,(r.initialize_ring passphrase salt nonce).2)
  | .generate_data_key id material nonce,r => ((r.generate_data_key id material nonce).1.isOk,(r.generate_data_key id material nonce).2)
  | .remove_data_key id,r => r.remove_data_key id
  | .seal_ring,r => (true,r.seal)
  | .unseal_ring passphrase,r => ((r.unseal passphrase).1.isOk,(r.unseal passphrase).2)
  | .rotate_master_key new_passphrase salt nonce nonces,r =>
    ((r.rotate_master_key new_passphrase salt nonce nonces).1.isOk,(r.rotate_master_key new_passphrase salt nonce nonces).2)
  | .import_wrapped_key wdk _,r => (true,r.import_wrapped_key wdk)

variable (C) in
/-- The ring with what its users know: the last passphrase, and the keys that were made and not removed. -/
structure State where
  ring : Ring C
  passphrase : Option Bytes
  made : Made

variable (C) in
def State.fresh : State C := ⟨.new,none,∅⟩

/-- The passphrase after the call. -/
def Call.passphraseAfter (succeeded : Bool) (last : Option Bytes) : Call C → Option Bytes
  | .initialize_ring p _ _ => if succeeded then some p else last
  | .rotate_master_key p _ _ _ => if succeeded then some p else last
  | _ => last

/-- The keys after the call. -/
def Call.madeAfter (succeeded : Bool) (before : Made) : Call C → Made
  | .generate_data_key id (some material) _ => if succeeded then before.insert id material else before
  | .remove_data_key id => before.erase id
  | .import_wrapped_key wdk material => before.insert wdk.id material
  | _ => before

def State.step (x : State C) (call : Call C) : State C :=
  ⟨(call.run x.ring).2,call.passphraseAfter (call.run x.ring).1 x.passphrase,call.madeAfter (call.run x.ring).1 x.made⟩

/-- The ring is initialized while it holds no key; new ids are new; an imported key is wrapped by the current master key
    and, when its id is in use, carries the material of that id. -/
def Proper (x : State C) : Call C → Prop
  | .initialize_ring _ salt nonce => x.ring.wrapped_keys.keys = [] ∨ salt = none ∨ nonce = none
  | .generate_data_key id _ _ => id ∉ x.ring.wrapped_keys
  | .import_wrapped_key wdk material =>
    (∃ p s nonce, x.passphrase = some p ∧ x.ring.salt = some s ∧ wdk.wrapped = C.encrypt (C.derive p s) nonce material.val) ∧
      ∀ m, x.made.lookup wdk.id = some m → m = material
  | _ => True

def ProperRun (x : State C) : List (Call C) → Prop
  | [] => True
  | call :: later => Proper x call ∧ ProperRun (x.step call) later

/-- The ring was never initialized and holds nothing, or it belongs to the last passphrase. -/
def Envelope (x : State C) : Prop :=
  match x.passphrase with
  | none => x.ring = .new ∧ x.made = ∅
  | some p => ∃ s, Under p s x.made x.ring

theorem Wraps.none_left {key : C.Key} {wrapped : AList (fun _ : KeyId => WrappedDataKey C)}
    (all : ∀ id, Wraps key id (made.lookup id) (wrapped.lookup id)) (empty : wrapped.keys = []) (id : KeyId) : made.lookup id = none := by
  have before := all id
  have missing : wrapped.lookup id = none := by
    rw [AList.lookup_eq_none,AList.mem_keys,empty]
    exact List.not_mem_nil
  rw [missing] at before
  cases stands : made.lookup id with
  | none => rfl
  | some m =>
    rw [stands] at before
    cases before

/-- A ring that holds no key belongs to the passphrase it is initialized with. -/
theorem under_initialized {t : Salt} {n : Nonce} (none_made : ∀ id, made.lookup id = none) (empty : r.wrapped_keys.keys = []) (q : Bytes) :
    Under q t made (⟨some ⟨C.derive q t,t⟩,some t,r.wrapped_keys,some (C.encrypt (C.derive q t) n SEAL_CHECK_PLAINTEXT)⟩ : Ring C) := by
  refine ⟨belongs_new q t n r.wrapped_keys,fun id => ?_⟩
  have missing : r.wrapped_keys.lookup id = none := by
    rw [AList.lookup_eq_none,AList.mem_keys,empty]
    exact List.not_mem_nil
  rw [none_made,missing]
  exact .absent

theorem envelope_some {x : State C} (p : Bytes) (known : x.passphrase = some p) : Envelope x ↔ ∃ s, Under p s x.made x.ring := by
  rw [Envelope,known]

/-- A ring that was never initialized stays empty until it is. -/
theorem step_fresh (call : Call C) (proper : Proper (State.fresh C) call) : Envelope ((State.fresh C).step call) := by
  cases call with
  | initialize_ring q salt nonce =>
    rcases initialize_ring_cases (Ring.new : Ring C) q salt nonce with ⟨-,e,run⟩ | ⟨t,n,-,-,run⟩
    · simp [Envelope,State.step,State.fresh,Call.run,Call.passphraseAfter,Call.madeAfter,run,Except.isOk,Except.toBool]
    · have known : ((State.fresh C).step (.initialize_ring q salt nonce)).passphrase = some q := by
        simp [State.step,State.fresh,Call.run,Call.passphraseAfter,run,Except.isOk,Except.toBool]
      rw [envelope_some q known]
      refine ⟨t,?_⟩
      simp only [State.step,State.fresh,Call.run,Call.madeAfter,run]
      exact under_initialized (r := Ring.new) (fun id => AList.lookup_empty id) rfl q
  | generate_data_key id material nonce => cases material <;> exact ⟨rfl,rfl⟩
  | remove_data_key id => exact ⟨rfl,rfl⟩
  | seal_ring => exact ⟨rfl,rfl⟩
  | unseal_ring q => exact ⟨rfl,rfl⟩
  | rotate_master_key q salt nonce nonces => exact ⟨rfl,rfl⟩
  | import_wrapped_key wdk material =>
    obtain ⟨⟨p,_,_,known,_⟩,_⟩ := proper
    cases known

/-- What a call does to a ring that belongs to a passphrase. -/
theorem step_under {x : State C} {p : Bytes} (known : x.passphrase = some p) (under : Under p s x.made x.ring) (call : Call C)
    (proper : Proper x call) : ∃ q t, (x.step call).passphrase = some q ∧ Under q t (x.step call).made (x.step call).ring := by
  cases call with
  | initialize_ring q salt nonce =>
    rcases initialize_ring_cases x.ring q salt nonce with ⟨-,e,run⟩ | ⟨t,n,drawn,drawn',run⟩
    · refine ⟨p,s,?_,?_⟩
      · simp [State.step,Call.run,Call.passphraseAfter,run,Except.isOk,Except.toBool,known]
      · simpa [State.step,Call.run,Call.madeAfter,run] using under
    · have empty : x.ring.wrapped_keys.keys = [] := by
        rcases proper with empty | failed | failed
        · exact empty
        · rw [drawn] at failed
          cases failed
        · rw [drawn'] at failed
          cases failed
      refine ⟨q,t,?_,?_⟩
      · simp [State.step,Call.run,Call.passphraseAfter,run,Except.isOk,Except.toBool]
      · simp only [State.step,Call.run,Call.madeAfter,run]
        exact under_initialized (Wraps.none_left under.wrapped empty) empty q
  | generate_data_key id material nonce =>
    refine ⟨p,s,known,?_⟩
    rcases generate_cases x.ring id material nonce with ⟨e,run⟩ | ⟨m,a,n,held,drawn,-,run⟩
    · cases material <;> simpa [State.step,Call.run,Call.madeAfter,run,Except.isOk,Except.toBool] using under
    · subst drawn
      have own := under.master m held
      subst own
      simpa [State.step,Call.run,Call.madeAfter,run,Except.isOk,Except.toBool] using under.imported id a n
  | remove_data_key id => exact ⟨p,s,known,under.removed id⟩
  | seal_ring => exact ⟨p,s,known,under.sealed⟩
  | unseal_ring q =>
    refine ⟨p,s,known,?_⟩
    rcases under.toBelongs.unseal q with ⟨-,run⟩ | ⟨-,run⟩
    · simpa [State.step,Call.run,Call.madeAfter,run] using under.opened
    · simpa [State.step,Call.run,Call.madeAfter,run] using under
  | rotate_master_key q salt nonce nonces =>
    rcases under.rotate q salt nonce nonces with ⟨e,run⟩ | ⟨t,r',run,moved⟩
    · refine ⟨p,s,?_,?_⟩
      · simp [State.step,Call.run,Call.passphraseAfter,run,Except.isOk,Except.toBool,known]
      · simpa [State.step,Call.run,Call.madeAfter,run] using under
    · refine ⟨q,t,?_,?_⟩
      · simp [State.step,Call.run,Call.passphraseAfter,run,Except.isOk,Except.toBool]
      · simpa [State.step,Call.run,Call.madeAfter,run] using moved
  | import_wrapped_key wdk material =>
    obtain ⟨⟨p',s',nonce,known',salted,wraps⟩,-⟩ := proper
    cases known.symm.trans known'
    cases under.salt.symm.trans salted
    obtain ⟨id,wrapped⟩ := wdk
    simp only at wraps
    subst wraps
    exact ⟨p,s,known,under.imported id material nonce⟩

theorem step_envelope {x : State C} (envelope : Envelope x) (call : Call C) (proper : Proper x call) : Envelope (x.step call) := by
  cases known : x.passphrase with
  | none =>
    obtain ⟨ring,passphrase,made⟩ := x
    simp only at known
    subst known
    obtain ⟨rfl,rfl⟩ := envelope
    exact step_fresh call proper
  | some p =>
    obtain ⟨s,under⟩ := (envelope_some p known).1 envelope
    obtain ⟨q,t,known',under'⟩ := step_under known under call proper
    exact (envelope_some q known').2 ⟨t,under'⟩

theorem run_envelope (calls : List (Call C)) : ∀ {x : State C}, Envelope x → ProperRun x calls → Envelope (calls.foldl State.step x) := by
  induction calls with
  | nil =>
    intro x envelope _
    exact envelope
  | cons call later ih =>
    intro x envelope proper
    exact ih (step_envelope envelope call proper.1) proper.2

/-! ### What the envelope is for -/

theorem rotate_failed (r : Ring C) (q : Bytes) (salt : Option Salt) (nonce : Option Nonce) (nonces : KeyId → Option Nonce) :
    (r.rotate_master_key q salt nonce nonces).1.isOk = true ∨ (r.rotate_master_key q salt nonce nonces).2 = r := by
  unfold Ring.rotate_master_key
  cases r.master with
  | none => exact .inr rfl
  | some m =>
    simp only
    cases unwrapAll m r.wrapped_keys.entries with
    | error e => exact .inr rfl
    | ok keys =>
      simp only
      cases (MasterKey.derive q salt : Except VaultError (MasterKey C)) with
      | error e => exact .inr rfl
      | ok master =>
        simp only
        cases encrypt master.key nonce SEAL_CHECK_PLAINTEXT with
        | error e => exact .inr rfl
        | ok check =>
          simp only
          cases wrapAll master nonces ∅ keys with
          | error e => exact .inr rfl
          | ok w => exact .inl rfl

/-- Erasing what is not there changes nothing. -/
theorem erase_missing {α : Type} [DecidableEq α] {β : α → Type} {entries : AList β} {key : α} (missing : key ∉ entries) : entries.erase key = entries :=
  AList.ext (List.kerase_of_notMem_keys (fun inside => missing (AList.mem_keys.2 inside)))

theorem erase_absent {r : Ring C} {id : KeyId} (absent : (r.wrapped_keys.lookup id).isSome = false) : (r.remove_data_key id).2 = r := by
  have missing : id ∉ r.wrapped_keys := by
    rw [← AList.lookup_eq_none]
    simpa using absent
  simp [Ring.remove_data_key,erase_missing missing]

/-- A call that fails leaves the ring as it is. -/
theorem failed_unchanged (call : Call C) (r : Ring C) (failed : (call.run r).1 = false) : (call.run r).2 = r := by
  cases call with
  | initialize_ring q salt nonce =>
    rcases initialize_ring_cases r q salt nonce with ⟨-,e,run⟩ | ⟨t,n,-,-,run⟩
    · simp [Call.run,run]
    · simp [Call.run,run,Except.isOk,Except.toBool] at failed
  | generate_data_key id material nonce =>
    rcases generate_cases r id material nonce with ⟨e,run⟩ | ⟨m,a,n,-,-,-,run⟩
    · simp [Call.run,run]
    · simp [Call.run,run,Except.isOk,Except.toBool] at failed
  | remove_data_key id => exact erase_absent failed
  | seal_ring => cases failed
  | unseal_ring q =>
    rcases unseal_cases r q with ⟨e,run⟩ | ⟨t,run⟩
    · simp [Call.run,run]
    · simp [Call.run,run,Except.isOk,Except.toBool] at failed
  | rotate_master_key q salt nonce nonces =>
    rcases rotate_failed r q salt nonce nonces with done | same
    · rw [Call.run,done] at failed
      cases failed
    · exact same
  | import_wrapped_key wdk material => cases failed

/-- Every key that was made and not removed is in the ring, and a ring that is unsealed returns its material. -/
def Kept (x : State C) : Prop :=
  ∀ id material, x.made.lookup id = some material →
    id ∈ x.ring.wrapped_keys ∧ (x.ring.is_unsealed → x.ring.unwrap_data_key id = .ok ⟨id,material⟩)

/-- The ring opens for the last passphrase and no other. -/
def Opens (x : State C) : Prop := ∀ q, (x.ring.unseal q).1.isOk ↔ x.passphrase = some q

theorem Envelope.kept {x : State C} (envelope : Envelope x) : Kept x := by
  intro id material made
  cases known : x.passphrase with
  | none =>
    rw [Envelope,known] at envelope
    rw [envelope.2] at made
    cases made
  | some p =>
    obtain ⟨s,under⟩ := (envelope_some p known).1 envelope
    refine ⟨?_,fun unsealed => under.unwrap unsealed made⟩
    have stored := under.wrapped id
    rw [made] at stored
    generalize at_id : x.ring.wrapped_keys.lookup id = found at stored
    cases stored with
    | present _ nonce => exact AList.lookup_isSome.1 (by rw [at_id]; rfl)

theorem Envelope.opens {x : State C} (envelope : Envelope x) : Opens x := by
  intro q
  cases known : x.passphrase with
  | none =>
    rw [Envelope,known] at envelope
    rw [envelope.1]
    simp [Ring.unseal,Ring.new,Except.isOk,Except.toBool]
  | some p =>
    obtain ⟨s,under⟩ := (envelope_some p known).1 envelope
    rcases under.toBelongs.unseal q with ⟨same,run⟩ | ⟨differ,run⟩
    · subst same
      simp [run,Except.isOk,Except.toBool]
    · simp [run,Ne.symm differ,Except.isOk,Except.toBool]

/-- In every run of calls that never initializes the ring over keys it holds, no key is lost, the last passphrase alone
    opens the ring, and a call that fails changes nothing. -/
theorem keys_survive (calls : List (Call C)) (proper : ProperRun (State.fresh C) calls) :
    let x := calls.foldl State.step (State.fresh C)
    Kept x ∧ Opens x ∧ ∀ call : Call C, (call.run x.ring).1 = false → (call.run x.ring).2 = x.ring := by
  have envelope : Envelope (calls.foldl State.step (State.fresh C)) := run_envelope calls ⟨rfl,rfl⟩ proper
  exact ⟨envelope.kept,envelope.opens,fun call failed => failed_unchanged call _ failed⟩

end

/-! ### Fixed runs -/

/-- The block that repeats one byte. -/
def block (n : Nat) (byte : UInt8) : Block n := ⟨List.replicate n byte,List.length_replicate⟩

/-- Two keys are made, the master key is rotated, the ring is sealed and opened with the new passphrase. -/
def rotation : List (Call symbolic) :=
  [.initialize_ring [112] (some (block 32 1)) (some (block 12 1)),
   .generate_data_key ⟨7⟩ (some (block 32 2)) (some (block 12 2)),
   .rotate_master_key [113] none (some (block 12 3)) (fun _ => some (block 12 4)),
   .rotate_master_key [113] (some (block 32 3)) (some (block 12 3)) (fun _ => some (block 12 4)),
   .generate_data_key ⟨8⟩ (some (block 32 5)) (some (block 12 5)),
   .seal_ring,.unseal_ring [112],.unseal_ring [113]]

theorem rotation_proper : ProperRun (State.fresh symbolic) rotation := by
  refine ⟨.inl rfl,?_,trivial,trivial,?_,trivial,trivial,trivial,trivial⟩
  · unfold Proper
    decide
  · unfold Proper
    decide

theorem rotation_keys_survive :
    let x := rotation.foldl State.step (State.fresh symbolic)
    (x.made.keys = [⟨8⟩,⟨7⟩] ∧ x.passphrase = some [113] ∧ x.ring.is_unsealed) ∧
      Kept x ∧ Opens x ∧ ∀ call : Call symbolic, (call.run x.ring).1 = false → (call.run x.ring).2 = x.ring :=
  ⟨by decide,keys_survive rotation rotation_proper⟩

/-- Initialized a second time, the ring can no longer read the key it holds. -/
def reinitialized : List (Call symbolic) :=
  [.initialize_ring [112] (some (block 32 1)) (some (block 12 1)),
   .generate_data_key ⟨7⟩ (some (block 32 2)) (some (block 12 2)),
   .initialize_ring [112] (some (block 32 3)) (some (block 12 3))]

theorem reinitialized_key_lost :
    let x := reinitialized.foldl State.step (State.fresh symbolic)
    (x.made.lookup ⟨7⟩ = some (block 32 2) ∧ x.ring.is_unsealed ∧ (x.ring.unwrap_data_key ⟨7⟩).isOk = false) ∧ ¬ Kept x := by
  have lost : let x := reinitialized.foldl State.step (State.fresh symbolic)
      x.made.lookup ⟨7⟩ = some (block 32 2) ∧ x.ring.is_unsealed ∧ (x.ring.unwrap_data_key ⟨7⟩).isOk = false := by decide
  refine ⟨lost,fun kept => ?_⟩
  obtain ⟨made,unsealed,fails⟩ := lost
  rw [(kept _ _ made).2 unsealed] at fails
  cases fails

end Daf.KeyEnvelope
