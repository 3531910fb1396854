import Daf.VaultCrash

/-!
What the calls of the vault on disk keep, whichever step of them fails or is the last one
before a crash. Between two steps an assertion is the invariant and a fact about the log and
the ring (`Within`), so a step that only reads keeps every assertion.
-/
namespace Daf.VaultCalls
open Daf.KeyRing Daf.KeyEnvelope Daf.VaultSecrets Daf.SledVault Daf.CrashLog Daf.Fallible Daf.VaultCrash

section
variable {C : Crypto} (used : KeyId → Prop) (env : Env) (p : Bytes) (s : Salt) (book : Book)

/-- Everything that a crash can leave is good. -/
def OnDisk (v : Vault C) : Prop := Survives (Good p s book used) v.db

structure Inv (v : Vault C) : Prop where
  disk : OnDisk used p s book v
  held : Held p s used v.db.log v.keyring

/-- The id was drawn before this step. -/
def usedAt (draws : Draws) (n : Nat) (id : KeyId) : Prop := ∃ k < n, draws.keyId k = id

/-- The ids of all steps before this one are distinct. -/
def Distinct (draws : Draws) (n : Nat) : Prop := ∀ j k, j < k → k < n → draws.keyId j ≠ draws.keyId k

/-- The invariant, as long as the ids are distinct. -/
def Kept (v : Vault C) : Prop := Distinct env.toDraws v.tick → Inv (usedAt env.toDraws v.tick) p s book v

abbrev Assertion (C : Crypto) := List (Op C) → Ring C → Prop

def Within (A : Assertion C) (v : Vault C) : Prop := Distinct env.toDraws v.tick → Inv (usedAt env.toDraws v.tick) p s book v ∧ A v.db.log v.keyring

/-- The program keeps the invariant at each of its steps and leads from one assertion to the other. -/
def Keeps {α : Type} (A : Assertion C) (m : Program C α) (B : α → Assertion C) : Prop :=
  Spec (Within env p s book A) m (fun a => Within env p s book (B a)) (fun _ => Kept env p s book) (Kept env p s book)

end

section
variable {C : Crypto} {used : KeyId → Prop} {env : Env} {p : Bytes} {s : Salt} {book : Book} {v : Vault C} {A B : Assertion C}

theorem usedAt_mono {draws : Draws} {n m : Nat} (later : n ≤ m) {id : KeyId} (drawn : usedAt draws n id) : usedAt draws m id := by
  obtain ⟨k,below,same⟩ := drawn
  exact ⟨k,by omega,same⟩

theorem Distinct.mono {draws : Draws} {n m : Nat} (distinct : Distinct draws m) (later : n ≤ m) : Distinct draws n :=
  fun j k below inside => distinct j k below (by omega)

theorem OnDisk.loosen {book' : Book} (disk : OnDisk used p s book v) (more : ∀ name found, (book name).Allows found → (book' name).Allows found) :
    OnDisk used p s book' v := Survives.mono disk (fun _ good => good.loosen more)

theorem Inv.good (inv : Inv used p s book v) : Good p s book used v.db.log := inv.disk.now

theorem Inv.mono {used' : KeyId → Prop} (inv : Inv used p s book v) (more : ∀ id, used id → used' id) : Inv used' p s book v :=
  ⟨Survives.mono inv.disk (fun _ good => good.mono more),inv.held.mono more⟩

theorem Inv.loosen {book' : Book} (inv : Inv used p s book v) (more : ∀ name found, (book name).Allows found → (book' name).Allows found) :
    Inv used p s book' v := ⟨inv.disk.loosen more,inv.held⟩

theorem Kept.loosen {book' : Book} (kept : Kept env p s book v) (more : ∀ name found, (book name).Allows found → (book' name).Allows found) :
    Kept env p s book' v := fun distinct => (kept distinct).loosen more

theorem Within.kept (within : Within env p s book A v) : Kept env p s book v := fun distinct => (within distinct).1

theorem Within.imp (within : Within env p s book A v) (imp : A v.db.log v.keyring → B v.db.log v.keyring) : Within env p s book B v :=
  fun distinct => ⟨(within distinct).1,imp (within distinct).2⟩

theorem Within.ticked (within : Within env p s book A v) : Within env p s book A v.ticked := by
  intro distinct
  obtain ⟨inv,holds⟩ := within (distinct.mono (Nat.le_succ _))
  have later := inv.mono (fun _ => usedAt_mono (Nat.le_succ _))
  exact ⟨⟨later.disk,later.held⟩,holds⟩

/-! ### Steps -/

theorem keeps_pure {α : Type} {B : α → Assertion C} (a : α) (imp : ∀ log r, A log r → B a log r) : Keeps env p s book A (pure a) B :=
  spec_pure (fun _ within => within.imp (imp _ _))

theorem keeps_throw {α : Type} {B : α → Assertion C} (e : VaultError) : Keeps env p s book A (throw e) B := spec_throw (fun _ within => within.kept)

theorem keeps_bind {α β : Type} {m : Program C α} {f : α → Program C β} {R : α → Assertion C} {B : β → Assertion C}
    (first : Keeps env p s book A m R) (rest : ∀ a, Keeps env p s book (R a) (f a) B) : Keeps env p s book A (m >>= f) B := spec_bind first rest

/-- One step, by what it does when it is done and when it fails. -/
theorem spec_action {P : Vault C → Prop} {Q : Unit → Vault C → Prop} {I : Vault C → Prop} {error : String → VaultError}
    {effect : Vault C → Vault C} (done : ∀ v, P v → Q () (effect v.ticked)) (applied : ∀ v, P v → I (effect v.ticked)) (missed : ∀ v, P v → I v.ticked) :
    Spec P (action env error effect) Q (fun _ => I) I := by
  intro v before
  rw [action,ending_step]
  cases env.answer v.tick with
  | done => exact done v before
  | failed all message =>
    cases all with
    | true => exact applied v before
    | false => exact missed v before
  | crash => exact missed v before

theorem keeps_read {error : String → VaultError} : Keeps env p s book A (action env error id) (fun _ => A) :=
  spec_action (fun _ within => within.ticked) (fun _ within => within.ticked.kept) (fun _ within => within.ticked.kept)

theorem keeps_access : Keeps env p s book A (access env) (fun _ => A) := keeps_read

theorem keeps_convert : Keeps env p s book A (convert env) (fun _ => A) := keeps_read

theorem keeps_look {α : Type} {f : Vault C → α} {B : α → Assertion C} (post : ∀ v, A v.db.log v.keyring → B (f v) v.db.log v.keyring) :
    Keeps env p s book A (look f) B := fun v within => within.imp (post v)

theorem keeps_tick : Keeps env p s book A (look (·.tick)) (fun _ => A) := keeps_look (fun _ holds => holds)

theorem keeps_record (entry : AuditEntry) : Keeps env p s book A (record entry) (fun _ => A) := by
  intro v within distinct
  obtain ⟨⟨disk,held⟩,holds⟩ := within distinct
  exact ⟨⟨disk,held⟩,holds⟩

theorem keeps_write {op : Op C} (after : ∀ used log r, Good p s book used log → Held p s used log r → A log r →
      Good p s book used (log ++ [op]) ∧ Held p s used (log ++ [op]) r ∧ B (log ++ [op]) r) :
    Keeps env p s book A (write env op) (fun _ => B) := by
  have step : ∀ v, Within env p s book A v → Within env p s book B (v.ticked.write op) := by
    intro v within distinct
    obtain ⟨⟨disk,held⟩,holds⟩ := within.ticked distinct
    obtain ⟨good,held',holds'⟩ := after _ _ _ disk.now held holds
    exact ⟨⟨Survives.write disk good,held'⟩,holds'⟩
  exact spec_action step (fun v within => (step v within).kept) (fun _ within => within.ticked.kept)

/-- A flush, after which the log as it is now is all that a crash can leave. -/
theorem spec_flush (book' : Book) (now : ∀ used log r, Good p s book used log → Held p s used log r → A log r → Good p s book' used log) :
    Spec (Within env p s book A) (flush env) (fun _ => Within env p s book' A) (fun _ => Kept env p s book) (Kept env p s book) := by
  refine spec_action (fun v within distinct => ?_) (fun v within distinct => ?_) (fun _ within => within.ticked.kept)
  · obtain ⟨⟨disk,held⟩,holds⟩ := within.ticked distinct
    exact ⟨⟨survives_flush (now _ _ _ disk.now held holds),held⟩,holds⟩
  · obtain ⟨⟨disk,held⟩,_⟩ := within.ticked distinct
    exact ⟨Survives.flush disk,held⟩

theorem keeps_flush : Keeps env p s book A (flush env) (fun _ => A) := spec_flush book (fun _ _ _ good _ _ => good)

/-! ### A new data key -/

/-- The data key is in the ring and no secret has it. -/
structure Generated (p : Bytes) (s : Salt) (dk : DataKey) (log : List (Op C)) (r : Ring C) : Prop where
  unused : Unused log dk.id
  wrapped : ∃ nonce, r.wrapped_keys.lookup dk.id = some ⟨dk.id,C.encrypt (C.derive p s) nonce dk.key_material.val⟩

/-- The data key is in the ring and in its tree, no secret has it, and the plaintext is under it. -/
structure Prepared (p : Bytes) (s : Salt) (plaintext : Bytes) (id : KeyId) (encrypted : C.Cipher) (log : List (Op C)) (r : Ring C) : Prop where
  unused : Unused log id
  sealed : ∃ material nonce inner, (trees log).keys.lookup (keyPath id) = some ⟨id,C.encrypt (C.derive p s) nonce material.val⟩ ∧
    encrypted = C.encrypt (C.ofMaterial material) inner plaintext
  alike : r.wrapped_keys.lookup id = (trees log).keys.lookup (keyPath id)

/-- What is known of the secrets tree. -/
abbrev Tree (C : Crypto) := AList (fun _ : String => StoredSecret C) → Prop

/-- A fresh id is no secret's. -/
theorem Distinct.unused {n : Nat} (distinct : Distinct env.toDraws (n + 1)) (inv : Inv (usedAt env.toDraws n) p s book v) : Unused v.db.log (env.keyId n) := by
  intro name stored found same
  obtain ⟨k,below,drawn⟩ := inv.good.used_key found
  exact distinct k n below (by omega) (drawn.trans same)

theorem keeps_generate (F : Tree C) :
    Keeps env p s book (fun log _ => F (trees log).secrets) (generate_data_key env)
      (fun dk log r => F (trees log).secrets ∧ Generated p s dk log r) := by
  intro v within
  rw [generate_data_key,ending_step]
  rcases generate_cases v.keyring (env.keyId v.tick) (env.material v.tick) (env.nonce v.tick) with ⟨e,run⟩ | ⟨m,material,n,held,-,-,run⟩
  · rw [run]
    exact within.ticked.kept
  · rw [run]
    intro distinct
    obtain ⟨inv,known⟩ := within (Distinct.mono distinct (Nat.le_succ _))
    have own := inv.held.belongs.master m held
    subst own
    have unused := Distinct.unused distinct inv
    have drawn : usedAt env.toDraws (v.tick + 1) (env.keyId v.tick) := ⟨v.tick,by omega,rfl⟩
    have later := inv.mono (fun _ => usedAt_mono (Nat.le_succ _))
    refine ⟨⟨later.disk,Held.imported later.held unused drawn⟩,known,unused,n,?_⟩
    exact AList.lookup_insert _

theorem keeps_encryptWith (dk : DataKey) (plaintext : Bytes) :
    Keeps env p s book A (encryptWith env dk plaintext)
      (fun encrypted log r => A log r ∧ ∃ inner, encrypted = C.encrypt (C.ofMaterial dk.key_material) inner plaintext) := by
  intro v within
  rw [encryptWith,ending_step]
  cases drawn : env.nonce v.tick with
  | none => exact within.ticked.kept
  | some inner => exact within.ticked.imp (fun holds => ⟨holds,inner,rfl⟩)

/-- The wrapped key goes to its tree, where it is no secret's. -/
theorem keeps_persist (F : Tree C) (wdk : WrappedDataKey C) :
    Keeps env p s book (fun log r => F (trees log).secrets ∧ Unused log wdk.id ∧ r.wrapped_keys.lookup wdk.id = some wdk) (persist_wrapped_key env wdk)
      (fun _ log r => F (trees log).secrets ∧ Unused log wdk.id ∧ r.wrapped_keys.lookup wdk.id = some wdk ∧
        (trees log).keys.lookup (keyPath wdk.id) = some wdk) := by
  refine keeps_bind keeps_access (fun _ => keeps_bind keeps_convert (fun _ => keeps_write ?_))
  intro used log r good held ⟨known,unused,wrapped⟩
  have beside : Beside log (.insertKey (keyPath wdk.id) wdk) := beside_insertKey unused
  refine ⟨good.insertKey unused (held.used _ _ wrapped),held.beside beside,?_,?_,wrapped,?_⟩
  · rwa [beside.secrets]
  · unfold Unused
    rwa [beside.secrets]
  · rw [keys_insertKey,if_pos rfl]

theorem keeps_encryptNew (F : Tree C) (plaintext : Bytes) :
    Keeps env p s book (fun log _ => F (trees log).secrets) (encryptNew env plaintext)
      (fun made log r => F (trees log).secrets ∧ Prepared p s plaintext made.1 made.2 log r) := by
  refine keeps_bind (keeps_generate F) (fun dk => keeps_bind (keeps_encryptWith dk plaintext) (fun encrypted => ?_))
  refine keeps_bind (R := fun _ log r => F (trees log).secrets ∧ Prepared p s plaintext dk.id encrypted log r) ?_ (fun _ => keeps_pure _ (fun _ _ holds => holds))
  refine keeps_bind (R := fun found log r => ((F (trees log).secrets ∧ Generated p s dk log r) ∧
      ∃ inner, encrypted = C.encrypt (C.ofMaterial dk.key_material) inner plaintext) ∧ found = r.wrapped_keys.lookup dk.id)
    (keeps_look (fun _ holds => ⟨holds,rfl⟩)) (fun found => ?_)
  cases found with
  | none => exact keeps_throw _
  | some wdk =>
    -- what the key is goes along with what is known of the secrets
    have persisted : Keeps env p s book _ (persist_wrapped_key env wdk) _ := keeps_persist (fun secrets => F secrets ∧ ∃ nonce inner,
      wdk = ⟨dk.id,C.encrypt (C.derive p s) nonce dk.key_material.val⟩ ∧ encrypted = C.encrypt (C.ofMaterial dk.key_material) inner plaintext) wdk
    refine Spec.post (Spec.pre persisted (fun v within => within.imp ?_)) (fun _ v within => within.imp ?_)
    · rintro ⟨⟨⟨known,⟨unused,nonce,wrapped⟩⟩,inner,under⟩,found⟩
      rw [wrapped] at found
      cases found
      exact ⟨⟨known,nonce,inner,rfl,under⟩,unused,wrapped⟩
    · rintro ⟨⟨known,nonce,inner,rfl,under⟩,unused,wrapped,there⟩
      exact ⟨known,unused,⟨dk.key_material,nonce,inner,there,under⟩,wrapped.trans there.symm⟩

/-! ### Calls that write -/

/-- A prepared secret goes to its tree. -/
theorem keeps_publish {name : String} {stored : StoredSecret C} {value : Bytes} {G : List (Op C) → Prop} (allowed : (book name).Allows (some value))
    (ready : ∀ used log r, Good p s book used log → A log r → Prepared p s value stored.data_key_id stored.secret.encrypted_value log r ∧
      stored.secret.version = UInt32.ofNat (rotations (log ++ [.insertSecret name stored]) name + 1) ∧ G (log ++ [.insertSecret name stored])) :
    Keeps env p s book A (write env (.insertSecret name stored)) (fun _ log _ => Settled (C.derive p s) name (some value) log ∧ G log) := by
  refine keeps_write (fun used log r good held holds => ?_)
  obtain ⟨⟨unused,⟨material,nonce,inner,there,under⟩,alike⟩,version,rest⟩ := ready used log r good holds
  have readable : Readable (C.derive p s) (log ++ [Op.insertSecret name stored]) name stored value := by
    refine ⟨⟨material,nonce,inner,?_,under⟩,version⟩
    rw [trees_append]
    exact there
  refine ⟨good.insertSecret unused readable (fun _ _ => rfl) allowed,held.insertSecret alike,⟨stored,?_,readable⟩,rest⟩
  rw [trees_insertSecret,if_pos rfl]

/-- After the flush the call can be acknowledged. -/
theorem spec_settle {name : String} (a : Attempt) :
    Spec (Within env p s (book.attempt name a) (fun log r => Settled (C.derive p s) name a.value log ∧ A log r)) (flush env)
      (fun _ => Within env p s (book.ack name a.value) A) (fun _ => Kept env p s (book.attempt name a)) (Kept env p s (book.attempt name a)) := by
  refine (spec_flush (book.ack name a.value) (fun used log r good _ holds => ?_)).post (fun _ _ within => within.imp (fun holds => holds.2))
  refine good.settled holds.1 (fun other differ => ?_) (allows_acked book name a.value)
  rw [ack_other book _ differ,attempt_other book a differ]

/-- What is kept for the acknowledged book is kept for the book with the attempt. -/
theorem Keeps.acked {α : Type} {name : String} {a : Attempt} {m : Program C α} {B : α → Assertion C} (keeps : Keeps env p s (book.ack name a.value) A m B) :
    Spec (Within env p s (book.ack name a.value) A) m (fun r => Within env p s (book.ack name a.value) (B r))
      (fun _ => Kept env p s (book.attempt name a)) (Kept env p s (book.attempt name a)) :=
  Spec.weaken keeps (fun _ same => same) (fun _ _ same => same) (fun _ _ kept => kept.loosen (fun _ _ => ack_attempt a))
    (fun _ kept => kept.loosen (fun _ _ => ack_attempt a))

theorem version_stored {log : List (Op C)} {name : String} (stored : StoredSecret C) (absent : (trees log).secrets.lookup name = none) :
    (1 : UInt32) = UInt32.ofNat (rotations (log ++ [.insertSecret name stored]) name + 1) := by
  rw [rotations_append,counted,if_pos rfl,absent]
  rfl

theorem version_rotated {log : List (Op C)} {name : String} {old : StoredSecret C} (stored : StoredSecret C)
    (there : (trees log).secrets.lookup name = some old) (version : old.secret.version = UInt32.ofNat (rotations log name + 1)) :
    old.secret.version + 1 = UInt32.ofNat (rotations (log ++ [.insertSecret name stored]) name + 1) := by
  rw [rotations_append,counted,if_pos rfl,there,version,Option.isSome_some,if_pos rfl,UInt32.ofNat_add (rotations log name + 1) 1]
  rfl

/-- What a call needs and keeps that may change a name: its attempt, and when it returns its acknowledgement. -/
def Acknowledges {α : Type} (env : Env) (p : Bytes) (s : Salt) (name : String) (a : Attempt) (m : Program C α) : Prop :=
  ∀ book : Book, Spec (Kept env p s (book.attempt name a)) m (fun _ => Kept env p s (book.ack name a.value))
    (fun _ => Kept env p s (book.attempt name a)) (Kept env p s (book.attempt name a))

theorem acknowledges_of {α : Type} {name : String} {a : Attempt} {m : Program C α}
    (spec : ∀ book : Book, Spec (Within env p s (book.attempt name a) (fun _ _ => True)) m (fun _ => Kept env p s (book.ack name a.value))
      (fun _ => Kept env p s (book.attempt name a)) (Kept env p s (book.attempt name a))) : Acknowledges env p s name a m :=
  fun book => (spec book).pre (fun _ kept distinct => ⟨kept distinct,trivial⟩)

theorem store_acknowledges (name : String) (kind : SecretKind) (plaintext : Bytes) (policy : AccessPolicy) :
    Acknowledges env p s name (.store plaintext) (store_secret env name kind plaintext policy : Program C SecretRef) := by
  refine acknowledges_of (fun book => spec_bind keeps_access (fun _ => spec_bind keeps_access (fun _ => ?_)))
  refine spec_bind (keeps_look (B := fun c log _ => ((trees log).secrets.lookup name).isSome = c) (fun _ _ => rfl)) (fun c => ?_)
  refine spec_ite (fun dup => ?_) (fun absent => ?_)
  · exact spec_bind (keeps_record _) (fun _ => spec_throw (fun _ within => within.kept))
  · have none : ∀ log : List (Op C), ((trees log).secrets.lookup name).isSome = c → (trees log).secrets.lookup name = none := by
      intro log same
      rw [Bool.not_eq_true] at absent
      rwa [absent,Option.isSome_eq_false_iff,Option.isNone_iff_eq_none] at same
    refine spec_bind ((keeps_encryptNew (fun secrets => secrets.lookup name = .none) plaintext).pre
      (fun _ within => within.imp (none _))) (fun ⟨id,encrypted⟩ => ?_)
    refine spec_bind keeps_tick (fun tick => spec_bind keeps_convert (fun _ => ?_))
    refine spec_bind (keeps_publish (G := fun _ => True) (allows_new book name (.store plaintext)) (fun used log r _ holds => ?_)) (fun _ => ?_)
    · exact ⟨holds.2,version_stored _ holds.1,trivial⟩
    · refine spec_bind (spec_settle (A := fun _ _ => True) (.store plaintext)) (fun _ => ?_)
      exact spec_bind (Keeps.acked (keeps_record _)) (fun _ => spec_pure (fun _ within => within.kept))

theorem keeps_find (name : String) :
    Keeps env p s book (fun _ _ => True) (find env name) (fun (stored : StoredSecret C) log _ => (trees log).secrets.lookup name = some stored) := by
  refine keeps_bind keeps_access (fun _ => keeps_bind keeps_access (fun _ => keeps_bind
    (keeps_look (B := fun found log _ => (trees log).secrets.lookup name = found) (fun _ _ => rfl)) (fun found => ?_)))
  cases found with
  | none => exact keeps_throw _
  | some stored => exact keeps_bind keeps_convert (fun _ => keeps_pure stored (fun _ _ there => there))

/-- The ring can forget a data key that no secret has. -/
theorem keeps_remove (F : Tree C) (id : KeyId) :
    Keeps env p s book (fun log _ => F (trees log).secrets ∧ Unused log id) (remove_data_key id) (fun _ log _ => F (trees log).secrets ∧ Unused log id) :=
  fun _ within distinct => have ⟨inv,holds⟩ := within distinct
    ⟨⟨inv.disk,inv.held.forgotten holds.2⟩,holds⟩

/-- So can its tree. -/
theorem keeps_removePersisted (F : Tree C) (id : KeyId) :
    Keeps env p s book (fun log _ => F (trees log).secrets ∧ Unused log id) (remove_persisted_key env id) (fun _ log _ => F (trees log).secrets) := by
  refine keeps_bind keeps_access (fun _ => keeps_write ?_)
  intro used log r good held ⟨known,unused⟩
  have beside : Beside log (.removeKey (keyPath id)) := beside_removeKey unused
  refine ⟨good.removeKey unused,held.beside beside,?_⟩
  rwa [beside.secrets]

/-- The removed or replaced secret was the only one with its data key. -/
theorem Good.unused_old {used : KeyId → Prop} {log : List (Op C)} {name : String} {old : StoredSecret C} (good : Good p s book used log)
    (there : (trees log).secrets.lookup name = some old) {op : Op C}
    (after : ∀ other stored, (trees (log ++ [op])).secrets.lookup other = some stored →
      (other ≠ name ∧ (trees log).secrets.lookup other = some stored) ∨ stored.data_key_id ≠ old.data_key_id) :
    Unused (log ++ [op]) old.data_key_id := by
  intro other stored found same
  rcases after other stored found with ⟨differ,before⟩ | differ
  · exact differ (good.apart _ _ _ _ before there same)
  · exact differ same

theorem unused_replaced {used : KeyId → Prop} {log : List (Op C)} {name : String} {old stored : StoredSecret C} (good : Good p s book used log)
    (there : (trees log).secrets.lookup name = some old) (unused : Unused log stored.data_key_id) :
    Unused (log ++ [.insertSecret name stored]) old.data_key_id := by
  refine Good.unused_old good there (fun other found_ found => ?_)
  rw [trees_insertSecret] at found
  by_cases same : other = name
  · rw [if_pos same] at found
    cases found
    exact .inr (Ne.symm (unused name old there))
  · rw [if_neg same] at found
    exact .inl ⟨same,found⟩

theorem unused_removed {used : KeyId → Prop} {log : List (Op C)} {name : String} {old : StoredSecret C} (good : Good p s book used log)
    (there : (trees log).secrets.lookup name = some old) : Unused (log ++ [.removeSecret name]) old.data_key_id := by
  refine Good.unused_old good there (fun other stored found => ?_)
  rw [trees_removeSecret] at found
  by_cases same : other = name
  · rw [if_pos same] at found
    cases found
  · rw [if_neg same] at found
    exact .inl ⟨same,found⟩

theorem rotate_acknowledges (name : String) (plaintext : Bytes) :
    Acknowledges env p s name (.rotate plaintext) (rotate_secret env name plaintext : Program C SecretRef) := by
  refine acknowledges_of (fun book => spec_bind (keeps_find name) (fun old => ?_))
  refine spec_bind (keeps_encryptNew (fun secrets => secrets.lookup name = some old) plaintext) (fun ⟨id,encrypted⟩ => ?_)
  refine spec_bind keeps_tick (fun tick => spec_bind keeps_convert (fun _ => ?_))
  refine spec_bind (keeps_publish (G := fun log => True ∧ Unused log old.data_key_id) (allows_new book name (.rotate plaintext))
    (fun used log r good holds => ?_)) (fun _ => ?_)
  · obtain ⟨value,readable,-⟩ := good.secrets name old holds.1
    exact ⟨holds.2,version_rotated _ holds.1 readable.version,trivial,unused_replaced good holds.1 holds.2.unused⟩
  -- the new secret is durable, so from here on a crash or an error leaves the acknowledged value
  · refine spec_bind (spec_settle (.rotate plaintext)) (fun _ => ?_)
    refine spec_bind (Keeps.acked (keeps_remove (fun _ => True) old.data_key_id)) (fun _ => ?_)
    refine spec_bind (Keeps.acked (keeps_removePersisted (fun _ => True) old.data_key_id)) (fun _ => ?_)
    refine spec_bind (Keeps.acked keeps_flush) (fun _ => spec_bind (Keeps.acked (keeps_record _)) (fun _ => ?_))
    exact spec_pure (fun _ within => within.kept)

theorem delete_acknowledges (name : String) : Acknowledges env p s name .delete (delete_secret env name : Program C Unit) := by
  refine acknowledges_of (fun book => spec_bind keeps_access (fun _ => ?_))
  refine spec_bind (keeps_look (B := fun found log _ => (trees log).secrets.lookup name = found) (fun _ _ => rfl)) (fun found => ?_)
  have removed : Keeps env p s (book.attempt name .delete) (fun log _ => (trees log).secrets.lookup name = found) (write env (.removeSecret name))
      (fun _ log _ => (trees log).secrets.lookup name = none ∧ ∀ old, found = some old → Unused log old.data_key_id) := by
    refine keeps_write (fun used log r good held there => ?_)
    refine ⟨good.removeSecret (fun _ _ => rfl) (allows_new book name .delete),held.removeSecret name,?_,fun old same => ?_⟩
    · rw [trees_removeSecret,if_pos rfl]
    · exact unused_removed good (there.trans same)
  refine spec_bind removed (fun _ => ?_)
  cases found with
  | none => exact spec_throw (fun _ within => within.kept)
  | some old =>
    refine spec_bind keeps_convert (fun _ => ?_)
    refine spec_bind ((keeps_remove (fun secrets => secrets.lookup name = none) old.data_key_id).pre
      (fun _ within => within.imp (fun holds => ⟨holds.1,holds.2 old rfl⟩))) (fun _ => ?_)
    refine spec_bind (keeps_removePersisted (fun secrets => secrets.lookup name = none) old.data_key_id) (fun _ => ?_)
    refine spec_bind ((spec_settle (A := fun _ _ => True) .delete).pre (fun _ within => within.imp (fun holds => ⟨holds,trivial⟩))) (fun _ => ?_)
    exact (Keeps.acked (keeps_record _)).post (fun _ _ within => within.kept)

/-! ### Calls that write nothing -/

theorem keeps_get (name : String) : Keeps env p s book (fun _ _ => True) (get_secret env name) (fun _ (_ : List (Op C)) _ => True) := by
  refine keeps_bind (keeps_find name) (fun stored => ?_)
  refine keeps_bind (R := fun _ _ _ => True) (fun v within => ?_) (fun value => keeps_bind (keeps_record _) (fun _ => keeps_pure _ (fun _ _ _ => trivial)))
  rw [ending_step]
  cases v.keyring.unwrap_data_key stored.data_key_id with
  | error e => exact within.kept
  | ok dk =>
    simp only
    cases DataKey.decrypt dk stored.secret.encrypted_value with
    | error e => exact within.kept
    | ok plaintext => exact within.imp (fun _ => trivial)

theorem keeps_collectRefs (refs : List SecretRef) (entries : List (StoredSecret C)) :
    Keeps env p s book (fun _ _ => True) (collectRefs env refs entries) (fun _ (_ : List (Op C)) _ => True) := by
  induction entries generalizing refs with
  | nil => exact keeps_pure refs (fun _ _ _ => trivial)
  | cons stored later ih => exact keeps_bind keeps_access (fun _ => keeps_bind keeps_convert (fun _ => ih _))

theorem keeps_list : Keeps env p s book (fun _ _ => True) (list_secrets env) (fun _ (_ : List (Op C)) _ => True) := by
  refine keeps_bind keeps_access (fun _ => keeps_bind (keeps_look (B := fun _ _ _ => True) (fun _ _ => trivial)) (fun entries => ?_))
  refine keeps_bind (keeps_collectRefs [] entries) (fun refs => keeps_bind (keeps_record _) (fun _ => ?_))
  exact keeps_pure refs (fun _ _ _ => trivial)

theorem keeps_seal : Keeps env p s book (fun _ _ => True) seal_vault (fun _ (_ : List (Op C)) _ => True) := by
  refine keeps_bind (fun v within distinct => ?_) (fun _ => keeps_record _)
  obtain ⟨inv,-⟩ := within distinct
  exact ⟨⟨inv.disk,{ inv.held with belongs := inv.held.belongs.sealed }⟩,trivial⟩

theorem Held.unsealed {log : List (Op C)} {r : Ring C} (held : Held p s used log r) (passphrase : Bytes) : Held p s used log (r.unseal passphrase).2 := by
  rcases held.belongs.unseal passphrase with ⟨-,run⟩ | ⟨-,run⟩
  · rw [run]
    exact { held with belongs := held.belongs.opened }
  · rw [run]
    exact held

theorem keeps_unseal (passphrase : Bytes) : Keeps env p s book (fun _ _ => True) (unseal_vault passphrase) (fun _ (_ : List (Op C)) _ => True) := by
  intro v within
  have after : Distinct env.toDraws v.tick → OnDisk (usedAt env.toDraws v.tick) p s book v ∧
    Held p s (usedAt env.toDraws v.tick) v.db.log (v.keyring.unseal passphrase).2 :=
    fun distinct => ⟨(within distinct).1.disk,Held.unsealed (within distinct).1.held passphrase⟩
  rw [unseal_vault,ending_step]
  generalize v.keyring.unseal passphrase = opened at after ⊢
  obtain ⟨outcome,r⟩ := opened
  cases outcome with
  | error e => exact fun distinct => ⟨(after distinct).1,(after distinct).2⟩
  | ok _ => exact fun distinct => ⟨⟨(after distinct).1,(after distinct).2⟩,trivial⟩

end
end Daf.VaultCalls
