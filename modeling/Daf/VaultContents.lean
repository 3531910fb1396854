import Daf.VaultSafe

/-!
What is in a vault, on disk or in memory: the stored secrets and the key ring. A call is one step on them, and the safe that they show takes the step
with them.
-/
namespace Daf.VaultContents
open Daf.KeyRing Daf.KeyEnvelope Daf.VaultSecrets Daf.VaultCalls Daf.VaultRequests Daf.MemoryRuns Daf.VaultSafe

def referenceView (ref : SecretRef) : View := .reference (ref.name,ref.kind,ref.version)

def secretView (secret : Secret Bytes) : View := .secret (secret.name,secret.kind,secret.version) secret.access_policy secret.encrypted_value

def listView (refs : List SecretRef) : View := .listing (refs.map fun ref => (ref.name,ref.kind,ref.version))

section
variable (C : Crypto)

structure Contents where
  secrets : AList fun _ : String => StoredSecret C
  ring : Ring C

end

/-- What a call draws that encrypts a plaintext. -/
structure Draw where
  id : KeyId
  secretId : SecretId
  material : Material
  nonce : Nonce
  inner : Nonce
  now : DateTime

/-- The id is drawn between these steps. -/
def DrawnIn (draws : Draws) (n n' : Nat) (id : KeyId) : Prop := ∃ k, n ≤ k ∧ k < n' ∧ draws.keyId k = id

section
variable {C : Crypto}

/-- The new data key, under the master key. -/
def Draw.wrapped (d : Draw) (master : MasterKey C) : WrappedDataKey C := ⟨d.id,C.encrypt master.key d.nonce d.material.val⟩

/-- The plaintext under the new data key. -/
def Draw.encrypted (d : Draw) (plaintext : Bytes) : C.Cipher := C.encrypt (C.ofMaterial d.material) d.inner plaintext

/-- A new secret. -/
def Draw.stored (d : Draw) (name : String) (kind : SecretKind) (plaintext : Bytes) (policy : AccessPolicy) : StoredSecret C :=
  ⟨(Secret.new d.secretId d.now name kind (d.encrypted plaintext)).with_access_policy policy,d.id⟩

/-- The secret with a new value. -/
def Draw.rotated (d : Draw) (old : StoredSecret C) (plaintext : Bytes) : StoredSecret C := old.rotated (d.encrypted plaintext) d.now d.id

def Contents.read (c : Contents C) (stored : StoredSecret C) : Except VaultError (Secret Bytes) :=
  match c.ring.unwrap_data_key stored.data_key_id with
  | .error e => .error e
  | .ok dk => (DataKey.decrypt dk stored.secret.encrypted_value).map stored.secret.withValue

/-- How a call ends, what it leaves and when. -/
inductive Step (draws : Draws) (c : Contents C) (n : Nat) : Operation → Except VaultError View → Contents C → Nat → Prop
  | duplicate {n' name kind plaintext policy stored} (there : c.secrets.lookup name = some stored) (later : n ≤ n') :
    Step draws c n (.request (.store_secret name kind plaintext policy)) (.error (.Storage ("secret '" ++ name ++ "' already exists"))) c n'
  | store_sealed {n' name kind plaintext policy} (absent : c.secrets.lookup name = none) (sealed : c.ring.master = none) (later : n ≤ n') :
    Step draws c n (.request (.store_secret name kind plaintext policy)) (.error .Sealed) c n'
  | store {n' name kind plaintext policy master} {d : Draw} (absent : c.secrets.lookup name = none) (held : c.ring.master = some master)
      (drawn : DrawnIn draws n n' d.id) :
    Step draws c n (.request (.store_secret name kind plaintext policy))
      (.ok (referenceView (d.stored name kind plaintext policy : StoredSecret C).secret.as_ref))
      ⟨c.secrets.insert name (d.stored name kind plaintext policy),c.ring.import_wrapped_key (d.wrapped master)⟩ n'
  | get_missing {n' name} (absent : c.secrets.lookup name = none) (later : n ≤ n') :
    Step draws c n (.request (.get_secret name)) (.error (.SecretNotFound name)) c n'
  | get {n' name stored} (there : c.secrets.lookup name = some stored) (later : n ≤ n') :
    Step draws c n (.request (.get_secret name)) ((c.read stored).map secretView) c n'
  | list {n' refs} (all : refs.Perm (c.secrets.entries.map (·.2.secret.as_ref))) (later : n ≤ n') :
    Step draws c n (.request .list_secrets) (.ok (listView refs)) c n'
  | delete_missing {n' name} (absent : c.secrets.lookup name = none) (later : n ≤ n') :
    Step draws c n (.request (.delete_secret name)) (.error (.SecretNotFound name)) c n'
  | delete {n' name stored} (there : c.secrets.lookup name = some stored) (later : n ≤ n') :
    Step draws c n (.request (.delete_secret name)) (.ok .done) ⟨c.secrets.erase name,(c.ring.remove_data_key stored.data_key_id).2⟩ n'
  | rotate_missing {n' name plaintext} (absent : c.secrets.lookup name = none) (later : n ≤ n') :
    Step draws c n (.request (.rotate_secret name plaintext)) (.error (.SecretNotFound name)) c n'
  | rotate_sealed {n' name plaintext stored} (there : c.secrets.lookup name = some stored) (sealed : c.ring.master = none) (later : n ≤ n') :
    Step draws c n (.request (.rotate_secret name plaintext)) (.error .Sealed) c n'
  | rotate {n' name plaintext old master} {d : Draw} (there : c.secrets.lookup name = some old) (held : c.ring.master = some master)
      (drawn : DrawnIn draws n n' d.id) :
    Step draws c n (.request (.rotate_secret name plaintext)) (.ok (referenceView (d.rotated old plaintext).secret.as_ref))
      ⟨c.secrets.insert name (d.rotated old plaintext),((c.ring.import_wrapped_key (d.wrapped master)).remove_data_key old.data_key_id).2⟩ n'
  | sealing {n'} (later : n ≤ n') : Step draws c n .seal_vault (.ok .done) ⟨c.secrets,c.ring.seal⟩ n'
  | unsealing {n' passphrase} (later : n ≤ n') :
    Step draws c n (.unseal_vault passphrase) ((c.ring.unseal passphrase).1.map fun _ => .done) ⟨c.secrets,(c.ring.unseal passphrase).2⟩ n'

variable {draws : Draws} {used used' : KeyId → Prop} {p : Bytes} {s : Salt} {safe : Safe} {c c' : Contents C} {d : Draw} {n n' : Nat}

theorem Step.later {op : Operation} {answer : Except VaultError View} (step : Step draws c n op answer c' n') : n ≤ n' := by
  cases step with
  | store absent held drawn | rotate there held drawn =>
    obtain ⟨k,started,inside,-⟩ := drawn
    omega
  | _ => assumption

/-- The contents are those of the safe. -/
def Contents.Show (used : KeyId → Prop) (p : Bytes) (s : Salt) (safe : Safe) (c : Contents C) : Prop := Shows used p s safe c.secrets c.ring

/-- An id that was drawn on the way was not used before. -/
theorem DrawnIn.fresh {id : KeyId} (drawn : DrawnIn draws n n' id) (distinct : Distinct draws n') : ¬ usedAt draws n id ∧ usedAt draws n' id := by
  obtain ⟨k,started,inside,own⟩ := drawn
  refine ⟨?_,k,inside,own⟩
  rintro ⟨j,below,again⟩
  exact distinct j k (by omega) inside (again.trans own.symm)

/-- What was made under a new data key is held under it. -/
theorem holds_made {r : Ring C} {stored : StoredSecret C} {plaintext : Bytes} (own : stored.data_key_id = d.id)
    (under : stored.secret.encrypted_value = d.encrypted plaintext) :
    Holds (C.derive p s) (r.import_wrapped_key (d.wrapped ⟨C.derive p s,s⟩)) stored plaintext := by
  refine ⟨d.material,d.nonce,d.inner,?_,under⟩
  rw [own]
  exact AList.lookup_insert _

theorem store_shown (shows : c.Show used p s safe) {name : String} (kind : SecretKind) (plaintext : Bytes) (policy : AccessPolicy) {master : MasterKey C}
    (absent : c.secrets.lookup name = none) (held : c.ring.master = some master) (more : ∀ id, used id → used' id) (fresh : ¬ used d.id ∧ used' d.id) :
    .ok (referenceView (d.stored name kind plaintext policy : StoredSecret C).secret.as_ref) =
        (safe.act p (.request (.store_secret name kind plaintext policy))).1 ∧
      Shows used' p s (safe.act p (.request (.store_secret name kind plaintext policy))).2 (c.secrets.insert name (d.stored name kind plaintext policy))
        (c.ring.import_wrapped_key (d.wrapped master)) := by
  obtain ⟨open_,rfl⟩ := shows.open_of held
  simp only [Safe.act,shows.absent.mp absent,if_pos open_,Option.isSome_none,Bool.false_eq_true,↓reduceIte]
  exact ⟨rfl,shows.placed absent rfl fresh.1 more fresh.2 rfl (holds_made rfl rfl)⟩

theorem get_shown (shows : c.Show used p s safe) {name : String} {stored : StoredSecret C} (there : c.secrets.lookup name = some stored) :
    (c.read stored).map secretView = (safe.act p (.request (.get_secret name))).1 := by
  obtain ⟨entry,found,same,holds⟩ := shows.present there
  by_cases open_ : safe.unsealed = true
  · obtain ⟨dk,unwrapped,decrypted⟩ := shows.decrypts open_ holds
    simp only [factsOf,Entry.facts,Prod.mk.injEq] at same
    simp only [Safe.act,Contents.read,found,if_pos open_,unwrapped,decrypted]
    simp [Except.map,secretView,Secret.withValue,Entry.line,same]
  · simp only [Safe.act,Contents.read,found,if_neg open_,Ring.unwrap_data_key,shows.sealed_master open_]
    rfl

theorem rotate_shown (shows : c.Show used p s safe) {name : String} (plaintext : Bytes) {old : StoredSecret C} {master : MasterKey C}
    (there : c.secrets.lookup name = some old) (held : c.ring.master = some master) (more : ∀ id, used id → used' id) (fresh : ¬ used d.id ∧ used' d.id) :
    .ok (referenceView (d.rotated old plaintext).secret.as_ref) = (safe.act p (.request (.rotate_secret name plaintext))).1 ∧
      Shows used' p s (safe.act p (.request (.rotate_secret name plaintext))).2 (c.secrets.insert name (d.rotated old plaintext))
        ((c.ring.import_wrapped_key (d.wrapped master)).remove_data_key old.data_key_id).2 := by
  obtain ⟨entry,found,same,-⟩ := shows.present there
  simp only [factsOf,Entry.facts,Prod.mk.injEq] at same
  obtain ⟨open_,rfl⟩ := shows.open_of held
  simp only [Safe.act,found,if_pos open_]
  refine ⟨?_,shows.rotated there rfl fresh.1 more fresh.2 ?_ (holds_made rfl rfl)⟩
  · simp [referenceView,Draw.rotated,StoredSecret.rotated,Secret.as_ref,same]
  · simp [factsOf,Entry.facts,Draw.rotated,StoredSecret.rotated,same]

/-- A call on the contents of a safe is seen as the call on the safe, and leaves the contents of the safe that it leaves. -/
theorem Step.shown {op : Operation} {answer : Except VaultError View} (step : Step draws c n op answer c' n') (distinct : Distinct draws n')
    (shows : c.Show (usedAt draws n) p s safe) : answer = (safe.act p op).1 ∧ c'.Show (usedAt draws n') p s (safe.act p op).2 := by
  have more : ∀ id, usedAt draws n id → usedAt draws n' id := fun _ => usedAt_mono step.later
  cases step with
  | duplicate there =>
    obtain ⟨entry,found,-,-⟩ := shows.present there
    simp only [Safe.act,found,Option.isSome_some,↓reduceIte]
    exact ⟨trivial,shows.mono more⟩
  | store_sealed absent sealed =>
    simp only [Safe.act,shows.absent.mp absent,if_neg (shows.sealed_of sealed),Option.isSome_none,Bool.false_eq_true,↓reduceIte]
    exact ⟨trivial,shows.mono more⟩
  | store absent held drawn => exact store_shown shows _ _ _ absent held more (drawn.fresh distinct)
  | get_missing absent | delete_missing absent | rotate_missing absent =>
    simp only [Safe.act,shows.absent.mp absent]
    exact ⟨trivial,shows.mono more⟩
  | get there =>
    refine ⟨get_shown shows there,?_⟩
    obtain ⟨entry,found,-,-⟩ := shows.present there
    simp only [Safe.act,found]
    split <;> exact shows.mono more
  | list all =>
    have lines := all.map fun ref => (ref.name,ref.kind,ref.version)
    rw [List.map_map] at lines
    have lines := lines.trans shows.lines
    exact ⟨congrArg (fun lines => Except.ok (View.listing lines)) (Multiset.coe_eq_coe.mpr lines),shows.mono more⟩
  | delete there =>
    obtain ⟨entry,found,-,-⟩ := shows.present there
    simp only [Safe.act,found]
    exact ⟨trivial,(shows.deleted there).mono more⟩
  | rotate_sealed there sealed =>
    obtain ⟨entry,found,-,-⟩ := shows.present there
    simp only [Safe.act,found,if_neg (shows.sealed_of sealed)]
    exact ⟨trivial,shows.mono more⟩
  | rotate there held drawn => exact rotate_shown shows _ there held more (drawn.fresh distinct)
  | sealing => exact ⟨rfl,shows.sealed.mono more⟩
  | unsealing =>
    obtain ⟨ended,after⟩ := shows.unseal _
    refine ⟨?_,after.mono more⟩
    rw [ended]
    simp only [Safe.act]
    split <;> rfl

end
end Daf.VaultContents
