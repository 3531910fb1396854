import Daf.MemoryRuns
import Mathlib.Data.Multiset.Defs

/-!
What a vault is to its users: a safe that holds each secret by its name, open or sealed. A ring and the stored secrets show such a safe when each of
its values is under the data key of its secret, and the ring has these keys and no others.
-/
namespace Daf.VaultSafe
open Daf.KeyRing Daf.KeyEnvelope Daf.VaultSecrets Daf.VaultRequests Daf.MemoryRuns

structure Entry where
  kind : SecretKind
  version : UInt32
  policy : AccessPolicy
  value : Bytes

structure Safe where
  secrets : AList fun _ : String => Entry
  unsealed : Bool

/-- A secret in a list: its name, kind and version. -/
abbrev Line := String × SecretKind × UInt32

/-- What its users see of an answer. A list of secrets has no order. -/
inductive View where
  | done
  | reference (line : Line)
  | secret (line : Line) (policy : AccessPolicy) (plaintext : Bytes)
  | listing (lines : Multiset Line)

def Entry.line (entry : Entry) (name : String) : Line := (name,entry.kind,entry.version)

/-- An operation on the safe of this passphrase. -/
def Safe.act (p : Bytes) (safe : Safe) : Operation → Except VaultError View × Safe
  | .request (.store_secret name kind plaintext policy) =>
    if (safe.secrets.lookup name).isSome then (.error (.Storage ("secret '" ++ name ++ "' already exists")),safe)
    else if safe.unsealed then (.ok (.reference (name,kind,1)),{ safe with secrets := safe.secrets.insert name ⟨kind,1,policy,plaintext⟩ })
    else (.error .Sealed,safe)
  | .request (.get_secret name) =>
    match safe.secrets.lookup name with
    | none => (.error (.SecretNotFound name),safe)
    | some entry => if safe.unsealed then (.ok (.secret (entry.line name) entry.policy entry.value),safe) else (.error .Sealed,safe)
  | .request .list_secrets => (.ok (.listing (safe.secrets.entries.map fun e => e.2.line e.1)),safe)
  | .request (.delete_secret name) =>
    match safe.secrets.lookup name with
    | none => (.error (.SecretNotFound name),safe)
    | some _ => (.ok .done,{ safe with secrets := safe.secrets.erase name })
  | .request (.rotate_secret name new_plaintext) =>
    match safe.secrets.lookup name with
    | none => (.error (.SecretNotFound name),safe)
    | some entry =>
      if safe.unsealed then
        (.ok (.reference (name,entry.kind,entry.version + 1)),
          { safe with secrets := safe.secrets.insert name { entry with version := entry.version + 1, value := new_plaintext } })
      else (.error .Sealed,safe)
  | .seal_vault => (.ok .done,{ safe with unsealed := false })
  | .unseal_vault q => if q = p then (.ok .done,{ safe with unsealed := true }) else (.error .InvalidPassphrase,safe)

section
variable {C : Crypto}

/-- What is known of a secret without its value. -/
abbrev Facts := String × SecretKind × UInt32 × AccessPolicy

def factsOf (stored : StoredSecret C) : Facts := (stored.secret.name,stored.secret.kind,stored.secret.version,stored.secret.access_policy)

def Entry.facts (entry : Entry) (name : String) : Facts := (name,entry.kind,entry.version,entry.policy)

def Safe.values (safe : Safe) : Values := fun name => (safe.secrets.lookup name).map Entry.value

/-- The secrets and the ring are those of the safe. -/
structure Shows (used : KeyId → Prop) (p : Bytes) (s : Salt) (safe : Safe) (secrets : AList fun _ : String => StoredSecret C) (r : Ring C) : Prop where
  inv : Inv used p s safe.values secrets r
  unsealed : r.is_unsealed = safe.unsealed
  alike : ∀ name, (secrets.lookup name).map factsOf = (safe.secrets.lookup name).map fun entry => entry.facts name
  needed : ∀ id, (r.wrapped_keys.lookup id).isSome → ∃ name stored, secrets.lookup name = some stored ∧ stored.data_key_id = id

/-- The ring has one data key for each stored secret: the one that the secret refers to. -/
def Exact (secrets : AList fun _ : String => StoredSecret C) (r : Ring C) : Prop :=
  r.wrapped_keys.keys.Perm (secrets.entries.map fun e => e.2.data_key_id)

variable {used used' : KeyId → Prop} {p : Bytes} {s : Salt} {safe : Safe} {secrets : AList fun _ : String => StoredSecret C} {r : Ring C}
  {name : String} {entry : Entry} {stored old : StoredSecret C}

theorem values_insert (safe : Safe) (name : String) (entry : Entry) :
    ({ safe with secrets := safe.secrets.insert name entry } : Safe).values = safe.values.put name (some entry.value) := by
  funext other
  by_cases same : other = name
  · rw [same,put_self,Safe.values,AList.lookup_insert]
    rfl
  · rw [put_other _ _ same,Safe.values,AList.lookup_insert_ne same]
    rfl

theorem values_erase (safe : Safe) (name : String) : ({ safe with secrets := safe.secrets.erase name } : Safe).values = safe.values.put name none := by
  funext other
  by_cases same : other = name
  · rw [same,put_self,Safe.values,AList.lookup_erase]
    rfl
  · rw [put_other _ _ same,Safe.values,AList.lookup_erase_ne same]
    rfl

/-! ### Looking into the safe -/

theorem Shows.absent (shows : Shows used p s safe secrets r) : secrets.lookup name = none ↔ safe.secrets.lookup name = none := by
  rw [← Option.map_eq_none_iff,shows.alike name,Option.map_eq_none_iff]

theorem Shows.present (shows : Shows used p s safe secrets r) (there : secrets.lookup name = some stored) :
    ∃ entry, safe.secrets.lookup name = some entry ∧ factsOf stored = entry.facts name ∧ Holds (C.derive p s) r stored entry.value := by
  have known := shows.alike name
  rw [there,Option.map_some] at known
  obtain ⟨entry,found,same⟩ := Option.map_eq_some_iff.mp known.symm
  obtain ⟨value,valued,holds⟩ := shows.inv.holds there
  rw [Safe.values,found,Option.map_some,Option.some.injEq] at valued
  exact ⟨entry,found,same.symm,valued ▸ holds⟩

theorem Shows.master (shows : Shows used p s safe secrets r) (open_ : safe.unsealed) : r.master = some ⟨C.derive p s,s⟩ := by
  obtain ⟨m,held⟩ := Option.isSome_iff_exists.mp (shows.unsealed.trans open_)
  rw [held,shows.inv.belongs.master m held]

theorem Shows.sealed_master (shows : Shows used p s safe secrets r) (sealed : ¬ safe.unsealed) : r.master = none := by
  refine Option.not_isSome_iff_eq_none.mp fun open_ => sealed ?_
  rw [← shows.unsealed]
  exact open_

theorem Shows.open_of (shows : Shows used p s safe secrets r) {master : MasterKey C} (held : r.master = some master) :
    safe.unsealed ∧ master = ⟨C.derive p s,s⟩ := by
  refine ⟨?_,shows.inv.belongs.master master held⟩
  rw [← shows.unsealed,Ring.is_unsealed,held]
  rfl

theorem Shows.sealed_of (shows : Shows used p s safe secrets r) (sealed : r.master = none) : ¬ safe.unsealed := by
  rw [← shows.unsealed,Ring.is_unsealed,sealed]
  exact Bool.false_ne_true

/-- In an open vault the value of a secret comes out. -/
theorem Shows.decrypts (shows : Shows used p s safe secrets r) (open_ : safe.unsealed) (holds : Holds (C.derive p s) r stored entry.value) :
    ∃ dk, r.unwrap_data_key stored.data_key_id = .ok dk ∧ DataKey.decrypt dk stored.secret.encrypted_value = .ok entry.value := by
  obtain ⟨material,nonce,inner,wrapped,under⟩ := holds
  refine ⟨⟨stored.data_key_id,material⟩,?_,?_⟩
  · simp [Ring.unwrap_data_key,shows.master open_,wrapped,decrypt_wrapped,material.property]
  · rw [under]
    exact decrypt_wrapped _ _ _

/-- The lists of both are the same but for the order. -/
theorem Shows.lines (shows : Shows used p s safe secrets r) :
    (secrets.entries.map fun e => (e.2.secret.name,e.2.secret.kind,e.2.secret.version)).Perm (safe.secrets.entries.map fun e => e.2.line e.1) := by
  let of_stored : (Σ _ : String, StoredSecret C) → Σ _ : String, Facts := Sigma.map id fun _ => factsOf
  let of_entry : (Σ _ : String, Entry) → Σ _ : String, Facts := Sigma.map id fun name entry => entry.facts name
  have perm : (secrets.entries.map of_stored).Perm (safe.secrets.entries.map of_entry) := by
    refine List.lookup_ext ?_ ?_ fun name known => ?_
    · have nodup := secrets.nodupKeys
      rw [List.NodupKeys,List.keys] at nodup ⊢
      rwa [List.map_map]
    · have nodup := safe.secrets.nodupKeys
      rw [List.NodupKeys,List.keys] at nodup ⊢
      rwa [List.map_map]
    · have left : (secrets.entries.map of_stored).dlookup name = (secrets.lookup name).map factsOf := List.dlookup_map₂ name
      have right : (safe.secrets.entries.map of_entry).dlookup name = (safe.secrets.lookup name).map fun entry => entry.facts name := List.dlookup_map₂ name
      rw [left,right,shows.alike name]
  have lines := perm.map fun e : (Σ _ : String, Facts) => (e.2.1,e.2.2.1,e.2.2.2.1)
  rw [List.map_map,List.map_map] at lines
  exact lines

/-- The keys of the ring are those of the secrets. -/
theorem Shows.exact (shows : Shows used p s safe secrets r) : Exact secrets r := by
  have keys : (secrets.entries.map fun e => e.2.data_key_id).Nodup := by
    refine List.Nodup.map_on (fun e e_in d d_in same => ?_) (List.Nodup.of_map _ secrets.nodupKeys)
    obtain ⟨n,a⟩ := e
    obtain ⟨m,b⟩ := d
    have first := AList.mem_lookup_iff.mpr e_in
    have second := AList.mem_lookup_iff.mpr d_in
    obtain rfl := shows.inv.apart n m a b first second same
    rw [Option.mem_def] at first second
    rw [first] at second
    cases second
    rfl
  refine (List.perm_ext_iff_of_nodup r.wrapped_keys.keys_nodup keys).mpr fun id => ?_
  rw [← AList.mem_keys,← AList.lookup_isSome,List.mem_map]
  constructor
  · intro there
    obtain ⟨name,stored,found,rfl⟩ := shows.needed id there
    exact ⟨⟨name,stored⟩,AList.mem_lookup_iff.mp found,rfl⟩
  · rintro ⟨⟨name,stored⟩,inside,rfl⟩
    obtain ⟨-,-,-,material,nonce,inner,wrapped,-⟩ := shows.present (AList.mem_lookup_iff.mpr inside)
    rw [wrapped]
    rfl

/-! ### Changes -/

/-- A new data key, of an id that was not used, is no secret's. -/
theorem Shows.unused (shows : Shows used p s safe secrets r) {id : KeyId} (fresh : ¬ used id) : Unused secrets id :=
  fun _ _ there same => fresh (same ▸ shows.inv.used_key there)

theorem alike_insert (shows : Shows used p s safe secrets r) (same : factsOf stored = entry.facts name) (other : String) :
    ((secrets.insert name stored).lookup other).map factsOf = ((safe.secrets.insert name entry).lookup other).map fun entry => entry.facts other := by
  by_cases own : other = name
  · rw [own,AList.lookup_insert,AList.lookup_insert,Option.map_some,Option.map_some,same]
  · rw [AList.lookup_insert_ne own,AList.lookup_insert_ne own,shows.alike other]

/-- A secret goes in under a data key of its own. -/
theorem Shows.placed (shows : Shows used p s safe secrets r) (absent : secrets.lookup name = none) {wdk : WrappedDataKey C} (own : wdk.id = stored.data_key_id)
    (fresh : ¬ used stored.data_key_id) (more : ∀ id, used id → used' id) (drawn : used' stored.data_key_id) (same : factsOf stored = entry.facts name)
    (holds : Holds (C.derive p s) (r.import_wrapped_key wdk) stored entry.value) :
    Shows used' p s { safe with secrets := safe.secrets.insert name entry } (secrets.insert name stored) (r.import_wrapped_key wdk) where
  inv := by
    have unused := shows.unused fresh
    rw [values_insert]
    exact ((shows.inv.mono more).imported (own ▸ unused) (own ▸ drawn)).inserted unused holds
  unsealed := shows.unsealed
  alike := alike_insert shows same
  needed := by
    intro id there
    by_cases new : id = wdk.id
    · exact ⟨name,stored,AList.lookup_insert _,by rw [new,own]⟩
    · obtain ⟨other,found,at_other,key⟩ := shows.needed id (by rwa [Ring.import_wrapped_key,AList.lookup_insert_ne new] at there)
      have apart : other ≠ name := by
        rintro rfl
        rw [absent] at at_other
        cases at_other
      exact ⟨other,found,(AList.lookup_insert_ne apart).trans at_other,key⟩

/-- A secret is replaced under a new data key, and the old one is dropped. -/
theorem Shows.rotated (shows : Shows used p s safe secrets r) (there : secrets.lookup name = some old) {wdk : WrappedDataKey C}
    (own : wdk.id = stored.data_key_id) (fresh : ¬ used stored.data_key_id) (more : ∀ id, used id → used' id) (drawn : used' stored.data_key_id)
    (same : factsOf stored = entry.facts name) (holds : Holds (C.derive p s) (r.import_wrapped_key wdk) stored entry.value) :
    Shows used' p s { safe with secrets := safe.secrets.insert name entry } (secrets.insert name stored)
      ((r.import_wrapped_key wdk).remove_data_key old.data_key_id).2 where
  inv := by
    have unused := shows.unused fresh
    rw [values_insert]
    exact (((shows.inv.mono more).imported (own ▸ unused) (own ▸ drawn)).inserted unused holds).forgotten (shows.inv.unused_replaced there unused)
  unsealed := shows.unsealed
  alike := alike_insert shows same
  needed := by
    intro id kept
    by_cases dropped : id = old.data_key_id
    · rw [Ring.remove_data_key,dropped,AList.lookup_erase] at kept
      cases kept
    · rw [Ring.remove_data_key,AList.lookup_erase_ne dropped] at kept
      by_cases new : id = wdk.id
      · exact ⟨name,stored,AList.lookup_insert _,by rw [new,own]⟩
      · obtain ⟨other,found,at_other,key⟩ := shows.needed id (by rwa [Ring.import_wrapped_key,AList.lookup_insert_ne new] at kept)
        have apart : other ≠ name := by
          rintro rfl
          rw [there] at at_other
          cases at_other
          exact dropped key.symm
        exact ⟨other,found,(AList.lookup_insert_ne apart).trans at_other,key⟩

/-- A secret is dropped with its data key. -/
theorem Shows.deleted (shows : Shows used p s safe secrets r) (there : secrets.lookup name = some old) :
    Shows used p s { safe with secrets := safe.secrets.erase name } (secrets.erase name) (r.remove_data_key old.data_key_id).2 where
  inv := by
    rw [values_erase]
    exact (shows.inv.removed name).forgotten (shows.inv.unused_removed there)
  unsealed := shows.unsealed
  alike := by
    intro other
    by_cases same : other = name
    · rw [same,AList.lookup_erase,AList.lookup_erase]
      rfl
    · rw [AList.lookup_erase_ne same,AList.lookup_erase_ne same,shows.alike other]
  needed := by
    intro id kept
    by_cases dropped : id = old.data_key_id
    · rw [Ring.remove_data_key,dropped,AList.lookup_erase] at kept
      cases kept
    · rw [Ring.remove_data_key,AList.lookup_erase_ne dropped] at kept
      obtain ⟨other,found,at_other,key⟩ := shows.needed id kept
      have apart : other ≠ name := by
        rintro rfl
        rw [there] at at_other
        cases at_other
        exact dropped key.symm
      exact ⟨other,found,(AList.lookup_erase_ne apart).trans at_other,key⟩

theorem Shows.mono (shows : Shows used p s safe secrets r) (more : ∀ id, used id → used' id) : Shows used' p s safe secrets r :=
  { shows with inv := shows.inv.mono more }

theorem Shows.sealed (shows : Shows used p s safe secrets r) : Shows used p s { safe with unsealed := false } secrets r.seal :=
  ⟨{ shows.inv with belongs := shows.inv.belongs.sealed },rfl,shows.alike,shows.needed⟩

/-- The passphrase opens the vault, and no other does. -/
theorem Shows.unseal (shows : Shows used p s safe secrets r) (q : Bytes) :
    (r.unseal q).1 = ((safe.act p (.unseal_vault q)).1.map fun _ => ()) ∧ Shows used p s (safe.act p (.unseal_vault q)).2 secrets (r.unseal q).2 := by
  rcases shows.inv.belongs.unseal q with ⟨rfl,run⟩ | ⟨differ,run⟩
  · rw [run,Safe.act,if_pos rfl]
    exact ⟨rfl,{ shows.inv with belongs := shows.inv.belongs.opened },rfl,shows.alike,shows.needed⟩
  · rw [run,Safe.act,if_neg differ]
    exact ⟨rfl,shows⟩

/-- A new vault shows an empty safe. -/
theorem shows_new (p : Bytes) (t : Salt) (n : Nonce) :
    Shows used p t ⟨∅,true⟩ (∅ : AList fun _ : String => StoredSecret C)
      ⟨some ⟨C.derive p t,t⟩,some t,∅,some (C.encrypt (C.derive p t) n SEAL_CHECK_PLAINTEXT)⟩ where
  inv := by
    refine ⟨belongs_new p t n ∅,fun id wdk there => ?_,fun name value known => ?_,fun _ _ => rfl,fun name other a b first => ?_⟩
    · cases there
    · cases known
    · cases first
  unsealed := rfl
  alike := fun _ => rfl
  needed := by
    intro id there
    cases there

end
end Daf.VaultSafe
