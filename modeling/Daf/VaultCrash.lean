import Daf.KeyEnvelope
import Daf.SledVault

/-!
Crash safety of the vault on disk. Whatever prefix of the log a crash leaves, every secret in
it has its data key beside it (`Good`); in memory the ring has the keys of all secrets.
-/
namespace Daf.VaultCrash
open Daf.KeyRing Daf.KeyEnvelope Daf.VaultSecrets Daf.SledVault Daf.CrashLog Daf.Fallible

/-! ### What the users of the vault know -/

/-- A call that was not acknowledged. -/
inductive Attempt where
  | store (value : Bytes)
  | rotate (value : Bytes)
  | delete
deriving DecidableEq,Repr

/-- The value that the attempt would leave. -/
def Attempt.value : Attempt → Option Bytes
  | .store value => some value
  | .rotate value => some value
  | .delete => none

/-- The last acknowledged call of a name, by the value it left, and the attempts after it. -/
structure Known where
  acked : Option Bytes
  attempts : List Attempt

abbrev Book := String → Known

/-- The value, or its absence, is the acknowledged one or comes from a later attempt. -/
def Known.Allows (k : Known) (found : Option Bytes) : Prop := k.acked = found ∨ ∃ a ∈ k.attempts, a.value = found

def Book.attempt (book : Book) (name : String) (a : Attempt) : Book := fun other =>
  if other = name then ⟨(book name).acked,(book name).attempts ++ [a]⟩ else book other

def Book.ack (book : Book) (name : String) (found : Option Bytes) : Book := fun other => if other = name then ⟨found,[]⟩ else book other

theorem allows_attempt {book : Book} {name other : String} {a : Attempt} {found : Option Bytes} (allowed : (book other).Allows found) :
    (book.attempt name a other).Allows found := by
  unfold Book.attempt
  by_cases same : other = name
  · subst same
    rw [if_pos rfl]
    rcases allowed with acked | ⟨b,there,value⟩
    · exact .inl acked
    · exact .inr ⟨b,List.mem_append_left _ there,value⟩
  · rwa [if_neg same]

theorem allows_new (book : Book) (name : String) (a : Attempt) : (book.attempt name a name).Allows a.value := by
  rw [Book.attempt,if_pos rfl]
  exact .inr ⟨a,by simp,rfl⟩

theorem attempt_other (book : Book) {name other : String} (a : Attempt) (differ : other ≠ name) : book.attempt name a other = book other := by
  rw [Book.attempt,if_neg differ]

theorem ack_other (book : Book) {name other : String} (found : Option Bytes) (differ : other ≠ name) : book.ack name found other = book other := by
  rw [Book.ack,if_neg differ]

theorem allows_acked (book : Book) (name : String) (found : Option Bytes) : (book.ack name found name).Allows found := by
  rw [Book.ack,if_pos rfl]
  exact .inl rfl

/-- What is allowed after the acknowledgement was allowed with the attempt. -/
theorem ack_attempt {book : Book} {name : String} (a : Attempt) {other : String} {found : Option Bytes}
    (allowed : (book.ack name a.value other).Allows found) : (book.attempt name a other).Allows found := by
  by_cases same : other = name
  · subst same
    rw [Book.ack,if_pos rfl] at allowed
    rcases allowed with acked | ⟨b,there,_⟩
    · cases acked
      exact allows_new book other a
    · cases there
  · rw [attempt_other book a same]
    rwa [ack_other book _ same] at allowed

/-! ### What the log says -/

section
variable {C : Crypto}

/-- The count of rotations after one more write: an overwritten secret counts one more, a new one starts again. -/
def counted (name : String) (t : Trees C) (n : Nat) : Op C → Nat
  | .insertSecret other _ => if other = name then (if (t.secrets.lookup name).isSome then n + 1 else 0) else n
  | _ => n

def countStep (name : String) (seen : Trees C × Nat) (op : Op C) : Trees C × Nat := (seen.1.apply op,counted name seen.1 seen.2 op)

/-- How often the secret was overwritten since it was inserted where there was none. -/
def rotations (log : List (Op C)) (name : String) : Nat := (log.foldl (countStep name) (⟨∅,∅,none,none⟩,0)).2

theorem trees_append (log : List (Op C)) (op : Op C) : trees (log ++ [op]) = (trees log).apply op := by simp [trees]

theorem count_trees (name : String) (log : List (Op C)) : (log.foldl (countStep name) (⟨∅,∅,none,none⟩,0)).1 = trees log := by
  induction log using List.reverseRecOn with
  | nil => rfl
  | append_singleton log op ih =>
    rw [List.foldl_append,trees_append,← ih]
    rfl

theorem rotations_append (log : List (Op C)) (op : Op C) (name : String) :
    rotations (log ++ [op]) name = counted name (trees log) (rotations log name) op := by
  rw [rotations,List.foldl_append]
  show (countStep name _ op).2 = _
  rw [countStep,count_trees]
  rfl

section
variable (key : C.Key)

/-- The value is under the data key of the secret, and the data key is in its tree. -/
def Holds (t : Trees C) (stored : StoredSecret C) (value : Bytes) : Prop :=
  ∃ material nonce inner, t.keys.lookup (keyPath stored.data_key_id) = some ⟨stored.data_key_id,C.encrypt key nonce material.val⟩ ∧
    stored.secret.encrypted_value = C.encrypt (C.ofMaterial material) inner value

/-- The secret can be read and counts its rotations. -/
structure Readable (log : List (Op C)) (name : String) (stored : StoredSecret C) (value : Bytes) : Prop where
  sealed : Holds key (trees log) stored value
  version : stored.secret.version = UInt32.ofNat (rotations log name + 1)

end

variable (p : Bytes) (s : Salt) (book : Book) (used : KeyId → Prop)

/-- What a log must say at every point at which it may be read again. -/
structure Good (log : List (Op C)) : Prop where
  salt : (trees log).salt = some s.val
  seal_check : ∃ nonce, (trees log).seal_check = some (C.encrypt (C.derive p s) nonce SEAL_CHECK_PLAINTEXT)
  keys : ∀ path wdk, (trees log).keys.lookup path = some wdk → path = keyPath wdk.id ∧ used wdk.id
  secrets : ∀ name stored, (trees log).secrets.lookup name = some stored →
    ∃ value, Readable (C.derive p s) log name stored value ∧ (book name).Allows (some value)
  absent : ∀ name, (trees log).secrets.lookup name = none → (book name).Allows none
  apart : ∀ n m a b, (trees log).secrets.lookup n = some a → (trees log).secrets.lookup m = some b → a.data_key_id = b.data_key_id → n = m

/-- What the ring in memory must hold beside the log. -/
structure Held (log : List (Op C)) (r : Ring C) : Prop where
  belongs : Belongs p s r
  used : ∀ id wdk, r.wrapped_keys.lookup id = some wdk → used id
  keys : ∀ name stored, (trees log).secrets.lookup name = some stored →
    r.wrapped_keys.lookup stored.data_key_id = (trees log).keys.lookup (keyPath stored.data_key_id)

end

/-! ### Writes -/

section
variable {C : Crypto} {p : Bytes} {s : Salt} {book : Book} {used : KeyId → Prop} {log : List (Op C)}

theorem keyPath_inj {a b : KeyId} (same : keyPath a = keyPath b) : a = b := by
  have texts : UuidText.toText a.uuid = UuidText.toText b.uuid := same
  have chars : UuidText.toChars a.uuid = UuidText.toChars b.uuid := by
    simpa [UuidText.toText] using congrArg String.toList texts
  cases a
  cases b
  exact congrArg KeyId.mk (UuidText.toChars_inj chars)

theorem Good.mono {used' : KeyId → Prop} (good : Good p s book used log) (more : ∀ id, used id → used' id) : Good p s book used' log :=
  { good with keys := fun path wdk found => ⟨(good.keys path wdk found).1,more _ (good.keys path wdk found).2⟩ }

theorem Good.loosen {book' : Book} (good : Good p s book used log) (more : ∀ name found, (book name).Allows found → (book' name).Allows found) :
    Good p s book' used log :=
  { good with
    secrets := fun n stored found =>
      have ⟨value,readable,allowed⟩ := good.secrets n stored found
      ⟨value,readable,more _ _ allowed⟩
    absent := fun n none => more _ _ (good.absent n none) }

/-- A secret's data key was drawn before. -/
theorem Good.used_key (good : Good p s book used log) {name : String} {stored : StoredSecret C}
    (found : (trees log).secrets.lookup name = some stored) : used stored.data_key_id := by
  obtain ⟨value,⟨⟨material,nonce,inner,there,-⟩,-⟩,-⟩ := good.secrets name stored found
  exact (good.keys _ _ there).2

/-- The log says that the name has this value, or none. -/
def Settled (key : C.Key) (name : String) (found : Option Bytes) (log : List (Op C)) : Prop :=
  match found with
  | none => (trees log).secrets.lookup name = none
  | some value => ∃ stored, (trees log).secrets.lookup name = some stored ∧ Readable key log name stored value

/-- Once the log has what a name is to have, that is all the name may have. -/
theorem Good.settled {name : String} {found : Option Bytes} {book' : Book} (good : Good p s book used log)
    (settled : Settled (C.derive p s) name found log) (others : ∀ other, other ≠ name → book' other = book other)
    (allowed : (book' name).Allows found) : Good p s book' used log where
  salt := good.salt
  seal_check := good.seal_check
  keys := good.keys
  secrets := by
    intro other stored there
    by_cases same : other = name
    · subst same
      cases found with
      | none => cases settled.symm.trans there
      | some value =>
        obtain ⟨own,at_name,readable⟩ := settled
        cases at_name.symm.trans there
        exact ⟨value,readable,allowed⟩
    · rw [others other same]
      exact good.secrets other stored there
  absent := by
    intro other none
    by_cases same : other = name
    · subst same
      cases found with
      | none => exact allowed
      | some value =>
        obtain ⟨own,at_name,_⟩ := settled
        cases at_name.symm.trans none
    · rw [others other same]
      exact good.absent other none
  apart := good.apart

/-- No secret has this data key. -/
def Unused (log : List (Op C)) (id : KeyId) : Prop := ∀ name stored, (trees log).secrets.lookup name = some stored → stored.data_key_id ≠ id

/-- A write that leaves the secrets and their data keys as they are. -/
structure Beside (log : List (Op C)) (op : Op C) : Prop where
  secrets : (trees (log ++ [op])).secrets = (trees log).secrets
  keys : ∀ name stored, (trees log).secrets.lookup name = some stored →
    (trees (log ++ [op])).keys.lookup (keyPath stored.data_key_id) = (trees log).keys.lookup (keyPath stored.data_key_id)
  rotations : ∀ name, rotations (log ++ [op]) name = rotations log name
  salt : (trees (log ++ [op])).salt = (trees log).salt
  seal_check : (trees (log ++ [op])).seal_check = (trees log).seal_check

theorem Good.beside {op : Op C} (good : Good p s book used log) (beside : Beside log op)
    (keys : ∀ path wdk, (trees (log ++ [op])).keys.lookup path = some wdk → path = keyPath wdk.id ∧ used wdk.id) :
    Good p s book used (log ++ [op]) where
  salt := by rw [beside.salt,good.salt]
  seal_check := by rw [beside.seal_check]; exact good.seal_check
  keys := keys
  secrets := by
    intro name stored found
    rw [beside.secrets] at found
    obtain ⟨value,⟨⟨material,nonce,inner,there,under⟩,version⟩,allowed⟩ := good.secrets name stored found
    refine ⟨value,⟨⟨material,nonce,inner,?_,under⟩,?_⟩,allowed⟩
    · rw [beside.keys name stored found,there]
    · rw [beside.rotations,version]
  absent := by
    rw [beside.secrets]
    exact good.absent
  apart := by
    rw [beside.secrets]
    exact good.apart

theorem keys_insertKey (log : List (Op C)) (path other : String) (wdk : WrappedDataKey C) :
    (trees (log ++ [.insertKey path wdk])).keys.lookup other = if other = path then some wdk else (trees log).keys.lookup other := by
  rw [trees_append]
  by_cases same : other = path
  · subst same
    rw [if_pos rfl]
    exact AList.lookup_insert _
  · rw [if_neg same]
    exact AList.lookup_insert_ne same

theorem keys_removeKey (log : List (Op C)) (path other : String) :
    (trees (log ++ [.removeKey path])).keys.lookup other = if other = path then none else (trees log).keys.lookup other := by
  rw [trees_append]
  by_cases same : other = path
  · subst same
    rw [if_pos rfl]
    exact AList.lookup_erase _ _
  · rw [if_neg same]
    exact AList.lookup_erase_ne same

theorem beside_insertKey {wdk : WrappedDataKey C} (unused : Unused log wdk.id) : Beside log (.insertKey (keyPath wdk.id) wdk) where
  secrets := by rw [trees_append]; rfl
  keys := by
    intro name stored found
    rw [keys_insertKey,if_neg (fun same => unused name stored found (keyPath_inj same))]
  rotations := rotations_append log _
  salt := by rw [trees_append]; rfl
  seal_check := by rw [trees_append]; rfl

theorem beside_removeKey {id : KeyId} (unused : Unused log id) : Beside log (.removeKey (keyPath id)) where
  secrets := by rw [trees_append]; rfl
  keys := by
    intro name stored found
    rw [keys_removeKey,if_neg (fun same => unused name stored found (keyPath_inj same))]
  rotations := rotations_append log _
  salt := by rw [trees_append]; rfl
  seal_check := by rw [trees_append]; rfl

theorem Good.insertKey {wdk : WrappedDataKey C} (good : Good p s book used log) (unused : Unused log wdk.id) (drawn : used wdk.id) :
    Good p s book used (log ++ [.insertKey (keyPath wdk.id) wdk]) := by
  refine good.beside (beside_insertKey unused) (fun path other found => ?_)
  rw [keys_insertKey] at found
  by_cases same : path = keyPath wdk.id
  · rw [if_pos same] at found
    cases found
    exact ⟨same,drawn⟩
  · rw [if_neg same] at found
    exact good.keys path other found

theorem Good.removeKey {id : KeyId} (good : Good p s book used log) (unused : Unused log id) :
    Good p s book used (log ++ [.removeKey (keyPath id)]) := by
  refine good.beside (beside_removeKey unused) (fun path other found => ?_)
  rw [keys_removeKey] at found
  by_cases same : path = keyPath id
  · rw [if_pos same] at found
    cases found
  · rw [if_neg same] at found
    exact good.keys path other found

theorem trees_removeSecret (log : List (Op C)) (name other : String) :
    (trees (log ++ [.removeSecret name])).secrets.lookup other = if other = name then none else (trees log).secrets.lookup other := by
  rw [trees_append]
  by_cases same : other = name
  · subst same
    rw [if_pos rfl]
    exact AList.lookup_erase _ _
  · rw [if_neg same]
    exact AList.lookup_erase_ne same

theorem trees_insertSecret (log : List (Op C)) (name other : String) (stored : StoredSecret C) :
    (trees (log ++ [.insertSecret name stored])).secrets.lookup other = if other = name then some stored else (trees log).secrets.lookup other := by
  rw [trees_append]
  by_cases same : other = name
  · subst same
    rw [if_pos rfl]
    exact AList.lookup_insert _
  · rw [if_neg same]
    exact AList.lookup_insert_ne same

/-- A secret whose value may be missing can be removed. -/
theorem Good.removeSecret {name : String} {book' : Book} (good : Good p s book used log) (others : ∀ other, other ≠ name → book' other = book other)
    (allowed : (book' name).Allows none) : Good p s book' used (log ++ [.removeSecret name]) where
  salt := by rw [trees_append]; exact good.salt
  seal_check := by rw [trees_append]; exact good.seal_check
  keys := by rw [trees_append]; exact good.keys
  secrets := by
    intro other stored found
    rw [trees_removeSecret] at found
    by_cases same : other = name
    · rw [if_pos same] at found
      cases found
    · rw [if_neg same] at found
      obtain ⟨value,⟨there,version⟩,allowed⟩ := good.secrets other stored found
      refine ⟨value,⟨?_,?_⟩,?_⟩
      · rw [trees_append]
        exact there
      · rw [rotations_append]
        exact version
      · rwa [others other same]
  absent := by
    intro other none
    by_cases same : other = name
    · rwa [same]
    · rw [trees_removeSecret,if_neg same] at none
      rw [others other same]
      exact good.absent other none
  apart := by
    intro n m a b first second same
    rw [trees_removeSecret] at first second
    by_cases left : n = name
    · rw [if_pos left] at first
      cases first
    · by_cases right : m = name
      · rw [if_pos right] at second
        cases second
      · rw [if_neg left] at first
        rw [if_neg right] at second
        exact good.apart n m a b first second same

/-- A secret can be written whose data key is there and no one's. -/
theorem Good.insertSecret {name : String} {stored : StoredSecret C} {value : Bytes} {book' : Book} (good : Good p s book used log)
    (unused : Unused log stored.data_key_id) (readable : Readable (C.derive p s) (log ++ [.insertSecret name stored]) name stored value)
    (others : ∀ other, other ≠ name → book' other = book other) (allowed : (book' name).Allows (some value)) :
    Good p s book' used (log ++ [.insertSecret name stored]) where
  salt := by rw [trees_append]; exact good.salt
  seal_check := by rw [trees_append]; exact good.seal_check
  keys := by rw [trees_append]; exact good.keys
  secrets := by
    intro other found_ found
    rw [trees_insertSecret] at found
    by_cases same : other = name
    · rw [if_pos same] at found
      cases found
      subst same
      exact ⟨value,readable,allowed⟩
    · rw [if_neg same] at found
      obtain ⟨value,⟨there,version⟩,allowed⟩ := good.secrets other found_ found
      refine ⟨value,⟨?_,?_⟩,?_⟩
      · rw [trees_append]
        exact there
      · rw [rotations_append,counted,if_neg (Ne.symm same)]
        exact version
      · rwa [others other same]
  absent := by
    intro other none
    rw [trees_insertSecret] at none
    by_cases same : other = name
    · rw [if_pos same] at none
      cases none
    · rw [if_neg same] at none
      rw [others other same]
      exact good.absent other none
  apart := by
    intro n m a b first second same
    rw [trees_insertSecret] at first second
    by_cases left : n = name
    · by_cases right : m = name
      · rw [left,right]
      · rw [if_pos left] at first
        rw [if_neg right] at second
        cases first
        exact absurd same.symm (unused m b second)
    · by_cases right : m = name
      · rw [if_neg left] at first
        rw [if_pos right] at second
        cases second
        exact absurd same (unused n a first)
      · rw [if_neg left] at first
        rw [if_neg right] at second
        exact good.apart n m a b first second same

/-! ### The ring beside the log -/

variable {r : Ring C}

theorem Held.mono {used' : KeyId → Prop} (held : Held p s used log r) (more : ∀ id, used id → used' id) : Held p s used' log r :=
  { held with used := fun id wdk found => more id (held.used id wdk found) }

theorem Held.beside {op : Op C} (held : Held p s used log r) (beside : Beside log op) : Held p s used (log ++ [op]) r where
  belongs := held.belongs
  used := held.used
  keys := by
    intro name stored found
    rw [beside.secrets] at found
    rw [held.keys name stored found,beside.keys name stored found]

theorem Held.removeSecret (held : Held p s used log r) (name : String) : Held p s used (log ++ [.removeSecret name]) r where
  belongs := held.belongs
  used := held.used
  keys := by
    intro other stored found
    rw [trees_removeSecret] at found
    by_cases same : other = name
    · rw [if_pos same] at found
      cases found
    · rw [if_neg same] at found
      rw [held.keys other stored found,trees_append]
      rfl

theorem Held.insertSecret {name : String} {stored : StoredSecret C} (held : Held p s used log r)
    (alike : r.wrapped_keys.lookup stored.data_key_id = (trees log).keys.lookup (keyPath stored.data_key_id)) :
    Held p s used (log ++ [.insertSecret name stored]) r where
  belongs := held.belongs
  used := held.used
  keys := by
    intro other found_ found
    rw [trees_insertSecret] at found
    by_cases same : other = name
    · rw [if_pos same] at found
      cases found
      rw [alike,trees_append]
      rfl
    · rw [if_neg same] at found
      rw [held.keys other found_ found,trees_append]
      rfl

theorem Held.imported {wdk : WrappedDataKey C} (held : Held p s used log r) (unused : Unused log wdk.id) (drawn : used wdk.id) :
    Held p s used log (r.import_wrapped_key wdk) where
  belongs := ⟨held.belongs.salt,held.belongs.seal_check,held.belongs.master⟩
  used := by
    intro id other found
    by_cases same : id = wdk.id
    · rwa [same]
    · exact held.used id other ((AList.lookup_insert_ne same).symm.trans found)
  keys := by
    intro name stored found
    rw [← held.keys name stored found]
    exact AList.lookup_insert_ne (unused name stored found)

theorem Held.forgotten {id : KeyId} (held : Held p s used log r) (unused : Unused log id) : Held p s used log (r.remove_data_key id).2 where
  belongs := ⟨held.belongs.salt,held.belongs.seal_check,held.belongs.master⟩
  used := by
    intro other wdk found
    by_cases same : other = id
    · subst same
      cases (AList.lookup_erase _ _).symm.trans found
    · exact held.used other wdk ((AList.lookup_erase_ne same).symm.trans found)
  keys := by
    intro name stored found
    rw [← held.keys name stored found]
    exact AList.lookup_erase_ne (unused name stored found)

end
end Daf.VaultCrash
