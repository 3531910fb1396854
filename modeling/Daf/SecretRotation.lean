import Daf.Interleaving
import Daf.Supervision
import Daf.VaultSecrets

/-!
A rotation manager on a store of secrets, with any number of its calls in progress. Each call of the store or
of a generator is one step, as is each use of the archive of old values: between the steps of one rotation
other calls take theirs.
-/
namespace Daf.SecretRotation
open Daf.GraphNodes Daf.KeyRing Daf.VaultSecrets Daf.Runs Daf.Interleaving
open Daf.Supervision (MAX_SPAN)

structure RotationPolicy where
  rotate_interval : Duration
  max_age : Duration
  auto_rotate : Bool
  grace_period : Duration
deriving DecidableEq,Repr

def RotationPolicy.new (rotate_interval : Duration) : RotationPolicy := ⟨rotate_interval,rotate_interval,true,Duration.from_secs 3600⟩

def RotationPolicy.with_max_age (p : RotationPolicy) (max_age : Duration) : RotationPolicy := { p with max_age }

def RotationPolicy.with_auto_rotate (p : RotationPolicy) (auto : Bool) : RotationPolicy := { p with auto_rotate := auto }

def RotationPolicy.with_grace_period (p : RotationPolicy) (grace : Duration) : RotationPolicy := { p with grace_period := grace }

def RotationPolicy.default : RotationPolicy := .new (Duration.from_secs (30 * 24 * 3600))

/-- The span of the calendar that stands for a duration: none where the duration is too long for it. -/
def span (d : Duration) : Duration := if d ≤ MAX_SPAN then d else 0

/-- The last date of the calendar, counted from the start of time. -/
def lastDate : Int := 8210266876799999999999

inductive RotationError where
  | Rotation (message : String)
  | vault (error : VaultError)
deriving DecidableEq,Repr

/-- The policies by secret, and the secrets that have a generator. -/
structure Registry where
  policies : List (String × RotationPolicy)
  generators : List String
  once : (policies.map Prod.fst).Nodup
  generated : ∀ p ∈ policies, p.1 ∈ generators

def Registry.new : Registry := ⟨[],[],List.nodup_nil,by simp⟩

def Registry.register (r : Registry) (name : String) (policy : RotationPolicy) : Registry where
  policies := (name,policy) :: r.policies.filter fun p => p.1 ≠ name
  generators := name :: r.generators.filter fun g => g ≠ name
  once := by
    rw [List.map_cons,List.nodup_cons]
    constructor
    · intro again
      obtain ⟨p,member,same⟩ := List.mem_map.mp again
      simp [same] at member
    · exact r.once.sublist (List.filter_sublist.map _)
  generated := by
    intro p member
    rcases List.mem_cons.mp member with rfl | old
    · exact List.mem_cons_self
    · obtain ⟨before,other⟩ := List.mem_filter.mp old
      exact List.mem_cons_of_mem _ (List.mem_filter.mpr ⟨r.generated p before,other⟩)

def Registry.unregister (r : Registry) (name : String) : Registry where
  policies := r.policies.filter fun p => p.1 ≠ name
  generators := r.generators.filter fun g => g ≠ name
  once := r.once.sublist (List.filter_sublist.map _)
  generated := by
    intro p member
    obtain ⟨before,other⟩ := List.mem_filter.mp member
    exact List.mem_filter.mpr ⟨r.generated p before,other⟩

/-- How long the old value of a secret stays valid. -/
def Registry.grace (r : Registry) (name : String) : Duration := ((r.policies.lookup name).map RotationPolicy.grace_period).getD (Duration.from_secs 3600)

structure GraceEntry where
  old_value : Bytes
  expires_at : Int
deriving DecidableEq,Repr

/-- How a rotation that archived a value went on. -/
inductive Fate where
  | underway
  | failed
  | replaced (old : Secret Bytes) (time : Int) (auto : Option RotationPolicy)

/-- A rotation that archived a value. The source keeps no such record. -/
structure Record where
  call : Nat
  name : String
  value : Bytes
  archived : Int
  grace : Duration
  fate : Fate
  /-- The archive was purged after the grace period. -/
  purged : Bool

/-- The clock, the secrets as the store returns them and the archive; and the rotations so far, which nothing reads. -/
structure State where
  now : Int
  store : String → Option (Secret Bytes)
  archive : String → List GraceEntry
  log : List Record

/-- What a step finds outside: the time that went by, and how a call of the store or of a generator ends. -/
structure Choice where
  elapsed : Nat
  fails : Option VaultError
  /-- A rotation of the store that failed changed the secret all the same. -/
  late : Bool
  generated : Bytes

/-- Where a rotation of a secret is, with what it has read. -/
inductive Stage where
  | get
  | archive (current : Secret Bytes)
  | generate (current : Secret Bytes) (id : Nat) (grace : Duration)
  | store (current : Secret Bytes) (id : Nat) (grace : Duration) (new_value : Bytes)
  | notify (new_ref : SecretRef) (grace : Duration)

inductive Progress where
  | next (stage : Stage)
  | done (result : Except RotationError SecretRef)
  | panicked

/-- Where a call is: a manual rotation, or the loop of a check with what is left to check and what it has rotated. -/
inductive Call where
  | rotate (name : String) (stage : Stage)
  | check (todo : List (String × RotationPolicy)) (rotated : List String)
  | test (name : String) (policy : RotationPolicy) (secret : Secret Bytes) (todo : List (String × RotationPolicy)) (rotated : List String)
  | nested (name : String) (policy : RotationPolicy) (secret : Secret Bytes) (stage : Stage) (todo : List (String × RotationPolicy)) (rotated : List String)
  | done (result : Except RotationError SecretRef)
  | checked (rotated : List String)
  | panicked

/-- A request; the policies are listed in the order of the map. -/
inductive Request (registry : Registry) where
  | rotate_secret (name : String)
  | check_and_rotate (order : { order : List (String × RotationPolicy) // order.Perm registry.policies })

/-- When the version of the secret was written. -/
def written {V : Type} (secret : Secret V) : Int := secret.rotated_at.getD secret.created_at

/-! ### What the steps do to the state -/

section
variable (s : State)

def State.later (elapsed : Nat) : State := { s with now := s.now + elapsed }

/-- The value is archived, and the rotation is on record from then on. -/
def State.keep (call : Nat) (name : String) (value : Bytes) (grace : Duration) : State :=
  { s with archive := Function.update s.archive name (s.archive name ++ [⟨value,s.now + span grace⟩]),
           log := s.log ++ [⟨call,name,value,s.now,grace,.underway,false⟩] }

def State.fail (id : Nat) : State := { s with log := s.log.modify id fun r => { r with fate := .failed } }

/-- The secret with a new value, one version on. -/
def renewed (old : Secret Bytes) (value : Bytes) (now : Int) : Secret Bytes :=
  { old with encrypted_value := value, version := old.version + 1, rotated_at := some now }

def State.replace (name : String) (old : Secret Bytes) (value : Bytes) (id : Nat) (auto : Option RotationPolicy) : State :=
  { s with store := Function.update s.store name (some (renewed old value s.now)),
           log := s.log.modify id fun r => { r with fate := .replaced old s.now auto } }

/-- A purge finds the record of a rotation whose grace period is over. -/
def Record.passed (now : Int) (r : Record) : Record :=
  match r.fate with
  | .replaced _ time _ => { r with purged := r.purged || time + r.grace ≤ now }
  | _ => r

def State.purge_expired_grace : State :=
  { s with archive := fun name => (s.archive name).filter fun e => e.expires_at > s.now, log := s.log.map (Record.passed s.now) }

end

section
variable (registry : Registry) (latest : Int) (n : Nat)

/-- The date is one that the calendar has. -/
def fits (s : State) (grace : Duration) : Prop := s.now + span grace ≤ latest

instance (s : State) (grace : Duration) : Decidable (fits latest s grace) := inferInstanceAs (Decidable (_ ≤ _))

/-- A step of `rotate_secret`. -/
def rotate_step (name : String) (auto : Option RotationPolicy) (s : State) (c : Choice) : Stage → State × Progress
  | .get =>
    if name ∈ registry.generators then
      match c.fails,s.store name with
      | some e,_ => (s,.done (.error (.vault e)))
      | none,none => (s,.done (.error (.vault (.SecretNotFound name))))
      | none,some current => (s,.next (.archive current))
    else (s,.done (.error (.Rotation ("no generator registered for '" ++ name ++ "'"))))
  | .archive current =>
    let grace := registry.grace name
    if fits latest s grace then (s.keep n name current.encrypted_value grace,.next (.generate current s.log.length grace)) else (s,.panicked)
  | .generate current id grace =>
    match c.fails with
    | some e => (s.fail id,.done (.error (.vault e)))
    | none => (s,.next (.store current id grace c.generated))
  | .store _ id grace new_value =>
    match c.fails,s.store name with
    | some e,none => (s.fail id,.done (.error (.vault e)))
    | some e,some old => (if c.late then s.replace name old new_value id auto else s.fail id,.done (.error (.vault e)))
    | none,none => (s.fail id,.done (.error (.vault (.SecretNotFound name))))
    | none,some old => (s.replace name old new_value id auto,.next (.notify (renewed old new_value s.now).as_ref grace))
  | .notify new_ref grace => if fits latest s grace then (s,.done (.ok new_ref)) else (s,.panicked)

def Progress.manual (name : String) : Progress → Call
  | .next stage => .rotate name stage
  | .done result => .done result
  | .panicked => .panicked

/-- Behind a rotation of a check: an error is only noted. -/
def Progress.automatic (name : String) (policy : RotationPolicy) (secret : Secret Bytes) (todo : List (String × RotationPolicy)) (rotated : List String) :
    Progress → Call
  | .next stage => .nested name policy secret stage todo rotated
  | .done (.ok _) => .check todo (rotated ++ [name])
  | .done (.error _) => .check todo rotated
  | .panicked => .panicked

/-- A step of a call, behind the time that goes by. -/
def call_step (s : State) (c : Choice) : Call → State × Call
  | .rotate name stage =>
    let out := rotate_step registry latest n name none s c stage
    (out.1,out.2.manual name)
  | .check [] rotated => (s.purge_expired_grace,.checked rotated)
  | .check ((name,policy) :: todo) rotated =>
    if policy.auto_rotate then
      match c.fails,s.store name with
      | none,some secret => (s,.test name policy secret todo rotated)
      | _,_ => (s,.check todo rotated)
    else (s,.check todo rotated)
  | .test name policy secret todo rotated =>
    if s.now - written secret > span policy.max_age then (s,.nested name policy secret .get todo rotated) else (s,.check todo rotated)
  | .nested name policy secret stage todo rotated =>
    let out := rotate_step registry latest n name (some policy) s c stage
    (out.1,out.2.automatic name policy secret todo rotated)
  | .done result => (s,.done result)
  | .checked rotated => (s,.checked rotated)
  | .panicked => (s,.panicked)

def act (s : State) (t : Call) (c : Choice) : State × Call := call_step registry latest n (s.later c.elapsed) c t

end

def enter {registry : Registry} : Request registry → Call
  | .rotate_secret name => .rotate name .get
  | .check_and_rotate order => .check order.1 []

/-- A manager on a store, with nothing archived. -/
def manager (registry : Registry) (latest now : Int) (store : String → Option (Secret Bytes)) : System State Call (Request registry) Choice :=
  ⟨⟨now,store,fun _ => [],[]⟩,enter,act registry latest⟩

abbrev Event (registry : Registry) := Interleaving.Event (Request registry) Choice

def Call.Finished : Call → Prop
  | .done _ | .checked _ | .panicked => True
  | _ => False

/-! ### What a step does -/

/-- Every way in which a step of a rotation can go, with what it needs of the state before it. -/
inductive Rotates (registry : Registry) (latest : Int) (n : Nat) (name : String) (auto : Option RotationPolicy) (s : State) (c : Choice) :
    Stage → State → Progress → Prop where
  | refused (e : RotationError) (why : c.fails ≠ none ∨ s.store name = none ∨ name ∉ registry.generators) :
    Rotates registry latest n name auto s c .get s (.done (.error e))
  | reads (current : Secret Bytes) (found : s.store name = some current) : Rotates registry latest n name auto s c .get s (.next (.archive current))
  | archives (current : Secret Bytes) (fit : fits latest s (registry.grace name)) :
    Rotates registry latest n name auto s c (.archive current) (s.keep n name current.encrypted_value (registry.grace name))
      (.next (.generate current s.log.length (registry.grace name)))
  | unarchived (current : Secret Bytes) (beyond : ¬ fits latest s (registry.grace name)) : Rotates registry latest n name auto s c (.archive current) s .panicked
  | ungenerated (current : Secret Bytes) (id : Nat) (grace : Duration) (e : RotationError) (fails : c.fails ≠ none) :
    Rotates registry latest n name auto s c (.generate current id grace) (s.fail id) (.done (.error e))
  | generates (current : Secret Bytes) (id : Nat) (grace : Duration) :
    Rotates registry latest n name auto s c (.generate current id grace) s (.next (.store current id grace c.generated))
  | unstored (current : Secret Bytes) (id : Nat) (grace : Duration) (new_value : Bytes) (e : RotationError) (why : c.fails ≠ none ∨ s.store name = none) :
    Rotates registry latest n name auto s c (.store current id grace new_value) (s.fail id) (.done (.error e))
  | late (current old : Secret Bytes) (id : Nat) (grace : Duration) (new_value : Bytes) (e : RotationError) (fails : c.fails ≠ none) (found : s.store name = some old) :
    Rotates registry latest n name auto s c (.store current id grace new_value) (s.replace name old new_value id auto) (.done (.error e))
  | replaces (current old : Secret Bytes) (id : Nat) (grace : Duration) (new_value : Bytes) (found : s.store name = some old) :
    Rotates registry latest n name auto s c (.store current id grace new_value) (s.replace name old new_value id auto)
      (.next (.notify (renewed old new_value s.now).as_ref grace))
  | notifies (new_ref : SecretRef) (grace : Duration) : Rotates registry latest n name auto s c (.notify new_ref grace) s (.done (.ok new_ref))
  | unnotified (new_ref : SecretRef) (grace : Duration) (beyond : ¬ fits latest s grace) : Rotates registry latest n name auto s c (.notify new_ref grace) s .panicked

/-- Every way in which a step of a call can go. -/
inductive Does (registry : Registry) (latest : Int) (n : Nat) (s : State) (c : Choice) : Call → State → Call → Prop where
  | rotates (name : String) (stage : Stage) (s' : State) (p : Progress) (does : Rotates registry latest n name none s c stage s' p) :
    Does registry latest n s c (.rotate name stage) s' (p.manual name)
  | purges (rotated : List String) : Does registry latest n s c (.check [] rotated) s.purge_expired_grace (.checked rotated)
  | skips (name : String) (policy : RotationPolicy) (todo : List (String × RotationPolicy)) (rotated : List String)
      (why : policy.auto_rotate = false ∨ c.fails ≠ none ∨ s.store name = none) :
    Does registry latest n s c (.check ((name,policy) :: todo) rotated) s (.check todo rotated)
  | reads (name : String) (policy : RotationPolicy) (todo : List (String × RotationPolicy)) (rotated : List String) (secret : Secret Bytes)
      (found : s.store name = some secret) :
    Does registry latest n s c (.check ((name,policy) :: todo) rotated) s (.test name policy secret todo rotated)
  | older (name : String) (policy : RotationPolicy) (secret : Secret Bytes) (todo : List (String × RotationPolicy)) (rotated : List String)
      (older : span policy.max_age < s.now - written secret) :
    Does registry latest n s c (.test name policy secret todo rotated) s (.nested name policy secret .get todo rotated)
  | younger (name : String) (policy : RotationPolicy) (secret : Secret Bytes) (todo : List (String × RotationPolicy)) (rotated : List String)
      (younger : s.now - written secret ≤ span policy.max_age) :
    Does registry latest n s c (.test name policy secret todo rotated) s (.check todo rotated)
  | nests (name : String) (policy : RotationPolicy) (secret : Secret Bytes) (stage : Stage) (todo : List (String × RotationPolicy)) (rotated : List String)
      (s' : State) (p : Progress) (does : Rotates registry latest n name (some policy) s c stage s' p) :
    Does registry latest n s c (.nested name policy secret stage todo rotated) s' (p.automatic name policy secret todo rotated)
  | rests (t : Call) (finished : t.Finished) : Does registry latest n s c t s t

section
variable (registry : Registry) (latest : Int) (n : Nat)

theorem rotate_step_rotates (name : String) (auto : Option RotationPolicy) (s : State) (c : Choice) (stage : Stage) :
    Rotates registry latest n name auto s c stage (rotate_step registry latest n name auto s c stage).1 (rotate_step registry latest n name auto s c stage).2 := by
  cases stage with
  | get =>
    simp only [rotate_step]
    split_ifs with listed
    · cases fails : c.fails with
      | some e => exact .refused _ (.inl (by simp [fails]))
      | none =>
        cases found : s.store name with
        | none => exact .refused _ (.inr (.inl found))
        | some current => exact .reads current found
    · exact .refused _ (.inr (.inr listed))
  | archive current =>
    simp only [rotate_step]
    split_ifs with fit
    · exact .archives current fit
    · exact .unarchived current fit
  | generate current id grace =>
    simp only [rotate_step]
    cases fails : c.fails with
    | some e => exact .ungenerated current id grace _ (by simp [fails])
    | none => exact .generates current id grace
  | store current id grace new_value =>
    simp only [rotate_step]
    cases found : s.store name with
    | none => cases c.fails <;> exact .unstored current id grace new_value _ (.inr found)
    | some old =>
      cases fails : c.fails with
      | none => exact .replaces current old id grace new_value found
      | some e =>
        simp only
        split_ifs
        · exact .late current old id grace new_value _ (by simp [fails]) found
        · exact .unstored current id grace new_value _ (.inl (by simp [fails]))
  | notify new_ref grace =>
    simp only [rotate_step]
    split_ifs with fit
    · exact .notifies new_ref grace
    · exact .unnotified new_ref grace fit

theorem act_does (s : State) (t : Call) (c : Choice) :
    Does registry latest n (s.later c.elapsed) c t (act registry latest n s t c).1 (act registry latest n s t c).2 := by
  unfold act
  generalize s.later c.elapsed = s
  cases t with
  | rotate name stage => exact .rotates name stage _ _ (rotate_step_rotates registry latest n name none s c stage)
  | check todo rotated =>
    cases todo with
    | nil => exact .purges rotated
    | cons p todo =>
      obtain ⟨name,policy⟩ := p
      simp only [call_step]
      split_ifs with auto
      · cases found : s.store name with
        | none => cases c.fails <;> exact .skips name policy todo rotated (.inr (.inr found))
        | some secret =>
          cases fails : c.fails with
          | none => exact .reads name policy todo rotated secret found
          | some e => exact .skips name policy todo rotated (.inr (.inl (by simp [fails])))
      · exact .skips name policy todo rotated (.inl (by simpa using auto))
  | test name policy secret todo rotated =>
    simp only [call_step]
    split_ifs with old
    · exact .older name policy secret todo rotated old
    · exact .younger name policy secret todo rotated (by omega)
  | nested name policy secret stage todo rotated =>
    exact .nests name policy secret stage todo rotated _ _ (rotate_step_rotates registry latest n name (some policy) s c stage)
  | done | checked | panicked => exact .rests _ trivial

end

/-! ### Lists -/

section
variable {α : Type} {l : List α} {i j : Nat} {f : α → α} {a b : α}

theorem get_concat (found : (l ++ [a])[i]? = some b) : l[i]? = some b ∨ i = l.length ∧ b = a := by
  rcases Nat.lt_trichotomy i l.length with inside | rfl | beyond
  · rw [List.getElem?_append_left inside] at found
    exact .inl found
  · rw [List.getElem?_concat_length] at found
    exact .inr ⟨rfl,(Option.some.inj found).symm⟩
  · rw [List.getElem?_eq_none (by simp; omega)] at found
    cases found

theorem get_modify (found : (l.modify i f)[j]? = some b) : ∃ a, l[j]? = some a ∧ (i = j ∧ b = f a ∨ i ≠ j ∧ b = a) := by
  rw [List.getElem?_modify] at found
  obtain ⟨a,there,same⟩ := Option.map_eq_some_iff.mp found
  refine ⟨a,there,?_⟩
  split_ifs at same with here
  · exact .inl ⟨here,same.symm⟩
  · exact .inr ⟨here,same.symm⟩

theorem mem_modify (member : b ∈ l.modify i f) : b ∈ l ∨ ∃ a, l[i]? = some a ∧ b = f a := by
  obtain ⟨j,found⟩ := List.mem_iff_getElem?.mp member
  obtain ⟨a,there,⟨rfl,rfl⟩ | ⟨-,rfl⟩⟩ := get_modify found
  · exact .inr ⟨a,there,rfl⟩
  · exact .inl (List.mem_of_getElem? there)

end

/-! ### A rotation under way and its record -/

/-- The record of a rotation between the archiving of the value and its end. -/
structure Opened (n : Nat) (name : String) (current : Secret Bytes) (r : Record) : Prop where
  call : r.call = n
  name : r.name = name
  value : r.value = current.encrypted_value
  fate : r.fate = .underway
  purged : r.purged = false

def Pending (n : Nat) (name : String) (current : Secret Bytes) (id : Nat) (s : State) : Prop := ∃ r, s.log[id]? = some r ∧ Opened n name current r

def Stage.Linked (n : Nat) (name : String) (s : State) : Stage → Prop
  | .generate current id _ | .store current id _ _ => Pending n name current id s
  | _ => True

def Progress.Linked (n : Nat) (name : String) (s : State) : Progress → Prop
  | .next stage => stage.Linked n name s
  | _ => True

def Call.Linked (n : Nat) (s : State) : Call → Prop
  | .rotate name stage | .nested name _ _ stage _ _ => stage.Linked n name s
  | _ => True

/-- The times on record. -/
structure Record.Timed (now : Int) (r : Record) : Prop where
  archived : r.archived ≤ now
  replaced : ∀ old time auto, r.fate = .replaced old time auto → r.archived ≤ time ∧ time ≤ now
  purged : r.purged = true → ∃ old time auto, r.fate = .replaced old time auto ∧ time + r.grace ≤ now

def State.Timed (s : State) : Prop := ∀ r ∈ s.log, r.Timed s.now

/-- What a step of a call does to the records. -/
inductive Records (n : Nat) (s s' : State) : Prop where
  | same (log : s'.log = s.log)
  | opens (name : String) (value : Bytes) (grace : Duration) (log : s'.log = s.log ++ [⟨n,name,value,s.now,grace,.underway,false⟩])
  | settles (name : String) (current : Secret Bytes) (id : Nat) (fate : Fate) (mine : Pending n name current id s)
      (how : fate = .failed ∨ ∃ old auto, fate = .replaced old s.now auto) (log : s'.log = s.log.modify id fun r => { r with fate })
  | purges (log : s'.log = s.log.map (Record.passed s.now))

section
variable {registry : Registry} {latest : Int} {s s' : State} {n m : Nat} {name : String} {current : Secret Bytes} {id : Nat} {c : Choice}

theorem later_now (s : State) (elapsed : Nat) : s.now ≤ (s.later elapsed).now := Int.le_add_of_nonneg_right (Int.natCast_nonneg _)

theorem passed_underway {now : Int} {r : Record} (underway : r.fate = .underway) : r.passed now = r := by
  unfold Record.passed
  rw [underway]

theorem passed_fate (now : Int) (r : Record) : (r.passed now).fate = r.fate := by
  unfold Record.passed
  split <;> rfl

theorem passed_name (now : Int) (r : Record) : (r.passed now).name = r.name := by
  unfold Record.passed
  split <;> rfl

theorem passed_call (now : Int) (r : Record) : (r.passed now).call = r.call := by
  unfold Record.passed
  split <;> rfl

theorem Pending.of_log (pending : Pending n name current id s) (log : s'.log = s.log) : Pending n name current id s' := by
  obtain ⟨r,found,opened⟩ := pending
  exact ⟨r,log ▸ found,opened⟩

theorem Call.Linked.later {t : Call} (linked : t.Linked n s) (elapsed : Nat) : t.Linked n (s.later elapsed) := by
  cases t with
  | rotate _ stage | nested _ _ _ stage =>
    cases stage with
    | generate | store => exact Pending.of_log linked rfl
    | _ => trivial
  | _ => trivial

theorem pending_keep (s : State) (n : Nat) (name : String) (current : Secret Bytes) (grace : Duration) :
    Pending n name current s.log.length (s.keep n name current.encrypted_value grace) :=
  ⟨_,List.getElem?_concat_length,⟨rfl,rfl,rfl,rfl,rfl⟩⟩

/-- A record of another call, or of a rotation that has ended, is only marked by a purge. -/
theorem Records.keep (records : Records m s s') {r : Record} (found : s.log[id]? = some r) (foreign : r.call ≠ m ∨ r.fate ≠ .underway) :
    s'.log[id]? = some r ∨ s'.log[id]? = some (r.passed s.now) := by
  have inside := (List.getElem?_eq_some_iff.mp found).1
  cases records with
  | same log => exact .inl (log ▸ found)
  | opens _ _ _ log =>
    left
    rw [log,List.getElem?_append_left inside,found]
  | settles _ _ settled _ mine _ log =>
    obtain ⟨r',found',opened⟩ := mine
    have apart : settled ≠ id := by
      intro same
      subst same
      rw [found] at found'
      cases found'
      exact foreign.elim (fun other => other opened.call) fun ended => ended opened.fate
    left
    rw [log,List.getElem?_modify_ne _ _ apart,found]
  | purges log =>
    right
    rw [log,List.getElem?_map,found]
    rfl

/-- The steps of another call leave the record of a rotation under way. -/
theorem Pending.other (pending : Pending n name current id s) (differ : m ≠ n) (records : Records m s s') : Pending n name current id s' := by
  obtain ⟨r,found,opened⟩ := pending
  have other : r.call ≠ m := fun same => differ (same.symm.trans opened.call)
  rcases records.keep found (.inl other) with kept | marked
  · exact ⟨r,kept,opened⟩
  · rw [passed_underway opened.fate] at marked
    exact ⟨r,marked,opened⟩

theorem Rotates.records {auto : Option RotationPolicy} {stage : Stage} {p : Progress} (rotates : Rotates registry latest n name auto s c stage s' p)
    (linked : stage.Linked n name s) : Records n s s' := by
  cases rotates with
  | archives current => exact .opens name current.encrypted_value _ rfl
  | ungenerated current id => exact .settles name current id .failed linked (.inl rfl) rfl
  | unstored current id => exact .settles name current id .failed linked (.inl rfl) rfl
  | late current old id => exact .settles name current id _ linked (.inr ⟨old,auto,rfl⟩) rfl
  | replaces current old id => exact .settles name current id _ linked (.inr ⟨old,auto,rfl⟩) rfl
  | _ => exact .same rfl

theorem Rotates.now {auto : Option RotationPolicy} {stage : Stage} {p : Progress} (rotates : Rotates registry latest n name auto s c stage s' p) :
    s'.now = s.now := by
  cases rotates <;> rfl

theorem Rotates.linked {auto : Option RotationPolicy} {stage : Stage} {p : Progress} (rotates : Rotates registry latest n name auto s c stage s' p)
    (linked : stage.Linked n name s) : p.Linked n name s' := by
  cases rotates with
  | archives current => exact pending_keep s n name current _
  | generates => exact linked
  | _ => trivial

theorem Does.records {t t' : Call} (does : Does registry latest n s c t s' t') (linked : t.Linked n s) : Records n s s' := by
  cases does with
  | rotates _ _ _ _ rotates => exact rotates.records linked
  | nests _ _ _ _ _ _ _ _ rotates => exact rotates.records linked
  | purges => exact .purges rfl
  | _ => exact .same rfl

theorem Does.now {t t' : Call} (does : Does registry latest n s c t s' t') : s'.now = s.now := by
  cases does with
  | rotates _ _ _ _ rotates => exact rotates.now
  | nests _ _ _ _ _ _ _ _ rotates => exact rotates.now
  | _ => rfl

/-- Time goes forward. -/
theorem act_now (s : State) (t : Call) (c : Choice) : s.now ≤ (act registry latest n s t c).1.now := by
  rw [(act_does registry latest n s t c).now]
  exact later_now s c.elapsed

theorem act_records {t : Call} (linked : t.Linked n s) : Records n (s.later c.elapsed) (act registry latest n s t c).1 :=
  (act_does registry latest n s t c).records (linked.later c.elapsed)

theorem linked_manual {p : Progress} (linked : p.Linked n name s) : (p.manual name).Linked n s := by
  cases p with
  | next => exact linked
  | _ => trivial

theorem linked_automatic {p : Progress} {policy : RotationPolicy} {secret : Secret Bytes} {todo : List (String × RotationPolicy)} {rotated : List String}
    (linked : p.Linked n name s) : (p.automatic name policy secret todo rotated).Linked n s := by
  cases p with
  | next => exact linked
  | done result => cases result <;> trivial
  | panicked => trivial

theorem Does.linked {t t' : Call} (does : Does registry latest n s c t s' t') (linked : t.Linked n s) : t'.Linked n s' := by
  cases does with
  | rotates _ _ _ _ rotates => exact linked_manual (rotates.linked linked)
  | nests _ _ _ _ _ _ _ _ rotates => exact linked_automatic (rotates.linked linked)
  | rests => exact linked
  | _ => trivial

theorem Stage.Linked.other {stage : Stage} (linked : stage.Linked n name s) (differ : m ≠ n) (records : Records m s s') : stage.Linked n name s' := by
  cases stage with
  | generate | store => exact Pending.other linked differ records
  | _ => trivial

theorem Call.Linked.other {t : Call} (linked : t.Linked n s) (differ : m ≠ n) (records : Records m s s') : t.Linked n s' := by
  cases t with
  | rotate | nested => exact Stage.Linked.other linked differ records
  | _ => trivial

theorem Record.Timed.later {now later : Int} {r : Record} (timed : r.Timed now) (forward : now ≤ later) : r.Timed later := by
  obtain ⟨archived,replaced,purged⟩ := timed
  refine ⟨archived.trans forward,?_,?_⟩
  · intro old time auto fate
    obtain ⟨behind,before⟩ := replaced old time auto fate
    exact ⟨behind,before.trans forward⟩
  · intro gone
    obtain ⟨old,time,auto,fate,ended⟩ := purged gone
    exact ⟨old,time,auto,fate,ended.trans forward⟩

theorem Record.Timed.passed {now : Int} {r : Record} (timed : r.Timed now) : (r.passed now).Timed now := by
  obtain ⟨archived,replaced,purged⟩ := timed
  unfold Record.passed
  split
  · rename_i old time auto fate
    refine ⟨archived,replaced,fun gone => ?_⟩
    simp only [Bool.or_eq_true,decide_eq_true_eq] at gone
    rcases gone with before | ended
    · exact purged before
    · exact ⟨old,time,auto,fate,ended⟩
  · exact ⟨archived,replaced,purged⟩

theorem State.Timed.later (timed : s.Timed) (elapsed : Nat) : (s.later elapsed).Timed :=
  fun r member => (timed r member).later (later_now s elapsed)

theorem State.Timed.records (timed : s.Timed) (records : Records n s s') (now : s'.now = s.now) : s'.Timed := by
  intro r member
  rw [now]
  cases records with
  | same log => exact timed r (log ▸ member)
  | opens name value grace log =>
    rw [log] at member
    rcases List.mem_append.mp member with old | new
    · exact timed r old
    · rw [List.mem_singleton.mp new]
      exact ⟨le_rfl,fun _ _ _ fate => (by cases fate),fun gone => (by cases gone)⟩
  | settles name current id fate mine how log =>
    rw [log] at member
    rcases mem_modify member with old | ⟨before,found,rfl⟩
    · exact timed r old
    · obtain ⟨r',found',opened⟩ := mine
      rw [found] at found'
      cases found'
      obtain ⟨archived,-,-⟩ := timed before (List.mem_of_getElem? found)
      refine ⟨archived,?_,fun gone => ?_⟩
      · rintro old time auto rfl
        rcases how with no | ⟨_,_,same⟩
        · cases no
        · cases same
          exact ⟨archived,le_rfl⟩
      · rw [show before.purged = false from opened.purged] at gone
        cases gone
  | purges log =>
    rw [log] at member
    obtain ⟨before,there,rfl⟩ := List.mem_map.mp member
    exact (timed before there).passed

/-- Each rotation under way has its record, in every run. -/
theorem linked_rule (registry : Registry) (latest now : Int) (store : String → Option (Secret Bytes)) :
    Rule (manager registry latest now store) (fun _ _ _ _ => True) State.Timed (fun n s t => ∀ u ∈ t, u.Linked n s) where
  initial := by
    constructor
    · intro r member
      cases member
    · intro n u there
      cases there
  enters := by
    rintro n s (name | order) - - u there <;> cases there <;> trivial
  shared := by
    intro n s t c timed linked _
    exact (timed.later c.elapsed).records (act_records (linked t rfl)) (act_does registry latest n s t c).now
  own := by
    rintro n s t c - linked - u there
    cases there
    exact (act_does registry latest n s t c).linked ((linked t rfl).later c.elapsed)
  other := by
    rintro n m s t u c differ - mine theirs - v there
    exact ((theirs v there).later c.elapsed).other differ (act_records (mine t rfl))

end
end Daf.SecretRotation
