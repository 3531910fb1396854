import Daf.SecretRotation

/-!
The archive of the values that rotations replaced. A value is archived before its secret has a new one, by what
was read of the secret, and it expires by the time of its archiving: the archive is what was replaced as long as
each rotation that archived a value goes on to replace that value, before a purge can find it expired.
-/
namespace Daf.GraceArchive
open Daf.GraphNodes Daf.KeyRing Daf.VaultSecrets Daf.Runs Daf.Interleaving Daf.SecretRotation

/-- The rotation is under way, or it replaced a value and no purge has come since the end of the grace period. -/
def held (r : Record) : Bool :=
  match r.fate with
  | .underway => true
  | .failed => false
  | .replaced _ _ _ => !r.purged

def heldOf (name : String) (r : Record) : Bool := r.name = name && held r

/-- The value that the rotation replaced, or has read and will replace. -/
def taken (r : Record) : Bytes :=
  match r.fate with
  | .replaced old _ _ => old.encrypted_value
  | _ => r.value

/-- A purge drops the entry of a rotation only behind the grace period of what the rotation replaced. -/
def Ripe (now : Int) (r : Record) : Prop :=
  match r.fate with
  | .underway => now < r.archived + span r.grace
  | .failed => True
  | .replaced _ time _ => now < time + r.grace → now < r.archived + span r.grace

instance (now : Int) : ∀ r : Record, Decidable (Ripe now r)
  | ⟨_,_,_,archived,grace,.underway,_⟩ => inferInstanceAs (Decidable (now < archived + span grace))
  | ⟨_,_,_,_,_,.failed,_⟩ => isTrue trivial
  | ⟨_,_,_,archived,grace,.replaced _ time _,_⟩ => inferInstanceAs (Decidable (now < time + grace → now < archived + span grace))

/-- Behind the archiving a rotation does not fail, and it replaces the value that it has read. -/
def KeptStage (name other : String) (s : State) (c : Choice) : Stage → Prop
  | .generate _ _ _ => other = name → c.fails = none
  | .store current _ _ _ => other = name → c.fails = none ∧ (s.store name).any fun old => old.encrypted_value = current.encrypted_value
  | _ => True

instance (name other : String) (s : State) (c : Choice) : ∀ stage : Stage, Decidable (KeptStage name other s c stage)
  | .get => isTrue trivial
  | .archive _ => isTrue trivial
  | .generate _ _ _ => inferInstanceAs (Decidable (other = name → c.fails = none))
  | .store _ _ _ _ => inferInstanceAs (Decidable (other = name → c.fails = none ∧ _ = true))
  | .notify _ _ => isTrue trivial

/-- The condition on the steps of a run, for the archive of one secret. -/
def Kept (name : String) (_ : Nat) (s : State) (t : Call) (c : Choice) : Prop :=
  match t with
  | .rotate other stage | .nested other _ _ stage _ _ => KeptStage name other s c stage
  | .check [] _ => ∀ r ∈ s.log, r.name = name → Ripe (s.later c.elapsed).now r
  | _ => True

instance (name : String) (n : Nat) (s : State) (t : Call) (c : Choice) : Decidable (Kept name n s t c) :=
  match t with
  | .rotate other stage => inferInstanceAs (Decidable (KeptStage name other s c stage))
  | .nested other _ _ stage _ _ => inferInstanceAs (Decidable (KeptStage name other s c stage))
  | .check [] _ => inferInstanceAs (Decidable (∀ r ∈ s.log, r.name = name → Ripe (s.later c.elapsed).now r))
  | .check (_ :: _) _ => isTrue trivial
  | .test _ _ _ _ _ => isTrue trivial
  | .done _ => isTrue trivial
  | .checked _ => isTrue trivial
  | .panicked => isTrue trivial

/-! ### Lists -/

section
variable {α β : Type} {p : α → Bool} {e : α → β} {f : α → α}

theorem filter_map_modify {l : List α} {i : Nat} (same : ∀ a, l[i]? = some a → p (f a) = p a ∧ e (f a) = e a) :
    ((l.modify i f).filter p).map e = (l.filter p).map e := by
  induction l generalizing i with
  | nil => rw [List.modify_nil]
  | cons a l ih =>
    cases i with
    | zero =>
      obtain ⟨as_before,entered⟩ := same a rfl
      rw [List.modify_zero_cons,List.filter_cons,List.filter_cons,as_before]
      split_ifs
      · rw [List.map_cons,List.map_cons,entered]
      · rfl
    | succ i =>
      have rest := ih fun b there => same b (by rw [List.getElem?_cons_succ,there])
      rw [List.modify_succ_cons,List.filter_cons,List.filter_cons]
      split_ifs
      · rw [List.map_cons,List.map_cons,rest]
      · exact rest

/-- What is filtered of the images is what is filtered of the list itself, behind a map that agrees with the filter. -/
theorem filter_map_map {q : β → Bool} {l : List α} (agree : ∀ a ∈ l, p (f a) = (p a && q (e a)) ∧ e (f a) = e a) :
    ((l.filter p).map e).filter q = ((l.map f).filter p).map e := by
  induction l with
  | nil => rfl
  | cons a l ih =>
    obtain ⟨both,entered⟩ := agree a List.mem_cons_self
    have rest := ih fun b member => agree b (List.mem_cons_of_mem _ member)
    rw [List.map_cons,List.filter_cons,List.filter_cons,both]
    cases first : p a with
    | false => simpa using rest
    | true =>
      rw [if_pos rfl,List.map_cons,List.filter_cons,Bool.true_and]
      split_ifs
      · rw [List.map_cons,entered,rest]
      · exact rest

end

section
variable {registry : Registry} {latest : Int} {n : Nat} {name other : String} {s s' : State} {c : Choice}

/-! ### The archive and the records -/

def entry (r : Record) : GraceEntry := ⟨r.value,r.archived + span r.grace⟩

/-- The archive of the secret is what its records hold, in the order of the records, and each rotation replaced what it had read. -/
structure Exact (name : String) (s : State) : Prop where
  archive : s.archive name = (s.log.filter (heldOf name)).map entry
  whole : ∀ r ∈ s.log, r.name = name → r.fate ≠ .failed ∧ ∀ old time auto, r.fate = .replaced old time auto → old.encrypted_value = r.value

theorem exact_keep (exact_before : Exact name s) (n : Nat) (other : String) (value : Bytes) (grace : Duration) : Exact name (s.keep n other value grace) := by
  obtain ⟨archive,whole⟩ := exact_before
  refine ⟨?_,fun r member here => ?_⟩
  · show Function.update s.archive other _ name = ((s.log ++ [_]).filter (heldOf name)).map entry
    rw [List.filter_append,List.map_append,← archive]
    by_cases same : other = name
    · subst same
      rw [Function.update_self]
      simp [heldOf,held,entry]
    · rw [Function.update_of_ne (Ne.symm same)]
      simp [heldOf,same]
  · rcases List.mem_append.mp member with before | new
    · exact whole r before here
    · rw [List.mem_singleton.mp new]
      exact ⟨nofun,fun _ _ _ fate => by cases fate⟩

/-- The end of a rotation, for a secret that it is not about or as the condition has it. -/
theorem exact_settle {fate : Fate} {current : Secret Bytes} {id : Nat} (exact_before : Exact name s) (mine : Pending n other current id s)
    (how : other = name → ∃ old time auto, fate = .replaced old time auto ∧ old.encrypted_value = current.encrypted_value)
    (archive : s'.archive = s.archive) (log : s'.log = s.log.modify id fun r => { r with fate }) : Exact name s' := by
  obtain ⟨r,found,opened⟩ := mine
  obtain ⟨before,whole⟩ := exact_before
  refine ⟨?_,?_⟩
  · rw [archive,log,before]
    have agree : heldOf name { r with fate } = heldOf name r := by
      by_cases same : other = name
      · obtain ⟨old,time,auto,rfl,-⟩ := how same
        simp [heldOf,held,opened.fate,opened.purged]
      · simp [heldOf,opened.name,same]
    refine Eq.symm (filter_map_modify fun a there => ?_)
    rw [found] at there
    cases there
    exact ⟨agree,rfl⟩
  · intro a member here
    rw [log] at member
    rcases mem_modify member with unchanged | ⟨b,there,rfl⟩
    · exact whole a unchanged here
    · rw [found] at there
      cases there
      obtain ⟨old,time,auto,rfl,value⟩ := how (opened.name.symm.trans here)
      refine ⟨nofun,fun old' time' auto' fate => ?_⟩
      cases fate
      exact value.trans opened.value.symm

theorem passed_entry (now : Int) (r : Record) : entry (r.passed now) = entry r := by
  unfold Record.passed
  split <;> rfl

/-- A purge drops an entry where the record of its rotation passes. -/
theorem held_passed {now : Int} {r : Record} (timed : r.Timed now) (ripe : Ripe now r) :
    held (r.passed now) = (held r && decide ((entry r).expires_at > now)) := by
  unfold Ripe at ripe
  cases fate : r.fate with
  | underway =>
    rw [fate] at ripe
    rw [passed_underway fate]
    simp only [held,fate,entry,Bool.true_and]
    exact (decide_eq_true ripe).symm
  | failed => simp [held,Record.passed,fate]
  | replaced old time auto =>
    rw [fate] at ripe
    obtain ⟨behind,-⟩ := timed.replaced old time auto fate
    have shorter : (span r.grace : Int) ≤ r.grace := by
      unfold span
      split_ifs
      · exact le_rfl
      · exact Int.natCast_nonneg _
    have agree : (time + r.grace ≤ now) ↔ ¬ now < r.archived + span r.grace := by
      constructor
      · intro ended
        omega
      · intro expired
        by_contra open_still
        exact expired (ripe (by omega))
    simp only [held,Record.passed,fate,entry,gt_iff_lt,Bool.not_or,agree,decide_not,Bool.not_not]

theorem exact_purge (exact_before : Exact name s) (timed : s.Timed) (ripe : ∀ r ∈ s.log, r.name = name → Ripe s.now r) : Exact name s.purge_expired_grace := by
  obtain ⟨archive,whole⟩ := exact_before
  refine ⟨?_,?_⟩
  · show (s.archive name).filter _ = _
    rw [archive]
    refine filter_map_map fun r member => ⟨?_,passed_entry s.now r⟩
    by_cases here : r.name = name
    · simp only [heldOf,passed_name,here,held_passed (timed r member) (ripe r member here),decide_true,Bool.true_and]
    · simp only [heldOf,passed_name,here,decide_false,Bool.false_and]
  · intro r member here
    obtain ⟨before,there,rfl⟩ := List.mem_map.mp member
    rw [passed_name] at here
    obtain ⟨lasting,right⟩ := whole before there here
    refine ⟨fun failed => lasting ((passed_fate _ _).symm.trans failed),fun old time auto fate => ?_⟩
    have value : (before.passed s.now).value = before.value := congrArg GraceEntry.old_value (passed_entry s.now before)
    rw [value]
    exact right old time auto ((passed_fate _ _).symm.trans fate)

theorem exact_rotates {auto : Option RotationPolicy} {stage : Stage} {p : Progress} (rotates : Rotates registry latest n other auto s c stage s' p)
    (linked : stage.Linked n other s) (exact_before : Exact name s) (kept : KeptStage name other s c stage) : Exact name s' := by
  cases rotates with
  | archives current => exact exact_keep exact_before n other _ _
  | ungenerated current id grace e fails => exact exact_settle exact_before linked (fun same => absurd (kept same) fails) rfl rfl
  | unstored current id grace new_value e why =>
    refine exact_settle exact_before linked (fun same => ?_) rfl rfl
    obtain ⟨works,found⟩ := kept same
    rcases why with fails | missing
    · exact absurd works fails
    · subst same
      simp [missing] at found
  | late current old id grace new_value e fails =>
    exact exact_settle exact_before linked (fun same => absurd (kept same).1 fails) rfl rfl
  | replaces current old id grace new_value found =>
    refine exact_settle exact_before linked (fun same => ⟨old,s.now,auto,rfl,?_⟩) rfl rfl
    obtain ⟨-,read⟩ := kept same
    subst same
    rw [found,Option.any_some,decide_eq_true_eq] at read
    exact read
  | _ => exact exact_before

theorem exact_rule (now : Int) (store : String → Option (Secret Bytes)) (name : String) :
    Rule (manager registry latest now store) (Kept name) (fun s => s.Timed ∧ Exact name s) (fun n s t => ∀ u ∈ t, u.Linked n s) where
  initial := by
    have base := (linked_rule registry latest now store).initial
    refine ⟨⟨base.1,rfl,fun r member => ?_⟩,base.2⟩
    cases member
  enters n s request both before := (linked_rule registry latest now store).enters n s request both.1 before
  shared := by
    intro n s t c both linked kept
    obtain ⟨timed,exact_before⟩ := both
    refine ⟨(linked_rule registry latest now store).shared n s t c timed linked trivial,?_⟩
    have does := act_does registry latest n s t c
    have at_call := (linked t rfl).later c.elapsed
    have before : Exact name (s.later c.elapsed) := ⟨exact_before.archive,exact_before.whole⟩
    show Exact name (act registry latest n s t c).1
    generalize act registry latest n s t c = out at does
    obtain ⟨s',t'⟩ := out
    cases does with
    | rotates other stage _ p rotates => exact exact_rotates rotates at_call before kept
    | nests other policy tested stage todo rotated _ p rotates => exact exact_rotates rotates at_call before kept
    | purges => exact exact_purge before (timed.later c.elapsed) kept
    | _ => exact before
  own n s t c both linked _ := (linked_rule registry latest now store).own n s t c both.1 linked trivial
  other n m s t u c differ both mine theirs _ := (linked_rule registry latest now store).other n m s t u c differ both.1 mine theirs trivial


/-! ### The records of rotations under way -/

def stageWorks (name : String) : Stage → Option (String × Nat)
  | .generate _ id _ | .store _ id _ _ => some (name,id)
  | _ => none

def progressWorks (name : String) : Progress → Option (String × Nat)
  | .next stage => stageWorks name stage
  | _ => none

/-- The secret whose value a call has archived and not yet replaced, with the record of it. -/
def works : Call → Option (String × Nat)
  | .rotate name stage | .nested name _ _ stage _ _ => stageWorks name stage
  | _ => none

/-- The only record of the call that is under way is what it is at. -/
def Owned (n : Nat) (s : State) (current : Option (String × Nat)) : Prop :=
  ∀ (id : Nat) (r : Record), s.log[id]? = some r → r.call = n → r.fate = .underway → current = some (r.name,id)

theorem works_manual (name : String) (p : Progress) : works (p.manual name) = progressWorks name p := by
  cases p <;> rfl

theorem works_automatic (name : String) (policy : RotationPolicy) (secret : Secret Bytes) (todo : List (String × RotationPolicy)) (rotated : List String)
    (p : Progress) : works (p.automatic name policy secret todo rotated) = progressWorks name p := by
  cases p with
  | done result => cases result <;> rfl
  | _ => rfl

theorem owned_settle {fate : Fate} {id : Nat} (owned : Owned n s (some (name,id))) (ended : fate ≠ .underway)
    (log : s'.log = s.log.modify id fun r => { r with fate }) : Owned n s' none := by
  intro at_id r found call underway
  rw [log] at found
  obtain ⟨before,there,⟨-,rfl⟩ | ⟨other,rfl⟩⟩ := get_modify found
  · exact absurd underway ended
  · have only := owned at_id r there call underway
    exact absurd (Prod.mk.inj (Option.some.inj only)).2 other

theorem owned_rotates {auto : Option RotationPolicy} {stage : Stage} {p : Progress} (rotates : Rotates registry latest n name auto s c stage s' p)
    (owned : Owned n s (stageWorks name stage)) : Owned n s' (progressWorks name p) := by
  cases rotates with
  | archives current =>
    intro id r found call underway
    rcases get_concat (l := s.log) found with before | ⟨rfl,rfl⟩
    · exact absurd (owned id r before call underway) nofun
    · rfl
  | ungenerated | unstored => exact owned_settle owned (fun same : Fate.failed = .underway => by cases same) rfl
  | late | replaces => exact owned_settle owned (fun same => by cases same) rfl
  | _ => exact owned

theorem owned_own {t t' : Call} (does : Does registry latest n s c t s' t') (owned : Owned n s (works t)) : Owned n s' (works t') := by
  cases does with
  | rotates name stage _ p rotates =>
    rw [works_manual]
    exact owned_rotates rotates owned
  | nests name policy tested stage todo rotated _ p rotates =>
    rw [works_automatic]
    exact owned_rotates rotates owned
  | purges =>
    intro id r found call underway
    have kept : (s.log.map (Record.passed s.now))[id]? = some r := found
    rw [List.getElem?_map] at kept
    obtain ⟨before,there,rfl⟩ := Option.map_eq_some_iff.mp kept
    rw [passed_name]
    exact owned id before there ((passed_call _ _).symm.trans call) ((passed_fate _ _).symm.trans underway)
  | _ => exact owned

theorem owned_other {m : Nat} {current : Option (String × Nat)} (owned : Owned m s current) (differ : n ≠ m) (records : Records n s s') :
    Owned m s' current := by
  intro id r found call underway
  cases records with
  | same log => exact owned id r (log ▸ found) call underway
  | opens name value grace log =>
    rw [log] at found
    rcases get_concat found with before | ⟨-,rfl⟩
    · exact owned id r before call underway
    · exact absurd call differ
  | settles name current' settled fate mine how log =>
    rw [log] at found
    obtain ⟨before,there,⟨rfl,rfl⟩ | ⟨-,rfl⟩⟩ := get_modify found
    · obtain ⟨r',found',opened⟩ := mine
      rw [there] at found'
      cases found'
      exact absurd (opened.call.symm.trans call) differ
    · exact owned id r there call underway
  | purges log =>
    rw [log,List.getElem?_map] at found
    obtain ⟨before,there,rfl⟩ := Option.map_eq_some_iff.mp found
    rw [passed_name]
    exact owned id before there ((passed_call _ _).symm.trans call) ((passed_fate _ _).symm.trans underway)

theorem owned_rule (now : Int) (store : String → Option (Secret Bytes)) :
    Rule (manager registry latest now store) (fun _ _ _ _ => True) State.Timed (fun n s t => (∀ u ∈ t, u.Linked n s) ∧ Owned n s (t.bind works)) where
  initial := by
    have base := (linked_rule registry latest now store).initial
    refine ⟨base.1,fun n => ⟨base.2 n,fun id r found => ?_⟩⟩
    cases found
  enters := by
    intro n s request timed before
    obtain ⟨linked,owned⟩ := before
    refine ⟨(linked_rule registry latest now store).enters n s request timed linked,?_⟩
    cases request <;> exact owned
  shared n s t c timed both _ := (linked_rule registry latest now store).shared n s t c timed both.1 trivial
  own := by
    intro n s t c timed both _
    obtain ⟨linked,owned⟩ := both
    have before : Owned n (s.later c.elapsed) (works t) := owned
    exact ⟨(linked_rule registry latest now store).own n s t c timed linked trivial,owned_own (act_does registry latest n s t c) before⟩
  other := by
    intro n m s t u c differ timed mine theirs _
    obtain ⟨linked,owned⟩ := theirs
    refine ⟨(linked_rule registry latest now store).other n m s t u c differ timed mine.1 linked trivial,?_⟩
    have before : Owned m (s.later c.elapsed) (u.bind works) := owned
    exact owned_other before differ (act_records (mine.1 t rfl))


theorem Exact.values (exact_now : Exact name s) : (s.archive name).map GraceEntry.old_value = (s.log.filter (heldOf name)).map taken := by
  rw [exact_now.archive,List.map_map]
  refine List.map_congr_left fun r member => ?_
  obtain ⟨there,mine⟩ := List.mem_filter.mp member
  simp only [heldOf,Bool.and_eq_true,decide_eq_true_eq] at mine
  obtain ⟨-,right⟩ := exact_now.whole r there mine.1
  cases fate : r.fate with
  | replaced old time auto => simp only [Function.comp,entry,taken,fate,right old time auto fate]
  | _ => simp only [Function.comp,entry,taken,fate]

end

/-! ### Whole runs -/

/-- Where rotations of the secret that archived a value go on to replace that value, and no purge drops it before the end of its grace
    period: the archive of the secret has, in their order, the values that its rotations replaced or are about to replace, but for those
    that a purge found behind the end of their grace period. It has each value that was replaced less than its grace period ago, and
    nothing that was not replaced while no rotation of the secret is between archiving and replacing. -/
theorem grace_archive (registry : Registry) (latest now : Int) (store : String → Option (Secret Bytes)) (name : String) (events : List (Event registry))
    (kept : Every (manager registry latest now store).step (Meets (Kept name)) (manager registry latest now store).start events) :
    let w := (manager registry latest now store).run events
    (w.shared.archive name).map GraceEntry.old_value = (w.shared.log.filter (heldOf name)).map taken ∧
      (∀ r ∈ w.shared.log, ∀ old time auto, r.name = name → r.fate = .replaced old time auto → w.shared.now < time + r.grace →
        ∃ e ∈ w.shared.archive name, e.old_value = old.encrypted_value) ∧
      ((∀ t ∈ w.calls, ∀ id, works t ≠ some (name,id)) → ∀ value, (∃ e ∈ w.shared.archive name, e.old_value = value) ↔
        ∃ r ∈ w.shared.log, r.name = name ∧ r.purged = false ∧ ∃ old time auto, r.fate = .replaced old time auto ∧ old.encrypted_value = value) := by
  intro w
  have both : w.shared.Timed ∧ Exact name w.shared := ((exact_rule now store name).run kept).shared
  obtain ⟨timed,exact_now⟩ := both
  have values := exact_now.values
  have entries : ∀ value, (∃ e ∈ w.shared.archive name, e.old_value = value) ↔ ∃ r ∈ w.shared.log, heldOf name r = true ∧ taken r = value := by
    intro value
    rw [← List.mem_map,values,List.mem_map]
    simp only [List.mem_filter,and_assoc]
  refine ⟨values,?_,?_⟩
  · intro r member old time auto here fate open_still
    refine (entries old.encrypted_value).mpr ⟨r,member,?_,by simp [taken,fate]⟩
    have unpurged : r.purged = false := by
      by_contra gone
      obtain ⟨_,_,_,fate',ended⟩ := (timed r member).purged (by simpa using gone)
      rw [fate] at fate'
      cases fate'
      omega
    simp [heldOf,held,here,fate,unpurged]
  · intro idle value
    rw [entries value]
    constructor
    · rintro ⟨r,member,mine,value_of⟩
      simp only [heldOf,Bool.and_eq_true,decide_eq_true_eq] at mine
      obtain ⟨here,still⟩ := mine
      cases fate : r.fate with
      | underway =>
        obtain ⟨id,found⟩ := List.mem_iff_getElem?.mp member
        have only := (((owned_rule now store).always (fun _ _ _ _ => trivial) events).calls r.call).2 id r found rfl fate
        obtain ⟨t,there,working⟩ := Option.bind_eq_some_iff.mp only
        exact absurd (here ▸ working) (idle t (List.mem_of_getElem? there) id)
      | failed => simp [held,fate] at still
      | replaced old time auto =>
        simp only [held,fate,Bool.not_eq_true'] at still
        simp only [taken,fate] at value_of
        exact ⟨r,member,here,still,old,time,auto,fate,value_of⟩
    · rintro ⟨r,member,here,still,old,time,auto,fate,value_of⟩
      exact ⟨r,member,by simp [heldOf,held,here,fate,still],by simp [taken,fate,value_of]⟩

/-! ### One secret -/

def token : Secret Bytes := .new ⟨0⟩ 0 "token" .Token [0]

def oneToken (name : String) : Option (Secret Bytes) := if name = "token" then some token else none

def underPolicy (policy : RotationPolicy) : Registry := Registry.new.register "token" policy

def rotateToken (policy : RotationPolicy) : Event (underPolicy policy) := .call (.rotate_secret "token")

def checkToken (policy : RotationPolicy) : Event (underPolicy policy) := .call (.check_and_rotate ⟨[("token",policy)],.refl _⟩)

def choice (generated : Nat) : Choice := ⟨1,none,false,[UInt8.ofNat generated]⟩

def fails : Choice := ⟨1,some (.Crypto "random generation failed"),false,[]⟩

/-- A rotation whose generator fails. -/
def ungenerated : List (Event (underPolicy .default)) := [rotateToken .default,.act 0 (choice 1),.act 0 (choice 1),.act 0 fails]

/-- Two rotations that read the token before either replaces its value. -/
def together : List (Event (underPolicy .default)) :=
  [rotateToken .default,rotateToken .default,.act 0 (choice 1),.act 1 (choice 2)] ++ List.replicate 4 (.act 0 (choice 1)) ++
    List.replicate 4 (.act 1 (choice 2))

/-- The longest grace period there is, and no rotation that is due. -/
def endless : RotationPolicy := ⟨0,0,false,Duration.MAX⟩

/-- A rotation under that policy, and a check behind it. -/
def forgotten : List (Event (underPolicy endless)) :=
  rotateToken endless :: List.replicate 5 (.act 0 (choice 1)) ++ checkToken endless :: List.replicate 2 (.act 1 (choice 2))

/-- A rotation that fails leaves its value in the archive; of two rotations at the same time both archive the first value, and none the
    second; and under the longest grace period a purge drops the value at once. -/
theorem archive_inexact :
    (((manager (underPolicy .default) lastDate 0 oneToken).run ungenerated).shared.archive "token").map GraceEntry.old_value = [[0]] ∧
      (((manager (underPolicy .default) lastDate 0 oneToken).run ungenerated).shared.store "token").map Secret.encrypted_value = some [0] ∧
      (((manager (underPolicy .default) lastDate 0 oneToken).run together).shared.archive "token").map GraceEntry.old_value = [[0],[0]] ∧
      ((manager (underPolicy .default) lastDate 0 oneToken).run together).shared.log.map taken = [[0],[1]] ∧
      ((manager (underPolicy endless) lastDate 0 oneToken).run forgotten).shared.archive "token" = [] ∧
      ((manager (underPolicy endless) lastDate 0 oneToken).run forgotten).shared.log.map taken = [[0]] ∧
      ((manager (underPolicy endless) lastDate 0 oneToken).run forgotten).shared.now < Duration.MAX :=
  ⟨by decide,by decide,by decide,by decide,by decide,by decide,by decide⟩

/-- Two rotations one after the other. -/
theorem token_archived :
    let w := (manager (underPolicy .default) lastDate 0 oneToken).run
      (rotateToken .default :: List.replicate 5 (.act 0 (choice 1)) ++ rotateToken .default :: List.replicate 5 (.act 1 (choice 2)))
    (w.shared.archive "token").map GraceEntry.old_value = (w.shared.log.filter (heldOf "token")).map taken :=
  (grace_archive (underPolicy .default) lastDate 0 oneToken "token" _ (by decide)).1

end Daf.GraceArchive
