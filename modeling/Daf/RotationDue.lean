import Daf.SecretRotation

/-!
When a check rotates a secret. It reads the secret, tests its age and rotates it in steps of their own, and the
longest age that a policy allows is compared as a span of the calendar: what is due at the test is due when the
value is replaced as long as nothing else rotates the secret between the two and the age has such a span.
-/
namespace Daf.RotationDue
open Daf.GraphNodes Daf.KeyRing Daf.VaultSecrets Daf.Runs Daf.Interleaving Daf.SecretRotation
open Daf.Supervision (MAX_SPAN)

/-- Where a check replaced the value, its version was older than the policy allows. -/
def Due (r : Record) : Prop :=
  match r.fate with
  | .replaced old time (some policy) => (policy.max_age : Int) < time - written old
  | _ => True

instance : ∀ r : Record, Decidable (Due r)
  | ⟨_,_,_,_,_,.underway,_⟩ => isTrue trivial
  | ⟨_,_,_,_,_,.failed,_⟩ => isTrue trivial
  | ⟨_,_,_,_,_,.replaced _ _ none,_⟩ => isTrue trivial
  | ⟨_,_,_,_,_,.replaced old time (some policy),_⟩ => inferInstanceAs (Decidable ((policy.max_age : Int) < time - written old))

/-- A rotation within a check finds dates that the calendar has, and replaces the version that was tested. -/
def SteadyStage (registry : Registry) (latest : Int) (name : String) (tested : Secret Bytes) (s : State) : Stage → Prop
  | .archive _ => fits latest s (registry.grace name)
  | .store _ _ _ _ => (s.store name).all fun old => written old = written tested
  | .notify _ grace => fits latest s grace
  | _ => True

instance (registry : Registry) (latest : Int) (name : String) (tested : Secret Bytes) (s : State) :
    ∀ stage : Stage, Decidable (SteadyStage registry latest name tested s stage)
  | .get => isTrue trivial
  | .archive _ => inferInstanceAs (Decidable (fits latest s (registry.grace name)))
  | .generate _ _ _ => isTrue trivial
  | .store _ _ _ _ => inferInstanceAs (Decidable (_ = true))
  | .notify _ grace => inferInstanceAs (Decidable (fits latest s grace))

/-- The condition on the steps of a run: an age that is tested has a span, and rotations within checks are steady. -/
def Steady (registry : Registry) (latest : Int) (_ : Nat) (s : State) (t : Call) (c : Choice) : Prop :=
  match t with
  | .test _ policy _ _ _ => policy.max_age ≤ MAX_SPAN
  | .nested name _ tested stage _ _ => SteadyStage registry latest name tested (s.later c.elapsed) stage
  | _ => True

instance (registry : Registry) (latest : Int) (n : Nat) (s : State) (t : Call) (c : Choice) : Decidable (Steady registry latest n s t c) :=
  match t with
  | .test _ policy _ _ _ => inferInstanceAs (Decidable (policy.max_age ≤ MAX_SPAN))
  | .nested name _ tested stage _ _ => inferInstanceAs (Decidable (SteadyStage registry latest name tested (s.later c.elapsed) stage))
  | .rotate _ _ => isTrue trivial
  | .check _ _ => isTrue trivial
  | .done _ => isTrue trivial
  | .checked _ => isTrue trivial
  | .panicked => isTrue trivial

section
variable {registry : Registry} {latest : Int} {n : Nat} {name : String} {s s' : State} {c : Choice}

/-! ### Only what is due -/

/-- The test that a rotation within a check has passed still holds. -/
def Old (s : State) : Call → Prop
  | .nested _ policy tested _ _ _ => (policy.max_age : Int) < s.now - written tested
  | _ => True

theorem old_later {t : Call} (old : Old s t) (forward : s.now ≤ s'.now) : Old s' t := by
  cases t with
  | nested name policy tested =>
    have passed : (policy.max_age : Int) < s.now - written tested := old
    show (policy.max_age : Int) < s'.now - written tested
    omega
  | _ => trivial

theorem span_eq {d : Duration} (represented : d ≤ MAX_SPAN) : span d = d := if_pos represented

theorem due_modify {log : List Record} {id : Nat} {fate : Fate} (due : ∀ r ∈ log, Due r) (new : ∀ r : Record, Due { r with fate }) :
    ∀ r ∈ log.modify id fun r => { r with fate }, Due r := by
  intro r member
  rcases mem_modify member with before | ⟨before,-,rfl⟩
  · exact due r before
  · exact new before

/-- A step of a rotation keeps the records right if a value that it replaces within a check is due. -/
theorem Rotates.due {auto : Option RotationPolicy} {stage : Stage} {p : Progress} (rotates : Rotates registry latest n name auto s c stage s' p)
    (due : ∀ r ∈ s.log, Due r)
    (overdue : ∀ policy ∈ auto, ∀ current id grace new_value, stage = .store current id grace new_value →
      ∀ old, s.store name = some old → (policy.max_age : Int) < s.now - written old) : ∀ r ∈ s'.log, Due r := by
  have replaced : ∀ current id grace new_value old, stage = .store current id grace new_value → s.store name = some old →
      ∀ r : Record, Due { r with fate := .replaced old s.now auto } := by
    intro current id grace new_value old at_store found r
    cases auto with
    | none => trivial
    | some policy => exact overdue policy rfl current id grace new_value at_store old found
  cases rotates with
  | archives =>
    intro r member
    rcases List.mem_append.mp member with before | new
    · exact due r before
    · rw [List.mem_singleton.mp new]
      trivial
  | ungenerated | unstored => exact due_modify due fun _ => trivial
  | late current old id grace new_value e fails found => exact due_modify due (replaced current id grace new_value old rfl found)
  | replaces current old id grace new_value found => exact due_modify due (replaced current id grace new_value old rfl found)
  | _ => exact due

theorem overdue_of_steady {policy : RotationPolicy} {tested : Secret Bytes} {stage : Stage} (passed : (policy.max_age : Int) < s.now - written tested)
    (steady : SteadyStage registry latest name tested s stage) {current : Secret Bytes} {id : Nat} {grace : Duration} {new_value : Bytes}
    (at_store : stage = .store current id grace new_value) {old : Secret Bytes} (found : s.store name = some old) :
    (policy.max_age : Int) < s.now - written old := by
  subst at_store
  have same : written old = written tested := by
    simp only [SteadyStage,found,Option.all_some,decide_eq_true_eq] at steady
    exact steady
  rw [same]
  exact passed

theorem due_rule (now : Int) (store : String → Option (Secret Bytes)) :
    Rule (manager registry latest now store) (Steady registry latest) (fun s => ∀ r ∈ s.log, Due r) (fun _ s t => ∀ u ∈ t, Old s u) where
  initial := by
    constructor
    · intro r member
      cases member
    · intro n u there
      cases there
  enters := by
    rintro n s (name | order) - - u there <;> cases there <;> trivial
  shared := by
    intro n s t c due old steady
    have does := act_does registry latest n s t c
    have before : ∀ r ∈ (s.later c.elapsed).log, Due r := due
    have passed : Old (s.later c.elapsed) t := old_later (old t rfl) (later_now s c.elapsed)
    show ∀ r ∈ (act registry latest n s t c).1.log, Due r
    generalize act registry latest n s t c = out at does
    obtain ⟨s',t'⟩ := out
    cases does with
    | rotates name stage _ p rotates => exact Rotates.due rotates before fun policy none => absurd none (by simp)
    | nests name policy tested stage todo rotated _ p rotates =>
      refine Rotates.due rotates before fun policy' same current id grace new_value at_store old found => ?_
      cases same
      exact overdue_of_steady passed steady at_store found
    | purges =>
      intro r member
      obtain ⟨kept,there,rfl⟩ := List.mem_map.mp member
      have right := before kept there
      unfold Due at right ⊢
      rwa [passed_fate]
    | _ => exact before
  own := by
    intro n s t c _ old steady u there
    have does := act_does registry latest n s t c
    have passed : Old (s.later c.elapsed) t := old_later (old t rfl) (later_now s c.elapsed)
    cases there
    show Old (act registry latest n s t c).1 (act registry latest n s t c).2
    generalize act registry latest n s t c = out at does
    obtain ⟨s',t'⟩ := out
    cases does with
    | rotates name stage _ p => cases p <;> trivial
    | nests name policy tested stage todo rotated _ p rotates =>
      have same := rotates.now
      cases p with
      | next => exact old_later (t := .nested name policy tested stage todo rotated) passed same.ge
      | done result => cases result <;> trivial
      | panicked => trivial
    | older name policy secret todo rotated older =>
      show (policy.max_age : Int) < _
      rwa [span_eq steady] at older
    | rests t => exact passed
    | _ => trivial
  other := by
    intro n m s t u c _ _ _ theirs _ v there
    exact old_later (theirs v there) (act_now s t c)


/-! ### All that is due -/

/-- What a check meets about the secret: the version that it reads is due, and the calls of the store and of the generator succeed. -/
def Granted (n : Nat) (name : String) (m : Nat) (s : State) (t : Call) (c : Choice) : Prop :=
  m = n → match t with
    | .check ((other,policy) :: _) _ =>
      other = name → c.fails = none ∧ (s.store name).any fun secret => (policy.max_age : Int) < (s.later c.elapsed).now - written secret
    | .nested other _ _ _ _ _ => other = name → c.fails = none ∧ (s.store name).isSome
    | _ => True

instance (n : Nat) (name : String) (m : Nat) (s : State) (t : Call) (c : Choice) : Decidable (Granted n name m s t c) :=
  match t with
  | .check ((other,_) :: _) _ => inferInstanceAs (Decidable (m = n → other = name → c.fails = none ∧ _ = true))
  | .check [] _ => isTrue fun _ => trivial
  | .nested other _ _ _ _ _ => inferInstanceAs (Decidable (m = n → other = name → c.fails = none ∧ _ = true))
  | .test _ _ _ _ _ => isTrue fun _ => trivial
  | .rotate _ _ => isTrue fun _ => trivial
  | .done _ => isTrue fun _ => trivial
  | .checked _ => isTrue fun _ => trivial
  | .panicked => isTrue fun _ => trivial

/-- A check has the secret before it, or is at it, or has rotated it. -/
def Handled (name : String) (policy : RotationPolicy) (s : State) : Call → Prop
  | .check todo rotated => (name,policy) ∈ todo ∨ name ∈ rotated
  | .test other held secret todo rotated => (other = name ∧ (span held.max_age : Int) < s.now - written secret) ∨ (name,policy) ∈ todo ∨ name ∈ rotated
  | .nested other _ _ _ todo rotated => other = name ∨ (name,policy) ∈ todo ∨ name ∈ rotated
  | .checked rotated => name ∈ rotated
  | _ => False

/-- How many steps a call can still take. -/
def stageLeft : Stage → Nat
  | .get => 5
  | .archive _ => 4
  | .generate _ _ _ => 3
  | .store _ _ _ _ => 2
  | .notify _ _ => 1

def left : Call → Nat
  | .rotate _ stage => stageLeft stage
  | .check todo _ => 7 * todo.length + 1
  | .test _ _ _ todo _ => 7 * todo.length + 7
  | .nested _ _ _ stage todo _ => 7 * todo.length + 1 + stageLeft stage
  | .done _ | .checked _ | .panicked => 0

/-- The steps of the call in the run. -/
def stepsOf (n : Nat) (events : List (Event registry)) : Nat :=
  events.countP fun event => match event with
    | .act m _ => m = n
    | .call _ => false

theorem Rotates.left {auto : Option RotationPolicy} {stage stage' : Stage} (rotates : Rotates registry latest n name auto s c stage s' (.next stage')) :
    stageLeft stage' < stageLeft stage := by
  cases rotates <;> simp [stageLeft]

theorem Does.left {t t' : Call} (does : Does registry latest n s c t s' t') : left t' ≤ left t - 1 := by
  cases does with
  | rotates name stage _ p rotates =>
    cases p with
    | next stage' =>
      have less := Rotates.left rotates
      simp only [Progress.manual,RotationDue.left]
      omega
    | _ => exact Nat.zero_le _
  | nests name policy secret stage todo rotated _ p rotates =>
    have some_left : 0 < stageLeft stage := by cases stage <;> simp [stageLeft]
    cases p with
    | next stage' =>
      have less := Rotates.left rotates
      simp only [Progress.automatic,RotationDue.left]
      omega
    | done result => cases result <;> simp only [Progress.automatic,RotationDue.left] <;> omega
    | panicked => exact Nat.zero_le _
  | purges => exact Nat.zero_le _
  | skips | reads =>
    simp only [RotationDue.left,List.length_cons]
    omega
  | older | younger =>
    simp only [RotationDue.left,stageLeft]
    omega
  | rests t finished => cases t <;> first | exact Nat.zero_le _ | cases finished

theorem handled_later {t : Call} {policy : RotationPolicy} (handled : Handled name policy s t) (forward : s.now ≤ s'.now) : Handled name policy s' t := by
  cases t with
  | test other held secret todo rotated =>
    rcases handled with ⟨here,old⟩ | rest
    · exact .inl ⟨here,by omega⟩
    · exact .inr rest
  | _ => exact handled

/-- A rotation within a check whose calls succeed ends with the rotated secret. -/
theorem Rotates.succeeds {auto : Option RotationPolicy} {stage : Stage} {p : Progress} {tested : Secret Bytes}
    (rotates : Rotates registry latest n name auto s c stage s' p) (listed : name ∈ registry.generators)
    (steady : SteadyStage registry latest name tested s stage) (works : c.fails = none) (found : (s.store name).isSome) :
    (∃ stage', p = .next stage') ∨ ∃ new_ref, p = .done (.ok new_ref) := by
  cases rotates with
  | refused e why =>
    rcases why with fails | missing | unlisted
    · exact absurd works fails
    · simp [missing] at found
    · exact absurd listed unlisted
  | unarchived current beyond => exact absurd steady beyond
  | ungenerated current id grace e fails => exact absurd works fails
  | unstored current id grace new_value e why =>
    rcases why with fails | missing
    · exact absurd works fails
    · simp [missing] at found
  | late current old id grace new_value e fails => exact absurd works fails
  | notifies new_ref grace => exact .inr ⟨new_ref,rfl⟩
  | unnotified new_ref grace beyond => exact absurd steady beyond
  | _ => exact .inl ⟨_,rfl⟩

/-- A rotation within a check that meets the condition does not panic. -/
theorem Rotates.calm {auto : Option RotationPolicy} {stage : Stage} {tested : Secret Bytes} (steady : SteadyStage registry latest name tested s stage) :
    ¬ Rotates registry latest n name auto s c stage s' .panicked := by
  intro rotates
  cases rotates with
  | unarchived _ beyond => exact beyond steady
  | unnotified _ _ beyond => exact beyond steady

theorem handled_act {t : Call} {policy : RotationPolicy} (auto : policy.auto_rotate = true) (listed : name ∈ registry.generators)
    (handled : Handled name policy s t) (steady : Steady registry latest n s t c) (granted : Granted n name n s t c) :
    Handled name policy (act registry latest n s t c).1 (act registry latest n s t c).2 := by
  have does := act_does registry latest n s t c
  have met := granted rfl
  have later : Handled name policy (s.later c.elapsed) t := handled_later handled (later_now s c.elapsed)
  generalize act registry latest n s t c = out at does
  obtain ⟨s',t'⟩ := out
  cases does with
  | rotates => cases handled
  | purges rotated =>
    rcases handled with none | here
    · cases none
    · exact here
  | skips other held todo rotated why =>
    rcases handled with ahead | behind
    · rcases List.mem_cons.mp ahead with same | rest
      · obtain ⟨rfl,rfl⟩ := Prod.mk.inj same
        obtain ⟨works,found⟩ := met rfl
        rcases why with off | fails | missing
        · rw [auto] at off
          cases off
        · exact absurd works fails
        · rw [show s.store name = none from missing] at found
          cases found
      · exact .inl rest
    · exact .inr behind
  | reads other held todo rotated secret found =>
    by_cases here : other = name
    · subst here
      obtain ⟨-,due⟩ := met rfl
      rw [show s.store other = some secret from found,Option.any_some,decide_eq_true_eq] at due
      refine .inl ⟨rfl,?_⟩
      have less : (span held.max_age : Int) ≤ held.max_age := by
        unfold span
        split_ifs
        · exact le_rfl
        · exact Int.natCast_nonneg _
      exact less.trans_lt due
    · rcases handled with ahead | behind
      · rcases List.mem_cons.mp ahead with same | rest
        · exact absurd (Prod.mk.inj same).1.symm here
        · exact .inr (.inl rest)
      · exact .inr (.inr behind)
  | older other held secret todo rotated => exact handled.imp And.left id
  | younger other held secret todo rotated younger =>
    rcases later with ⟨-,old⟩ | rest
    · exact absurd old (by omega)
    · exact rest
  | nests other held tested stage todo rotated _ p rotates =>
    by_cases here : other = name
    · subst here
      obtain ⟨works,found⟩ := met rfl
      rcases Rotates.succeeds rotates listed steady works found with ⟨stage',rfl⟩ | ⟨new_ref,rfl⟩
      · exact .inl rfl
      · exact .inr (List.mem_append_right _ List.mem_cons_self)
    · have rest := handled.resolve_left here
      cases p with
      | next => exact .inr rest
      | done result =>
        cases result with
        | ok => exact rest.imp id (List.mem_append_left _)
        | error => exact rest
      | panicked => exact absurd rotates (Rotates.calm steady)
  | rests t finished => exact handled_later (s := s) handled (later_now s c.elapsed)


/-- A check that meets its conditions, and has taken all of its steps, has rotated the secret. -/
theorem handled_run {now : Int} {store : String → Option (Secret Bytes)} {policy : RotationPolicy} (auto : policy.auto_rotate = true)
    (listed : name ∈ registry.generators) {events : List (Event registry)} {w : World State Call} {t : Call} (there : w.calls[n]? = some t)
    (handled : Handled name policy w.shared t)
    (met : Every (manager registry latest now store).step (fun w event => Meets (Steady registry latest) w event ∧ Meets (Granted n name) w event) w events) :
    ∃ t', (Runs.run (manager registry latest now store).step w events).calls[n]? = some t' ∧
      Handled name policy (Runs.run (manager registry latest now store).step w events).shared t' ∧ left t' ≤ left t - stepsOf n events := by
  induction events generalizing w t with
  | nil => exact ⟨t,there,handled,Nat.le_refl _⟩
  | cons event events ih =>
    obtain ⟨⟨steady,granted⟩,rest⟩ := met
    cases event with
    | call request =>
      have inside := (List.getElem?_eq_some_iff.mp there).1
      have still : ((manager registry latest now store).step w (.call request)).calls[n]? = some t := by
        show (w.calls ++ [enter request])[n]? = some t
        rwa [List.getElem?_append_left inside]
      exact ih still handled rest
    | act m choice =>
      by_cases mine : m = n
      · subst mine
        have moved : ((manager registry latest now store).step w (.act m choice)).calls[m]? = some (act registry latest m w.shared t choice).2 := own_act there choice
        have after : ((manager registry latest now store).step w (.act m choice)).shared = (act registry latest m w.shared t choice).1 := by
          rw [step_act there]
          rfl
        have kept := handled_act auto listed handled (steady t there) (granted t there)
        obtain ⟨t',found,handled',fewer⟩ := ih moved (after ▸ kept) rest
        have less := Does.left (act_does registry latest m w.shared t choice)
        refine ⟨t',found,handled',?_⟩
        have counted : stepsOf m (.act m choice :: events) = stepsOf m events + 1 := by simp [stepsOf]
        omega
      · have still : ((manager registry latest now store).step w (.act m choice)).calls[n]? = some t := by rw [other_act mine,there]
        have forward : w.shared.now ≤ ((manager registry latest now store).step w (.act m choice)).shared.now := by
          cases theirs : w.calls[m]? with
          | none => rw [step_absent theirs]
          | some u =>
            rw [step_act theirs]
            exact act_now w.shared u choice
        obtain ⟨t',found,handled',fewer⟩ := ih still (handled_later handled forward) rest
        have counted : stepsOf n (.act m choice :: events) = stepsOf n events := by simp [stepsOf,mine]
        exact ⟨t',found,handled',counted ▸ fewer⟩

/-! ### What a check returns -/

/-- A rotation of the call has replaced the value of the secret. -/
def Replaced (n : Nat) (name : String) (s : State) : Prop :=
  ∃ (id : Nat) (r : Record), s.log[id]? = some r ∧ r.call = n ∧ r.name = name ∧ ∃ old time auto, r.fate = .replaced old time auto

def StageRecorded (n : Nat) (name : String) (s : State) : Stage → Prop
  | .notify _ _ => Replaced n name s
  | _ => True

def ProgressRecorded (n : Nat) (name : String) (s : State) : Progress → Prop
  | .next stage => StageRecorded n name s stage
  | .done (.ok _) => Replaced n name s
  | _ => True

/-- Every secret that a check has as rotated was replaced by it. -/
def Recorded (n : Nat) (s : State) : Call → Prop
  | .check _ rotated | .test _ _ _ _ rotated | .checked rotated => ∀ name ∈ rotated, Replaced n name s
  | .nested name _ _ stage _ rotated => StageRecorded n name s stage ∧ ∀ name ∈ rotated, Replaced n name s
  | _ => True

theorem Replaced.records {m : Nat} (replaced : Replaced n name s) (records : Records m s s') : Replaced n name s' := by
  obtain ⟨id,r,found,call,here,old,time,auto,fate⟩ := replaced
  have ended : r.fate ≠ .underway := by
    rw [fate]
    exact fun same => by cases same
  rcases records.keep found (.inr ended) with kept | marked
  · exact ⟨id,r,kept,call,here,old,time,auto,fate⟩
  · exact ⟨id,r.passed s.now,marked,(passed_call _ r).trans call,(passed_name _ r).trans here,old,time,auto,(passed_fate _ r).trans fate⟩

theorem Rotates.recorded {auto : Option RotationPolicy} {stage : Stage} {p : Progress} (rotates : Rotates registry latest n name auto s c stage s' p)
    (linked : stage.Linked n name s) (recorded : StageRecorded n name s stage) : ProgressRecorded n name s' p := by
  cases rotates with
  | replaces current old id grace new_value =>
    obtain ⟨r,found,opened⟩ := linked
    refine ⟨id,{ r with fate := .replaced old s.now auto },?_,opened.call,opened.name,old,s.now,auto,rfl⟩
    show (s.log.modify id _)[id]? = _
    rw [List.getElem?_modify_eq,found]
    rfl
  | notifies => exact recorded
  | _ => trivial

theorem recorded_own {t t' : Call} (does : Does registry latest n s c t s' t') (linked : t.Linked n s) (recorded : Recorded n s t) : Recorded n s' t' := by
  have records := does.records linked
  cases does with
  | rotates name stage _ p => cases p <;> trivial
  | nests name policy tested stage todo rotated _ p rotates =>
    obtain ⟨at_stage,behind⟩ := recorded
    have progress := Rotates.recorded rotates linked at_stage
    have kept : ∀ other ∈ rotated, Replaced n other s' := fun other member => (behind other member).records records
    cases p with
    | next => exact ⟨progress,kept⟩
    | done result =>
      cases result with
      | ok =>
        intro other member
        rcases List.mem_append.mp member with before | new
        · exact kept other before
        · rw [List.mem_singleton.mp new]
          exact progress
      | error => exact kept
    | panicked => trivial
  | purges => exact fun other member => (recorded other member).records records
  | older => exact ⟨trivial,recorded⟩
  | _ => exact recorded

theorem recorded_other {m : Nat} {t : Call} (recorded : Recorded n s t) (records : Records m s s') : Recorded n s' t := by
  cases t with
  | check | test | checked => exact fun other member => (recorded other member).records records
  | nested name policy tested stage =>
    refine ⟨?_,fun other member => (recorded.2 other member).records records⟩
    cases stage with
    | notify => exact Replaced.records recorded.1 records
    | _ => trivial
  | _ => trivial

theorem recorded_rule (now : Int) (store : String → Option (Secret Bytes)) :
    Rule (manager registry latest now store) (fun _ _ _ _ => True) State.Timed
      (fun n s t => (∀ u ∈ t, u.Linked n s) ∧ ∀ u ∈ t, Recorded n s u) where
  initial := by
    have base := (linked_rule registry latest now store).initial
    refine ⟨base.1,fun n => ⟨base.2 n,fun u there => ?_⟩⟩
    cases there
  enters := by
    intro n s request timed before
    refine ⟨(linked_rule registry latest now store).enters n s request timed before.1,fun u there => ?_⟩
    cases there
    cases request with
    | rotate_secret => trivial
    | check_and_rotate => exact fun name none => absurd none List.not_mem_nil
  shared n s t c timed both _ := (linked_rule registry latest now store).shared n s t c timed both.1 trivial
  own := by
    intro n s t c timed both _
    obtain ⟨linked,recorded⟩ := both
    refine ⟨(linked_rule registry latest now store).own n s t c timed linked trivial,fun u there => ?_⟩
    cases there
    have before : Recorded n (s.later c.elapsed) t := recorded_other (m := n) (recorded t rfl) (.same rfl)
    exact recorded_own (act_does registry latest n s t c) ((linked t rfl).later c.elapsed) before
  other := by
    intro n m s t u c differ timed both theirs _
    obtain ⟨linked,recorded⟩ := theirs
    refine ⟨(linked_rule registry latest now store).other n m s t u c differ timed both.1 linked trivial,fun v there => ?_⟩
    have before : Recorded m (s.later c.elapsed) v := recorded_other (m := n) (recorded v there) (.same rfl)
    exact recorded_other before (act_records (both.1 t rfl))


end

/-! ### Whole runs -/

/-- Where the ages that are tested have a span, no other rotation comes between a test and the replacement, and the dates of rotations
    within checks are in the range: a check replaces a value only if it is due at that time, and a check that finds a secret due whose
    calls succeed rotates it, within seven steps for each policy and one. -/
theorem automatic_rotation (registry : Registry) (latest now : Int) (store : String → Option (Secret Bytes)) (events : List (Event registry))
    (steady : Every (manager registry latest now store).step (Meets (Steady registry latest)) (manager registry latest now store).start events) :
    (∀ r ∈ ((manager registry latest now store).run events).shared.log, Due r) ∧
      ∀ before order after name policy, events = before ++ .call (.check_and_rotate order) :: after → (name,policy) ∈ registry.policies →
        policy.auto_rotate = true →
        let n := ((manager registry latest now store).run before).calls.length
        Every (manager registry latest now store).step (Meets (Granted n name)) (manager registry latest now store).start events →
        7 * registry.policies.length + 1 ≤ stepsOf n after →
        ∃ rotated, ((manager registry latest now store).run events).calls[n]? = some (.checked rotated) ∧ name ∈ rotated ∧
          Replaced n name ((manager registry latest now store).run events).shared := by
  have due := ((due_rule now store).run steady).shared
  refine ⟨due,fun before order after name policy split listed auto => ?_⟩
  intro n granted enough
  subst split
  have both := (every_append.mp (steady.and granted)).2.2
  have entered : ((manager registry latest now store).step ((manager registry latest now store).run before) (.call (.check_and_rotate order))).calls[n]? =
      some (.check order.1 []) := List.getElem?_concat_length
  have handled : Handled name policy
      ((manager registry latest now store).step ((manager registry latest now store).run before) (.call (.check_and_rotate order))).shared
      (.check order.1 []) := .inl (order.2.mem_iff.mpr listed)
  obtain ⟨t,found,done,fewer⟩ := handled_run auto (registry.generated _ listed) entered handled both
  have whole : (manager registry latest now store).run (before ++ .call (.check_and_rotate order) :: after) =
      Runs.run (manager registry latest now store).step
        ((manager registry latest now store).step ((manager registry latest now store).run before) (.call (.check_and_rotate order))) after :=
    run_append before _
  rw [← whole] at found done
  have size : order.1.length = registry.policies.length := order.2.length_eq
  have none_left : left t = 0 := by
    have start : left (.check order.1 []) = 7 * registry.policies.length + 1 := by rw [← size]; rfl
    omega
  cases t with
  | checked rotated =>
    have recorded := (((recorded_rule now store).always (fun _ _ _ _ => trivial) (before ++ .call (.check_and_rotate order) :: after)).call found).2 _ rfl
    exact ⟨rotated,found,done,recorded name done⟩
  | check | test | nested => simp [left] at none_left
  | _ => cases done

/-! ### One secret -/

/-- A key that was written at the start of time. -/
def key : Secret Bytes := .new ⟨0⟩ 0 "key" .ApiKey [1]

def oneKey (name : String) : Option (Secret Bytes) := if name = "key" then some key else none

def underPolicy (policy : RotationPolicy) : Registry := Registry.new.register "key" policy

def checkKey (policy : RotationPolicy) : Event (underPolicy policy) := .call (.check_and_rotate ⟨[("key",policy)],.refl _⟩)

def works : Choice := ⟨1,none,false,[2]⟩

def thirtyDays : Nat := 30 * 24 * 3600 * 1000000000

/-- A check of the key after its thirty days. -/
def checked (policy : RotationPolicy) : List (Event (underPolicy policy)) := checkKey policy :: List.replicate 8 (.act 0 works)

/-- A manual rotation between the test of the key and its replacement by a check. -/
def between (policy : RotationPolicy) : List (Event (underPolicy policy)) :=
  checkKey policy :: .call (.rotate_secret "key") :: (List.replicate 2 (.act 0 works) ++ List.replicate 5 (.act 1 works) ++ List.replicate 6 (.act 0 works))

def longGrace : RotationPolicy := RotationPolicy.default.with_grace_period (Duration.from_secs (300000 * 365 * 24 * 3600))

/-- A key is rotated by a check one step behind a manual rotation, and at once under a policy with the longest age there is; and
    a grace period of 300000 years makes the check of a key that is due panic. -/
theorem fresh_rotated :
    (¬ ∀ r ∈ ((manager (underPolicy .default) lastDate thirtyDays oneKey).run (between .default)).shared.log, Due r) ∧
      (¬ ∀ r ∈ ((manager (underPolicy (.new Duration.MAX)) lastDate 0 oneKey).run (checked (.new Duration.MAX))).shared.log, Due r) ∧
      Every (manager (underPolicy longGrace) lastDate thirtyDays oneKey).step (Meets (Granted 0 "key"))
        (manager (underPolicy longGrace) lastDate thirtyDays oneKey).start (checked longGrace) ∧
      ((manager (underPolicy longGrace) lastDate thirtyDays oneKey).run (checked longGrace)).shared.log.length = 0 ∧
      ((manager (underPolicy longGrace) lastDate thirtyDays oneKey).run (checked longGrace)).calls.map left = [0] :=
  ⟨by decide,by decide,by decide,by decide,by decide⟩

/-- Nothing else happens during the check. -/
theorem key_rotated :
    ∃ rotated, ((manager (underPolicy .default) lastDate thirtyDays oneKey).run (checked .default)).calls[0]? = some (.checked rotated) ∧ "key" ∈ rotated ∧
      Replaced 0 "key" ((manager (underPolicy .default) lastDate thirtyDays oneKey).run (checked .default)).shared :=
  (automatic_rotation (underPolicy .default) lastDate thirtyDays oneKey (checked .default) (by decide)).2
    [] ⟨[("key",.default)],.refl _⟩ _ "key" .default rfl List.mem_cons_self rfl (by decide) (by decide)

end Daf.RotationDue
