import Daf.MissionWorker
import Daf.ReviewState

/-!
Reviews over any sequence of invocations, each of which may be killed: every state file
is resumed, no role exceeds its budget of provider calls, none is called after its success
was saved, and unknown outcomes stop the calls unless a retry is allowed.
-/
namespace Daf.ReviewSafety
open Daf.Json Daf.ReviewOutput Daf.MissionPlan Daf.MissionRun Daf.MissionWorker Daf.Interrupted Daf.ReviewRun Daf.ReviewState

/-! ### The log -/

/-- The state file after some events. -/
def afterEvent (disk : Option State) : ReviewRun.Event → Option State
  | .saved s => some s
  | .called _ => disk

def lastSaved (log : List ReviewRun.Event) : Option State := log.foldl afterEvent none

def isCall (role : String) : ReviewRun.Event → Bool
  | .saved _ => false
  | .called other => other == role

def callsFor (role : String) (log : List ReviewRun.Event) : Nat := log.countP (isCall role)

/-- The attempts of a role in the state file. -/
def recorded (disk : Option State) (role : String) : Nat := (disk.map (fun s => countRole s.report.attempts role)).getD 0

/-- A call for a role is made only before a success of the role was saved and, unless
    retries are allowed, while the state file has no unknown outcome. -/
def CallOk (setup : Setup) (before : List ReviewRun.Event) (role : String) : Prop :=
  (∀ s, .saved s ∈ before → s.hasOutput role = false) ∧
  (setup.allow_unknown_retry = false → ∀ s, lastSaved before = some s → s.unknownOutcome = false)

structure LogOk (setup : Setup) (w : World) : Prop where
  saved : ∀ s, .saved s ∈ w.log → Sound setup s ∧ setup.encodedLen s ≤ 4194303
  last : lastSaved w.log = w.disk
  kept : ∀ s, .saved s ∈ w.log → ∃ d, w.disk = some d ∧ ∀ role, s.hasOutput role = true → d.hasOutput role = true
  budget : ∀ role, callsFor role w.log ≤ recorded w.disk role
  calls : ∀ before role later, w.log = before ++ .called role :: later → CallOk setup before role

section
variable {setup : Setup} {w : World}

theorem lastSaved_mem {log : List ReviewRun.Event} {s : State} (last : lastSaved log = some s) : .saved s ∈ log := by
  induction log using List.reverseRecOn with
  | nil => cases last
  | append_singleton log event ih =>
    rw [lastSaved,List.foldl_append] at last
    cases event with
    | saved t =>
      cases last
      simp
    | called role => exact List.mem_append_left _ (ih last)

theorem LogOk.disk_saved (ok : LogOk setup w) {d : State} (found : w.disk = some d) : Sound setup d ∧ setup.encodedLen d ≤ 4194303 :=
  ok.saved d (lastSaved_mem (ok.last.trans found))

theorem countRole_le {max_retries : Nat} {attempts : List Attempt} (seq : Sequenced max_retries attempts) (role : String) :
    countRole attempts role ≤ max_retries + 1 := by
  induction attempts using List.reverseRecOn with
  | nil => exact Nat.zero_le _
  | append_singleton attempts a ih =>
    obtain ⟨before,fits⟩ := sequenced_concat.mp seq
    rw [countRole_concat]
    split_ifs with same
    · rw [← same,← fits.number]
      exact fits.budget
    · exact ih before

theorem logOk_empty : LogOk setup (.empty setup) where
  saved s member := absurd member List.not_mem_nil
  last := rfl
  kept s member := absurd member List.not_mem_nil
  budget role := le_rfl
  calls before role later same := by simp [World.empty] at same

/-- A call in a longer log was there before, or is the last event. -/
theorem calls_concat {log : List ReviewRun.Event} {event : ReviewRun.Event}
    (old : ∀ before role later, log = before ++ .called role :: later → CallOk setup before role)
    (new : ∀ role, event = .called role → CallOk setup log role) :
    ∀ before role later, log ++ [event] = before ++ .called role :: later → CallOk setup before role := by
  intro before role later same
  rcases List.eq_nil_or_concat later with rfl | ⟨rest,last,rfl⟩
  · obtain ⟨rfl,single⟩ := List.append_inj' same rfl
    exact new role (List.singleton_inj.mp single)
  · rw [List.concat_eq_append,← List.cons_append,← List.append_assoc] at same
    exact old before role rest (List.append_inj' same rfl).1

theorem LogOk.persist (ok : LogOk setup w) (sound : Sound setup w.memory) (size : setup.encodedLen w.memory ≤ 4194303)
    (extend : ∀ d, w.disk = some d → Extends d w.memory) :
    LogOk setup { w with disk := some w.memory, log := w.log ++ [.saved w.memory] } where
  saved s member := by
    rcases List.mem_append.mp member with old | new
    · exact ok.saved s old
    · cases List.mem_singleton.mp new
      exact ⟨sound,size⟩
  last := by simp [lastSaved,afterEvent]
  kept s member := by
    refine ⟨w.memory,rfl,fun role has => ?_⟩
    rcases List.mem_append.mp member with old | new
    · obtain ⟨d,found,outputs⟩ := ok.kept s old
      exact (extend d found).outputs role (outputs role has)
    · cases List.mem_singleton.mp new
      exact has
  budget role := by
    have before := ok.budget role
    have same : callsFor role (w.log ++ [Event.saved w.memory]) = callsFor role w.log := by simp [callsFor,isCall]
    show callsFor role (w.log ++ [Event.saved w.memory]) ≤ countRole w.memory.report.attempts role
    rw [same]
    cases found : w.disk with
    | none =>
      rw [found] at before
      exact before.trans (Nat.zero_le _)
    | some d =>
      rw [found] at before
      exact before.trans ((extend d found).attempts role)
  calls := calls_concat ok.calls (fun role same => by cases same)

theorem LogOk.call (ok : LogOk setup w) {role : String} (absent : ∀ d, w.disk = some d → d.hasOutput role = false)
    (settled : setup.allow_unknown_retry = false → ∀ d, w.disk = some d → d.unknownOutcome = false)
    (room : callsFor role w.log + 1 ≤ recorded w.disk role) : LogOk setup { w with log := w.log ++ [.called role] } where
  saved s member := by
    rcases List.mem_append.mp member with old | new
    · exact ok.saved s old
    · cases List.mem_singleton.mp new
  last := by
    show (w.log ++ [ReviewRun.Event.called role]).foldl afterEvent none = w.disk
    rw [List.foldl_append]
    exact ok.last
  kept s member := by
    rcases List.mem_append.mp member with old | new
    · exact ok.kept s old
    · cases List.mem_singleton.mp new
  budget other := by
    show callsFor other (w.log ++ [Event.called role]) ≤ recorded w.disk other
    have before := ok.budget other
    by_cases same : role = other
    · subst same
      simpa [callsFor,isCall] using room
    · simpa [callsFor,isCall,same] using before
  calls := by
    refine calls_concat ok.calls (fun other same => ?_)
    cases same
    refine ⟨fun s member => ?_,fun strict s last => settled strict s (ok.last.symm.trans last)⟩
    obtain ⟨d,found,outputs⟩ := ok.kept s member
    by_contra has
    rw [Bool.not_eq_false] at has
    have wrong := outputs role has
    rw [absent d found] at wrong
    cases wrong

/-! ### The state in memory -/

/-- The state that the workers share may be saved. -/
structure Working (setup : Setup) (w : World) : Prop where
  log : LogOk setup w
  sound : Sound setup w.memory
  extend : ∀ d, w.disk = some d → Extends d w.memory

/-- Between two workers: the state is saved, and no unknown outcome stands in the way. -/
structure Ready (setup : Setup) (w : World) : Prop where
  working : Working setup w
  saved : w.disk = some w.memory
  settled : setup.allow_unknown_retry = false → w.memory.unknownOutcome = false

/-- A change of the state in memory. -/
theorem Working.update (working : Working setup w) {m : State} (sound : Sound setup m) (extend : Extends w.memory m) :
    Working setup { w with memory := m } :=
  ⟨{ working.log with },sound,fun d found => (working.extend d found).trans extend⟩

/-- The world after the state in memory was saved. -/
structure SavedFrom (setup : Setup) (P : World → Prop) (w : World) : Prop where
  working : Working setup w
  saved : w.disk = some w.memory
  before : ∃ tick old, P { w with disk := old, log := w.log.dropLast, tick } ∧ w.log = w.log.dropLast ++ [.saved w.memory]

theorem save_spec (env : ReviewRun.Env) {P : World → Prop} (pre : ∀ w, P w → Working setup w) :
    Triple P (save setup env) (fun r w => LogOk setup w ∧ (r = .ok () → SavedFrom setup P w)) (LogOk setup) := by
  refine triple_bind (R := fun a w => P w ∧ a = w) (triple_get (fun w before => ⟨before,rfl⟩)) (fun now => ?_)
  refine triple_ite (fun _ => triple_pure (fun w before => ⟨(pre w before.1).log,fun wrong => by cases wrong⟩)) (fun small => ?_)
  refine triple_bind (R := fun _ w => ∃ tick, P { w with tick } ∧ setup.encodedLen w.memory ≤ 4194303)
    (triple_of_eq (fun w => rfl) ?_) (fun fault => ?_)
  · rintro w ⟨before,rfl⟩
    exact ⟨now.tick,before,Nat.le_of_not_lt small⟩
  have dropped : ∀ w : World, (∃ tick, P { w with tick } ∧ setup.encodedLen w.memory ≤ 4194303) → LogOk setup w := by
    rintro w ⟨tick,before,_⟩
    exact { (pre _ before).log with }
  have written : ∀ w : World, (∃ tick, P { w with tick } ∧ setup.encodedLen w.memory ≤ 4194303) →
      SavedFrom setup P { w with disk := some w.memory, log := w.log ++ [.saved w.memory] } := by
    rintro w ⟨tick,before,size⟩
    have working := pre _ before
    have log := working.log.persist working.sound size working.extend
    refine ⟨⟨{ log with },working.sound,fun d found => ?_⟩,rfl,tick,w.disk,?_,?_⟩
    · cases found
      exact Extends.refl _
    · simpa using before
    · simp
  have persisted : Triple (fun w => ∃ tick, P { w with tick } ∧ setup.encodedLen w.memory ≤ 4194303) persist
      (fun _ => SavedFrom setup P) (LogOk setup) := triple_modify written
  cases fault with
  | none => exact triple_bind persisted (fun _ => triple_pure (fun w after => ⟨after.working.log,fun _ => after⟩))
  | failedBefore e => exact triple_pure (fun w before => ⟨dropped w before,fun wrong => by cases wrong⟩)
  | killedBefore => exact triple_failure dropped
  | failedAfter e => exact triple_bind persisted (fun _ => triple_pure (fun w after => ⟨after.working.log,fun wrong => by cases wrong⟩))
  | killedAfter => exact triple_bind persisted (fun _ => triple_failure (fun w after => after.working.log))

/-! ### One role -/

/-- A worker is in an attempt of its role. -/
structure Attempting (setup : Setup) (role : String) (init : List Attempt) (w : World) : Prop where
  working : Working setup w
  settled : setup.allow_unknown_retry = false → w.memory.unknownOutcome = false
  absent : w.memory.hasOutput role = false
  running : ∃ a, w.memory.report.attempts = init ++ [a] ∧ a.role = role ∧ a.status = "running"

/-- What the worker of a role leaves: the log is right, and after a success the next worker may start. -/
def Left (setup : Setup) (r : Ended) (w : World) : Prop := LogOk setup w ∧ (r = some (.ok ()) → Ready setup w)

variable {env : ReviewRun.Env} {role : String} {init : List Attempt}

theorem left_of_log {r : Ended} (failed : r ≠ some (.ok ())) (w : World) (ok : LogOk setup w) : Left setup r w :=
  ⟨ok,fun wrong => absurd wrong failed⟩

theorem recordSuccess_spec (known : role ∈ ROLES) {findings again : List Finding}
    (valid : validate_output setup.texts (outputOf findings) setup.files = .ok again) :
    Triple (Attempting setup role init) (recordSuccess setup env role init.length findings) (Left setup) (LogOk setup) := by
  refine triple_bind (R := fun _ w => Working setup w ∧ (setup.allow_unknown_retry = false → w.memory.unknownOutcome = false))
    (triple_modify (fun w now => ?_)) (fun _ => ?_)
  · obtain ⟨a,last,own,running⟩ := now.running
    have unfinished : a.status ≠ "succeeded" := by simp [running]
    refine ⟨now.working.update (now.working.sound.succeed known now.absent last own unfinished valid)
      (extends_succeed findings now.absent last),fun strict => ?_⟩
    exact unknownOutcome_change (now.settled strict) last (succeed_attempts role findings last) (by simp)
      (extends_succeed findings now.absent last).outputs
  · refine triple_bind (save_spec env (fun w now => now.1)) (fun result => triple_pure (fun w after => ⟨after.1,fun well => ?_⟩))
    obtain ⟨working,saved,tick,old,⟨_,settled⟩,_⟩ := after.2 (Option.some.inj well)
    exact ⟨working,saved,settled⟩

/-- After an error the worker goes on in a state that is ready, or ends. -/
theorem recordFailure_spec {status error : String} (known : status ∈ STATUSES) (failed : status ≠ "succeeded") {next : Prog World Ended}
    (goOn : Triple (fun w => Ready setup w ∧ w.memory.hasOutput role = false) next (Left setup) (LogOk setup)) :
    Triple (Attempting setup role init) (recordFailure setup env init.length status error next) (Left setup) (LogOk setup) := by
  refine triple_bind (R := fun _ w => Working setup w ∧ w.memory.hasOutput role = false ∧
    (status ≠ "interrupted" → setup.allow_unknown_retry = false → w.memory.unknownOutcome = false))
    (triple_modify (fun w now => ?_)) (fun _ => ?_)
  · obtain ⟨a,last,own,running⟩ := now.running
    have unfinished : a.status ≠ "succeeded" := by simp [running]
    refine ⟨now.working.update (now.working.sound.onAttempt last unfinished rfl rfl known failed) (extends_onAttempt last rfl),
      now.absent,fun clear strict => ?_⟩
    exact unknownOutcome_change (now.settled strict) last (onAttempt_attempts last _) clear (fun _ has => has)
  · refine triple_bind (save_spec env (fun w now => now.1)) (fun result => ?_)
    cases result with
    | error e => exact triple_pure (fun w after => left_of_log (by simp) w after.1)
    | ok _ =>
      refine triple_ite (fun _ => triple_pure (fun w after => left_of_log (by simp) w after.1)) (fun clear => ?_)
      refine goOn.weaken (fun w after => ?_) (fun _ _ left => left) (fun _ left => left)
      obtain ⟨working,saved,tick,old,⟨_,absent,settled⟩,_⟩ := after.2 rfl
      exact ⟨⟨working,saved,settled clear⟩,absent⟩

theorem judge_status {response : ProviderAttempt} {status error : String} (failed : judge setup response = .error (status,error)) :
    status ∈ STATUSES ∧ status ≠ "succeeded" := by
  unfold judge at failed
  split at failed
  · cases failed
    split_ifs <;> decide
  · split at failed
    · split at failed
      · cases failed
      · cases failed
        decide
    · cases failed
      decide

theorem judge_findings {response : ProviderAttempt} {findings : List Finding} (judged : judge setup response = .ok findings) :
    ∃ again, validate_output setup.texts (outputOf findings) setup.files = .ok again := by
  unfold judge at judged
  split at judged
  · cases judged
  · split at judged
    · split at judged
      · rename_i valid
        cases judged
        exact validate_again valid
      · cases judged
    · cases judged

/-- A new attempt of the role is saved, and the provider is called next. -/
structure Calling (setup : Setup) (role : String) (init : List Attempt) (w : World) : Prop where
  attempting : Attempting setup role init w
  saved : w.disk = some w.memory
  room : callsFor role w.log + 1 ≤ countRole w.memory.report.attempts role

theorem attempt_spec (known : role ∈ ROLES) {next : Prog World Ended}
    (goOn : Triple (fun w => Ready setup w ∧ w.memory.hasOutput role = false) next (Left setup) (LogOk setup)) :
    Triple (Calling setup role init) (attempt setup env role init.length next) (Left setup) (LogOk setup) := by
  refine triple_bind (R := fun _ => Attempting setup role init) (triple_modify (fun w now => ?_)) (fun _ => ?_)
  · obtain ⟨⟨working,settled,absent,running⟩,saved,room⟩ := now
    have onDisk : ∀ d, w.disk = some d → d = w.memory := fun d found => (Option.some.inj (saved.symm.trans found)).symm
    have called : LogOk setup { w with log := w.log ++ [.called role] } := working.log.call (fun d found => by rw [onDisk d found]; exact absent)
      (fun strict d found => by rw [onDisk d found]; exact settled strict) (by rw [saved]; exact room)
    exact ⟨⟨called,working.sound,working.extend⟩,settled,absent,running⟩
  refine triple_bind (R := fun _ => Attempting setup role init) (triple_of_eq (fun w => rfl) (fun w now => ?_)) (fun reply => ?_)
  · exact ⟨⟨{ now.working.log with },now.working.sound,now.working.extend⟩,now.settled,now.absent,now.running⟩
  cases reply with
  | killed => exact triple_failure (fun w now => now.working.log)
  | dropped => exact triple_pure (fun w now => left_of_log (by simp) w now.working.log)
  | timedOut => exact recordFailure_spec (by decide) (by decide) goOn
  | answered response =>
    refine triple_bind (R := fun _ => Attempting setup role init) (triple_modify (fun w now => ?_)) (fun _ => ?_)
    · -- The receipt changes nothing that is checked.
      obtain ⟨a,last,own,running⟩ := now.running
      have unfinished : a.status ≠ "succeeded" := by simp [running]
      have status : a.status ∈ STATUSES := by simp [running,STATUSES]
      refine ⟨now.working.update (now.working.sound.onAttempt last unfinished rfl rfl status unfinished) (extends_onAttempt last rfl),
        fun strict => ?_,now.absent,_,onAttempt_attempts last _,own,running⟩
      exact unknownOutcome_change (now.settled strict) last (onAttempt_attempts last _) (by simp [running]) (fun _ has => has)
    refine triple_bind (save_spec env (fun w now => now.working)) (fun result => ?_)
    cases result with
    | error e => exact triple_pure (fun w after => left_of_log (by simp) w after.1)
    | ok _ =>
      have still : ∀ w, LogOk setup w ∧ (Except.ok () = (Except.ok () : Except String Unit) → SavedFrom setup (Attempting setup role init) w) →
          Attempting setup role init w := by
        rintro w ⟨_,after⟩
        obtain ⟨working,saved,tick,old,⟨_,settled,absent,running⟩,_⟩ := after rfl
        exact ⟨working,settled,absent,running⟩
      cases judged : judge setup response with
      | ok findings =>
        obtain ⟨again,valid⟩ := judge_findings judged
        exact (recordSuccess_spec known valid).weaken still (fun _ _ left => left) (fun _ left => left)
      | error failure =>
        obtain ⟨status,failed⟩ := judge_status judged
        exact (recordFailure_spec status failed goOn).weaken still (fun _ _ left => left) (fun _ left => left)

theorem rounds_spec (known : role ∈ ROLES) (left : Nat) :
    Triple (fun w => Ready setup w ∧ w.memory.hasOutput role = false) (rounds setup env role left) (Left setup) (LogOk setup) := by
  induction left with
  | zero => exact triple_pure (fun w now => left_of_log (by simp) w now.1.working.log)
  | succ left ih =>
    refine triple_bind (R := fun a w => (Ready setup w ∧ w.memory.hasOutput role = false) ∧ a = w) (triple_get (fun w now => ⟨now,rfl⟩))
      (fun before => ?_)
    refine triple_ite (fun _ => triple_pure (fun w now => left_of_log (by simp) w now.1.1.working.log)) (fun budget => ?_)
    -- What is known once the new attempt is in memory.
    refine triple_bind (R := fun _ w => Attempting setup role before.memory.report.attempts w ∧
      callsFor role w.log + 1 ≤ countRole w.memory.report.attempts role) (triple_modify ?_) (fun _ => ?_)
    · rintro w ⟨⟨ready,absent⟩,rfl⟩
      have counted := ready.working.log.budget role
      rw [ready.saved] at counted
      refine ⟨⟨ready.working.update (ready.working.sound.start known (Nat.le_of_not_lt budget)) (extends_start _ role),
        fun strict => unknownOutcome_start (ready.settled strict) role,absent,_,rfl,rfl,rfl⟩,?_⟩
      show callsFor role before.log + 1 ≤ countRole (before.memory.report.attempts ++ [_]) role
      rw [countRole_concat,if_pos rfl]
      exact Nat.succ_le_succ counted
    refine triple_bind (save_spec env (fun w now => now.1.working)) (fun result => ?_)
    cases result with
    | error e => exact triple_pure (fun w after => left_of_log (by simp) w after.1)
    | ok _ =>
      refine (attempt_spec known ih).weaken (fun w after => ?_) (fun _ _ left => left) (fun _ left => left)
      obtain ⟨working,saved,tick,old,⟨⟨_,settled,absent,running⟩,room⟩,grown⟩ := after.2 rfl
      refine ⟨⟨working,settled,absent,running⟩,saved,?_⟩
      have same : callsFor role w.log = callsFor role w.log.dropLast := by
        rw [grown]
        simp [callsFor,isCall]
      rw [same]
      exact room

theorem worker_spec (known : role ∈ ROLES) :
    Triple (Ready setup) (ReviewWorker.run setup env role) (Left setup) (LogOk setup) := by
  refine triple_bind (R := fun a w => Ready setup w ∧ a = w) (triple_get (fun w now => ⟨now,rfl⟩)) (fun before => ?_)
  refine triple_ite (fun _ => triple_pure (fun w now => ⟨now.1.working.log,fun _ => now.1⟩)) (fun absent => ?_)
  refine (rounds_spec known _).weaken ?_ (fun _ _ left => left) (fun _ left => left)
  rintro w ⟨ready,rfl⟩
  exact ⟨ready,by simpa using absent⟩

/-! ### Invocations -/

theorem reviewWorker_spec {task : GraphNodes.TaskSpec} (known : task.task_type ∈ ROLES) (agent : AgentId) :
    Triple (Ready setup) (reviewWorker setup env agent task) (fun r w => LogOk setup w ∧ (succeeded r = true → Ready setup w)) (LogOk setup) := by
  refine triple_bind (worker_spec known) (fun ended => ?_)
  rcases ended with _ | ⟨e | _⟩
  · exact triple_pure (fun w left => ⟨left.1,fun wrong => by cases wrong⟩)
  · exact triple_pure (fun w left => ⟨left.1,fun wrong => by cases wrong⟩)
  · exact triple_pure (fun w left => ⟨left.1,fun _ => left.2 rfl⟩)

theorem mission_spec :
    Triple (Ready setup) (underMission (run_mission_async env.mission (reviewWorker setup env) orchestratorConfig []
      (reviewMission setup env.mission_id))) (fun _ => LogOk setup) (LogOk setup) := by
  have world := @run_mission_world _ env.mission (reviewWorker setup env) (Ready setup) (LogOk setup) (fun w ready => ready.working.log)
    orchestratorConfig rfl (reviewMission setup env.mission_id)
    (fun phase member => by
      obtain ⟨role,_,rfl⟩ := List.mem_map.mp member
      exact ⟨le_rfl,rfl⟩)
    (fun phase member task inside agent => by
      obtain ⟨role,known,rfl⟩ := List.mem_map.mp member
      cases List.mem_singleton.mp inside
      exact reviewWorker_spec known agent) []
  intro w ready
  constructor
  · intro a t ended
    obtain ⟨returned,rfl⟩ := Prod.mk.inj ended
    exact world.returns ready (Prod.ext returned rfl)
  · intro t ended
    obtain ⟨interrupted,rfl⟩ := Prod.mk.inj ended
    exact world.interrupted ready (Prod.ext interrupted rfl)

theorem proceed_spec : Triple (Working setup) (proceed setup env) (fun _ => LogOk setup) (LogOk setup) := by
  refine triple_bind (save_spec env (fun w now => now)) (fun result => ?_)
  cases result with
  | error e => exact triple_pure (fun w after => after.1)
  | ok _ =>
    refine triple_bind (R := fun a w => (Working setup w ∧ w.disk = some w.memory) ∧ a = w) (triple_get (fun w after => ?_)) (fun before => ?_)
    · exact ⟨⟨(after.2 rfl).working,(after.2 rfl).saved⟩,rfl⟩
    refine triple_ite (fun _ => triple_pure (fun w now => now.1.1.log)) (fun clear => ?_)
    refine triple_ite (fun _ => triple_pure (fun w now => now.1.1.log)) (fun _ => ?_)
    refine triple_bind (R := fun _ => LogOk setup) (mission_spec.weaken ?_ (fun _ _ left => left) (fun _ left => left)) (fun result => ?_)
    · rintro w ⟨⟨working,saved⟩,rfl⟩
      refine ⟨working,saved,fun strict => ?_⟩
      simpa [strict] using clear
    cases result with
    | error e => exact triple_pure (fun w ok => ok)
    | ok result =>
      refine triple_ite (fun _ => triple_pure (fun w ok => ok)) (fun _ => ?_)
      split
      · exact triple_pure (fun w ok => ok)
      · exact triple_pure (fun w ok => ok)
      · refine triple_ite (fun _ => ?_) (fun _ => triple_pure (fun w ok => ok))
        exact triple_bind (R := fun _ => LogOk setup) (triple_get (fun w ok => ok)) (fun _ => triple_pure (fun w ok => ok))

theorem resume_sound (ok : LogOk setup w) {s : State} (resumed : resume setup w.disk = .ok s) :
    Sound setup s ∧ ∀ d, w.disk = some d → Extends d s := by
  cases found : w.disk with
  | none =>
    rw [found] at resumed
    have same : resume setup none = .ok (State.fresh setup).adopt := by
      show (checks setup (.fresh setup) >>= fun _ => Except.ok (State.fresh setup).adopt) = _
      rw [(@sound_fresh setup).checks]
      rfl
    rw [same] at resumed
    cases resumed
    exact ⟨sound_fresh.adopt,fun d wrong => by cases wrong⟩
  | some d =>
    obtain ⟨sound,size⟩ := ok.disk_saved found
    rw [found,sound.resume size] at resumed
    cases resumed
    refine ⟨sound.adopt,fun d' same => ?_⟩
    cases same
    exact extends_adopt d

theorem run_review_spec : Triple (LogOk setup) (run_review setup env) (fun _ => LogOk setup) (LogOk setup) := by
  refine triple_ite (fun _ => triple_pure (fun w ok => ok)) (fun _ => ?_)
  refine triple_ite (fun _ => triple_failure (fun w ok => ok)) (fun _ => ?_)
  split
  · exact triple_pure (fun w ok => ok)
  · refine triple_bind (R := fun a w => LogOk setup w ∧ a = w) (triple_get (fun w ok => ⟨ok,rfl⟩)) (fun before => ?_)
    split
    · exact triple_pure (fun w now => now.1)
    · rename_i s resumed
      refine triple_bind (R := fun _ => Working setup) (triple_modify ?_) (fun _ => proceed_spec)
      rintro w ⟨ok,rfl⟩
      obtain ⟨sound,extend⟩ := resume_sound ok resumed
      exact ⟨{ ok with },sound,extend⟩

theorem invocations_ok (ok : LogOk setup w) (envs : List ReviewRun.Env) : LogOk setup (invocations setup envs w) := by
  induction envs generalizing w with
  | nil => exact ok
  | cons env later ih =>
    refine ih (w := (exec (run_review setup env) w).2) ?_
    rcases ended : exec (run_review setup env) w with ⟨_ | answer,t⟩
    · exact run_review_spec.interrupted ok ended
    · exact run_review_spec.returns ok ended

end

/-- Over any sequence of invocations, each of which may be killed at any access to the
    state file or call of the provider: every state file that was written is resumed by the
    next invocation; a role causes at most `max_retries + 1` provider calls, none of them
    after a state with its output was saved; and without `allow_unknown_retry` no call is
    made while an interrupted attempt of a role without output is on record. -/
theorem review_resumable (setup : Setup) (envs : List ReviewRun.Env) :
    (∀ s, .saved s ∈ (invocations setup envs (.empty setup)).log → resume setup (some s) = .ok s.adopt) ∧
    (∀ role, callsFor role (invocations setup envs (.empty setup)).log ≤ setup.max_retries + 1) ∧
    (∀ before role later, (invocations setup envs (.empty setup)).log = before ++ .called role :: later → CallOk setup before role) := by
  have ok := invocations_ok (@logOk_empty setup) envs
  refine ⟨fun s member => ?_,fun role => ?_,ok.calls⟩
  · obtain ⟨sound,size⟩ := ok.saved s member
    exact sound.resume size
  · refine (ok.budget role).trans ?_
    cases found : (invocations setup envs (.empty setup)).disk with
    | none => exact Nat.zero_le _
    | some d =>
      have seq := (ok.disk_saved found).1.sequenced
      exact countRole_le seq role

end Daf.ReviewSafety
