import Daf.MissionSteps

/-!
Missions run their phases behind a gate: a phase whose dependencies did not all succeed
sends no task. The gate looks at names, so that it is sound where a name that some phase
depends on stands for one phase only. Whatever the names, every phase is reported once.
-/
namespace Daf.MissionGate
open Daf.GraphNodes Daf.MissionPlan Daf.MissionRun Daf.MissionSteps Daf.Interrupted

/-! ### What programs record -/

section
variable {ω α β : Type} {idx : Nat}

/-- The program records nothing but dispatches of tasks of a phase. -/
def Sends (idx : Nat) (m : Prog (Exec ω) α) : Prop :=
  ∀ x, ∃ events, (exec m x).2.trace = x.trace ++ events ∧ ∀ e ∈ events, ∃ task, e = .dispatch idx task

/-- A program that records nothing. -/
theorem sends_of_keeps {m : Prog (Exec ω) α} (keeps : Keeps Exec.trace m) : Sends idx m :=
  fun x => ⟨[],by rw [keeps x,List.append_nil],fun _ member => absurd member List.not_mem_nil⟩

theorem sends_bind {m : Prog (Exec ω) α} {f : α → Prog (Exec ω) β} (first : Sends idx m) (rest : ∀ a, Sends idx (f a)) :
    Sends idx (m >>= f) := by
  intro x
  rw [exec_bind]
  obtain ⟨events,added,sent⟩ := first x
  generalize exec m x = ended at added ⊢
  rcases ended with ⟨_ | a,y⟩
  · exact ⟨events,added,sent⟩
  · obtain ⟨more,added',sent'⟩ := rest a y
    refine ⟨events ++ more,?_,fun e member => ?_⟩
    · exact added'.trans (by rw [added,List.append_assoc])
    · rcases List.mem_append.mp member with old | new
      · exact sent e old
      · exact sent' e new

theorem sends_ite {c : Prop} [Decidable c] {m n : Prog (Exec ω) α} (yes : Sends idx m) (no : Sends idx n) :
    Sends idx (if c then m else n) := by
  split_ifs
  · exact yes
  · exact no

end

section
variable {ω : Type} (env : Env) (worker : Worker ω)

/-- What the workers do is not recorded. -/
theorem keeps_execute (task : TaskSpec) (phase_start deadline : Nat) (agent : AgentId) :
    Keeps Exec.trace (MissionRun.execute env worker task phase_start deadline agent) := by
  refine keeps_bind (keeps_ask trace_timeless _) (fun _ => ?_)
  refine keeps_bind (keeps_taskDeadline env trace_timeless task deadline) (fun _ => keeps_ite ?_ (keeps_pure _))
  refine keeps_bind (keeps_ask trace_timeless _) (fun _ => keeps_ite (keeps_pure _) (keeps_bind (fun _ => rfl) (fun answer => ?_)))
  cases answer with
  | returned result => exact keeps_pure _
  | elapsed => exact keeps_pure _

theorem sends_dispatch (idx : Nat) (task : TaskSpec) : Sends idx (dispatch_executable_task env idx task : Prog (Exec ω) _) := by
  refine sends_bind (fun x => ⟨[.dispatch idx task.task_type],rfl,fun e member => ⟨task.task_type,List.mem_singleton.mp member⟩⟩) (fun _ => ?_)
  exact sends_bind (sends_of_keeps (keeps_ask trace_timeless _)) (fun _ => sends_ite (sends_of_keeps (keeps_pure _)) (sends_of_keeps (keeps_ask trace_timeless _)))

theorem sends_tryOnce (idx : Nat) (task : TaskSpec) (phase_start deadline : Nat) (tally : Tally) :
    Sends idx (tryOnce env worker idx task phase_start deadline tally) := by
  refine sends_bind (sends_dispatch env idx task) (fun answer => ?_)
  cases answer with
  | error e => exact sends_of_keeps (keeps_pure _)
  | ok agent => exact sends_of_keeps (keeps_bind (keeps_execute env worker task phase_start deadline agent) (fun _ => keeps_pure _))

theorem sends_attempts (idx : Nat) (task : TaskSpec) (phase_start deadline left attempt : Nat) (tally : Tally) :
    Sends idx (attempts env worker idx task phase_start deadline left attempt tally) := by
  induction left generalizing attempt tally with
  | zero => exact sends_of_keeps (keeps_pure _)
  | succ left ih =>
    refine sends_bind (sends_of_keeps (keeps_expired env trace_timeless deadline)) (fun _ => sends_ite (sends_of_keeps (keeps_pure _)) ?_)
    refine sends_bind (sends_of_keeps (keeps_backoff env trace_timeless deadline attempt tally)) (fun answer => ?_)
    cases answer with
    | error reason => exact sends_of_keeps (keeps_pure _)
    | ok tally =>
      refine sends_bind (sends_tryOnce env worker idx task phase_start deadline tally) (fun answer => ?_)
      rcases answer with ⟨e | _,tally⟩
      · exact ih _ _
      · exact sends_of_keeps (keeps_pure _)

theorem sends_runTasks (idx phase_start deadline max_retries : Nat) (stopped : Bool) (tasks : List TaskSpec) (tally : Tally) :
    Sends idx (runTasks env worker idx phase_start deadline max_retries stopped tasks tally) := by
  induction tasks generalizing tally with
  | nil => exact sends_of_keeps (keeps_pure _)
  | cons task later ih =>
    refine sends_bind (sends_of_keeps (keeps_skips env trace_timeless stopped)) (fun _ => sends_ite (ih _) ?_)
    exact sends_bind (sends_attempts env worker idx task phase_start deadline _ 0 tally) (fun _ => ih _)

/-! ### What is counted -/

/-- The number of tasks that have been decided. -/
def decided (tally : Tally) : Nat := tally.tasks_succeeded + tally.tasks_failed + tally.tasks_skipped

/-- What a program returns satisfies a predicate. -/
def Returns {α : Type} (m : Prog (Exec ω) α) (Q : α → Prop) : Prop := ∀ x a y, exec m x = (some a,y) → Q a

theorem returns_pure {α : Type} {a : α} {Q : α → Prop} (holds : Q a) : Returns (pure a : Prog (Exec ω) α) Q := by
  intro x b y ended
  cases ended
  exact holds

theorem returns_bind {α β : Type} {m : Prog (Exec ω) α} {f : α → Prog (Exec ω) β} {R : α → Prop} {Q : β → Prop} (first : Returns m R)
    (rest : ∀ a, R a → Returns (f a) Q) : Returns (m >>= f) Q := by
  intro x b y ended
  rw [exec_bind] at ended
  rcases before : exec m x with ⟨_ | a,z⟩
  · rw [before] at ended
    cases ended
  · rw [before] at ended
    exact rest a (first x a z before) z b y ended

theorem returns_any {α : Type} (m : Prog (Exec ω) α) : Returns m (fun _ => True) := fun _ _ _ _ => trivial

theorem returns_ite {α : Type} {c : Prop} [Decidable c] {m n : Prog (Exec ω) α} {Q : α → Prop} (yes : Returns m Q) (no : Returns n Q) :
    Returns (if c then m else n) Q := by
  split_ifs
  · exact yes
  · exact no

theorem returns_backoff (deadline attempt : Nat) (tally : Tally) :
    Returns (backoff env deadline attempt tally : Prog (Exec ω) _) (fun answer => ∀ next, answer = .ok next → decided next = decided tally) := by
  refine returns_ite (returns_pure (fun next same => by cases same; rfl)) (returns_bind (returns_any _) (fun answer _ => ?_))
  cases answer with
  | dropped => exact fun x a y ended => by cases ended
  | elapsed => exact returns_pure (fun next same => by cases same)
  | woken =>
    refine returns_bind (returns_any _) (fun _ _ => returns_ite (returns_pure ?_) (returns_pure ?_))
    · exact fun next same => by cases same
    · exact fun next same => by cases same; rfl

theorem returns_tryOnce (idx : Nat) (task : TaskSpec) (phase_start deadline : Nat) (tally : Tally) :
    Returns (tryOnce env worker idx task phase_start deadline tally) (fun answer => decided answer.2 = decided tally) := by
  refine returns_bind (returns_any _) (fun answer _ => ?_)
  cases answer with
  | error e => exact returns_pure rfl
  | ok agent => exact returns_bind (returns_any _) (fun _ _ => returns_pure rfl)

theorem returns_attempts (idx : Nat) (task : TaskSpec) (phase_start deadline left attempt : Nat) (tally : Tally) :
    Returns (attempts env worker idx task phase_start deadline left attempt tally) (fun answer => decided answer.2 = decided tally) := by
  induction left generalizing attempt tally with
  | zero => exact returns_pure rfl
  | succ left ih =>
    refine returns_bind (returns_any _) (fun _ _ => returns_ite (returns_pure rfl) ?_)
    refine returns_bind (returns_backoff env deadline attempt tally) (fun answer same => ?_)
    cases answer with
    | error reason => exact returns_pure rfl
    | ok next =>
      refine returns_bind (returns_tryOnce env worker idx task phase_start deadline next) (fun answer counted => ?_)
      rcases answer with ⟨e | _,last⟩
      · intro x a y ended
        exact (ih _ _ x a y ended).trans (counted.trans (same next rfl))
      · exact returns_pure (counted.trans (same next rfl))

/-- Every task of a phase is counted once. -/
theorem returns_runTasks (idx phase_start deadline max_retries : Nat) (stopped : Bool) (tasks : List TaskSpec) (tally : Tally) :
    Returns (runTasks env worker idx phase_start deadline max_retries stopped tasks tally)
      (fun last => decided last = decided tally + tasks.length) := by
  induction tasks generalizing tally with
  | nil => exact returns_pure rfl
  | cons task later ih =>
    refine returns_bind (returns_any _) (fun _ _ => returns_ite ?_ ?_)
    · intro x a y ended
      have rest := ih _ x a y ended
      simp only [decided,List.length_cons] at rest ⊢
      omega
    · refine returns_bind (returns_attempts env worker idx task phase_start deadline _ 0 tally) (fun answer counted => ?_)
      intro x a y ended
      have rest := ih _ x a y ended
      simp only [decided,List.length_cons] at rest counted ⊢
      split_ifs at rest <;> simp only at rest <;> omega

end

/-! ### The gate -/

/-- Every phase that this one names has finished with success. -/
def Allowed (mission : Mission) (trace : List Event) (idx : Nat) : Prop :=
  ∀ (q : Nat) phase other, mission.phases[idx]? = some phase → mission.phases[q]? = some other →
    other.name ∈ phase.dependencies → .finished q true ∈ trace

/-- A task is dispatched only after every phase that its phase names has succeeded. -/
def Gated (mission : Mission) (trace : List Event) : Prop :=
  ∀ before idx task later, trace = before ++ .dispatch idx task :: later → Allowed mission before idx

/-- A name that a phase with tasks depends on is the name of one phase only. -/
def Unambiguous (mission : Mission) : Prop :=
  ∀ phase ∈ mission.phases, phase.tasks ≠ [] → ∀ (i j : Nat) one other, mission.phases[i]? = some one →
    mission.phases[j]? = some other → one.name ∈ phase.dependencies → other.name = one.name → i = j

/-- Distinct names are unambiguous. -/
theorem unambiguous_of_distinct {mission : Mission} (distinct : (mission.phases.map (·.name)).Nodup) : Unambiguous mission := by
  intro phase _ _ i j one other at_i at_j _ same
  obtain ⟨low,one_eq⟩ := List.getElem?_eq_some_iff.mp at_i
  obtain ⟨low',other_eq⟩ := List.getElem?_eq_some_iff.mp at_j
  have injective := List.nodup_iff_injective_get.mp distinct
  have equal := @injective ⟨i,by simpa using low⟩ ⟨j,by simpa using low'⟩ (by simp [one_eq,other_eq,same])
  exact congrArg Fin.val equal

section
variable {mission : Mission} {trace : List Event}

theorem Allowed.append {idx : Nat} (allowed : Allowed mission trace idx) (more : List Event) : Allowed mission (trace ++ more) idx :=
  fun q phase other at_idx at_q named => List.mem_append_left more (allowed q phase other at_idx at_q named)

theorem gated_nil : Gated mission [] := fun before _ _ _ same => by simp at same

theorem Gated.concat (gated : Gated mission trace) {event : Event}
    (allowed : ∀ idx task, event = .dispatch idx task → Allowed mission trace idx) : Gated mission (trace ++ [event]) := by
  intro before idx task later same
  rcases List.eq_nil_or_concat later with rfl | ⟨rest,last,rfl⟩
  · obtain ⟨rfl,single⟩ := List.append_inj' same rfl
    exact allowed idx task (List.singleton_inj.mp single)
  · rw [List.concat_eq_append,← List.cons_append,← List.append_assoc] at same
    exact gated before idx task rest (List.append_inj' same rfl).1

/-- The dispatches of a phase that may start. -/
theorem Gated.sends (gated : Gated mission trace) {idx : Nat} {events : List Event} (allowed : events ≠ [] → Allowed mission trace idx)
    (sent : ∀ e ∈ events, ∃ task, e = .dispatch idx task) : Gated mission (trace ++ events) := by
  induction events using List.reverseRecOn with
  | nil =>
    rw [List.append_nil]
    exact gated
  | append_singleton events event ih =>
    rw [← List.append_assoc]
    have start := allowed (by simp)
    refine (ih (fun _ => start) (fun e member => sent e (by simp [member]))).concat (fun other task same => ?_)
    obtain ⟨task',mine⟩ := sent event (by simp)
    rw [mine] at same
    cases same
    exact start.append events

/-! ### Runs -/

/-- The report on a phase names it and accounts for each of its tasks. -/
def Reported (mission : Mission) (idx : Nat) (result : PhaseResult) : Prop :=
  ∃ phase, mission.phases[idx]? = some phase ∧ result.phase_name = phase.name ∧
    result.tasks_succeeded + result.tasks_failed + result.tasks_skipped = phase.tasks.length

/-- What holds between two phases: the phases so far are reported, and a name that
    counts as successful is that of a phase that succeeded. -/
structure Between (mission : Mission) (done : List Nat) (progress : Progress) (trace : List Event) : Prop where
  gated : Unambiguous mission → Gated mission trace
  known : ∀ name, progress.outcomes.lookup name = some true →
    ∃ (q : Nat) (other : Phase), mission.phases[q]? = some other ∧ other.name = name ∧ Event.finished q true ∈ trace
  results : List.Forall₂ (Reported mission) done progress.phase_results

/-- A phase that is not blocked may start. -/
theorem Between.allowed {done : List Nat} {progress : Progress} (between : Between mission done progress trace)
    (clear : Unambiguous mission) {idx : Nat} {phase : Phase} (at_idx : mission.phases[idx]? = some phase) (tasks : phase.tasks ≠ [])
    (unblocked : blocked progress.outcomes phase = false) : Allowed mission trace idx := by
  intro q phase' other at_idx' at_q named
  cases at_idx.symm.trans at_idx'
  have success : progress.outcomes.lookup other.name = some true := by
    have all := List.any_eq_false.mp unblocked other.name named
    simpa using all
  obtain ⟨q',one,at_q',sameName,finished⟩ := between.known other.name success
  have same := clear phase (List.mem_of_getElem? at_idx) tasks q' q one other at_q' at_q (by rw [sameName]; exact named) sameName.symm
  rwa [← same]

end

section
variable {ω : Type} (env : Env) (worker : Worker ω) (config : Config) {mission : Mission}

/-- What an interrupted run leaves. -/
def Interrupted (mission : Mission) (x : Exec ω) : Prop := Unambiguous mission → Gated mission x.trace

/-- The trace just after the end of a phase. -/
def Ended (mission : Mission) (done : List Nat) (progress : Progress) (idx : Nat) (succeeded : Bool) (full : List Event) : Prop :=
  ∃ trace, full = trace ++ [.finished idx succeeded] ∧ Between mission done progress trace

theorem Ended.interrupted {done : List Nat} {progress : Progress} {idx : Nat} {succeeded : Bool} {x : Exec ω}
    (ended : Ended mission done progress idx succeeded x.trace) : Interrupted mission x := by
  obtain ⟨trace,ends,between⟩ := ended
  intro clear
  rw [ends]
  exact (between.gated clear).concat (fun other task same => by cases same)

theorem runPhase_spec (wave_deadline : Nat) (mission_deadline : Option Nat) {idx : Nat} {phase : Phase}
    (at_idx : mission.phases[idx]? = some phase) (done : List Nat) (progress : Progress) :
    Triple (fun x => Between mission done progress x.trace)
      (runPhase env worker config mission wave_deadline mission_deadline idx phase progress)
      (fun progress x => Between mission (done ++ [idx]) progress x.trace) (Interrupted mission) := by
  have drop : ∀ x : Exec ω, Between mission done progress x.trace → Interrupted mission x := fun x between => between.gated
  refine triple_bind ((keeps_ask trace_timeless _).triple drop) (fun phase_start => ?_)
  refine triple_bind ((keeps_phaseDeadline env phase wave_deadline mission_deadline phase_start).triple drop) (fun deadline => ?_)
  refine triple_bind (R := fun tally x => Between mission done progress x.trace ∧ decided tally = phase.tasks.length) ?_ (fun tally => ?_)
  · -- The tasks: nothing is sent if the phase is blocked.
    intro x between
    have counts := returns_runTasks env worker idx phase_start deadline (mission.effective_retry_policy phase).max_retries
      (blocked progress.outcomes phase || (progress.failed && config.fail_fast)) phase.tasks .zero x
    have kept : ∀ y, (exec (runTasks env worker idx phase_start deadline (mission.effective_retry_policy phase).max_retries
        (blocked progress.outcomes phase || (progress.failed && config.fail_fast)) phase.tasks .zero) x).2 = y →
        Between mission done progress y.trace := by
      rintro y rfl
      obtain ⟨events,added,sent⟩ := sends_runTasks env worker idx phase_start deadline (mission.effective_retry_policy phase).max_retries
        (blocked progress.outcomes phase || (progress.failed && config.fail_fast)) phase.tasks .zero x
      rw [added]
      refine ⟨fun clear => (between.gated clear).sends (fun some => ?_) sent,fun name success => ?_,between.results⟩
      · refine between.allowed clear at_idx (fun none => ?_) ?_
        · rw [none] at added
          exact some (by simpa [runTasks] using added)
        · by_contra stopped
          rw [Bool.not_eq_false] at stopped
          rw [stopped,Bool.true_or] at added
          rw [keeps_runTasks env trace_timeless worker] at added
          exact some (by simpa using added)
      · obtain ⟨q,other,at_q,named,finished⟩ := between.known name success
        exact ⟨q,other,at_q,named,List.mem_append_left events finished⟩
    refine ⟨fun tally y ended => ⟨kept y (by rw [ended]),?_⟩,fun y ended => (kept y (by rw [ended])).gated⟩
    have total := counts tally y ended
    simpa [decided,Tally.zero] using total
  · generalize (tally.tasks_failed == 0 && tally.tasks_skipped == 0 && !blocked progress.outcomes phase) = succeeded
    -- The trace ends with the end of this phase.
    have ends : ∀ x : Exec ω, Between mission done progress x.trace ∧ decided tally = phase.tasks.length →
        Ended mission done progress idx succeeded (x.trace ++ [Event.finished idx succeeded]) ∧ decided tally = phase.tasks.length :=
      fun x before => ⟨⟨x.trace,rfl,before.1⟩,before.2⟩
    refine triple_bind (R := fun _ x => Ended mission done progress idx succeeded x.trace ∧ decided tally = phase.tasks.length)
      (triple_of_eq (fun x => rfl) ends) (fun _ => ?_)
    refine triple_bind ((keeps_ask trace_timeless _).triple (R := fun trace => Ended mission done progress idx succeeded trace ∧
      decided tally = phase.tasks.length) (fun x ended => ended.1.interrupted)) (fun now => triple_pure ?_)
    rintro x ⟨⟨trace,ends,between⟩,counted⟩
    rw [ends]
    refine ⟨fun clear => (between.gated clear).concat (fun other task same => by cases same),fun name success => ?_,?_⟩
    · by_cases same : name = phase.name
      · subst same
        simp only [AList.lookup_insert,Option.some.injEq] at success
        exact ⟨idx,phase,at_idx,rfl,by simp [success]⟩
      · simp only [AList.lookup_insert_ne same] at success
        obtain ⟨q,other,at_q,named,finished⟩ := between.known name success
        exact ⟨q,other,at_q,named,List.mem_append_left _ finished⟩
    · exact List.rel_append between.results (.cons ⟨phase,at_idx,rfl,counted⟩ .nil)

theorem runWave_spec (wave_deadline : Nat) (mission_deadline : Option Nat) (wave : List Nat) (inside : ∀ idx ∈ wave, idx < mission.phases.length)
    (done : List Nat) (progress : Progress) :
    Triple (fun x => Between mission done progress x.trace) (runWave env worker config mission wave_deadline mission_deadline wave progress)
      (fun progress x => Between mission (done ++ wave) progress x.trace) (Interrupted mission) := by
  induction wave generalizing done progress with
  | nil => exact triple_pure (fun x between => by rw [List.append_nil]; exact between)
  | cons idx later ih =>
    have at_idx := List.getElem?_eq_getElem (inside idx List.mem_cons_self)
    simp only [runWave,at_idx]
    refine triple_bind (runPhase_spec env worker config wave_deadline mission_deadline at_idx done progress) (fun progress => ?_)
    have rest := ih (fun q member => inside q (List.mem_cons_of_mem idx member)) (done ++ [idx]) progress
    rwa [List.append_assoc] at rest

theorem runWaves_spec (mission_deadline : Option Nat) (waves : List (List Nat)) (inside : ∀ idx ∈ waves.flatten, idx < mission.phases.length)
    (done : List Nat) (progress : Progress) :
    Triple (fun x => Between mission done progress x.trace) (runWaves env worker config mission mission_deadline waves progress)
      (fun progress x => Between mission (done ++ waves.flatten) progress x.trace) (Interrupted mission) := by
  induction waves generalizing done progress with
  | nil => exact triple_pure (fun x between => by simpa using between)
  | cons wave later ih =>
    have drop : ∀ x : Exec ω, Between mission done progress x.trace → Interrupted mission x := fun x between => between.gated
    simp only [List.flatten_cons,List.mem_append] at inside
    refine triple_bind ((keeps_ask trace_timeless _).triple drop) (fun now => triple_bind ((keeps_after env _ _).triple drop) (fun deadline => ?_))
    refine triple_bind (runWave_spec env worker config deadline mission_deadline wave (fun q member => inside q (.inl member)) done progress)
      (fun progress => ?_)
    have rest := ih (fun q member => inside q (.inr member)) (done ++ wave) progress
    rwa [List.append_assoc] at rest

/-- Every phase is reported exactly once, with each of its tasks accounted for. -/
def AllReported (mission : Mission) (results : List PhaseResult) : Prop :=
  ∃ order, order.Perm (List.range mission.phases.length) ∧ List.Forall₂ (Reported mission) order results

theorem leased_spec (waves : List (List Nat)) (perm : waves.flatten.Perm (List.range mission.phases.length)) :
    Triple (fun x => x.trace = []) (leased env worker config mission waves)
      (fun result x => (Unambiguous mission → Gated mission x.trace) ∧ AllReported mission result.phase_results)
      (Interrupted mission) := by
  have start : ∀ x : Exec ω, x.trace = [] → Interrupted mission x := by
    intro x empty _
    rw [empty]
    exact gated_nil
  refine triple_bind ((keeps_ask trace_timeless _).triple (R := (· = [])) start) (fun begin => ?_)
  refine triple_bind ((keeps_missionDeadline env mission begin).triple (R := (· = [])) start) (fun mission_deadline => ?_)
  refine triple_bind (R := fun _ (x : Exec ω) => x.trace = []) (triple_of_eq (fun x => rfl) (fun x empty => empty)) (fun _ => ?_)
  have inside : ∀ idx ∈ waves.flatten, idx < mission.phases.length := fun idx member => List.mem_range.mp (perm.mem_iff.mp member)
  have phases := runWaves_spec env worker config mission_deadline waves inside [] ⟨[],false,∅⟩
  refine triple_bind (phases.weaken (fun x empty => ?_) (fun _ _ after => after) (fun _ dropped => dropped)) (fun progress => ?_)
  · rw [show x.trace = [] from empty]
    exact ⟨fun _ => gated_nil,fun name success => by simp at success,.nil⟩
  have drop : ∀ x : Exec ω, Between mission ([] ++ waves.flatten) progress x.trace → Interrupted mission x := fun x between => between.gated
  refine triple_bind ((keeps_ask trace_timeless _).triple drop) (fun shutdown => ?_)
  refine triple_bind (R := fun _ x => Between mission ([] ++ waves.flatten) progress x.trace)
    (triple_of_eq (fun x => rfl) (fun x between => between)) (fun _ => ?_)
  refine triple_bind ((keeps_ask trace_timeless _).triple drop) (fun now => triple_pure (fun x between => ?_))
  exact ⟨between.gated,waves.flatten,perm,by simpa using between.results⟩

end

/-- The start of a mission. -/
def start {ω : Type} (world : ω) : Exec ω := ⟨0,[],none,world⟩

/-- In every run of a mission whose dependency names are unambiguous, whatever the workers
    do, a task is sent only after every phase that its phase names has succeeded, whether
    or not the run is dropped; and a run that returns reports every phase exactly once,
    whatever the names. -/
theorem mission_gated {ω : Type} (env : Env) (worker : Worker ω) (config : Config) (active_missions : List MissionId) (mission : Mission)
    (world : ω) (waves : List (List Nat)) (accepted : mission.resolve_execution_order = .ok waves) :
    (Unambiguous mission → Gated mission (exec (run_mission_async env worker config active_missions mission) (start world)).2.trace) ∧
    (∀ result x, exec (run_mission_async env worker config active_missions mission) (start world) = (some (.ok result),x) →
      AllReported mission result.phase_results) := by
  have perm := resolve_execution_order_perm accepted
  have spec : Triple (fun x => x.trace = []) (run_mission_async env worker config active_missions mission)
      (fun answer x => (Unambiguous mission → Gated mission x.trace) ∧
        ∀ result, answer = .ok result → AllReported mission result.phase_results) (Interrupted mission) := by
    have empty_ok : ∀ x : Exec ω, x.trace = [] → Interrupted mission x := by
      intro x empty _
      rw [empty]
      exact gated_nil
    simp only [run_mission_async,accepted]
    refine triple_bind ((keeps_ask trace_timeless _).triple (R := (· = [])) empty_ok) (fun down => ?_)
    refine triple_ite (fun _ => triple_pure (fun x empty => ⟨empty_ok x empty,fun _ same => by cases same⟩)) (fun _ => ?_)
    refine triple_ite (fun _ => triple_pure (fun x empty => ⟨empty_ok x empty,fun _ same => by cases same⟩)) (fun _ => ?_)
    refine triple_ite (fun _ => triple_pure (fun x empty => ⟨empty_ok x empty,fun _ same => by cases same⟩)) (fun _ => ?_)
    refine triple_bind (withLease_triple (leased_spec env worker config waves perm) (fun _ _ left => left)) (fun result => triple_pure (fun x after => ?_))
    exact ⟨after.1,fun other same => by cases same; exact after.2⟩
  constructor
  · intro clear
    rcases ended : exec (run_mission_async env worker config active_missions mission) (start world) with ⟨_ | answer,x⟩
    · exact spec.interrupted rfl ended clear
    · exact (spec.returns rfl ended).1 clear
  · intro result x ended
    exact (spec.returns rfl ended).2 result rfl

/-! ### Two missions -/

def compile : TaskSpec := ⟨"compile",.null,none,0⟩

/-- A quiet environment. -/
def calm : Env where
  now _ := 0
  shutdown _ := false
  route _ := .ok ⟨1⟩
  registered _ := true
  sleep _ := .woken
  lastInstant := 1000000000000

/-- A worker that fails at its first call and succeeds from then on. -/
def failingOnce : Worker Nat := fun _ _ => do
  let calls ← get
  set (calls + 1)
  pure (.returned (if calls = 0 then .error (.Internal "exit status 1") else .ok ()))

def pipeline : Mission where
  id := ⟨7⟩
  name := "pipeline"
  phases := [{ Phase.new "build" with tasks := [compile] },{ Phase.new "deploy" with tasks := [compile], dependencies := ["build"] }]
  timeout := none
  retry_policy := ⟨0⟩

/-- The worker fails at the first phase; the second one sends nothing. -/
theorem pipeline_gated :
    (exec (run_mission_async calm failingOnce ⟨8,300,false⟩ [] pipeline) (start 0)).2.trace =
      [.dispatch 0 "compile",.finished 0 false,.finished 1 false] ∧
    Gated pipeline (exec (run_mission_async calm failingOnce ⟨8,300,false⟩ [] pipeline) (start 0)).2.trace := by
  refine ⟨by decide +kernel,(mission_gated calm failingOnce ⟨8,300,false⟩ [] pipeline 0 [[0],[1]] rfl).1 ?_⟩
  exact unambiguous_of_distinct (by decide)

/-- Two phases are called build; the first one fails and the second one succeeds. -/
def twins : Mission where
  id := ⟨7⟩
  name := "twins"
  phases := [{ Phase.new "build" with tasks := [compile] },{ Phase.new "build" with tasks := [compile] },
    { Phase.new "deploy" with tasks := [compile], dependencies := ["build"] }]
  timeout := none
  retry_policy := ⟨0⟩

/-- The phase that depends on build is dispatched although a phase of that name has failed. -/
theorem failed_twin_ignored :
    twins.resolve_execution_order = .ok [[0,1],[2]] ∧
    ¬ Gated twins (exec (run_mission_async calm failingOnce ⟨8,300,false⟩ [] twins) (start 0)).2.trace := by
  have trace : (exec (run_mission_async calm failingOnce ⟨8,300,false⟩ [] twins) (start 0)).2.trace =
      [.dispatch 0 "compile",.finished 0 false,.dispatch 1 "compile",.finished 1 true,.dispatch 2 "compile",.finished 2 true] := by
    decide +kernel
  refine ⟨rfl,fun gated => ?_⟩
  rw [trace] at gated
  have allowed := gated [.dispatch 0 "compile",.finished 0 false,.dispatch 1 "compile",.finished 1 true] 2 "compile" [.finished 2 true] rfl
  have finished := allowed 0 _ _ rfl rfl (by decide)
  simp at finished

end Daf.MissionGate
