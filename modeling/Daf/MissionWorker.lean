import Daf.MissionSteps

/-!
Missions whose phases have at most one task, no retries and fail-fast: after a worker
has failed no worker is called any more. What holds before each call of a worker need
only be kept by the calls that succeed.
-/
namespace Daf.MissionWorker
open Daf.GraphNodes Daf.MissionPlan Daf.MissionRun Daf.MissionSteps Daf.Interrupted

def succeeded : Execution → Bool
  | .returned (.ok ()) => true
  | _ => false

theorem inWorld_triple {ω α : Type} {m : Prog ω α} {P D : ω → Prop} {Q : α → ω → Prop} (triple : Triple P m Q D) :
    Triple (fun x => P x.world) (inWorld m) (fun a x => Q a x.world) (fun x => D x.world) := by
  intro x before
  constructor
  · intro a y ended
    obtain ⟨returned,rfl⟩ := Prod.mk.inj ended
    exact triple.returns before (Prod.ext returned rfl)
  · intro y ended
    obtain ⟨interrupted,rfl⟩ := Prod.mk.inj ended
    exact triple.interrupted before (Prod.ext interrupted rfl)

/-- What is known of the world after a step: always the weaker fact, and the stronger
    one if all went well. -/
def Upto {ω : Type} (W W' : ω → Prop) (well : Prop) (x : Exec ω) : Prop := W' x.world ∧ (well → W x.world)

section
variable {ω : Type} (env : Env) (worker : Worker ω) {W W' : ω → Prop} (weaker : ∀ w, W w → W' w)
include weaker

theorem upto_of_strong {well : Prop} {x : Exec ω} (before : W x.world) : Upto W W' well x := ⟨weaker x.world before,fun _ => before⟩

theorem execute_world {task : TaskSpec} (phase_start deadline : Nat) (agent : AgentId)
    (works : Triple W (worker agent task) (fun r w => W' w ∧ (succeeded r = true → W w)) W') :
    Triple (fun x => W x.world) (MissionRun.execute env worker task phase_start deadline agent)
      (fun r => Upto W W' (r = .ok ())) (fun x => W' x.world) := by
  have drop : ∀ x : Exec ω, W x.world → W' x.world := fun x before => weaker x.world before
  refine triple_bind ((keeps_ask world_timeless _).triple drop) (fun registered => ?_)
  refine triple_bind ((keeps_taskDeadline env world_timeless task deadline).triple drop) (fun task_deadline => ?_)
  refine triple_ite (fun _ => ?_) (fun _ => triple_pure (fun x => upto_of_strong weaker))
  refine triple_bind ((keeps_ask world_timeless _).triple drop) (fun now => ?_)
  refine triple_ite (fun _ => triple_pure (fun x => upto_of_strong weaker)) (fun _ => ?_)
  refine triple_bind (inWorld_triple works) (fun answer => ?_)
  cases answer with
  | returned result =>
    refine triple_pure (fun x after => ⟨after.1,fun well => after.2 ?_⟩)
    rw [well]
    rfl
  | elapsed => exact triple_pure (fun x after => ⟨after.1,fun well => by cases well⟩)

theorem tryOnce_world (idx : Nat) {task : TaskSpec} (phase_start deadline : Nat) (tally : Tally)
    (works : ∀ agent, Triple W (worker agent task) (fun r w => W' w ∧ (succeeded r = true → W w)) W') :
    Triple (fun x => W x.world) (tryOnce env worker idx task phase_start deadline tally)
      (fun r => Upto W W' (r.1 = .ok ())) (fun x => W' x.world) := by
  have drop : ∀ x : Exec ω, W x.world → W' x.world := fun x before => weaker x.world before
  have dispatch : Keeps Exec.world (dispatch_executable_task env idx task : Prog (Exec ω) _) :=
    keeps_bind (fun _ => rfl) (fun _ => keeps_bind (keeps_ask world_timeless _) (fun _ => keeps_ite (keeps_pure _) (keeps_ask world_timeless _)))
  refine triple_bind (dispatch.triple drop) (fun answer => ?_)
  cases answer with
  | error e => exact triple_pure (fun x => upto_of_strong weaker)
  | ok agent =>
    exact triple_bind (execute_world env worker weaker phase_start deadline agent (works agent))
      (fun result => triple_pure (fun x after => after))

/-- A task without retries. -/
theorem attempts_world (idx : Nat) {task : TaskSpec} (phase_start deadline : Nat) (tally : Tally)
    (works : ∀ agent, Triple W (worker agent task) (fun r w => W' w ∧ (succeeded r = true → W w)) W') :
    Triple (fun x => W x.world) (attempts env worker idx task phase_start deadline 1 0 tally)
      (fun r => Upto W W' (r.1 = true)) (fun x => W' x.world) := by
  have drop : ∀ x : Exec ω, W x.world → W' x.world := fun x before => weaker x.world before
  refine triple_bind ((keeps_expired env world_timeless deadline).triple drop) (fun late => ?_)
  refine triple_ite (fun _ => triple_pure (fun x => upto_of_strong weaker)) (fun _ => ?_)
  refine triple_bind ((keeps_backoff env world_timeless deadline 0 tally).triple drop) (fun answer => ?_)
  cases answer with
  | error reason => exact triple_pure (fun x => upto_of_strong weaker)
  | ok tally =>
    refine triple_bind (tryOnce_world env worker weaker idx phase_start deadline tally works) (fun answer => ?_)
    rcases answer with ⟨e | _,tally⟩
    · exact triple_pure (fun x after => ⟨after.1,fun well => by cases well⟩)
    · exact triple_pure (fun x after => ⟨after.1,fun _ => after.2 rfl⟩)

/-- The tasks of a phase with at most one of them. -/
theorem runTasks_world (idx phase_start deadline : Nat) (stopped : Bool) {tasks : List TaskSpec} (single : tasks.length ≤ 1) (tally : Tally)
    (works : ∀ task ∈ tasks, ∀ agent, Triple W (worker agent task) (fun r w => W' w ∧ (succeeded r = true → W w)) W') :
    Triple (fun x => W x.world) (runTasks env worker idx phase_start deadline 0 stopped tasks tally)
      (fun last => Upto W W' (last.tasks_failed = 0)) (fun x => W' x.world) := by
  have drop : ∀ x : Exec ω, W x.world → W' x.world := fun x before => weaker x.world before
  cases tasks with
  | nil => exact triple_pure (fun x => upto_of_strong weaker)
  | cons task later =>
    have last : later = [] := by simpa using single
    subst last
    refine triple_bind ((keeps_skips env world_timeless stopped).triple drop) (fun skipped => ?_)
    refine triple_ite (fun _ => triple_pure (fun x => upto_of_strong weaker)) (fun _ => ?_)
    refine triple_bind (attempts_world env worker weaker idx phase_start deadline tally (works task List.mem_cons_self)) (fun answer => ?_)
    refine triple_pure (fun x after => ⟨after.1,fun none => after.2 ?_⟩)
    rcases answer with ⟨success,tally⟩
    cases success with
    | true => rfl
    | false => simp at none

variable (config : Config) (failFast : config.fail_fast = true) {mission : Mission}
  (single : ∀ phase ∈ mission.phases, phase.tasks.length ≤ 1 ∧ (mission.effective_retry_policy phase).max_retries = 0)
  (works : ∀ phase ∈ mission.phases, ∀ task ∈ phase.tasks, ∀ agent,
    Triple W (worker agent task) (fun r w => W' w ∧ (succeeded r = true → W w)) W')
include failFast single works

theorem runPhase_world (wave_deadline : Nat) (mission_deadline : Option Nat) (idx : Nat) {phase : Phase} (member : phase ∈ mission.phases)
    (progress : Progress) :
    Triple (Upto W W' (progress.failed = false)) (runPhase env worker config mission wave_deadline mission_deadline idx phase progress)
      (fun next => Upto W W' (next.failed = false)) (fun x => W' x.world) := by
  have drop : ∀ x : Exec ω, W x.world → W' x.world := fun x before => weaker x.world before
  have drop' : ∀ x : Exec ω, W' x.world ∧ (progress.failed = false → W x.world) → W' x.world := fun x before => before.1
  refine triple_bind ((keeps_ask world_timeless _).triple (R := fun w => W' w ∧ (progress.failed = false → W w)) drop') (fun phase_start => ?_)
  refine triple_bind ((keeps_phaseDeadline env phase wave_deadline mission_deadline phase_start).triple
    (R := fun w => W' w ∧ (progress.failed = false → W w)) drop') (fun deadline => ?_)
  refine triple_bind (R := fun tally => Upto W W' (progress.failed = false ∧ tally.tasks_failed = 0)) ?_ (fun tally => ?_)
  · rw [(single phase member).2]
    cases failed : progress.failed with
    | true =>
      -- Nothing is sent any more.
      rw [failFast,Bool.and_true,Bool.or_true]
      refine ((keeps_runTasks env world_timeless worker idx phase_start deadline 0 phase.tasks .zero).triple (R := W')
        (fun _ after => after)).weaken (fun x before => before.1) (fun _ x after => ⟨after,fun well => ?_⟩) (fun _ after => after)
      cases well.1
    | false =>
      refine (runTasks_world env worker weaker idx phase_start deadline _ (single phase member).1 .zero
        (works phase member)).weaken (fun x before => before.2 rfl) (fun _ x after => ⟨after.1,fun well => after.2 well.2⟩) (fun _ after => after)
  · refine triple_bind (R := fun _ => Upto W W' (progress.failed = false ∧ tally.tasks_failed = 0)) (triple_of_eq (fun x => rfl) (fun x after => after))
      (fun _ => ?_)
    refine triple_bind ((keeps_ask world_timeless _).triple
      (R := fun w => W' w ∧ ((progress.failed = false ∧ tally.tasks_failed = 0) → W w)) (fun x after => after.1)) (fun now => ?_)
    refine triple_pure (fun x after => ⟨after.1,fun well => after.2 ?_⟩)
    simp only [Bool.or_eq_false_iff,Bool.not_eq_false',Bool.and_eq_true,beq_iff_eq] at well
    exact ⟨well.1,well.2.1.1⟩

theorem runWave_world (wave_deadline : Nat) (mission_deadline : Option Nat) (wave : List Nat) (progress : Progress) :
    Triple (Upto W W' (progress.failed = false)) (runWave env worker config mission wave_deadline mission_deadline wave progress)
      (fun next => Upto W W' (next.failed = false)) (fun x => W' x.world) := by
  induction wave generalizing progress with
  | nil => exact triple_pure (fun x before => before)
  | cons idx later ih =>
    simp only [runWave]
    split
    · exact triple_failure (fun x before => before.1)
    · rename_i phase at_idx
      exact triple_bind (runPhase_world env worker weaker config failFast single works wave_deadline mission_deadline idx
        (List.mem_of_getElem? at_idx) progress) (fun next => ih next)

theorem runWaves_world (mission_deadline : Option Nat) (waves : List (List Nat)) (progress : Progress) :
    Triple (Upto W W' (progress.failed = false)) (runWaves env worker config mission mission_deadline waves progress)
      (fun next => Upto W W' (next.failed = false)) (fun x => W' x.world) := by
  induction waves generalizing progress with
  | nil => exact triple_pure (fun x before => before)
  | cons wave later ih =>
    have drop : ∀ x : Exec ω, W' x.world ∧ (progress.failed = false → W x.world) → W' x.world := fun x before => before.1
    refine triple_bind ((keeps_ask world_timeless _).triple (R := fun w => W' w ∧ (progress.failed = false → W w)) drop) (fun now => ?_)
    refine triple_bind ((keeps_after env _ _).triple (R := fun w => W' w ∧ (progress.failed = false → W w)) drop) (fun deadline => ?_)
    exact triple_bind (runWave_world env worker weaker config failFast single works deadline mission_deadline wave progress) (fun next => ih next)

/-- Started with the stronger fact, a mission leaves the weaker one, whether or not it is
    dropped. -/
theorem run_mission_world (active_missions : List MissionId) :
    Triple (fun x => W x.world) (run_mission_async env worker config active_missions mission) (fun _ x => W' x.world)
      (fun x => W' x.world) := by
  have drop : ∀ x : Exec ω, W x.world → W' x.world := fun x before => weaker x.world before
  unfold run_mission_async
  split
  · exact triple_pure drop
  · rename_i waves _
    refine triple_bind ((keeps_ask world_timeless _).triple drop) (fun down => ?_)
    refine triple_ite (fun _ => triple_pure drop) (fun _ => triple_ite (fun _ => triple_pure drop) (fun _ => ?_))
    refine triple_ite (fun _ => triple_pure drop) (fun _ => ?_)
    have body : Triple (fun x => W x.world) (leased env worker config mission waves) (fun _ x => W' x.world) (fun x => W' x.world) := by
      refine triple_bind ((keeps_ask world_timeless _).triple drop) (fun start => ?_)
      refine triple_bind ((keeps_missionDeadline env mission start).triple drop) (fun mission_deadline => ?_)
      refine triple_bind (R := fun _ => Upto W W' (false = false)) (triple_of_eq (fun x => rfl) (fun x => upto_of_strong weaker)) (fun _ => ?_)
      refine triple_bind (runWaves_world env worker weaker config failFast single works mission_deadline waves ⟨[],false,∅⟩) (fun progress => ?_)
      refine triple_bind (R := fun _ x => W' x.world) ?_ (fun shutdown => ?_)
      · exact ((keeps_ask world_timeless _).triple (R := W') (fun _ after => after)).weaken (fun x before => before.1) (fun _ _ after => after)
          (fun _ after => after)
      refine triple_bind (R := fun _ x => W' x.world) (triple_of_eq (fun x => rfl) (fun x after => after)) (fun _ => ?_)
      exact triple_bind ((keeps_ask world_timeless _).triple (R := W') (fun _ after => after)) (fun now => triple_pure (fun x after => after))
    exact triple_bind (withLease_triple body (fun _ _ after => after)) (fun result => triple_pure (fun x after => after))

end
end Daf.MissionWorker
