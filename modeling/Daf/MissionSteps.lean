import Daf.MissionRun

/-!
What the steps of a mission leave as it is: questions to the environment change neither
the trace nor the world of the workers.
-/
namespace Daf.MissionSteps
open Daf.GraphNodes Daf.MissionPlan Daf.MissionRun Daf.Interrupted

section
variable {ω γ : Type} {obs : Exec ω → γ}

/-- The observation does not depend on the number of questions. -/
def Timeless (obs : Exec ω → γ) : Prop := ∀ x tick, obs { x with tick } = obs x

theorem trace_timeless : Timeless (Exec.trace : Exec ω → List Event) := fun _ _ => rfl
theorem world_timeless : Timeless (Exec.world : Exec ω → ω) := fun _ _ => rfl

theorem keeps_ask {α : Type} (timeless : Timeless obs) (answers : Nat → α) : Keeps obs (ask answers) := fun x => timeless x _

variable (env : Env) (timeless : Timeless obs)
include timeless

omit timeless in
theorem keeps_after (instant : Nat) (d : Duration) : Keeps obs (after env instant d : Prog (Exec ω) Nat) :=
  keeps_ite keeps_failure (keeps_pure _)

theorem keeps_expired (deadline : Nat) : Keeps obs (expired env deadline : Prog (Exec ω) Bool) :=
  keeps_bind (keeps_ask timeless _) (fun _ => keeps_ite (keeps_pure _) (keeps_ask timeless _))

theorem keeps_skips (stopped : Bool) : Keeps obs (skips env stopped : Prog (Exec ω) Bool) :=
  keeps_bind (keeps_ask timeless _) (fun _ => keeps_ite (keeps_pure _) (keeps_pure _))

theorem keeps_taskDeadline (task : TaskSpec) (deadline : Nat) : Keeps obs (taskDeadline env task deadline : Prog (Exec ω) Nat) := by
  unfold taskDeadline
  split
  · exact keeps_pure _
  · exact keeps_bind (keeps_ask timeless _) (fun _ => keeps_bind (keeps_after env _ _) (fun _ => keeps_pure _))

theorem keeps_backoff (deadline attempt : Nat) (tally : Tally) : Keeps obs (backoff env deadline attempt tally : Prog (Exec ω) _) := by
  refine keeps_ite (keeps_pure _) (keeps_bind (keeps_ask timeless _) (fun answer => ?_))
  cases answer with
  | dropped => exact keeps_failure
  | elapsed => exact keeps_pure _
  | woken => exact keeps_bind (keeps_expired env timeless deadline) (fun _ => keeps_ite (keeps_pure _) (keeps_pure _))

omit timeless in
theorem keeps_phaseDeadline (phase : Phase) (wave_deadline : Nat) (mission_deadline : Option Nat) (phase_start : Nat) :
    Keeps obs (phaseDeadline env phase wave_deadline mission_deadline phase_start : Prog (Exec ω) Nat) := by
  simp only [phaseDeadline]
  split
  · exact keeps_pure _
  · exact keeps_bind (keeps_after env _ _) (fun _ => keeps_pure _)

omit timeless in
theorem keeps_missionDeadline (mission : Mission) (start : Nat) : Keeps obs (missionDeadline env mission start : Prog (Exec ω) _) := by
  unfold missionDeadline
  split
  · exact keeps_pure _
  · exact keeps_bind (keeps_after env _ _) (fun _ => keeps_pure _)

/-- A stopped phase only asks whether the orchestrator is shutting down. -/
theorem keeps_runTasks (worker : Worker ω) (idx phase_start deadline max_retries : Nat) (tasks : List TaskSpec) (tally : Tally) :
    Keeps obs (runTasks env worker idx phase_start deadline max_retries true tasks tally) := by
  induction tasks generalizing tally with
  | nil => exact keeps_pure _
  | cons task later ih =>
    intro x
    have skipped : exec (skips env true : Prog (Exec ω) Bool) x = (some true,{ x with tick := x.tick + 1 }) := by
      simp only [skips,exec_bind]
      show goOn _ (some (env.shutdown x.tick),_) = _
      cases down : env.shutdown x.tick <;> simp [goOn]
    rw [runTasks,exec_bind,skipped]
    exact (ih _ _).trans (timeless x _)

end

/-- The lease only changes the state that is shown for the mission. -/
theorem withLease_triple {ω α : Type} {body : Prog (Exec ω) α} {P D : Exec ω → Prop} {Q : α → Exec ω → Prop} (triple : Triple P body Q D)
    (stateless : ∀ x state, D x → D { x with state }) : Triple P (withLease body) Q D := by
  intro x before
  rcases ended : exec body x with ⟨_ | a,y⟩
  · have run : exec (withLease body) x = (none,{ y with state := if y.state = some .Executing then some .Cancelled else y.state }) := by
      show withLease body x = _
      simp only [withLease,ended]
    constructor
    · intro a z same
      rw [run] at same
      cases same
    · intro z same
      rw [run] at same
      obtain ⟨_,rfl⟩ := Prod.mk.inj same
      exact stateless y _ (triple.interrupted before ended)
  · have run : exec (withLease body) x = (some a,y) := by
      show withLease body x = _
      simp only [withLease,ended]
    constructor
    · intro b z same
      rw [run] at same
      obtain ⟨same,rfl⟩ := Prod.mk.inj same
      cases same
      exact triple.returns before ended
    · intro z same
      rw [run] at same
      cases same

end Daf.MissionSteps
