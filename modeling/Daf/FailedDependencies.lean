import Daf.PlanOrder
import Daf.ProvisionSteps
import Daf.Runs

/-!
What a failed resource means for those that depend on it. A plan does not say what its resources depend on, so an
apply goes on with all of them.
-/
namespace Daf.FailedDependencies
open Daf.MissionPlan Daf.ProvisionPlan Daf.ProvisionApply Daf.ProvisionSteps Daf.Runs

/-- A resource that another one depends on, maybe through others. -/
def Underlies (desired : List ResourceSpec) : String → String → Prop :=
  Relation.TransGen fun dep name => ∃ spec ∈ desired, spec.name = name ∧ dep ∈ spec.depends_on

def builds : Action → Bool
  | .Create | .Update | .Replace => true
  | .Destroy | .NoOp => false

/-- Once a resource has failed, what would build on it is skipped. -/
def StopsDependents (desired : List ResourceSpec) (progress : List ApplyProgress) : Prop :=
  progress.Pairwise fun first next => first.status.is_failed = true → builds next.action = true →
    Underlies desired first.resource_name next.resource_name → next.status = .Skipped

/-- Whatever has failed before a change, the change does not build on it. -/
def Unaffected (desired : List ResourceSpec) (w : Walk) (change : ResourceChange) : Prop :=
  builds change.action = true → ∀ name ∈ w.failed, ¬ Underlies desired name change.resource_name

section
variable (env : Env) {options : ApplyOptions} {dep_map : AList (fun _ : String => List String)} (desired : List ResourceSpec) {w : Walk}

/-- One change is attempted, and a failure is noted. -/
theorem applyNext_attempts (wet : options.dry_run = false) (empty : ∀ name, (dep_map.lookup name).getD [] = []) (w : Walk) (change : ResourceChange) :
    ∃ status : ApplyStatus, status ≠ .Skipped ∧ (applyNext env options dep_map w change).progress = w.progress ++ [⟨change.resource_name,change.action,status⟩] ∧
      (applyNext env options dep_map w change).failed = if status.is_failed then w.failed ++ [change.resource_name] else w.failed := by
  obtain ⟨-,-,-,-,entry⟩ := single_did env wet w.exec change
  unfold applyNext
  rw [if_neg (by simp [empty])]
  rcases ended : apply_single_change env options w.exec change with ⟨e | done,x⟩
  · exact ⟨.Failed e,by simp,rfl,rfl⟩
  · rw [ended] at entry
    have same := entry done rfl
    subst same
    exact ⟨.Succeeded,by simp,rfl,rfl⟩

/-- The names that are noted are those of the failures that are reported. -/
def Noted (w : Walk) : Prop := ∀ name, name ∈ w.failed ↔ ∃ entry ∈ w.progress, entry.status.is_failed = true ∧ entry.resource_name = name

theorem Noted.next (noted : Noted w) (wet : options.dry_run = false) (empty : ∀ name, (dep_map.lookup name).getD [] = []) (change : ResourceChange) :
    Noted (applyNext env options dep_map w change) := by
  obtain ⟨status,-,progress,failed⟩ := applyNext_attempts env wet empty w change
  intro name
  rw [progress,failed]
  simp only [List.mem_append,List.mem_singleton,or_and_right,exists_or,exists_eq_left,← noted name]
  cases fails : status.is_failed <;> simp [eq_comm]

/-- A walk stops the dependents exactly when there are none to stop. -/
theorem walk_stops (wet : options.dry_run = false) (empty : ∀ name, (dep_map.lookup name).getD [] = []) (changes : List ResourceChange) :
    ∀ w : Walk, Noted w → (StopsDependents desired (changes.foldl (applyNext env options dep_map) w).progress ↔
      StopsDependents desired w.progress ∧ Every (applyNext env options dep_map) (Unaffected desired) w changes) := by
  induction changes with
  | nil => exact fun w _ => (and_iff_left trivial).symm
  | cons change changes ih =>
    intro w noted
    obtain ⟨status,attempted,progress,-⟩ := applyNext_attempts env wet empty w change
    rw [List.foldl_cons,ih _ (noted.next env wet empty change),Every,← and_assoc]
    refine and_congr_left fun _ => ?_
    unfold StopsDependents Unaffected
    rw [progress,List.pairwise_append]
    simp only [List.pairwise_singleton,List.mem_singleton,forall_eq,true_and]
    refine and_congr_right fun _ => ?_
    constructor
    · intro stops building name failed underlies
      obtain ⟨entry,there,fails,rfl⟩ := (noted name).1 failed
      exact attempted (stops entry there fails building underlies)
    · intro free entry there fails building underlies
      exact absurd underlies (free building entry.resource_name ((noted _).2 ⟨entry,there,fails,rfl⟩))

/-- In a dry run everything is skipped, and nothing fails. -/
theorem applyNext_skips (dry : options.dry_run = true) (w : Walk) (change : ResourceChange) :
    (applyNext env options dep_map w change).progress = w.progress ++ [⟨change.resource_name,change.action,.Skipped⟩] ∧
      (applyNext env options dep_map w change).failed = w.failed := by
  unfold applyNext
  split
  · exact ⟨rfl,rfl⟩
  · simp [apply_single_change,dry]

theorem walk_skips (dry : options.dry_run = true) (changes : List ResourceChange) : ∀ w : Walk, w.failed = [] → (∀ entry ∈ w.progress, entry.status = .Skipped) →
    StopsDependents desired (changes.foldl (applyNext env options dep_map) w).progress ∧ Every (applyNext env options dep_map) (Unaffected desired) w changes := by
  induction changes with
  | nil =>
    intro w _ skipped
    exact ⟨List.pairwise_of_forall_mem_list fun _ _ next there _ _ _ => skipped next there,trivial⟩
  | cons change changes ih =>
    intro w none skipped
    obtain ⟨progress,failed⟩ := applyNext_skips env dry w change
    obtain ⟨stops,every⟩ := ih (applyNext env options dep_map w change) (failed.trans none) fun entry there => by
      rw [progress,List.mem_append,List.mem_singleton] at there
      rcases there with old | rfl
      · exact skipped entry old
      · rfl
    exact ⟨stops,fun _ name fails => by rw [none] at fails; exact absurd fails List.not_mem_nil,every⟩

end

theorem apply_progress (env : Env) (options : ApplyOptions) (p : Plan) (x : Exec) : (apply env options p x).1.progress = (walk env options p x).progress := by
  unfold apply
  split
  · rename_i nothing
    simp [walk,nothing]
  · dsimp only
    split <;> rfl

/-- Providers that refuse their second call: the first create. -/
def refusing : Env where
  registered _ := true
  validate _ := []
  create call _ := if call = 1 then .error (.ResourceExhausted "pools") else .ok ⟨"pool",[]⟩
  update _ := .ok ⟨"pool",[]⟩
  delete _ := .ok ()
  save _ := .ok ()

def chainPlan : Plan :=
  .from_changes [⟨"researchers",.Create,none,some (.object []),"resource does not exist"⟩,⟨"builders",.Create,none,some (.object []),"resource does not exist"⟩] []

end Daf.FailedDependencies
