import Daf.MissionPlan
import Mathlib.Data.Rat.Defs
import Mathlib.Algebra.Order.Field.Basic
import Mathlib.Algebra.Order.Field.Rat
import Mathlib.Tactic.Linarith
import Mathlib.Tactic.Positivity

/-!
The specialist router: every agent that may take a task is scored, and the highest score
wins. The scores are exact rationals here. An orchestrator gives no context key, so the
affinity of an agent is zero.
-/
namespace Daf.SpecialistRouting
open Daf.GraphNodes Daf.MissionPlan

inductive AgentStatus where
  | Spawning | Idle | Executing | Waiting | Completed | Failed | Terminated
deriving DecidableEq,Repr

def AgentStatus.is_terminal : AgentStatus → Bool
  | .Completed | .Failed | .Terminated => true
  | _ => false

structure AgentManifest where
  id : AgentId
  /-- The names of the capabilities. -/
  capabilities : List String
deriving DecidableEq,Repr

def AgentManifest.has_capability (m : AgentManifest) (name : String) : Bool := m.capabilities.any (· == name)

structure AgentLoad where
  active_tasks : Nat
  total_completed : Nat
deriving DecidableEq,Repr

def AgentLoad.new : AgentLoad := ⟨0,0⟩

def AgentLoad.assign (l : AgentLoad) : AgentLoad := { l with active_tasks := l.active_tasks + 1 }

/-- A completion without an active task changes nothing. -/
def AgentLoad.complete (l : AgentLoad) : AgentLoad :=
  if l.active_tasks = 0 then l else ⟨l.active_tasks - 1,l.total_completed + 1⟩

structure RoutingDecision where
  agent_id : AgentId
  score : ℚ
  capability_score : ℚ
  load_score : ℚ
  affinity_score : ℚ

structure SpecialistRouter where
  agents : AList (fun _ : AgentId => AgentManifest)
  load : AList (fun _ : AgentId => AgentLoad)
  status : AList (fun _ : AgentId => AgentStatus)

def SpecialistRouter.new : SpecialistRouter := ⟨∅,∅,∅⟩

def capability_weight : ℚ := 1 / 2
def load_weight : ℚ := 3 / 10
def affinity_weight : ℚ := 1 / 5

def SpecialistRouter.register_agent (r : SpecialistRouter) (manifest : AgentManifest) : SpecialistRouter where
  load := r.load.insert manifest.id .new
  status := r.status.insert manifest.id .Idle
  agents := r.agents.insert manifest.id manifest

def SpecialistRouter.deregister_agent (r : SpecialistRouter) (agent_id : AgentId) : SpecialistRouter where
  agents := r.agents.erase agent_id
  load := r.load.erase agent_id
  status := r.status.erase agent_id

def SpecialistRouter.update_status (r : SpecialistRouter) (agent_id : AgentId) (status : AgentStatus) : SpecialistRouter :=
  { r with status := r.status.insert agent_id status }

/-- Change the load of an agent that has one. -/
def SpecialistRouter.onLoad (r : SpecialistRouter) (agent_id : AgentId) (change : AgentLoad → AgentLoad) : SpecialistRouter :=
  match r.load.lookup agent_id with
  | some load => { r with load := r.load.insert agent_id (change load) }
  | none => r

def SpecialistRouter.record_task_completion (r : SpecialistRouter) (agent_id : AgentId) : SpecialistRouter := r.onLoad agent_id .complete

/-- The fraction of the required capabilities that an agent provides. -/
def capScore (required_capabilities : List String) (manifest : AgentManifest) : ℚ :=
  if required_capabilities.isEmpty then 1
  else (required_capabilities.filter manifest.has_capability).length / required_capabilities.length

def SpecialistRouter.loadScore (r : SpecialistRouter) (agent_id : AgentId) : ℚ :=
  match r.load.lookup agent_id with
  | some load => 1 / (1 + load.active_tasks)
  | none => 1 / 2

/-- The decision for one agent, unless it is passed over. -/
def SpecialistRouter.consider (r : SpecialistRouter) (required_capabilities : List String) (allowed : Option (Finset AgentId))
    (agent_id : AgentId) : Option RoutingDecision :=
  match r.agents.lookup agent_id with
  | none => none
  | some manifest =>
    if allowed.any (fun ids => agent_id ∉ ids) then none
    else if (r.status.lookup agent_id).any (·.is_terminal) then none
    else
      let cap_score := capScore required_capabilities manifest
      if !required_capabilities.isEmpty && decide (cap_score < 1) then none
      else
        let load_score := r.loadScore agent_id
        let affinity_score := 0
        some ⟨agent_id,capability_weight * cap_score + load_weight * load_score + affinity_weight * affinity_score,
          cap_score,load_score,affinity_score⟩

/-- The first of the candidates when they are sorted by descending score. -/
def best (candidates : List RoutingDecision) : Option RoutingDecision :=
  (candidates.mergeSort (fun a b => decide (b.score ≤ a.score))).head?

inductive DispatchError where
  | daf (e : DafError)
  /-- No agent is available; the text names the task type and the capabilities. -/
  | noSpecialist (task_type : String) (required_capabilities : List String)
deriving DecidableEq,Repr

/-- The agents are considered in the order in which the map is iterated. -/
def SpecialistRouter.route_task_filtered (r : SpecialistRouter) (order : List AgentId) (task : TaskSpec) (required_capabilities : List String)
    (allowed : Option (Finset AgentId)) : Except DispatchError RoutingDecision × SpecialistRouter :=
  match best (order.filterMap (r.consider required_capabilities allowed)) with
  | none => (.error (.noSpecialist task.task_type required_capabilities),r)
  | some winner => (.ok winner,r.onLoad winner.agent_id .assign)

/-! ### The winner -/

/-- The agent may take a task with these requirements. -/
structure Eligible (r : SpecialistRouter) (required_capabilities : List String) (allowed : Option (Finset AgentId)) (agent_id : AgentId)
    (manifest : AgentManifest) : Prop where
  known : r.agents.lookup agent_id = some manifest
  allowed : ∀ ids ∈ allowed, agent_id ∈ ids
  live : ∀ status ∈ r.status.lookup agent_id, status.is_terminal = false
  capable : ∀ name ∈ required_capabilities, manifest.has_capability name = true

theorem capScore_of_capable {required : List String} {manifest : AgentManifest} (capable : ∀ name ∈ required, manifest.has_capability name = true) :
    capScore required manifest = 1 := by
  unfold capScore
  split
  · rfl
  · rename_i some_required
    have all : required.filter manifest.has_capability = required := List.filter_eq_self.mpr capable
    have positive : (required.length : ℚ) ≠ 0 := by
      simpa using some_required
    rw [all]
    exact div_self positive

/-- A fraction of capabilities that is not below one is one. -/
theorem capScore_eq_one {required : List String} {manifest : AgentManifest}
    (full : ¬ (!required.isEmpty && decide (capScore required manifest < 1)) = true) : capScore required manifest = 1 := by
  cases empty : required.isEmpty with
  | true => rw [capScore,if_pos empty]
  | false =>
    have least : 1 ≤ capScore required manifest := by simpa [empty] using full
    refine le_antisymm ?_ least
    have positive : (0 : ℚ) < required.length := by
      have some_required : 0 < required.length := List.length_pos_iff.mpr (by simpa using empty)
      exact_mod_cast some_required
    rw [capScore,empty,if_neg Bool.false_ne_true,div_le_one positive]
    exact_mod_cast List.length_filter_le _ required

/-- The score of an agent that provides what is required. -/
def SpecialistRouter.scoreOf (r : SpecialistRouter) (agent_id : AgentId) : ℚ :=
  capability_weight * 1 + load_weight * r.loadScore agent_id + affinity_weight * 0

/-- An eligible agent is a candidate. -/
theorem consider_of_eligible {r : SpecialistRouter} {required : List String} {allowed : Option (Finset AgentId)} {agent_id : AgentId}
    {manifest : AgentManifest} (eligible : Eligible r required allowed agent_id manifest) :
    r.consider required allowed agent_id = some ⟨agent_id,r.scoreOf agent_id,1,r.loadScore agent_id,0⟩ := by
  have permitted : allowed.any (fun ids => decide (agent_id ∉ ids)) = false := by
    rw [Option.any_eq_false]
    intro ids given
    simpa using eligible.allowed ids given
  have live : (r.status.lookup agent_id).any (·.is_terminal) = false := by
    rw [Option.any_eq_false]
    intro status found
    simpa using eligible.live status found
  simp only [SpecialistRouter.consider,eligible.known,permitted,live,capScore_of_capable eligible.capable,lt_irrefl,decide_false,
    Bool.and_false,Bool.false_eq_true,if_false]
  rfl

/-- A candidate is a known agent, with the score of its load. -/
theorem consider_some {r : SpecialistRouter} {required : List String} {allowed : Option (Finset AgentId)} {agent_id : AgentId}
    {decision : RoutingDecision} (considered : r.consider required allowed agent_id = some decision) :
    decision.agent_id = agent_id ∧ decision.score = r.scoreOf agent_id ∧ ∃ manifest, r.agents.lookup agent_id = some manifest := by
  unfold SpecialistRouter.consider at considered
  cases known : r.agents.lookup agent_id with
  | none => simp [known] at considered
  | some manifest =>
    simp only [known] at considered
    split at considered
    · cases considered
    split at considered
    · cases considered
    split at considered
    · cases considered
    · rename_i capable
      cases considered
      refine ⟨rfl,?_,manifest,rfl⟩
      simp only [capScore_eq_one capable]
      rfl

/-- The winner is a candidate, and no candidate has a higher score. -/
theorem best_spec {candidates : List RoutingDecision} {winner : RoutingDecision} (found : best candidates = some winner) :
    winner ∈ candidates ∧ ∀ c ∈ candidates, c.score ≤ winner.score := by
  have sorted := @List.pairwise_mergeSort _ (fun a b : RoutingDecision => decide (b.score ≤ a.score))
    (fun a b c first second => by
      simp only [decide_eq_true_eq] at first second ⊢
      exact second.trans first)
    (fun a b => by
      simp only [Bool.or_eq_true,decide_eq_true_eq]
      exact le_total b.score a.score) candidates
  unfold best at found
  cases order : candidates.mergeSort (fun a b => decide (b.score ≤ a.score)) with
  | nil =>
    rw [order] at found
    cases found
  | cons first later =>
    rw [order] at found sorted
    obtain rfl : first = winner := Option.some.inj found
    have members : ∀ c, c ∈ candidates ↔ c ∈ first :: later := fun c => by rw [← order,List.mem_mergeSort]
    refine ⟨(members _).mpr List.mem_cons_self,?_⟩
    intro c member
    rcases List.mem_cons.mp ((members c).mp member) with rfl | after
    · exact le_rfl
    · exact of_decide_eq_true ((List.pairwise_cons.mp sorted).1 c after)

/-- A smaller load score means more active tasks. -/
theorem active_of_loadScore {r : SpecialistRouter} {a b : AgentId} {x y : AgentLoad} (first : r.load.lookup a = some x)
    (second : r.load.lookup b = some y) (lower : r.loadScore a ≤ r.loadScore b) : y.active_tasks ≤ x.active_tasks := by
  simp only [SpecialistRouter.loadScore,first,second] at lower
  have xs : (0 : ℚ) < 1 + x.active_tasks := by positivity
  have ys : (0 : ℚ) < 1 + y.active_tasks := by positivity
  rw [div_le_div_iff₀ xs ys] at lower
  have order : (y.active_tasks : ℚ) ≤ x.active_tasks := by linarith
  exact_mod_cast order

/-- A routed task goes to a known agent, and no eligible agent has fewer active tasks. -/
theorem route_winner {r : SpecialistRouter} {order : List AgentId} {required : List String} {allowed : Option (Finset AgentId)}
    {winner : RoutingDecision} (found : best (order.filterMap (r.consider required allowed)) = some winner) :
    (∃ manifest, r.agents.lookup winner.agent_id = some manifest) ∧
    ∀ id ∈ order, ∀ manifest, Eligible r required allowed id manifest → r.loadScore id ≤ r.loadScore winner.agent_id := by
  obtain ⟨member,highest⟩ := best_spec found
  obtain ⟨id,_,considered⟩ := List.mem_filterMap.mp member
  obtain ⟨rfl,score,known⟩ := consider_some considered
  refine ⟨known,?_⟩
  intro other listed manifest eligible
  have lower := highest _ (List.mem_filterMap.mpr ⟨other,listed,consider_of_eligible eligible⟩)
  rw [score] at lower
  simp only [SpecialistRouter.scoreOf,load_weight] at lower
  linarith

theorem load_onLoad (r : SpecialistRouter) (agent_id other : AgentId) (change : AgentLoad → AgentLoad) :
    (r.onLoad agent_id change).load.lookup other = if other = agent_id then (r.load.lookup agent_id).map change else r.load.lookup other := by
  unfold SpecialistRouter.onLoad
  by_cases same : other = agent_id
  · subst same
    cases found : r.load.lookup other with
    | none => simp [found]
    | some load => simp
  · rw [if_neg same]
    cases found : r.load.lookup agent_id with
    | none => rfl
    | some load => exact AList.lookup_insert_ne same

@[simp] theorem agents_onLoad (r : SpecialistRouter) (agent_id : AgentId) (change : AgentLoad → AgentLoad) :
    (r.onLoad agent_id change).agents = r.agents := by
  unfold SpecialistRouter.onLoad
  cases r.load.lookup agent_id <;> rfl

end Daf.SpecialistRouting
