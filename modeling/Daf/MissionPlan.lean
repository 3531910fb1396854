import Daf.GraphNodes
import Daf.Waves
import Mathlib.Data.List.AList

/-!
Missions: phases with tasks, the phases that each waits for by name, and the order of
execution in waves. A reference to a phase is its index.
-/
namespace Daf.MissionPlan
open Daf.GraphNodes

structure MissionId where
  uuid : BitVec 128
deriving DecidableEq,Repr

structure AgentId where
  uuid : BitVec 128
deriving DecidableEq,Repr

inductive DafError where
  | AgentError (agent_id : Option (BitVec 128)) (message : String)
  | TransportError (endpoint : Option String) (message : String) (retryable : Bool)
  | ProtocolError (message : String)
  | TaskError (task_id : BitVec 128) (message : String)
  | TimeoutError (operation : String) (duration : Duration)
  | ResourceExhausted (resource : String)
  | Unauthorized (message : String)
  | NotFound (entity : String) (id : String)
  | Internal (message : String)
  | SerializationError (message : String)
  | ConfigError (message : String)
  | CryptoError (message : String)
deriving DecidableEq,Repr

structure RetryPolicy where
  /-- Attempts after the first one. -/
  max_retries : Nat

structure Phase where
  name : String
  tasks : List TaskSpec
  /-- Names of the phases that must complete before this one starts. -/
  dependencies : List String
  concurrency_limit : Option Nat
  retry_policy : Option RetryPolicy
  timeout : Option Duration
  required_capabilities : List String

def Phase.new (name : String) : Phase where
  name
  tasks := []
  dependencies := []
  concurrency_limit := none
  retry_policy := none
  timeout := none
  required_capabilities := []

structure Mission where
  id : MissionId
  name : String
  phases : List Phase
  timeout : Option Duration
  retry_policy : RetryPolicy

def Mission.effective_retry_policy (mission : Mission) (phase : Phase) : RetryPolicy :=
  phase.retry_policy.getD mission.retry_policy

/-! ### The order of execution -/

/-- The index of each name; of phases with the same name the last one counts. -/
def phase_names (phases : List Phase) : AList (fun _ : String => Nat) :=
  phases.zipIdx.foldl (fun names p => names.insert p.1.name p.2) ∅

/-- The first dependency of a phase that names no phase. -/
def unknownDependency (names : AList (fun _ : String => Nat)) (phases : List Phase) : Option (Phase × String) :=
  phases.findSome? (fun phase => (phase.dependencies.find? (fun dep => (names.lookup dep).isNone)).map (fun dep => (phase,dep)))

/-- The indices that a phase waits for. -/
def dependencyIndices (names : AList (fun _ : String => Nat)) (phase : Phase) : List Nat :=
  phase.dependencies.map (fun dep => (names.lookup dep).getD 0)

def Mission.resolve_execution_order (mission : Mission) : Except DafError (List (List Nat)) :=
  let names := phase_names mission.phases
  match unknownDependency names mission.phases with
  | some (phase,dep) => .error (.ConfigError ("phase '" ++ phase.name ++ "' depends on unknown phase '" ++ dep ++ "'"))
  | none =>
    let (waves,remaining) := Waves.layers (mission.phases.map (dependencyIndices names))
    if 0 < remaining then .error (.ConfigError "mission contains a dependency cycle between phases") else .ok waves

theorem phase_names_lookup {phases : List Phase} {name : String} {i : Nat} (found : (phase_names phases).lookup name = some i) :
    ∃ phase, phases[i]? = some phase ∧ phase.name = name := by
  unfold phase_names at found
  induction phases using List.reverseRecOn with
  | nil => simp at found
  | append_singleton phases phase ih =>
    rw [List.zipIdx_append,List.foldl_append,Nat.zero_add] at found
    simp only [List.zipIdx_singleton,List.foldl_cons,List.foldl_nil] at found
    by_cases same : name = phase.name
    · subst same
      rw [AList.lookup_insert] at found
      cases found
      exact ⟨phase,List.getElem?_concat_length,rfl⟩
    · rw [AList.lookup_insert_ne same] at found
      obtain ⟨other,at_i,named⟩ := ih found
      exact ⟨other,by rw [List.getElem?_append_left (List.getElem?_eq_some_iff.mp at_i).1]; exact at_i,named⟩

theorem dependencyIndices_lt {phases : List Phase} (known : unknownDependency (phase_names phases) phases = none) :
    ∀ node ∈ phases.map (dependencyIndices (phase_names phases)), ∀ j ∈ node, j < phases.length := by
  intro node member j inside
  obtain ⟨phase,at_phase,rfl⟩ := List.mem_map.mp member
  obtain ⟨dep,at_dep,rfl⟩ := List.mem_map.mp inside
  have all := List.findSome?_eq_none_iff.mp known phase at_phase
  rw [Option.map_eq_none_iff,List.find?_eq_none] at all
  have found := all dep at_dep
  obtain ⟨i,lookup⟩ := Option.isSome_iff_exists.mp (by simpa [Option.isSome_iff_ne_none] using found)
  rw [lookup]
  obtain ⟨other,at_i,_⟩ := phase_names_lookup lookup
  exact (List.getElem?_eq_some_iff.mp at_i).1

/-- The waves of an accepted mission contain every phase exactly once. -/
theorem resolve_execution_order_perm {mission : Mission} {waves : List (List Nat)}
    (accepted : mission.resolve_execution_order = .ok waves) : waves.flatten.Perm (List.range mission.phases.length) := by
  simp only [Mission.resolve_execution_order] at accepted
  split at accepted
  · cases accepted
  · rename_i known
    have low := dependencyIndices_lt known
    have complete : (Waves.layers (mission.phases.map (dependencyIndices (phase_names mission.phases)))).2 = 0 ∧
        (Waves.layers (mission.phases.map (dependencyIndices (phase_names mission.phases)))).1 = waves := by
      by_cases rest : 0 < (Waves.layers (mission.phases.map (dependencyIndices (phase_names mission.phases)))).2
      · simp [rest] at accepted
      · simp only [rest,if_false] at accepted
        exact ⟨by omega,Except.ok.inj accepted⟩
    have perm := Waves.layers_perm (by simpa using low) complete.1
    rw [complete.2,List.length_map] at perm
    exact perm

end Daf.MissionPlan
