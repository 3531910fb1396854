import Daf.GraphStates
import Mathlib.Algebra.GroupWithZero.Nat
import Mathlib.Data.Char
import Mathlib.Data.List.Lex
import Mathlib.Data.List.Sort

/-!
The wave scheduler: from the present states of the nodes it simulates a run in
which every node succeeds, and groups the nodes that are ready together into
waves. The order of nodes of equal priority within a wave is a parameter, since
nothing that is proved depends on it.
-/
namespace Daf.GraphScheduler
open Daf.GraphNodes Daf.GraphDag Daf.GraphInvariant Daf.GraphStates

structure Wave where
  wave_number : Nat
  nodes : List NodeId
  estimated_duration : Duration

structure ExecutionPlan where
  waves : List Wave
  total_estimated_duration : Duration

/-- A result of the scheduler; the sum of the estimates may overflow. -/
inductive Planned where
  | plan (plan : ExecutionPlan)
  | failed (error : GraphError)
  | overflow

def Planned.overflows : Planned → Bool
  | .overflow => true
  | _ => false

def priorityOf (g : ExecutionGraph) (id : NodeId) : Int := ((g.get_node id).map (·.priority)).getD 0
def nameOf (g : ExecutionGraph) (id : NodeId) : String := ((g.get_node id).map (·.name)).getD ""
/-- The scalar values of the name; strings compare by them. -/
def nameKey (g : ExecutionGraph) (id : NodeId) : List Char := (nameOf g id).toList

/-- An order of the ready nodes by descending priority, with some way to break ties. -/
structure Tiebreak where
  sort : ExecutionGraph → List NodeId → List NodeId
  perm : ∀ g ready, (sort g ready).Perm ready
  descending : ∀ g ready, (sort g ready).Pairwise (fun a b => priorityOf g b ≤ priorityOf g a)

/-- The comparison of the source: priority first, then the name. -/
def before (g : ExecutionGraph) (a b : NodeId) : Bool :=
  priorityOf g b < priorityOf g a || (priorityOf g b == priorityOf g a && nameKey g a ≤ nameKey g b)

theorem before_iff (g : ExecutionGraph) (a b : NodeId) : before g a b = true ↔
    priorityOf g b < priorityOf g a ∨ priorityOf g b = priorityOf g a ∧ nameKey g a ≤ nameKey g b := by
  simp [before]

theorem before_total (g : ExecutionGraph) (a b : NodeId) : before g a b = true ∨ before g b a = true := by
  rw [before_iff,before_iff]
  rcases lt_trichotomy (priorityOf g a) (priorityOf g b) with low | same | high
  · exact .inr (.inl low)
  · rcases le_total (nameKey g a) (nameKey g b) with names | names
    · exact .inl (.inr ⟨same.symm,names⟩)
    · exact .inr (.inr ⟨same,names⟩)
  · exact .inl (.inl high)

theorem before_trans (g : ExecutionGraph) (a b c : NodeId) (first : before g a b = true) (second : before g b c = true) :
    before g a c = true := by
  rw [before_iff] at first second ⊢
  rcases first with low | ⟨low,names⟩ <;> rcases second with low' | ⟨low',names'⟩
  · exact .inl (by omega)
  · exact .inl (by omega)
  · exact .inl (by omega)
  · exact .inr ⟨by omega,names.trans names'⟩

/-- The tie-breaking of the source: a stable sort by priority and name. -/
def byName : Tiebreak where
  sort g ready := ready.insertionSort (fun a b => before g a b = true)
  perm g ready := List.perm_insertionSort _ ready
  descending g ready := by
    have total : Std.Total (fun a b => before g a b = true) := ⟨before_total g⟩
    have transitive : IsTrans NodeId (fun a b => before g a b = true) := ⟨before_trans g⟩
    refine (List.pairwise_insertionSort _ ready).imp (fun {a b} ordered => ?_)
    rw [before_iff] at ordered
    omega

structure WaveScheduler where
  max_concurrency : Option Nat
  order : Tiebreak

namespace WaveScheduler

/-- The nodes of the next wave: the ready ones in order, as many as may run. -/
def nextWave (scheduler : WaveScheduler) (sim : ExecutionGraph) : List NodeId :=
  let ready := scheduler.order.sort sim sim.ready_nodes
  match scheduler.max_concurrency with
  | none => ready
  | some max => ready.take max

/-- The longest estimate of the nodes that have one, or a second. -/
def waveEstimate (sim : ExecutionGraph) (ready : List NodeId) : Duration :=
  ((ready.filterMap (fun id => (sim.get_node id).bind (·.estimated_duration))).max?).getD (Duration.from_secs 1)

/-- The simulation loop. The first argument is the number of waves that may still
    be planned before the safety valve of the source stops it. -/
def planLoop (scheduler : WaveScheduler) : Nat → Nat → ExecutionGraph → List Wave
  | 0,_,_ => []
  | rounds+1,wave_number,sim =>
    if sim.ready_nodes = [] then []
    else
      let ready := scheduler.nextWave sim
      ⟨wave_number,ready,waveEstimate sim ready⟩ ::
        scheduler.planLoop rounds (wave_number + 1)
          (ready.foldl (fun sim id => (sim.mark_complete id .Succeeded none).2) sim)

def plan_waves (scheduler : WaveScheduler) (graph : ExecutionGraph) : Planned :=
  if scheduler.max_concurrency = some 0 then .failed (.InvalidConfiguration "max concurrency must be positive")
  else if graph.node_count = 0 then .plan ⟨[],0⟩
  else
    let waves := scheduler.planLoop (graph.node_count + 1) 0 graph
    let total := (waves.map (·.estimated_duration)).sum
    if Duration.MAX < total then .overflow else .plan ⟨waves,total⟩

end WaveScheduler

/-! ### The next wave -/

theorem nextWave_sub (scheduler : WaveScheduler) (g : ExecutionGraph) {id : NodeId} (member : id ∈ scheduler.nextWave g) :
    id ∈ g.ready_nodes := by
  unfold WaveScheduler.nextWave at member
  cases limit : scheduler.max_concurrency with
  | none =>
    simp only [limit] at member
    exact (scheduler.order.perm g _).mem_iff.mp member
  | some max =>
    simp only [limit] at member
    exact (scheduler.order.perm g _).mem_iff.mp (List.mem_of_mem_take member)

theorem nextWave_nodup (scheduler : WaveScheduler) {g : ExecutionGraph} (ok : RepOk g) : (scheduler.nextWave g).Nodup := by
  have sorted := (scheduler.order.perm g _).nodup_iff.mpr (ready_nodes_nodup ok)
  unfold WaveScheduler.nextWave
  cases scheduler.max_concurrency with
  | none => exact sorted
  | some max => exact sorted.sublist (List.take_sublist max _)

theorem nextWave_ne_nil {scheduler : WaveScheduler} (positive : scheduler.max_concurrency ≠ some 0) {g : ExecutionGraph}
    (ready : g.ready_nodes ≠ []) : scheduler.nextWave g ≠ [] := by
  have sorted : scheduler.order.sort g g.ready_nodes ≠ [] := by
    intro empty
    have size := (scheduler.order.perm g g.ready_nodes).length_eq
    rw [empty] at size
    exact ready (List.length_eq_zero_iff.mp size.symm)
  unfold WaveScheduler.nextWave
  cases limit : scheduler.max_concurrency with
  | none => exact sorted
  | some max =>
    rw [limit] at positive
    have : max ≠ 0 := fun zero => positive (by rw [zero])
    simp [List.take_eq_nil_iff,this,sorted]

/-- A plan starts with the next wave, and is empty only when no node is ready. -/
theorem plan_waves_cases (scheduler : WaveScheduler) (g : ExecutionGraph) :
    (∃ plan, scheduler.plan_waves g = .plan plan ∧ scheduler.max_concurrency ≠ some 0 ∧
      (plan.waves.head?.map (·.nodes) = if g.ready_nodes = [] then none else some (scheduler.nextWave g))) ∨
    scheduler.max_concurrency = some 0 ∧
      scheduler.plan_waves g = .failed (.InvalidConfiguration "max concurrency must be positive") ∨
    scheduler.plan_waves g = .overflow := by
  unfold WaveScheduler.plan_waves
  by_cases zero : scheduler.max_concurrency = some 0
  · exact .inr (.inl ⟨zero,by rw [if_pos zero]⟩)
  · rw [if_neg zero]
    by_cases empty : g.node_count = 0
    · have none_ready : g.ready_nodes = [] := by
        have : g.graph.nodes.length = 0 := empty
        simp [ExecutionGraph.ready_nodes,this]
      exact .inl ⟨_,by rw [if_pos empty],zero,by simp [none_ready]⟩
    · rw [if_neg empty]
      simp only
      by_cases large : Duration.MAX < ((scheduler.planLoop (g.node_count + 1) 0 g).map (·.estimated_duration)).sum
      · exact .inr (.inr (by rw [if_pos large]))
      · refine .inl ⟨_,by rw [if_neg large],zero,?_⟩
        rw [WaveScheduler.planLoop]
        by_cases none_ready : g.ready_nodes = []
        · simp [none_ready]
        · simp [none_ready]

end Daf.GraphScheduler
