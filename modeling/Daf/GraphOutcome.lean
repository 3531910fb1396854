import Daf.GraphStates

/-!
The outcome of a graph for fixed results of its handlers: the one assignment of
terminal states in which a node is skipped exactly when an edge into it is not
satisfied. It exists and is unique because the edges have no cycle.
-/
namespace Daf.GraphOutcome
open Daf.Cycles Daf.Digraph Daf.GraphNodes Daf.GraphDag Daf.GraphInvariant Daf.GraphStates

/-- Every edge into the node is satisfied under an assignment of states. -/
def admits (g : ExecutionGraph) (states : NodeId → NodeState) (id : NodeId) : Bool :=
  g.edges.all (fun e => e.target ≠ id || satisfied (states e.source) e)

/-- The state that a node gets when it runs. -/
def handled (outcome : NodeId → Bool) (id : NodeId) : NodeState := if outcome id then .Succeeded else .Failed

/-- Each node is skipped when an edge into it is not satisfied, and otherwise has
    the state that its handler gives. -/
def Consistent (g : ExecutionGraph) (outcome : NodeId → Bool) (states : NodeId → NodeState) : Prop :=
  ∀ id ∈ ids g, states id = if admits g states id then handled outcome id else .Skipped

theorem admits_iff (g : ExecutionGraph) (states : NodeId → NodeState) (id : NodeId) :
    admits g states id = true ↔ ∀ e ∈ g.edges, e.target = id → satisfied (states e.source) e = true := by
  simp only [admits,List.all_eq_true,Bool.or_eq_true,decide_eq_true_eq]
  exact forall₂_congr (fun e _ => by rw [imp_iff_not_or])

/-- An edge leads from the first node to the second. -/
def Precedes (g : ExecutionGraph) (a b : NodeId) : Prop := ∃ e ∈ g.edges, e.source = a ∧ e.target = b

theorem precedes_mem {g : ExecutionGraph} (ok : RepOk g) {a b : NodeId} (edge : Precedes g a b) : a ∈ ids g ∧ b ∈ ids g := by
  obtain ⟨e,member,rfl,rfl⟩ := edge
  obtain ⟨s,inside,rfl⟩ := List.mem_map.mp member
  obtain ⟨source,target⟩ := ok.ends s inside
  exact ⟨List.mem_of_getElem? source,List.mem_of_getElem? target⟩

theorem precedes_acyclic {g : ExecutionGraph} (ok : RepOk g) : Acyclic (Precedes g) := by
  refine ok.acyclic.of_map (fun id => (g.index_map.lookup id).getD 0) ?_
  rintro _ _ ⟨e,member,rfl,rfl⟩
  obtain ⟨s,inside,rfl⟩ := List.mem_map.mp member
  obtain ⟨source,target⟩ := ok.ends s inside
  simp only [(ok.index _ _).mpr source,(ok.index _ _).mpr target,Option.getD_some]
  exact ⟨s,inside,rfl,rfl⟩

theorem precedes_wellFounded {g : ExecutionGraph} (ok : RepOk g) : WellFounded (Precedes g) :=
  (precedes_acyclic ok).wellFounded (ids g) (fun _ _ edge => (precedes_mem ok edge).1)

/-- Two consistent assignments agree on the nodes of the graph. -/
theorem consistent_unique {g : ExecutionGraph} (ok : RepOk g) {outcome : NodeId → Bool} {first second : NodeId → NodeState}
    (one : Consistent g outcome first) (two : Consistent g outcome second) : ∀ id ∈ ids g, first id = second id := by
  intro id
  induction id using (precedes_wellFounded ok).induction with
  | _ id ih =>
    intro member
    have same : admits g first id = admits g second id := by
      rw [Bool.eq_iff_iff,admits_iff,admits_iff]
      refine forall₂_congr (fun e inside => ?_)
      refine forall_congr' (fun target => ?_)
      have edge : Precedes g e.source id := ⟨e,inside,rfl,target⟩
      rw [ih e.source edge (precedes_mem ok edge).1]
    rw [one id member,two id member,same]

open Classical in
/-- The assignment, by recursion along the edges. -/
theorem consistent_exists {g : ExecutionGraph} (ok : RepOk g) (outcome : NodeId → Bool) :
    ∃ states, Consistent g outcome states := by
  let next : (id : NodeId) → ((a : NodeId) → Precedes g a id → NodeState) → NodeState := fun id earlier =>
    if ∀ e, (inside : e ∈ g.edges) → (target : e.target = id) → satisfied (earlier e.source ⟨e,inside,rfl,target⟩) e = true
    then handled outcome id else .Skipped
  refine ⟨(precedes_wellFounded ok).fix next,fun id _ => ?_⟩
  rw [WellFounded.fix_eq]
  have same : (∀ e, (inside : e ∈ g.edges) → (target : e.target = id) →
      satisfied ((precedes_wellFounded ok).fix next e.source) e = true) ↔
        admits g ((precedes_wellFounded ok).fix next) id = true := (admits_iff g _ id).symm
  simp only [next]
  by_cases holds : admits g ((precedes_wellFounded ok).fix next) id = true
  · rw [if_pos holds,if_pos (same.mpr holds)]
  · rw [if_neg holds,if_neg (fun all => holds (same.mp all))]

/-! ### Graphs on the way to the outcome -/

/-- The terminal states of the graph are those of the assignment. -/
def Agrees (states : NodeId → NodeState) (g : ExecutionGraph) : Prop :=
  ∀ id state, stateOf g id = some state → state.is_terminal = true → state = states id

section
variable {g h : ExecutionGraph} {outcome : NodeId → Bool} {states : NodeId → NodeState}

/-- A node whose edges are satisfied runs under the assignment. -/
theorem Agrees.runs (agrees : Agrees states h) (same : shape h = shape g) (consistent : Consistent g outcome states)
    {id : NodeId} (member : id ∈ ids g) (free : EdgesSatisfied h id) : states id = handled outcome id := by
  rw [consistent id member,if_pos]
  rw [admits_iff]
  intro e inside target
  rw [← edges_of_shape same] at inside
  obtain ⟨state,known,holds⟩ := free e inside target
  rwa [← agrees e.source state known (terminal_of_satisfied holds)]

/-- A blocked node is skipped under the assignment. -/
theorem Agrees.skipped (agrees : Agrees states h) (same : shape h = shape g) (consistent : Consistent g outcome states)
    {id : NodeId} (member : id ∈ ids g) (blocked : Blocked h id) : states id = .Skipped := by
  rw [consistent id member,if_neg]
  rw [admits_iff]
  intro all
  obtain ⟨e,inside,target,state,known,terminal,fails⟩ := blocked
  rw [edges_of_shape same] at inside
  have holds := all e inside target
  rw [← agrees e.source state known terminal,fails] at holds
  cases holds

theorem Agrees.skip (agrees : Agrees states h) (ok : RepOk g) (same : shape h = shape g) (consistent : Consistent g outcome states) :
    Agrees states h.skip_impossible_nodes := by
  refine (skip_induction (P := fun k => shape k = shape g ∧ Agrees states k) (fun k i id okK skip reached => ?_)
    (ok.of_shape same) ⟨same,agrees⟩).2
  obtain ⟨sameK,agreesK⟩ := reached
  refine ⟨(shape_skipAt k i).trans sameK,fun x state known terminal => ?_⟩
  rw [stateOf_skipAt okK skip.at_i] at known
  by_cases here : x = id
  · subst here
    have member : x ∈ ids g := by
      rw [← ids_of_shape sameK]
      exact List.mem_of_getElem? skip.at_i
    rw [if_pos rfl,Option.some.injEq] at known
    rw [← known,agreesK.skipped sameK consistent member skip.blocked]
  · rw [if_neg here] at known
    exact agreesK x state known terminal

/-- Recording the state that the assignment gives keeps the agreement. -/
theorem Agrees.mark_complete (agrees : Agrees states h) (ok : RepOk g) (same : shape h = shape g)
    (consistent : Consistent g outcome states) {id : NodeId} (member : id ∈ ids h) (duration : Option Duration) :
    Agrees states (h.mark_complete id (states id) duration).2 := by
  obtain ⟨marked,result,_,sameMarked,written⟩ := mark_complete_eq (ok.of_shape same) member (states id) duration
  rw [result]
  refine Agrees.skip (fun x state known terminal => ?_) ok (sameMarked.trans same) consistent
  rw [written] at known
  by_cases here : x = id
  · subst here
    simpa using known.symm
  · rw [if_neg here] at known
    exact agrees x state known terminal

/-- Once no node waits or runs, and nothing more is ready or blocked, every node is
    terminal: the first waiting node along the edges would be one or the other. -/
theorem settled (ok : RepOk h) (idle : ∀ id state, stateOf h id = some state → state = .Pending ∨ state.is_terminal = true)
    (none_ready : h.ready_nodes = []) (none_blocked : ∀ id, stateOf h id = some .Pending → ¬ Blocked h id) :
    ∀ id state, stateOf h id = some state → state.is_terminal = true := by
  intro id state known
  by_contra waiting
  have pending : stateOf h id = some .Pending := by
    rcases idle id state known with rfl | terminal
    · exact known
    · exact absurd terminal waiting
  let remaining := (ids h).filter (fun x => stateOf h x = some .Pending)
  have member : id ∈ remaining := List.mem_filter.mpr ⟨(stateOf_isSome ok id).mp ⟨_,pending⟩,by simpa using pending⟩
  obtain ⟨first,inside,minimal⟩ := (precedes_acyclic ok).exists_source (List.ne_nil_of_mem member)
  have waits : stateOf h first = some .Pending := by simpa using (List.mem_filter.mp inside).2
  have ready : EdgesSatisfied h first := by
    intro e inEdges target
    have edge : Precedes h e.source first := ⟨e,inEdges,rfl,target⟩
    obtain ⟨before,knownBefore⟩ := (stateOf_isSome ok e.source).mpr (precedes_mem ok edge).1
    have terminal : before.is_terminal = true := by
      rcases idle e.source before knownBefore with rfl | terminal
      · refine absurd edge (minimal e.source (List.mem_filter.mpr ⟨(precedes_mem ok edge).1,by simpa using knownBefore⟩))
      · exact terminal
    refine ⟨before,knownBefore,?_⟩
    by_contra fails
    exact none_blocked first waits ⟨e,inEdges,target,before,knownBefore,terminal,by simpa using fails⟩
  have listed := (mem_ready_nodes ok first).mpr ⟨waits,ready⟩
  rw [none_ready] at listed
  cases listed

end
end Daf.GraphOutcome
