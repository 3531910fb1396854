import Daf.GraphOutcome
import Mathlib.Data.Finset.Union

/-!
Execution graphs that are put together from nodes and edges. An edge is accepted exactly when its ends are known and it closes
no cycle with the edges before it, so that a list of edges is accepted exactly when all ends are known and there is no cycle
in the whole list.
-/
namespace Daf.GraphAssembly
open Daf.Cycles Daf.Digraph Daf.GraphNodes Daf.GraphDag Daf.GraphInvariant Daf.GraphStates Daf.GraphOutcome

/-- One of the edges leads from the first node to the second. -/
def Leads (edges : List Edge) (a b : NodeId) : Prop := ∃ e ∈ edges, e.source = a ∧ e.target = b

theorem Leads.mono {edges more : List Edge} (sub : edges ⊆ more) {a b : NodeId} (leads : Leads edges a b) : Leads more a b := by
  obtain ⟨e,member,ends⟩ := leads
  exact ⟨e,sub member,ends⟩

theorem acyclic_sub {edges more : List Edge} (sub : edges ⊆ more) (acyclic : Acyclic (Leads more)) : Acyclic (Leads edges) :=
  acyclic.of_map id fun _ _ leads => leads.mono sub

/-- The sources of the edges into a node. -/
def sources (edges : List Edge) (id : NodeId) : Finset NodeId := ((edges.filter (·.target = id)).map (·.source)).toFinset

/-- The node with the sources of the edges into it among its dependencies. -/
def recordedIn (edges : List Edge) (n : Node) : Node := { n with dependencies := n.dependencies ∪ sources edges n.id }

/-- The dependency set of every node holds the sources of the edges into it, maybe with others. -/
def Recorded (g : ExecutionGraph) : Prop :=
  ∀ s ∈ g.graph.edges, ∀ node, g.graph.nodes[s.target]? = some node → s.weight.source ∈ node.dependencies

/-- What adding edges makes of a graph. -/
structure Assembled (g : ExecutionGraph) (added : List Edge) (h : ExecutionGraph) : Prop where
  ok : RepOk h
  index : h.index_map = g.index_map
  name : h.name = g.name
  edges : h.edges = g.edges ++ added
  nodes : h.graph.nodes = g.graph.nodes.map (recordedIn added)

section
variable {g h : ExecutionGraph} {e : Edge} {es : List Edge} {a b : NodeId}

/-- Cycles of the indices are cycles of the ids. -/
theorem adjacent_acyclic_iff (ok : RepOk g) {graph : DiGraph Node Edge} (ends : ∀ s ∈ graph.edges,
      (ids g)[s.source]? = some s.weight.source ∧ (ids g)[s.target]? = some s.weight.target) :
    Acyclic graph.Adjacent ↔ Acyclic (Leads (graph.edges.map (·.weight))) := by
  constructor
  · intro acyclic
    refine acyclic.of_map (fun id => (g.index_map.lookup id).getD 0) ?_
    rintro _ _ ⟨e,member,rfl,rfl⟩
    obtain ⟨s,inside,rfl⟩ := List.mem_map.mp member
    obtain ⟨source,target⟩ := ends s inside
    simp only [(ok.index _ _).mpr source,(ok.index _ _).mpr target,Option.getD_some]
    exact ⟨s,inside,rfl,rfl⟩
  · intro acyclic
    refine acyclic.of_map (fun i => ((ids g)[i]?).getD ⟨0⟩) ?_
    rintro _ _ ⟨s,inside,rfl,rfl⟩
    obtain ⟨source,target⟩ := ends s inside
    simp only [source,target,Option.getD_some]
    exact ⟨s.weight,List.mem_map_of_mem inside,rfl,rfl⟩

/-- Adjacent indices are those of the ends of an edge. -/
theorem adjacent_iff (ok : RepOk g) (i j : Nat) :
    g.graph.Adjacent i j ↔ ∃ e ∈ g.edges, (ids g)[i]? = some e.source ∧ (ids g)[j]? = some e.target := by
  constructor
  · rintro ⟨s,inside,rfl,rfl⟩
    exact ⟨s.weight,mem_edges inside,ok.ends s inside⟩
  · rintro ⟨e,member,source,target⟩
    obtain ⟨s,inside,rfl⟩ := List.mem_map.mp member
    obtain ⟨from_s,to_s⟩ := ok.ends s inside
    exact ⟨s,inside,ok.index_unique from_s source,ok.index_unique to_s target⟩

theorem withEnds (ok : RepOk g) {src tgt : Nat} (source : (ids g)[src]? = some e.source) (target : (ids g)[tgt]? = some e.target) :
    ∀ s ∈ (g.graph.add_edge src tgt e).edges, (ids g)[s.source]? = some s.weight.source ∧ (ids g)[s.target]? = some s.weight.target := by
  intro s member
  rcases List.mem_append.mp member with old | new
  · exact ok.ends s old
  · cases List.mem_singleton.mp new
    exact ⟨source,target⟩

theorem withEdge_edges (g : ExecutionGraph) (src tgt : Nat) (e : Edge) : (withEdge g src tgt e).edges = g.edges ++ [e] := by
  simp [ExecutionGraph.edges,withEdge,DiGraph.modify,DiGraph.add_edge]

/-- The check of a new edge finds the cycles of all edges. -/
theorem added_acyclic_iff (ok : RepOk g) {src tgt : Nat} (source : (ids g)[src]? = some e.source) (target : (ids g)[tgt]? = some e.target) :
    (g.graph.add_edge src tgt e).is_cyclic_directed = false ↔ Acyclic (Leads (g.edges ++ [e])) := by
  have ends := withEnds ok source target
  have inRange : (g.graph.add_edge src tgt e).InRange := by
    intro s member
    obtain ⟨first,second⟩ := ends s member
    have low := (List.getElem?_eq_some_iff.mp first).1
    have high := (List.getElem?_eq_some_iff.mp second).1
    simp only [ids,List.length_map] at low high
    exact ⟨low,high⟩
  have all : (g.graph.add_edge src tgt e).edges.map (·.weight) = g.edges ++ [e] := by simp [DiGraph.add_edge,ExecutionGraph.edges]
  rw [DiGraph.is_cyclic_directed_iff inRange,adjacent_acyclic_iff ok ends,all]

/-- An edge that is added connects known nodes and closes no cycle. -/
theorem add_edge_ok (ok : RepOk g) (accepted : g.add_edge e = (.ok (),h)) :
    e.source ∈ ids g ∧ e.target ∈ ids g ∧ Acyclic (Leads (g.edges ++ [e])) := by
  obtain ⟨_,failed⟩ | ⟨src,tgt,source,target,acyclic,_⟩ := add_edge_cases ok e
  · rw [failed] at accepted
    cases accepted
  · exact ⟨List.mem_of_getElem? source,List.mem_of_getElem? target,(added_acyclic_iff ok source target).mp acyclic⟩

/-- Recording the source of one edge at its target. -/
theorem withEdge_nodes (ok : RepOk g) {src tgt : Nat} (target : (ids g)[tgt]? = some e.target) :
    (withEdge g src tgt e).graph.nodes = g.graph.nodes.map (recordedIn [e]) := by
  apply List.ext_getElem?
  intro i
  simp only [withEdge,DiGraph.modify,DiGraph.add_edge,List.getElem?_modify,List.getElem?_map]
  cases found : g.graph.nodes[i]? with
  | none => rfl
  | some n =>
    have at_i : (ids g)[i]? = some n.id := by simp [ids_get,found]
    by_cases here : tgt = i
    · subst here
      rw [at_i,Option.some.injEq] at target
      simp [recordedIn,sources,target]
    · have apart : e.target ≠ n.id := fun same => here (ok.index_unique target (same ▸ at_i))
      simp [recordedIn,sources,here,apart]

/-- An edge between known nodes that closes no cycle is added. -/
theorem add_edge_assembled (ok : RepOk g) (source : e.source ∈ ids g) (target : e.target ∈ ids g) (acyclic : Acyclic (Leads (g.edges ++ [e]))) :
    ∃ h, g.add_edge e = (.ok (),h) ∧ Assembled g [e] h := by
  obtain ⟨src,at_src⟩ := List.mem_iff_getElem?.mp source
  obtain ⟨tgt,at_tgt⟩ := List.mem_iff_getElem?.mp target
  obtain ⟨failure,failed⟩ | ⟨src',tgt',at_src',at_tgt',_,added⟩ := add_edge_cases ok e
  · have free := (added_acyclic_iff ok at_src at_tgt).mpr acyclic
    unfold ExecutionGraph.add_edge at failed
    simp only [(ok.index _ _).mpr at_src,(ok.index _ _).mpr at_tgt,free,Bool.false_eq_true,if_false] at failed
    split at failed <;> cases failed
  · refine ⟨_,added,?_,rfl,rfl,withEdge_edges g src' tgt' e,withEdge_nodes ok at_tgt'⟩
    have kept := repOk_add_edge ok e
    rw [added] at kept
    exact kept

theorem Assembled.ids_eq (assembled : Assembled g es h) : ids h = ids g := by
  rw [ids,assembled.nodes,List.map_map]
  rfl

theorem recordedIn_append (es fs : List Edge) (n : Node) : recordedIn fs (recordedIn es n) = recordedIn (es ++ fs) n := by
  have both : sources (es ++ fs) n.id = sources es n.id ∪ sources fs n.id := by simp [sources]
  rw [recordedIn,recordedIn,recordedIn,both,Finset.union_assoc]

theorem Assembled.refl (ok : RepOk g) : Assembled g [] g := by
  refine ⟨ok,rfl,rfl,by simp,?_⟩
  have same : recordedIn [] = id := by
    funext n
    simp [recordedIn,sources]
  rw [same,List.map_id]

theorem Assembled.trans {k : ExecutionGraph} {fs : List Edge} (first : Assembled g es h) (second : Assembled h fs k) : Assembled g (es ++ fs) k where
  ok := second.ok
  index := second.index.trans first.index
  name := second.name.trans first.name
  edges := by rw [second.edges,first.edges,List.append_assoc]
  nodes := by
    rw [second.nodes,first.nodes,List.map_map]
    exact List.map_congr_left fun n _ => recordedIn_append es fs n

/-- With the sources of its edges recorded before, a node stays as it was. -/
theorem recordedIn_known {n : Node} (known : ∀ e ∈ es, e.target = n.id → e.source ∈ n.dependencies) : recordedIn es n = n := by
  have sub : sources es n.id ⊆ n.dependencies := by
    intro x member
    simp only [sources,List.mem_toFinset,List.mem_map,List.mem_filter,decide_eq_true_eq] at member
    obtain ⟨e,⟨inside,target⟩,rfl⟩ := member
    exact known e inside target
  rw [recordedIn,Finset.union_eq_left.mpr sub]

theorem known_iff (ok : RepOk g) (id : NodeId) : (g.index_map.lookup id).isSome = true ↔ id ∈ ids g := by
  rw [Option.isSome_iff_exists,List.mem_iff_getElem?]
  exact exists_congr fun i => ok.index id i

/-- A node with a new id is appended. -/
theorem add_node_fresh (ok : RepOk g) {node : Node} (fresh : node.id ∉ ids g) : RepOk (g.add_node node).2 ∧ (g.add_node node).1 = node.id ∧
    (g.add_node node).2.graph.nodes = g.graph.nodes ++ [node] ∧ (g.add_node node).2.graph.edges = g.graph.edges ∧
    (g.add_node node).2.name = g.name := by
  refine ⟨repOk_add_node ok node,?_⟩
  unfold ExecutionGraph.add_node
  rw [if_neg fun known => fresh ((known_iff ok node.id).mp known)]
  exact ⟨rfl,rfl,rfl,rfl⟩

/-! ### Reachable graphs record their edges -/

theorem recorded_shape (g : ExecutionGraph) : Recorded (shape g) ↔ Recorded g := by
  constructor
  · intro recorded s member node found
    exact recorded s member (forget node) (by simp [shape,found])
  · intro recorded s member node found
    obtain ⟨old,at_s,rfl⟩ : ∃ old, g.graph.nodes[s.target]? = some old ∧ forget old = node := by simpa [shape] using found
    exact recorded s member old at_s

theorem recorded_add_node (ok : RepOk g) (recorded : Recorded g) (node : Node) : Recorded (g.add_node node).2 := by
  unfold ExecutionGraph.add_node
  split_ifs with known
  · exact recorded
  · intro s member found at_s
    have inside := (ok.inRange s member).2
    simp only [DiGraph.add_node] at at_s
    rw [List.getElem?_append_left inside] at at_s
    exact recorded s member found at_s

theorem recorded_add_edge (ok : RepOk g) (recorded : Recorded g) (edge : Edge) : Recorded (g.add_edge edge).2 := by
  obtain ⟨_,same⟩ | ⟨src,tgt,_,target,_,same⟩ := add_edge_cases ok edge
  · rw [same]; exact recorded
  · rw [same]
    intro s member node found
    rw [withEdge_nodes ok target,List.getElem?_map] at found
    obtain ⟨old,at_old,rfl⟩ := Option.map_eq_some_iff.mp found
    rcases List.mem_append.mp member with before | new
    · exact Finset.mem_union_left _ (recorded s before old at_old)
    · cases List.mem_singleton.mp new
      have named : edge.target = old.id := by
        rw [ids_get,at_old] at target
        exact (Option.some.inj target).symm
      simp [recordedIn,sources,named]

theorem recorded_remove_node (ok : RepOk g) (recorded : Recorded g) (id : NodeId) : Recorded (g.remove_node id).2 := by
  obtain ⟨_,same⟩ | ⟨idx,node,index_map,at_idx,found,same,_⟩ := remove_node_cases ok id
  · rw [same]; exact recorded
  · have free : idx < (cleaned g idx id).nodes.length := (List.getElem?_eq_some_iff.mp found).1
    rw [same]
    intro s member after at_s
    obtain ⟨old,inside,fromOther,toOther,rfl⟩ := (DiGraph.mem_remove_node found s).mp member
    rw [cleaned_edges] at inside
    have at_target : (swapRemove (cleaned g idx id).nodes idx)[renumber ((cleaned g idx id).nodes.length - 1) idx old.target]? = some after := by
      simpa [DiGraph.remove_node,found] using at_s
    have bound : old.target < (cleaned g idx id).nodes.length := by
      have size : (cleaned g idx id).nodes.length = (ids g).length := by rw [← cleaned_ids g idx id,List.length_map]
      have low := (List.getElem?_eq_some_iff.mp (ok.ends old inside).2).1
      omega
    rw [swapRemove_renumber free bound toOther,cleaned_nodes] at at_target
    obtain ⟨n,at_n,rfl⟩ := Option.map_eq_some_iff.mp at_target
    have listed := recorded old inside n at_n
    -- The removed node is not the source of an edge that stays.
    have other : old.weight.source ≠ id := by
      intro named
      have source := (ok.ends old inside).1
      rw [named] at source
      exact fromOther (ok.index_unique source at_idx)
    split_ifs
    · exact Finset.mem_erase.mpr ⟨other,listed⟩
    · exact listed

theorem recorded_apply (ok : RepOk g) (recorded : Recorded g) (call : Call) : Recorded (call.apply g) := by
  cases call with
  | add_node node => exact recorded_add_node ok recorded node
  | add_edge edge => exact recorded_add_edge ok recorded edge
  | remove_node id => exact recorded_remove_node ok recorded id
  | mark_complete id new_state actual_duration =>
    rw [← recorded_shape,Call.apply,shape_mark_complete,recorded_shape]
    exact recorded

theorem recorded_calls (ok : RepOk g) (recorded : Recorded g) (calls : List Call) : Recorded (calls.foldl Call.apply g) := by
  induction calls generalizing g with
  | nil => exact recorded
  | cons call later ih => exact ih (repOk_apply ok call) (recorded_apply ok recorded call)

theorem recorded_build (name : String) (calls : List Call) : Recorded (build name calls) := by
  refine recorded_calls (repOk_new name) ?_ calls
  intro s member
  simp [ExecutionGraph.new,DiGraph.new] at member

/-- The sources of the edges into a node stand among its dependencies. -/
theorem Recorded.known (ok : RepOk g) (recorded : Recorded g) {i : Nat} {n : Node} (found : g.graph.nodes[i]? = some n) (member : e ∈ g.edges)
    (target : e.target = n.id) : e.source ∈ n.dependencies := by
  obtain ⟨s,inside,rfl⟩ := List.mem_map.mp member
  have at_i : (ids g)[i]? = some n.id := by simp [ids_get,found]
  have there := (ok.ends s inside).2
  rw [target] at there
  exact recorded s inside n (ok.index_unique there at_i ▸ found)

end
end Daf.GraphAssembly
