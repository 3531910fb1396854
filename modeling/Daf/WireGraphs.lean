import Daf.GraphAssembly

/-!
The wire form of an execution graph: its name, its nodes and its edges. Reading it adds the nodes and then the edges one after
the other, so that what is rejected is a repeated id, an unknown end or a cycle; what was written from a graph is read back as
that graph, in whatever order its edges stand.
-/
namespace Daf.WireGraphs
open Daf.Cycles Daf.Digraph Daf.GraphNodes Daf.GraphDag Daf.GraphInvariant Daf.GraphStates Daf.GraphOutcome Daf.GraphAssembly

structure GraphWire where
  name : String
  nodes : List Node
  edges : List Edge

/-- The nodes and edges in index order. -/
def serialize (g : ExecutionGraph) : GraphWire := ⟨g.name,g.nodes,g.edges⟩

inductive WireError where
  /-- The message is "duplicate node ID". -/
  | DuplicateNode
  /-- The message is that of the error. -/
  | Edge (error : GraphError)

def addNodes (g : ExecutionGraph) : List Node → Except WireError ExecutionGraph
  | [] => .ok g
  | node :: later => if (g.index_map.lookup node.id).isSome then .error .DuplicateNode else addNodes (g.add_node node).2 later

def addEdges (g : ExecutionGraph) : List Edge → Except WireError ExecutionGraph
  | [] => .ok g
  | edge :: later =>
    match g.add_edge edge with
    | (.error e,_) => .error (.Edge e)
    | (.ok (),g) => addEdges g later

def deserialize (wire : GraphWire) : Except WireError ExecutionGraph :=
  match addNodes (ExecutionGraph.new wire.name) wire.nodes with
  | .error e => .error e
  | .ok g => addEdges g wire.edges

/-- The index map that `from_json` builds again when the graph is there. -/
def reindexed (g : ExecutionGraph) : ExecutionGraph :=
  { g with index_map := g.graph.nodes.zipIdx.foldl (fun map entry => map.insert entry.1.id entry.2) ∅ }

section
variable {g h : ExecutionGraph} {nodes : List Node} {es : List Edge}

/-- Nodes are added as long as their ids are new. -/
theorem addNodes_fresh (ok : RepOk g) (distinct : (ids g ++ nodes.map (·.id)).Nodup) : ∃ h, addNodes g nodes = .ok h ∧ RepOk h ∧
    h.graph.nodes = g.graph.nodes ++ nodes ∧ h.graph.edges = g.graph.edges ∧ h.name = g.name := by
  induction nodes generalizing g with
  | nil => exact ⟨g,rfl,ok,by simp,rfl,rfl⟩
  | cons node later ih =>
    rw [List.map_cons] at distinct
    have fresh : node.id ∉ ids g := fun known => (List.nodup_append.mp distinct).2.2 _ known _ List.mem_cons_self rfl
    obtain ⟨okNext,-,nodes,edges,name⟩ := add_node_fresh ok fresh
    have grown : ids (g.add_node node).2 = ids g ++ [node.id] := by simp [ids,nodes]
    obtain ⟨h,added,okH,nodesH,edgesH,nameH⟩ := ih okNext (by rw [grown]; simpa using distinct)
    refine ⟨h,?_,okH,by rw [nodesH,nodes]; simp,edgesH.trans edges,nameH.trans name⟩
    rw [addNodes,if_neg fun known => fresh ((known_iff ok node.id).mp known)]
    exact added

theorem addNodes_ok (ok : RepOk g) (added : addNodes g nodes = .ok h) : (ids g ++ nodes.map (·.id)).Nodup := by
  induction nodes generalizing g with
  | nil =>
    rw [List.map_nil,List.append_nil]
    exact ok.ids_nodup
  | cons node later ih =>
    rw [addNodes] at added
    split_ifs at added with known
    have fresh : node.id ∉ ids g := fun member => known ((known_iff ok node.id).mpr member)
    obtain ⟨okNext,-,nodes,-,-⟩ := add_node_fresh ok fresh
    have grown : ids (g.add_node node).2 = ids g ++ [node.id] := by simp [ids,nodes]
    have distinct := ih okNext added
    rw [grown] at distinct
    simpa using distinct

/-- Edges between known nodes are added as long as there is no cycle in all of them. -/
theorem addEdges_assembled (ok : RepOk g) (known : ∀ e ∈ es, e.source ∈ ids g ∧ e.target ∈ ids g) (acyclic : Acyclic (Leads (g.edges ++ es))) :
    ∃ h, addEdges g es = .ok h ∧ Assembled g es h := by
  induction es generalizing g with
  | nil => exact ⟨g,rfl,.refl ok⟩
  | cons e later ih =>
    obtain ⟨source,target⟩ := known e List.mem_cons_self
    have front : g.edges ++ [e] <+: g.edges ++ e :: later := ⟨later,by simp⟩
    obtain ⟨next,added,first⟩ := add_edge_assembled ok source target (acyclic_sub front.subset acyclic)
    obtain ⟨h,rest,second⟩ := ih first.ok (fun f member => first.ids_eq ▸ known f (List.mem_cons_of_mem e member))
      (by rw [first.edges,List.append_assoc]; exact acyclic)
    refine ⟨h,?_,first.trans second⟩
    rw [addEdges,added]
    exact rest

theorem addEdges_ok (ok : RepOk g) (added : addEdges g es = .ok h) :
    (∀ e ∈ es, e.source ∈ ids g ∧ e.target ∈ ids g) ∧ Acyclic (Leads (g.edges ++ es)) := by
  induction es generalizing g with
  | nil =>
    rw [List.append_nil]
    exact ⟨fun _ member => absurd member List.not_mem_nil,precedes_acyclic ok⟩
  | cons e later ih =>
    rw [addEdges] at added
    split at added
    · cases added
    · next next accepted =>
      obtain ⟨source,target,acyclic⟩ := add_edge_ok ok accepted
      obtain ⟨_,same,first⟩ := add_edge_assembled ok source target acyclic
      rw [accepted,Prod.mk.injEq] at same
      obtain ⟨-,rfl⟩ := same
      obtain ⟨known,rest⟩ := ih first.ok added
      rw [first.edges,List.append_assoc] at rest
      refine ⟨List.forall_mem_cons.mpr ⟨⟨source,target⟩,?_⟩,rest⟩
      intro f member
      have ends := known f member
      rw [first.ids_eq] at ends
      exact ends

theorem new_edges (name : String) : (ExecutionGraph.new name).edges = [] := rfl

/-- A wire form without repeated ids, unknown ends and cycles is read, each node with the sources of its edges recorded. -/
theorem deserialize_assembled {wire : GraphWire} (distinct : (wire.nodes.map (·.id)).Nodup)
    (known : ∀ e ∈ wire.edges, e.source ∈ wire.nodes.map (·.id) ∧ e.target ∈ wire.nodes.map (·.id)) (acyclic : Acyclic (Leads wire.edges)) :
    ∃ h, deserialize wire = .ok h ∧ RepOk h ∧ h.name = wire.name ∧ h.graph.nodes = wire.nodes.map (recordedIn wire.edges) ∧ h.edges = wire.edges := by
  obtain ⟨bare,added,okBare,nodes,edges,name⟩ := @addNodes_fresh _ wire.nodes (repOk_new wire.name) distinct
  have sameIds : ids bare = wire.nodes.map (·.id) := by
    rw [ids,nodes]
    rfl
  have none : bare.edges = [] := by
    rw [ExecutionGraph.edges,edges]
    rfl
  obtain ⟨h,rest,assembled⟩ := addEdges_assembled okBare (by rw [sameIds]; exact known) (by rw [none]; exact acyclic)
  refine ⟨h,by rw [deserialize,added]; exact rest,assembled.ok,assembled.name.trans name,?_,?_⟩
  · rw [assembled.nodes,nodes]
    rfl
  · rw [assembled.edges,none]
    rfl

/-- What is read has no repeated ids, unknown ends and cycles. -/
theorem deserialize_ok {wire : GraphWire} (read : deserialize wire = .ok h) : (wire.nodes.map (·.id)).Nodup ∧
    (∀ e ∈ wire.edges, e.source ∈ wire.nodes.map (·.id) ∧ e.target ∈ wire.nodes.map (·.id)) ∧ Acyclic (Leads wire.edges) := by
  rw [deserialize] at read
  split at read
  · cases read
  · next bare added =>
    have distinct : (wire.nodes.map (·.id)).Nodup := addNodes_ok (repOk_new wire.name) added
    obtain ⟨_,same,okBare,nodes,edges,-⟩ := @addNodes_fresh _ wire.nodes (repOk_new wire.name) distinct
    rw [added,Except.ok.injEq] at same
    subst same
    obtain ⟨known,acyclic⟩ := addEdges_ok okBare read
    have sameIds : ids bare = wire.nodes.map (·.id) := by
      rw [ids,nodes]
      rfl
    have none : bare.edges = [] := by
      rw [ExecutionGraph.edges,edges]
      rfl
    rw [sameIds] at known
    rw [none] at acyclic
    exact ⟨distinct,known,acyclic⟩

/-! ### The index of `from_json` -/

/-- Entries with new keys are found in a map beside those from before. -/
theorem lookup_foldl_insert (list : List (Node × Nat)) (distinct : (list.map (·.1.id)).Nodup) (map : AList (fun _ : NodeId => Nat)) (id : NodeId)
    (i : Nat) : (list.foldl (fun map entry => map.insert entry.1.id entry.2) map).lookup id = some i ↔
      (∃ entry ∈ list, entry.1.id = id ∧ entry.2 = i) ∨ id ∉ list.map (·.1.id) ∧ map.lookup id = some i := by
  induction list generalizing map with
  | nil => simp
  | cons entry later ih =>
    obtain ⟨fresh,distinct⟩ := List.nodup_cons.mp distinct
    rw [List.foldl_cons,ih distinct]
    by_cases same : id = entry.1.id
    · subst same
      simp only [AList.lookup_insert,Option.some.injEq,List.mem_cons,List.map_cons]
      constructor
      · rintro (⟨other,member,sameId,value⟩ | ⟨-,rfl⟩)
        · exact .inl ⟨other,.inr member,sameId,value⟩
        · exact .inl ⟨entry,.inl rfl,rfl,rfl⟩
      · rintro (⟨other,rfl | member,sameId,value⟩ | ⟨outside,-⟩)
        · exact .inr ⟨fresh,value⟩
        · exact .inl ⟨other,member,sameId,value⟩
        · exact absurd (.inl trivial) outside
    · simp only [AList.lookup_insert_ne same,List.mem_cons,List.map_cons]
      constructor
      · rintro (⟨other,member,sameId,value⟩ | ⟨outside,known⟩)
        · exact .inl ⟨other,.inr member,sameId,value⟩
        · exact .inr ⟨not_or.mpr ⟨same,outside⟩,known⟩
      · rintro (⟨other,rfl | member,sameId,value⟩ | ⟨outside,known⟩)
        · exact absurd sameId.symm same
        · exact .inl ⟨other,member,sameId,value⟩
        · exact .inr ⟨(not_or.mp outside).2,known⟩

/-- Building the index again changes nothing that is looked up. -/
theorem reindexed_lookup (ok : RepOk g) (id : NodeId) : (reindexed g).index_map.lookup id = g.index_map.lookup id := by
  have keys : g.graph.nodes.zipIdx.map (·.1.id) = ids g := by
    rw [show (fun entry : Node × Nat => entry.1.id) = (·.id) ∘ Prod.fst from rfl,← List.map_map,List.zipIdx_map_fst]
    rfl
  apply Option.ext
  intro i
  rw [reindexed,lookup_foldl_insert _ (keys ▸ ok.ids_nodup),ok.index id i,ids_get]
  constructor
  · rintro (⟨⟨node,j⟩,member,rfl,rfl⟩ | ⟨-,none⟩)
    · rw [List.mem_zipIdx_iff_getElem?] at member
      simp [member]
    · cases none
  · intro found
    obtain ⟨node,at_i,rfl⟩ := Option.map_eq_some_iff.mp found
    exact .inl ⟨(node,i),List.mem_zipIdx_iff_getElem?.mpr at_i,rfl,rfl⟩

/-! ### Graphs with the same nodes and edges -/

theorem get_node_of_nodes (okG : RepOk g) (okH : RepOk h) (same : h.graph.nodes = g.graph.nodes) (id : NodeId) : h.get_node id = g.get_node id := by
  have sameIds : ids h = ids g := by rw [ids,ids,same]
  have lookups : h.index_map.lookup id = g.index_map.lookup id := by
    apply Option.ext
    intro i
    rw [okH.index id i,okG.index id i,sameIds]
  rw [ExecutionGraph.get_node,ExecutionGraph.get_node,lookups,same]

theorem ready_of_nodes (okG : RepOk g) (okH : RepOk h) (same : h.graph.nodes = g.graph.nodes) (edges : ∀ e, e ∈ h.edges ↔ e ∈ g.edges)
    (id : NodeId) : id ∈ h.ready_nodes ↔ id ∈ g.ready_nodes := by
  have states : ∀ x, stateOf h x = stateOf g x := fun x => by rw [stateOf,stateOf,get_node_of_nodes okG okH same x]
  rw [mem_ready_nodes okH,mem_ready_nodes okG,states]
  refine and_congr_right fun _ => ?_
  simp only [EdgesSatisfied,states,edges]

theorem adjacent_of_nodes (okG : RepOk g) (okH : RepOk h) (same : h.graph.nodes = g.graph.nodes) (edges : ∀ e, e ∈ h.edges ↔ e ∈ g.edges)
    (i j : Nat) : h.graph.Adjacent i j ↔ g.graph.Adjacent i j := by
  have sameIds : ids h = ids g := by rw [ids,ids,same]
  simp only [adjacent_iff okH,adjacent_iff okG,sameIds,edges]

end

/-- The nodes of a graph that calls build have recorded their dependencies already, so that reading its edges adds none. -/
theorem deserialize_written (name : String) (calls : List Call) {es : List Edge} (order : es.Perm (build name calls).edges) :
    ∃ h, deserialize { serialize (build name calls) with edges := es } = .ok h ∧ RepOk h ∧ h.name = (build name calls).name ∧
      h.graph.nodes = (build name calls).graph.nodes ∧ h.edges = es := by
  have ok := repOk_build name calls
  have recorded := recorded_build name calls
  have known : ∀ e ∈ es, e.source ∈ ids (build name calls) ∧ e.target ∈ ids (build name calls) :=
    fun e inside => precedes_mem ok ⟨e,order.mem_iff.mp inside,rfl,rfl⟩
  obtain ⟨h,read,okH,sameName,nodes,edges⟩ := @deserialize_assembled { serialize (build name calls) with edges := es }
    ok.ids_nodup known (acyclic_sub order.subset (precedes_acyclic ok))
  refine ⟨h,read,okH,sameName,?_,edges⟩
  rw [nodes]
  conv_rhs => rw [← List.map_id (build name calls).graph.nodes]
  refine List.map_congr_left fun n inside => recordedIn_known fun e listed target => ?_
  obtain ⟨i,found⟩ := List.mem_iff_getElem?.mp inside
  exact recorded.known ok found (order.mem_iff.mp listed) target

/-- A wire form is rejected exactly when it repeats an id, names an unknown node or has a cycle. -/
theorem deserialize_rejects (wire : GraphWire) : (∃ e, deserialize wire = .error e) ↔
    ¬ (wire.nodes.map (·.id)).Nodup ∨
    (∃ e ∈ wire.edges, e.source ∉ wire.nodes.map (·.id) ∨ e.target ∉ wire.nodes.map (·.id)) ∨
    ¬ Acyclic (Leads wire.edges) := by
  constructor
  · rintro ⟨e,failed⟩
    by_contra fine
    rw [not_or,not_or,not_not,not_not] at fine
    obtain ⟨distinct,ends,acyclic⟩ := fine
    have known : ∀ e ∈ wire.edges, e.source ∈ wire.nodes.map (·.id) ∧ e.target ∈ wire.nodes.map (·.id) := by
      intro e inside
      have both : ¬ (e.source ∉ wire.nodes.map (·.id) ∨ e.target ∉ wire.nodes.map (·.id)) := fun missing => ends ⟨e,inside,missing⟩
      exact ⟨by_contra fun missing => both (.inl missing),by_contra fun missing => both (.inr missing)⟩
    obtain ⟨h,read,-⟩ := deserialize_assembled distinct known acyclic
    rw [read] at failed
    cases failed
  · intro bad
    cases read : deserialize wire with
    | error e => exact ⟨e,rfl⟩
    | ok h =>
      obtain ⟨distinct,known,acyclic⟩ := deserialize_ok read
      rcases bad with repeated | ⟨e,inside,missing | missing⟩ | cyclic
      · exact absurd distinct repeated
      · exact absurd (known e inside).1 missing
      · exact absurd (known e inside).2 missing
      · exact absurd acyclic cyclic

/-- What is written from a graph that calls can build is read back, in whatever order the edges stand: the name, every node with all
    its fields, the edges as often as they are there, the lookups, the ready nodes and the edge relation are the same. A wire
    form is rejected exactly when it repeats an id, names an unknown node or has a cycle. -/
theorem wire_exact :
    (∀ (name : String) (calls : List Call) (es : List Edge), es.Perm (build name calls).edges →
      ∃ h, deserialize { serialize (build name calls) with edges := es } = .ok h ∧
        h.name = (build name calls).name ∧ h.nodes = (build name calls).nodes ∧ h.edges.Perm (build name calls).edges ∧
        (∀ id, h.get_node id = (build name calls).get_node id ∧ (reindexed h).get_node id = (build name calls).get_node id) ∧
        (∀ id, id ∈ h.ready_nodes ↔ id ∈ (build name calls).ready_nodes) ∧
        ∀ i j, h.graph.Adjacent i j ↔ (build name calls).graph.Adjacent i j) ∧
    ∀ wire : GraphWire, (∃ e, deserialize wire = .error e) ↔
      ¬ (wire.nodes.map (·.id)).Nodup ∨
      (∃ e ∈ wire.edges, e.source ∉ wire.nodes.map (·.id) ∨ e.target ∉ wire.nodes.map (·.id)) ∨
      ¬ Acyclic (Leads wire.edges) := by
  refine ⟨?_,deserialize_rejects⟩
  intro name calls es order
  have ok := repOk_build name calls
  obtain ⟨h,read,okH,sameName,same,edges⟩ := deserialize_written name calls order
  have sameEdges : ∀ e, e ∈ h.edges ↔ e ∈ (build name calls).edges := fun e => by rw [edges]; exact order.mem_iff
  refine ⟨h,read,sameName,same,by rw [edges]; exact order,fun id => ?_,ready_of_nodes ok okH same sameEdges,
    adjacent_of_nodes ok okH same sameEdges⟩
  have found := get_node_of_nodes ok okH same id
  refine ⟨found,?_⟩
  rw [← found,ExecutionGraph.get_node,reindexed_lookup okH]
  rfl

/-- The chain whose last node moved when the first one was removed, with its one edge. -/
theorem chain_read : ∃ h, deserialize (serialize (build "chain" chainCalls)) = .ok h ∧ h.nodes = (build "chain" chainCalls).nodes ∧
    h.get_node ⟨3⟩ = (build "chain" chainCalls).get_node ⟨3⟩ := by
  obtain ⟨h,read,-,nodes,-,found,-⟩ := wire_exact.1 "chain" chainCalls _ (.refl _)
  exact ⟨h,read,nodes,(found ⟨3⟩).1⟩

end Daf.WireGraphs
