import Daf.GraphDag

/-!
The representation invariant of execution graphs and its preservation by every
operation. What a graph is apart from the progress of its nodes is its `shape`;
the invariant is about the shape only.
-/
namespace Daf.GraphInvariant
open Daf.Cycles Daf.Digraph Daf.GraphNodes Daf.GraphDag

/-- A node without its progress. -/
def forget (node : Node) : Node := { node with state := .Pending, actual_duration := none }

/-- The graph with the progress of every node forgotten. -/
def shape (g : ExecutionGraph) : ExecutionGraph := { g with graph := { g.graph with nodes := g.graph.nodes.map forget } }

/-- The ids of the nodes, in index order. -/
def ids (g : ExecutionGraph) : List NodeId := g.graph.nodes.map (·.id)

/-- The three copies of the structure agree, and the graph has no cycle. -/
structure RepOk (g : ExecutionGraph) : Prop where
  index : ∀ id i, g.index_map.lookup id = some i ↔ (ids g)[i]? = some id
  ends : ∀ s ∈ g.graph.edges, (ids g)[s.source]? = some s.weight.source ∧ (ids g)[s.target]? = some s.weight.target
  acyclic : Acyclic g.graph.Adjacent

/-- The dependency set of every node holds the ids of its predecessors. -/
def Deps (g : ExecutionGraph) : Prop :=
  ∀ (i : Nat) (node : Node), g.graph.nodes[i]? = some node →
    ∀ x, x ∈ node.dependencies ↔ ∃ s ∈ g.graph.edges, s.target = i ∧ s.weight.source = x

/-! ### Shapes -/

@[simp] theorem ids_shape (g : ExecutionGraph) : ids (shape g) = ids g := by
  simp [ids,shape,forget,Function.comp_def]

@[simp] theorem shape_index_map (g : ExecutionGraph) : (shape g).index_map = g.index_map := rfl
@[simp] theorem shape_edges (g : ExecutionGraph) : (shape g).graph.edges = g.graph.edges := rfl

theorem repOk_shape (g : ExecutionGraph) : RepOk (shape g) ↔ RepOk g := by
  constructor
  · intro ok
    exact ⟨by simpa using ok.index,by simpa using ok.ends,ok.acyclic⟩
  · intro ok
    exact ⟨by simpa using ok.index,by simpa using ok.ends,ok.acyclic⟩

theorem deps_shape (g : ExecutionGraph) : Deps (shape g) ↔ Deps g := by
  constructor
  · intro deps i node found
    exact deps i (forget node) (by simp [shape,found])
  · intro deps i node found
    obtain ⟨old,at_i,rfl⟩ : ∃ old, g.graph.nodes[i]? = some old ∧ forget old = node := by
      simpa [shape] using found
    exact deps i old at_i

theorem RepOk.of_shape {g h : ExecutionGraph} (ok : RepOk g) (same : shape h = shape g) : RepOk h := by
  rw [← repOk_shape,same,repOk_shape]
  exact ok

/-- Changing the progress of a node keeps the shape. -/
theorem shape_modify (g : ExecutionGraph) (i : Nat) {f : Node → Node} (keeps : ∀ n, forget (f n) = forget n) :
    shape (g.modify i f) = shape g := by
  have nodes : (g.graph.nodes.modify i f).map forget = g.graph.nodes.map forget := by
    apply List.ext_getElem?
    intro j
    simp only [List.getElem?_map,List.getElem?_modify]
    by_cases same : i = j
    · subst same
      cases g.graph.nodes[i]? <;> simp [keeps]
    · simp [same]
  simp [shape,ExecutionGraph.modify,DiGraph.modify,nodes]

theorem shape_foldl (g : ExecutionGraph) (step : ExecutionGraph → Nat → ExecutionGraph)
    (keeps : ∀ g i, shape (step g i) = shape g) (list : List Nat) : shape (list.foldl step g) = shape g := by
  induction list generalizing g with
  | nil => rfl
  | cons i later ih => rw [List.foldl_cons,ih,keeps]

theorem shape_skipAt (g : ExecutionGraph) (i : Nat) : shape (g.skipAt i) = shape g :=
  shape_modify g i (fun _ => rfl)

theorem shape_skipLoop (rounds : Nat) (g : ExecutionGraph) : shape (ExecutionGraph.skipLoop rounds g) = shape g := by
  induction rounds generalizing g with
  | zero => rfl
  | succ rounds ih =>
    rw [ExecutionGraph.skipLoop]
    split
    · rfl
    · rw [ih,shape_foldl g _ shape_skipAt]

@[simp] theorem shape_skip (g : ExecutionGraph) : shape g.skip_impossible_nodes = shape g :=
  shape_skipLoop _ g

@[simp] theorem shape_mark_complete (g : ExecutionGraph) (id : NodeId) (state : NodeState) (duration : Option Duration) :
    shape (g.mark_complete id state duration).2 = shape g := by
  unfold ExecutionGraph.mark_complete
  split
  · rfl
  · rw [shape_skip,shape_modify]
    exact fun _ => rfl

/-! ### Facts that follow from the invariant -/

theorem RepOk.inRange {g : ExecutionGraph} (ok : RepOk g) : g.graph.InRange := by
  intro s member
  obtain ⟨source,target⟩ := ok.ends s member
  have low := (List.getElem?_eq_some_iff.mp source).1
  have high := (List.getElem?_eq_some_iff.mp target).1
  simp only [ids,List.length_map] at low high
  exact ⟨low,high⟩

theorem RepOk.ids_nodup {g : ExecutionGraph} (ok : RepOk g) : (ids g).Nodup := by
  rw [List.nodup_iff_getElem?_ne_getElem?]
  intro i j lt inside same
  obtain ⟨id,at_j⟩ : ∃ id, (ids g)[j]? = some id := ⟨_,List.getElem?_eq_getElem inside⟩
  have first := (ok.index id i).mpr (same.trans at_j)
  have second := (ok.index id j).mpr at_j
  have : i = j := by rw [first] at second; exact Option.some.inj second
  omega

theorem ids_get (g : ExecutionGraph) (i : Nat) : (ids g)[i]? = (g.graph.nodes[i]?).map (·.id) := by
  simp [ids]

/-- Nodes at different indices have different ids. -/
theorem RepOk.index_unique {g : ExecutionGraph} (ok : RepOk g) {i j : Nat} {id : NodeId} (at_i : (ids g)[i]? = some id)
    (at_j : (ids g)[j]? = some id) : i = j := by
  have first := (ok.index id i).mpr at_i
  rw [(ok.index id j).mpr at_j] at first
  exact (Option.some.inj first).symm

/-! ### The operations keep the invariant -/

theorem repOk_new (name : String) : RepOk (ExecutionGraph.new name) := by
  refine ⟨?_,?_,?_⟩
  · intro id i
    simp [ExecutionGraph.new,ids,DiGraph.new]
  · intro s member
    simp [ExecutionGraph.new,DiGraph.new] at member
  · intro a cycle
    obtain ⟨b,_,edge⟩ := Relation.TransGen.tail'_iff.mp cycle
    obtain ⟨s,member,_⟩ := edge
    simp [ExecutionGraph.new,DiGraph.new] at member

theorem repOk_add_node {g : ExecutionGraph} (ok : RepOk g) (node : Node) : RepOk (g.add_node node).2 := by
  unfold ExecutionGraph.add_node
  split_ifs with known
  · exact ok
  · have fresh : g.index_map.lookup node.id = none := by simpa using known
    have size : (ids g).length = g.graph.nodes.length := by simp [ids]
    have absent : ∀ i : Nat, (ids g)[i]? ≠ some node.id := by
      intro i at_i
      rw [(ok.index node.id i).mpr at_i] at fresh
      cases fresh
    have newIds : ids { g with graph := g.graph.add_node node, index_map := g.index_map.insert node.id g.graph.nodes.length } =
        ids g ++ [node.id] := by simp [ids,DiGraph.add_node]
    refine ⟨?_,?_,ok.acyclic⟩
    · intro id i
      rw [newIds]
      by_cases same : id = node.id
      · subst same
        simp only [AList.lookup_insert,Option.some.injEq]
        constructor
        · rintro rfl
          simp [← size]
        · intro at_i
          by_cases inside : i < (ids g).length
          · rw [List.getElem?_append_left inside] at at_i
            exact absurd at_i (absent i)
          · have bound := (List.getElem?_eq_some_iff.mp at_i).1
            simp only [List.length_append,List.length_singleton] at bound
            omega
      · simp only [AList.lookup_insert_ne same,ok.index id i]
        by_cases inside : i < (ids g).length
        · rw [List.getElem?_append_left inside]
        · have outside : (ids g)[i]? = none := List.getElem?_eq_none (by omega)
          rw [outside,List.getElem?_append_right (by omega)]
          constructor
          · intro none; cases none
          · intro at_i
            have : node.id = id := by
              cases rest : i - (ids g).length with
              | zero => simpa [rest] using at_i
              | succ k => simp [rest] at at_i
            exact absurd this.symm same
    · intro s member
      rw [newIds]
      obtain ⟨source,target⟩ := ok.ends s member
      rw [List.getElem?_append_left (List.getElem?_eq_some_iff.mp source).1,
        List.getElem?_append_left (List.getElem?_eq_some_iff.mp target).1]
      exact ⟨source,target⟩

theorem deps_add_node {g : ExecutionGraph} (ok : RepOk g) (deps : Deps g) {node : Node} (plain : node.dependencies = ∅) :
    Deps (g.add_node node).2 := by
  unfold ExecutionGraph.add_node
  split_ifs with known
  · exact deps
  · intro i found at_i x
    simp only [DiGraph.add_node] at at_i ⊢
    by_cases inside : i < g.graph.nodes.length
    · rw [List.getElem?_append_left inside] at at_i
      exact deps i found at_i x
    · have bound := (List.getElem?_eq_some_iff.mp at_i).1
      simp only [List.length_append,List.length_singleton] at bound
      have last : i = g.graph.nodes.length := by omega
      subst last
      have : found = node := by simpa using at_i.symm
      subst this
      rw [plain]
      constructor
      · intro none; simp at none
      · rintro ⟨s,member,target,_⟩
        have := (ok.inRange s member).2
        omega

/-- Changing a node without its id keeps the ids. -/
theorem ids_modify (g : ExecutionGraph) (i : Nat) {f : Node → Node} (keeps : ∀ n, (f n).id = n.id) :
    (g.graph.modify i f).nodes.map (·.id) = ids g := by
  apply List.ext_getElem?
  intro j
  simp only [DiGraph.modify,ids,List.getElem?_map,List.getElem?_modify]
  by_cases same : i = j
  · subst same
    cases g.graph.nodes[i]? <;> simp [keeps]
  · simp [same]

/-- The graph with a new edge and the dependency that it records. -/
def withEdge (g : ExecutionGraph) (src tgt : Nat) (edge : Edge) : ExecutionGraph :=
  { g with
    graph := (g.graph.add_edge src tgt edge).modify tgt
      (fun n => { n with dependencies := insert edge.source n.dependencies }) }

/-- All that adding an edge can do: fail and leave the graph as it was, or add an
    edge between known nodes that closes no cycle. -/
theorem add_edge_cases {g : ExecutionGraph} (ok : RepOk g) (edge : Edge) :
    (∃ e, g.add_edge edge = (.error e,g)) ∨
    ∃ src tgt, (ids g)[src]? = some edge.source ∧ (ids g)[tgt]? = some edge.target ∧
      (g.graph.add_edge src tgt edge).is_cyclic_directed = false ∧ g.add_edge edge = (.ok (),withEdge g src tgt edge) := by
  unfold ExecutionGraph.add_edge
  cases sourceAt : g.index_map.lookup edge.source with
  | none => exact .inl ⟨_,rfl⟩
  | some src =>
    cases targetAt : g.index_map.lookup edge.target with
    | none => exact .inl ⟨_,rfl⟩
    | some tgt =>
      have sourceId := (ok.index _ _).mp sourceAt
      have targetId := (ok.index _ _).mp targetAt
      cases cyclic : (g.graph.add_edge src tgt edge).is_cyclic_directed with
      | true => exact .inl ⟨.CycleDetected,by simp [cyclic,DiGraph.remove_added_edge]⟩
      | false =>
        refine .inr ⟨src,tgt,sourceId,targetId,cyclic,?_⟩
        rw [ids_get] at sourceId
        obtain ⟨source,at_source,sameId⟩ := Option.map_eq_some_iff.mp sourceId
        have found : (g.graph.add_edge src tgt edge).nodes[src]? = some source := at_source
        simp [cyclic,found,sameId,withEdge]

/-- An edge that is not added leaves the graph as it was. -/
theorem add_edge_error {g : ExecutionGraph} (ok : RepOk g) {edge : Edge} {e : GraphError}
    (failed : (g.add_edge edge).1 = .error e) : (g.add_edge edge).2 = g := by
  obtain ⟨_,same⟩ | ⟨_,_,_,_,_,same⟩ := add_edge_cases ok edge
  · rw [same]
  · rw [same] at failed; cases failed

theorem repOk_add_edge {g : ExecutionGraph} (ok : RepOk g) (edge : Edge) : RepOk (g.add_edge edge).2 := by
  obtain ⟨_,same⟩ | ⟨src,tgt,sourceId,targetId,acyclic,same⟩ := add_edge_cases ok edge
  · rw [same]; exact ok
  · rw [same]
    have sameIds : ids (withEdge g src tgt edge) = ids g :=
      ids_modify { g with graph := g.graph.add_edge src tgt edge } tgt (fun _ => rfl)
    have ends : ∀ s ∈ (g.graph.add_edge src tgt edge).edges,
        (ids g)[s.source]? = some s.weight.source ∧ (ids g)[s.target]? = some s.weight.target := by
      intro s member
      rcases List.mem_append.mp member with old | new
      · exact ok.ends s old
      · cases List.mem_singleton.mp new
        exact ⟨sourceId,targetId⟩
    have inRange : (g.graph.add_edge src tgt edge).InRange := by
      intro s member
      obtain ⟨source,target⟩ := ends s member
      have low := (List.getElem?_eq_some_iff.mp source).1
      have high := (List.getElem?_eq_some_iff.mp target).1
      simp only [ids,List.length_map] at low high
      exact ⟨low,high⟩
    refine ⟨?_,?_,(DiGraph.is_cyclic_directed_iff inRange).mp acyclic⟩
    · intro id i
      rw [sameIds]
      exact ok.index id i
    · intro s member
      rw [sameIds]
      exact ends s member

theorem deps_add_edge {g : ExecutionGraph} (ok : RepOk g) (deps : Deps g) (edge : Edge) :
    Deps (g.add_edge edge).2 := by
  obtain ⟨_,same⟩ | ⟨src,tgt,_,_,_,same⟩ := add_edge_cases ok edge
  · rw [same]; exact deps
  · rw [same]
    intro i node at_i x
    simp only [withEdge,DiGraph.modify,DiGraph.add_edge,List.getElem?_modify,List.mem_append,
      List.mem_singleton] at at_i ⊢
    obtain ⟨old,at_old,rfl⟩ := Option.map_eq_some_iff.mp at_i
    have before := deps i old at_old x
    by_cases here : tgt = i
    · subst here
      simp only [if_true,Finset.mem_insert,before]
      constructor
      · rintro (rfl | ⟨s,member,target,from_x⟩)
        · exact ⟨_,.inr rfl,rfl,rfl⟩
        · exact ⟨s,.inl member,target,from_x⟩
      · rintro ⟨s,member | rfl,target,from_x⟩
        · exact .inr ⟨s,member,target,from_x⟩
        · exact .inl from_x.symm
    · simp only [here,if_false,before]
      constructor
      · rintro ⟨s,member,target,from_x⟩
        exact ⟨s,.inl member,target,from_x⟩
      · rintro ⟨s,member | rfl,target,from_x⟩
        · exact ⟨s,member,target,from_x⟩
        · exact absurd target here

/-! ### Removing a node -/

/-- The node without a dependency. -/
def dropDependency (id : NodeId) (n : Node) : Node := { n with dependencies := n.dependencies.erase id }

/-- The graph after the dependents of a node lost their dependency on it. -/
def cleaned (g : ExecutionGraph) (idx : Nat) (id : NodeId) : DiGraph Node Edge :=
  (g.graph.successors idx).foldl (fun graph dep_idx => graph.modify dep_idx (dropDependency id)) g.graph

theorem foldl_dropDependency (id : NodeId) (targets : List Nat) (graph : DiGraph Node Edge) (i : Nat) :
    (targets.foldl (fun graph dep_idx => graph.modify dep_idx (dropDependency id)) graph).edges = graph.edges ∧
    (targets.foldl (fun graph dep_idx => graph.modify dep_idx (dropDependency id)) graph).nodes[i]? =
      (graph.nodes[i]?).map (fun n => if i ∈ targets then dropDependency id n else n) := by
  induction targets generalizing graph with
  | nil => simp
  | cons target later ih =>
    rw [List.foldl_cons]
    obtain ⟨edges,nodes⟩ := ih (graph.modify target (dropDependency id))
    refine ⟨edges,?_⟩
    rw [nodes]
    simp only [DiGraph.modify,List.getElem?_modify,List.mem_cons]
    cases graph.nodes[i]? with
    | none => simp
    | some n =>
      by_cases here : target = i
      · subst here
        by_cases again : target ∈ later <;> simp [again,dropDependency]
      · by_cases again : i ∈ later <;> simp [again,here,Ne.symm here]

theorem cleaned_edges (g : ExecutionGraph) (idx : Nat) (id : NodeId) : (cleaned g idx id).edges = g.graph.edges :=
  (foldl_dropDependency id _ g.graph 0).1

theorem cleaned_nodes (g : ExecutionGraph) (idx : Nat) (id : NodeId) (i : Nat) :
    (cleaned g idx id).nodes[i]? =
      (g.graph.nodes[i]?).map (fun n => if i ∈ g.graph.successors idx then dropDependency id n else n) :=
  (foldl_dropDependency id _ g.graph i).2

theorem cleaned_ids (g : ExecutionGraph) (idx : Nat) (id : NodeId) : (cleaned g idx id).nodes.map (·.id) = ids g := by
  apply List.ext_getElem?
  intro i
  rw [List.getElem?_map,cleaned_nodes,ids_get,Option.map_map]
  congr 1
  funext n
  by_cases member : i ∈ g.graph.successors idx <;> simp [member,dropDependency]

/-- All that removing a node can do: fail on an unknown id, or remove the node
    and give its index to the node that was last. -/
theorem remove_node_cases {g : ExecutionGraph} (ok : RepOk g) (id : NodeId) :
    (∃ e, g.remove_node id = (.error e,g)) ∨
    ∃ idx node index_map, (ids g)[idx]? = some id ∧ (cleaned g idx id).nodes[idx]? = some node ∧
      (g.remove_node id).2 = { g with graph := ((cleaned g idx id).remove_node idx).2, index_map } ∧
      ∀ other, index_map.lookup other =
        if (swapRemove (ids g) idx)[idx]? = some other then some idx
        else if other = id then none else g.index_map.lookup other := by
  unfold ExecutionGraph.remove_node
  cases found : g.index_map.lookup id with
  | none => exact .inl ⟨_,rfl⟩
  | some idx =>
    have at_idx := (ok.index _ _).mp found
    have sameIds := cleaned_ids g idx id
    obtain ⟨node,at_node⟩ : ∃ node, (cleaned g idx id).nodes[idx]? = some node := by
      have : ((cleaned g idx id).nodes.map (·.id))[idx]? = some id := by rw [sameIds]; exact at_idx
      rw [List.getElem?_map] at this
      obtain ⟨node,at_node,_⟩ := Option.map_eq_some_iff.mp this
      exact ⟨node,at_node⟩
    have removed : (cleaned g idx id).remove_node idx = (some node,((cleaned g idx id).remove_node idx).2) := by
      simp [DiGraph.remove_node,at_node]
    have newIds : ((cleaned g idx id).remove_node idx).2.nodes.map (·.id) = swapRemove (ids g) idx := by
      simp only [DiGraph.remove_node,at_node,← sameIds]
      exact map_swapRemove _ _ _
    right
    simp only
    rw [show List.foldl (fun graph dep_idx => graph.modify dep_idx (fun n => { n with dependencies := n.dependencies.erase id }))
      g.graph (g.graph.successors idx) = cleaned g idx id from rfl,removed]
    simp only
    cases swapped : ((cleaned g idx id).remove_node idx).2.nodes[idx]? with
    | none =>
      refine ⟨idx,node,g.index_map.erase id,at_idx,at_node,rfl,?_⟩
      intro other
      rw [← newIds,List.getElem?_map,swapped]
      by_cases same : other = id
      · subst same; simp
      · simp [same,AList.lookup_erase_ne]
    | some last =>
      refine ⟨idx,node,(g.index_map.erase id).insert last.id idx,at_idx,at_node,rfl,?_⟩
      intro other
      rw [← newIds,List.getElem?_map,swapped]
      by_cases moved : other = last.id
      · subst moved; simp
      · have still : ¬ (Option.map (fun n : Node => n.id) (some last) = some other) := by
          simpa using Ne.symm moved
        rw [if_neg still,AList.lookup_insert_ne moved]
        by_cases same : other = id
        · subst same; simp
        · simp [same,AList.lookup_erase_ne]

theorem ids_removed (g : ExecutionGraph) {idx : Nat} {id : NodeId} {node : Node} (index_map : AList (fun _ : NodeId => Nat))
    (found : (cleaned g idx id).nodes[idx]? = some node) :
    ids { g with graph := ((cleaned g idx id).remove_node idx).2, index_map } = swapRemove (ids g) idx := by
  simp only [ids,DiGraph.remove_node,found]
  rw [map_swapRemove,cleaned_ids]
  rfl

theorem repOk_remove_node {g : ExecutionGraph} (ok : RepOk g) (id : NodeId) : RepOk (g.remove_node id).2 := by
  obtain ⟨_,same⟩ | ⟨idx,node,index_map,at_idx,found,same,lookups⟩ := remove_node_cases ok id
  · rw [same]; exact ok
  · have free : idx < (ids g).length := (List.getElem?_eq_some_iff.mp at_idx).1
    have size : (cleaned g idx id).nodes.length = (ids g).length := by rw [← cleaned_ids g idx id,List.length_map]
    rw [same]
    refine ⟨?_,?_,?_⟩
    · intro other i
      rw [ids_removed g index_map found]
      simp only [lookups]
      by_cases moved : (swapRemove (ids g) idx)[idx]? = some other
      · rw [if_pos moved,Option.some.injEq]
        constructor
        · rintro rfl; exact moved
        · intro at_i
          obtain ⟨low,before⟩ := (swapRemove_formerly free).mp at_i
          obtain ⟨last,movedFrom⟩ := (swapRemove_formerly free).mp moved
          have back := ok.index_unique before movedFrom
          rw [← renumber_formerly last,← renumber_formerly low,back]
      · rw [if_neg moved]
        by_cases removed : other = id
        · subst removed
          rw [if_pos rfl]
          constructor
          · intro none; cases none
          · intro at_i
            obtain ⟨low,before⟩ := (swapRemove_formerly free).mp at_i
            exact absurd (ok.index_unique before at_idx) (formerly_ne low)
        · rw [if_neg removed,ok.index other i]
          constructor
          · intro at_i
            have inside := (List.getElem?_eq_some_iff.mp at_i).1
            have elsewhere : i ≠ idx := by
              rintro rfl
              rw [at_idx] at at_i
              exact removed (Option.some.inj at_i).symm
            have stays := swapRemove_renumber free inside elsewhere
            rw [at_i] at stays
            -- The last node has moved to `idx`, which is the case that `moved` rules out.
            by_cases last : i = (ids g).length - 1
            · simp only [renumber,last,if_true] at stays
              exact absurd stays moved
            · simpa [renumber,last] using stays
          · intro at_i
            obtain ⟨low,before⟩ := (swapRemove_formerly free).mp at_i
            have elsewhere : i ≠ idx := by rintro rfl; exact moved at_i
            simpa [formerly,elsewhere] using before
    · intro s member
      rw [ids_removed g index_map found]
      obtain ⟨old,inside,fromOther,toOther,rfl⟩ := (DiGraph.mem_remove_node found s).mp member
      rw [cleaned_edges] at inside
      obtain ⟨source,target⟩ := ok.ends old inside
      simp only [size]
      rw [swapRemove_renumber free (List.getElem?_eq_some_iff.mp source).1 fromOther,
        swapRemove_renumber free (List.getElem?_eq_some_iff.mp target).1 toOther]
      exact ⟨source,target⟩
    · refine ok.acyclic.of_map (formerly ((ids g).length - 1) idx) ?_
      rintro _ _ ⟨s,member,rfl,rfl⟩
      obtain ⟨old,inside,fromOther,toOther,rfl⟩ := (DiGraph.mem_remove_node found s).mp member
      rw [cleaned_edges] at inside
      simp only [size]
      exact ⟨old,inside,(formerly_renumber fromOther).symm,(formerly_renumber toOther).symm⟩

theorem deps_remove_node {g : ExecutionGraph} (ok : RepOk g) (deps : Deps g) (id : NodeId) :
    Deps (g.remove_node id).2 := by
  obtain ⟨_,same⟩ | ⟨idx,node,index_map,at_idx,found,same,_⟩ := remove_node_cases ok id
  · rw [same]; exact deps
  · have free : idx < (cleaned g idx id).nodes.length := (List.getElem?_eq_some_iff.mp found).1
    rw [same]
    intro j after at_j x
    have at_j : (swapRemove (cleaned g idx id).nodes idx)[j]? = some after := by
      simpa [DiGraph.remove_node,found] using at_j
    obtain ⟨low,before⟩ := (swapRemove_formerly free).mp at_j
    rw [cleaned_nodes] at before
    obtain ⟨old,at_old,rfl⟩ := Option.map_eq_some_iff.mp before
    have recorded := deps _ old at_old x
    -- An edge leaves the removed node exactly when it names its id as the source.
    have sourceId : ∀ s ∈ g.graph.edges, s.source = idx ↔ s.weight.source = id := by
      intro s inside
      obtain ⟨source,_⟩ := ok.ends s inside
      constructor
      · intro from_idx
        rw [from_idx,at_idx] at source
        exact (Option.some.inj source).symm
      · intro sameId
        rw [sameId] at source
        exact ok.index_unique source at_idx
    constructor
    · intro member
      by_cases successor : formerly ((cleaned g idx id).nodes.length - 1) idx j ∈ g.graph.successors idx
      · simp only [successor,if_true,dropDependency,Finset.mem_erase] at member
        obtain ⟨s,inside,target,from_x⟩ := recorded.mp member.2
        have fromOther : s.source ≠ idx := fun from_idx => member.1 (from_x ▸ (sourceId s inside).mp from_idx)
        have toOther : s.target ≠ idx := target ▸ formerly_ne low
        refine ⟨_,(DiGraph.mem_remove_node found _).mpr ⟨s,by rwa [cleaned_edges],fromOther,toOther,rfl⟩,?_,from_x⟩
        rw [target,renumber_formerly low]
      · simp only [successor,if_false] at member
        obtain ⟨s,inside,target,from_x⟩ := recorded.mp member
        have fromOther : s.source ≠ idx := by
          intro from_idx
          exact successor (List.mem_map.mpr ⟨s,by simp [inside,from_idx],target⟩)
        have toOther : s.target ≠ idx := target ▸ formerly_ne low
        refine ⟨_,(DiGraph.mem_remove_node found _).mpr ⟨s,by rwa [cleaned_edges],fromOther,toOther,rfl⟩,?_,from_x⟩
        rw [target,renumber_formerly low]
    · rintro ⟨s,inside,target,from_x⟩
      obtain ⟨edge,member,fromOther,toOther,rfl⟩ := (DiGraph.mem_remove_node found s).mp inside
      rw [cleaned_edges] at member
      simp only at target from_x
      have at_old : edge.target = formerly ((cleaned g idx id).nodes.length - 1) idx j := by
        rw [← target,formerly_renumber toOther]
      have listed := recorded.mpr ⟨edge,member,at_old,from_x⟩
      have notRemoved : x ≠ id := fun same => fromOther ((sourceId edge member).mpr (from_x.trans same))
      split_ifs
      · simp [dropDependency,listed,notRemoved]
      · exact listed

/-! ### Reachable graphs -/

/-- A call that changes an execution graph. -/
inductive Call where
  | add_node (node : Node)
  | add_edge (edge : Edge)
  | remove_node (id : NodeId)
  | mark_complete (id : NodeId) (new_state : NodeState) (actual_duration : Option Duration)

def Call.apply (g : ExecutionGraph) : Call → ExecutionGraph
  | .add_node node => (g.add_node node).2
  | .add_edge edge => (g.add_edge edge).2
  | .remove_node id => (g.remove_node id).2
  | .mark_complete id new_state actual_duration => (g.mark_complete id new_state actual_duration).2

/-- The graph after a sequence of calls. -/
def build (name : String) (calls : List Call) : ExecutionGraph := calls.foldl Call.apply (ExecutionGraph.new name)

/-- An added node comes without dependencies. -/
def Call.Plain : Call → Prop
  | .add_node node => node.dependencies = ∅
  | _ => True

theorem repOk_apply {g : ExecutionGraph} (ok : RepOk g) (call : Call) : RepOk (call.apply g) := by
  cases call with
  | add_node node => exact repOk_add_node ok node
  | add_edge edge => exact repOk_add_edge ok edge
  | remove_node id => exact repOk_remove_node ok id
  | mark_complete id new_state actual_duration => exact ok.of_shape (shape_mark_complete g id new_state actual_duration)

theorem deps_apply {g : ExecutionGraph} (ok : RepOk g) (deps : Deps g) {call : Call} (plain : call.Plain) :
    Deps (call.apply g) := by
  cases call with
  | add_node node => exact deps_add_node ok deps plain
  | add_edge edge => exact deps_add_edge ok deps edge
  | remove_node id => exact deps_remove_node ok deps id
  | mark_complete id new_state actual_duration =>
    rw [← deps_shape,Call.apply,shape_mark_complete,deps_shape]
    exact deps

theorem repOk_calls {g : ExecutionGraph} (ok : RepOk g) (calls : List Call) : RepOk (calls.foldl Call.apply g) := by
  induction calls generalizing g with
  | nil => exact ok
  | cons call later ih => exact ih (repOk_apply ok call)

theorem deps_calls {g : ExecutionGraph} (ok : RepOk g) (deps : Deps g) (calls : List Call)
    (plain : ∀ call ∈ calls, call.Plain) : Deps (calls.foldl Call.apply g) := by
  induction calls generalizing g with
  | nil => exact deps
  | cons call later ih =>
    exact ih (repOk_apply ok call) (deps_apply ok deps (plain call List.mem_cons_self))
      (fun other member => plain other (List.mem_cons_of_mem call member))

theorem repOk_build (name : String) (calls : List Call) : RepOk (build name calls) :=
  repOk_calls (repOk_new name) calls

theorem deps_build (name : String) (calls : List Call) (plain : ∀ call ∈ calls, call.Plain) : Deps (build name calls) :=
  deps_calls (repOk_new name) (fun i node found => by simp [ExecutionGraph.new,DiGraph.new] at found) calls plain

/-- In every graph that calls can build, the index map, the edges and the
    dependency sets describe the same acyclic graph of nodes with distinct ids,
    and an edge that is rejected leaves no trace. -/
theorem build_consistent (name : String) (calls : List Call) (plain : ∀ call ∈ calls, call.Plain) :
    let g := build name calls
    (∀ id i, g.index_map.lookup id = some i ↔ ∃ node, g.graph.nodes[i]? = some node ∧ node.id = id) ∧
    (g.graph.nodes.map (·.id)).Nodup ∧
    Acyclic g.graph.Adjacent ∧
    (∀ s ∈ g.graph.edges, ∃ source target, g.graph.nodes[s.source]? = some source ∧ s.weight.source = source.id ∧
      g.graph.nodes[s.target]? = some target ∧ s.weight.target = target.id) ∧
    (∀ (i : Nat) node, g.graph.nodes[i]? = some node → ∀ x, x ∈ node.dependencies ↔
      ∃ j pred, g.graph.Adjacent j i ∧ g.graph.nodes[j]? = some pred ∧ pred.id = x) ∧
    ∀ edge e, (g.add_edge edge).1 = .error e → (g.add_edge edge).2 = g := by
  have ok := repOk_build name calls
  have deps := deps_build name calls plain
  refine ⟨?_,ok.ids_nodup,ok.acyclic,?_,?_,fun edge e failed => add_edge_error ok failed⟩
  · intro id i
    rw [ok.index id i,ids_get,Option.map_eq_some_iff]
  · intro s member
    obtain ⟨fromId,toId⟩ := ok.ends s member
    rw [ids_get] at fromId toId
    obtain ⟨source,at_source,sourceId⟩ := Option.map_eq_some_iff.mp fromId
    obtain ⟨target,at_target,targetId⟩ := Option.map_eq_some_iff.mp toId
    exact ⟨source,target,at_source,sourceId.symm,at_target,targetId.symm⟩
  · intro i node found x
    rw [deps i node found x]
    constructor
    · rintro ⟨s,member,target,from_x⟩
      obtain ⟨fromId,_⟩ := ok.ends s member
      rw [ids_get] at fromId
      obtain ⟨pred,at_pred,predId⟩ := Option.map_eq_some_iff.mp fromId
      exact ⟨s.source,pred,⟨s,member,rfl,target⟩,at_pred,predId.trans from_x⟩
    · rintro ⟨_,pred,⟨s,member,rfl,target⟩,at_pred,predId⟩
      obtain ⟨fromId,_⟩ := ok.ends s member
      rw [ids_get,at_pred] at fromId
      exact ⟨s,member,target,(Option.some.inj fromId).symm.trans predId⟩

/-- Three nodes in a chain, of which the first is removed: the last one moves. -/
def chainCalls : List Call :=
  [.add_node (Node.new ⟨1⟩ .Task "fetch"),.add_node (Node.new ⟨2⟩ .Task "build"),.add_node (Node.new ⟨3⟩ .Task "ship"),
    .add_edge (Edge.new ⟨1⟩ ⟨2⟩ .DependsOn),.add_edge (Edge.new ⟨2⟩ ⟨3⟩ .DependsOn),.add_edge (Edge.new ⟨3⟩ ⟨1⟩ .DependsOn),
    .remove_node ⟨1⟩]

theorem chain_consistent :
    ((build "chain" chainCalls).graph.nodes.map (·.id)) = [⟨3⟩,⟨2⟩] ∧ Acyclic (build "chain" chainCalls).graph.Adjacent ∧
    (build "chain" chainCalls).index_map.lookup ⟨3⟩ = some 0 := by
  obtain ⟨index,_,acyclic,_,_,_⟩ := build_consistent "chain" chainCalls (by simp [chainCalls,Call.Plain,Node.new])
  have nodes : (build "chain" chainCalls).graph.nodes.map (·.id) = [⟨3⟩,⟨2⟩] := by decide
  refine ⟨nodes,acyclic,(index ⟨3⟩ 0).mpr ?_⟩
  have first : ((build "chain" chainCalls).graph.nodes[0]?).map (·.id) = some ⟨3⟩ := by
    rw [← List.getElem?_map,nodes]
    rfl
  exact Option.map_eq_some_iff.mp first

end Daf.GraphInvariant

