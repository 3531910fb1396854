import Daf.GraphAssembly
import Daf.GraphWalker
import Daf.UuidText
import Mathlib.Data.Finset.Sort

/-!
The part of an execution graph around a node: the nodes that hang together with it, in whatever direction the edges lead, and the
edges between them, copied into a graph of their own.
-/
namespace Daf.GraphSubgraph
open Daf.Cycles Daf.Digraph Daf.GraphNodes Daf.GraphDag Daf.GraphInvariant Daf.GraphStates Daf.GraphOutcome Daf.GraphAssembly
open Daf.Traversals Daf.GraphWalker

/-- The neighbours in both directions. -/
def around (graph : DiGraph Node Edge) (i : Nat) : List Nat := neighbors_directed graph i .Incoming ++ neighbors_directed graph i .Outgoing

/-- The edges out of a node; the edge that was added last comes first. -/
def edges_directed (graph : DiGraph Node Edge) (i : Nat) : List (Slot Edge) := (graph.edges.filter (·.source = i)).reverse

/-- The indices of a set in the order in which it is iterated. -/
def iterated (order : Nat → Nat) (visited : Finset Nat) : List Nat := (visited.sort (· ≤ ·)).insertionSort fun i j => order i ≤ order j

/-- A missing index panics, here and below. -/
def copyNode (g : ExecutionGraph) (s : ExecutionGraph × AList fun _ : Nat => NodeId) (idx : Nat) :
    Option (ExecutionGraph × AList fun _ : Nat => NodeId) :=
  match g.graph.nodes[idx]? with
  | none => none
  | some node => some ((s.1.add_node node).2,s.2.insert idx (s.1.add_node node).1)

/-- An edge whose target is not copied is left out. What comes of adding the edge is not looked at. -/
def copyEdge (visited : Finset Nat) (old_to_new : AList fun _ : Nat => NodeId) (sub : ExecutionGraph) (s : Slot Edge) : Option ExecutionGraph :=
  if s.target ∈ visited then
    match old_to_new.lookup s.source,old_to_new.lookup s.target with
    | some source,some target => some (sub.add_edge { s.weight with source, target }).2
    | _,_ => none
  else some sub

/-- The indices that are met from one on, in both directions. -/
def component (g : ExecutionGraph) (root_idx : Nat) : Finset Nat :=
  (collect (Breadth.advance (around g.graph)) (g.graph.nodes.length + 1) ⟨[root_idx],{root_idx}⟩).2.visited

def subgraph (order : Nat → Nat) (g : ExecutionGraph) (root : NodeId) : Option (Except GraphError ExecutionGraph) :=
  match g.index_map.lookup root with
  | none => some (.error (.NodeNotFound root))
  | some root_idx =>
    let visited := component g root_idx
    let sub := ExecutionGraph.new (g.name ++ "_sub_node:" ++ UuidText.toText root.uuid)
    ((iterated order visited).foldlM (copyNode g) (sub,∅)).bind fun copied =>
      (((iterated order visited).flatMap (edges_directed g.graph)).foldlM (copyEdge visited copied.2) copied.1).map .ok

/-- An edge leads from one of the nodes to the other. -/
def Linked (g : ExecutionGraph) (a b : NodeId) : Prop := Precedes g a b ∨ Precedes g b a

/-- The nodes hang together. -/
def Connected (g : ExecutionGraph) : NodeId → NodeId → Prop := Relation.ReflTransGen (Linked g)

/-- A graph of the nodes that hang together with one, and of all edges between them. -/
structure Component (g : ExecutionGraph) (root : NodeId) (sub : ExecutionGraph) : Prop where
  ok : RepOk sub
  ids : ∀ x, x ∈ ids sub ↔ Connected g root x
  nodes : ∀ x, Connected g root x → sub.get_node x = (g.get_node x).map (recordedIn sub.edges)
  edges : sub.edges.Perm (g.edges.filter (fun e => e.source ∈ GraphInvariant.ids sub))

section
variable {g sub : ExecutionGraph} {root : NodeId} {i first : Nat}

/-- The edges with the one end at the indices of a list are those with the one end at an index of the list. -/
theorem flatMap_filter {α : Type} (key : α → Nat) (all : List α) {list : List Nat} (once : list.Nodup) :
    (list.flatMap fun i => (all.filter (fun a => key a = i)).reverse).Perm (all.filter fun a => key a ∈ list) := by
  induction list with
  | nil => simp
  | cons i later ih =>
    obtain ⟨new,rest⟩ := List.nodup_cons.mp once
    rw [List.flatMap_cons]
    have here : (all.filter fun a => key a ∈ i :: later).filter (fun a => key a = i) = all.filter fun a => key a = i := by
      rw [List.filter_filter]
      exact List.filter_congr fun a _ => by grind
    have there : (all.filter fun a => key a ∈ i :: later).filter (fun a => !decide (key a = i)) = all.filter fun a => key a ∈ later := by
      rw [List.filter_filter]
      exact List.filter_congr fun a _ => by grind
    have parted := List.filter_append_perm (fun a => decide (key a = i)) (all.filter fun a => key a ∈ i :: later)
    rw [here,there] at parted
    exact ((List.reverse_perm _).append (ih rest)).trans parted

theorem iterated_perm (order : Nat → Nat) (visited : Finset Nat) : (iterated order visited).Perm (visited.sort (· ≤ ·)) :=
  List.perm_insertionSort _ _

theorem iterated_nodup (order : Nat → Nat) (visited : Finset Nat) : (iterated order visited).Nodup :=
  (iterated_perm order visited).nodup_iff.mpr (Finset.sort_nodup ..)

theorem mem_iterated (order : Nat → Nat) (visited : Finset Nat) : i ∈ iterated order visited ↔ i ∈ visited :=
  (iterated_perm order visited).mem_iff.trans (Finset.mem_sort _)

/-! ### The component -/

theorem follows_around (ok : RepOk g) : Follows g (around g.graph) (Linked g) := by
  have before := follows_directed ok .Incoming
  have behind := follows_directed ok .Outgoing
  constructor
  · intro i x at_i j member
    rcases List.mem_append.mp member with member | member
    · obtain ⟨y,at_j,edge⟩ := before.forth i x at_i j member
      exact ⟨y,at_j,.inr edge⟩
    · obtain ⟨y,at_j,edge⟩ := behind.forth i x at_i j member
      exact ⟨y,at_j,.inl edge⟩
  · rintro i x at_i y (edge | edge)
    · obtain ⟨j,at_j,member⟩ := behind.back i x at_i y edge
      exact ⟨j,at_j,List.mem_append_right _ member⟩
    · obtain ⟨j,at_j,member⟩ := before.back i x at_i y edge
      exact ⟨j,at_j,List.mem_append_left _ member⟩

theorem connected_iff (g : ExecutionGraph) (root x : NodeId) : Reached (Linked g) (· = root) x ↔ Connected g root x := by
  rw [reached_iff]
  constructor
  · rintro ⟨_,rfl,path⟩
    exact path
  · exact fun path => ⟨root,rfl,path⟩

/-- The indices that are met are those of the nodes that hang together with the first. -/
theorem mem_component (ok : RepOk g) (at_first : (ids g)[first]? = some root) :
    i ∈ component g first ↔ ∃ x, (ids g)[i]? = some x ∧ Connected g root x := by
  have follows := follows_around ok
  have same := sameStarts_one at_first
  have low := reached_low follows same
  rw [component,← begin_one,breadth_visited _ _ low (by simp)]
  constructor
  · intro reached
    obtain ⟨x,at_i,there⟩ := reached_known follows same reached
    exact ⟨x,at_i,(connected_iff g root x).mp there⟩
  · rintro ⟨x,at_i,connected⟩
    obtain ⟨j,at_j,there⟩ := reached_index follows same ((connected_iff g root x).mpr connected)
    exact ok.index_unique at_j at_i ▸ there

/-! ### The copies -/

theorem copyNodes_fresh {list : List Nat} {ns : List Node} (found : List.Forall₂ (fun i n => g.graph.nodes[i]? = some n) list ns)
    {s : ExecutionGraph × AList fun _ : Nat => NodeId} (ok : RepOk s.1) (distinct : (ids s.1 ++ ns.map (·.id)).Nodup) :
    ∃ copied, list.foldlM (copyNode g) s = some copied ∧ RepOk copied.1 ∧ copied.1.graph.nodes = s.1.graph.nodes ++ ns ∧
      copied.1.graph.edges = s.1.graph.edges ∧ ∀ i, copied.2.lookup i = if i ∈ list then (ids g)[i]? else s.2.lookup i := by
  induction found generalizing s with
  | nil => exact ⟨s,rfl,ok,by simp,rfl,fun i => by simp⟩
  | @cons j n later rest at_j found ih =>
    rw [List.map_cons] at distinct
    have fresh : n.id ∉ ids s.1 := fun known => (List.nodup_append.mp distinct).2.2 _ known _ List.mem_cons_self rfl
    obtain ⟨kept,named,nodes,edges,-⟩ := add_node_fresh ok fresh
    have more : ids (s.1.add_node n).2 = ids s.1 ++ [n.id] := by
      rw [ids,nodes,List.map_append]
      rfl
    obtain ⟨copied,run,okC,nodesC,edgesC,lookup⟩ :=
      ih (s := ((s.1.add_node n).2,s.2.insert j (s.1.add_node n).1)) kept (by rw [more]; simpa using distinct)
    refine ⟨copied,?_,okC,?_,edgesC.trans edges,fun i => ?_⟩
    · rw [List.foldlM_cons,copyNode,at_j]
      exact run
    · rw [nodesC,nodes]
      simp
    · rw [lookup i]
      by_cases after : i ∈ later
      · simp [after]
      · by_cases here : i = j
        · subst here
          simp [after,named,ids_get,at_j]
        · simp [after,here,AList.lookup_insert_ne]

/-- Copied edges between copied nodes are added as they were. -/
theorem copyEdges_assembled {visited : Finset Nat} {old_to_new : AList fun _ : Nat => NodeId} {slots : List (Slot Edge)} (ok : RepOk sub)
    (copied : ∀ s ∈ slots, s.target ∈ visited ∧ old_to_new.lookup s.source = some s.weight.source ∧
      old_to_new.lookup s.target = some s.weight.target)
    (known : ∀ s ∈ slots, s.weight.source ∈ ids sub ∧ s.weight.target ∈ ids sub)
    (acyclic : Acyclic (Leads (sub.edges ++ slots.map (·.weight)))) :
    ∃ h, slots.foldlM (copyEdge visited old_to_new) sub = some h ∧ Assembled sub (slots.map (·.weight)) h := by
  induction slots generalizing sub with
  | nil => exact ⟨sub,rfl,.refl ok⟩
  | cons s later ih =>
    rw [List.map_cons] at acyclic
    obtain ⟨⟨inside,source,target⟩,others⟩ := List.forall_mem_cons.mp copied
    obtain ⟨ends,rest⟩ := List.forall_mem_cons.mp known
    obtain ⟨next,added,one⟩ := add_edge_assembled ok ends.1 ends.2 (acyclic_sub (by simp) acyclic)
    obtain ⟨h,run,more⟩ := ih one.ok others (by rw [one.ids_eq]; exact rest) (by rw [one.edges]; simpa using acyclic)
    refine ⟨h,?_,one.trans more⟩
    rw [List.foldlM_cons,copyEdge,if_pos inside,source,target]
    simp only [added]
    exact run

/-- The edges out of copied nodes. -/
theorem copied_slots (order : Nat → Nat) (visited : Finset Nat) :
    ((iterated order visited).flatMap (edges_directed g.graph)).Perm (g.graph.edges.filter (fun s => s.source ∈ visited)) := by
  have parted := flatMap_filter (fun s : Slot Edge => s.source) g.graph.edges (iterated_nodup order visited)
  simp only [mem_iterated] at parted
  exact parted

theorem connected_known (ok : RepOk g) (known : root ∈ ids g) {x : NodeId} (connected : Connected g root x) : x ∈ ids g := by
  rcases Relation.ReflTransGen.cases_tail connected with rfl | ⟨y,-,edge | edge⟩
  · exact known
  · exact (precedes_mem ok edge).2
  · exact (precedes_mem ok edge).1

/-- Both ends of an edge out of the component are in it. -/
theorem component_ends (ok : RepOk g) (at_first : (ids g)[first]? = some root) {s : Slot Edge} (inside : s ∈ g.graph.edges)
    (out : s.source ∈ component g first) :
    s.target ∈ component g first ∧ Connected g root s.weight.source ∧ Connected g root s.weight.target := by
  obtain ⟨source,target⟩ := ok.ends s inside
  obtain ⟨x,at_x,connected⟩ := (mem_component ok at_first).mp out
  rw [source] at at_x
  cases at_x
  have behind := connected.tail (.inl ⟨s.weight,mem_edges inside,rfl,rfl⟩)
  exact ⟨(mem_component ok at_first).mpr ⟨_,target,behind⟩,connected,behind⟩

/-- The ids of the nodes of the component. -/
theorem component_names (ok : RepOk g) (at_first : (ids g)[first]? = some root) (order : Nat → Nat) {ns : List Node}
    (found : List.Forall₂ (fun i n => g.graph.nodes[i]? = some n) (iterated order (component g first)) ns) (x : NodeId) :
    x ∈ ns.map (·.id) ↔ Connected g root x := by
  rw [mem_names found]
  constructor
  · rintro ⟨i,listed,at_i⟩
    obtain ⟨y,at_y,connected⟩ := (mem_component ok at_first).mp ((mem_iterated order _).mp listed)
    rw [at_i] at at_y
    cases at_y
    exact connected
  · intro connected
    obtain ⟨i,at_i⟩ := List.mem_iff_getElem?.mp (connected_known ok (List.mem_of_getElem? at_first) connected)
    exact ⟨i,(mem_iterated order _).mpr ((mem_component ok at_first).mpr ⟨x,at_i,connected⟩),at_i⟩

/-- The edges whose source is in the component, by index and by id. -/
theorem component_edges (ok : RepOk g) (at_first : (ids g)[first]? = some root) {names : List NodeId} (all : ∀ x, x ∈ names ↔ Connected g root x) :
    (g.graph.edges.filter (fun s => s.source ∈ component g first)).map (·.weight) = g.edges.filter (fun e => e.source ∈ names) := by
  rw [ExecutionGraph.edges,List.filter_map]
  refine congrArg _ (List.filter_congr fun s edge => ?_)
  obtain ⟨source,-⟩ := ok.ends s edge
  simp only [Function.comp_apply,decide_eq_decide,all,mem_component ok at_first]
  constructor
  · rintro ⟨x,at_x,connected⟩
    rw [source] at at_x
    cases at_x
    exact connected
  · exact fun connected => ⟨_,source,connected⟩

/-- The edges that are copied are edges that leave the component. -/
theorem mem_slots {order : Nat → Nat} {first : Nat} {s : Slot Edge}
    (listed : s ∈ (iterated order (component g first)).flatMap (edges_directed g.graph)) : s ∈ g.graph.edges ∧ s.source ∈ component g first := by
  simpa using (copied_slots (g := g) order (component g first)).mem_iff.mp listed

/-- The subgraph of a known node has its component. -/
theorem subgraph_component (ok : RepOk g) (order : Nat → Nat) (known : root ∈ ids g) :
    ∃ sub, subgraph order g root = some (.ok sub) ∧ Component g root sub := by
  obtain ⟨first,at_first⟩ := List.mem_iff_getElem?.mp known
  have low : ∀ i ∈ iterated order (component g first), i < g.graph.nodes.length := by
    intro i listed
    obtain ⟨x,at_i,-⟩ := (mem_component ok at_first).mp ((mem_iterated order _).mp listed)
    simpa [ids] using (List.getElem?_eq_some_iff.mp at_i).1
  -- The nodes.
  obtain ⟨ns,-,found⟩ := mapM_nodes low
  have names := component_names ok at_first order found
  obtain ⟨copied,run,okC,nodesC,edgesC,lookup⟩ := copyNodes_fresh found
    (s := (ExecutionGraph.new (g.name ++ "_sub_node:" ++ UuidText.toText root.uuid),∅)) (repOk_new _)
    (names_nodup ok (iterated_nodup order _) low found)
  have idsC : ids copied.1 = ns.map (·.id) := by
    rw [ids,nodesC]
    rfl
  have none_yet : copied.1.edges = [] := by
    rw [ExecutionGraph.edges,edgesC]
    rfl
  -- The edges.
  have ready : ∀ s ∈ (iterated order (component g first)).flatMap (edges_directed g.graph), s.target ∈ component g first ∧
      copied.2.lookup s.source = some s.weight.source ∧ copied.2.lookup s.target = some s.weight.target := by
    intro s listed
    obtain ⟨edge,out⟩ := mem_slots listed
    have target := (component_ends ok at_first edge out).1
    rw [lookup,lookup,if_pos ((mem_iterated order _).mpr out),if_pos ((mem_iterated order _).mpr target)]
    exact ⟨target,ok.ends s edge⟩
  have ends : ∀ s ∈ (iterated order (component g first)).flatMap (edges_directed g.graph),
      s.weight.source ∈ ids copied.1 ∧ s.weight.target ∈ ids copied.1 := by
    intro s listed
    obtain ⟨edge,out⟩ := mem_slots listed
    rw [idsC,names,names]
    exact (component_ends ok at_first edge out).2
  have acyclic : Acyclic (Leads (copied.1.edges ++ ((iterated order (component g first)).flatMap (edges_directed g.graph)).map (·.weight))) := by
    rw [none_yet,List.nil_append]
    refine acyclic_sub (fun e there => ?_) (precedes_acyclic ok)
    obtain ⟨s,listed,rfl⟩ := List.mem_map.mp there
    exact mem_edges (mem_slots listed).1
  obtain ⟨sub,built,assembled⟩ := copyEdges_assembled okC ready ends acyclic
  have sameIds := assembled.ids_eq.trans idsC
  have sameEdges : sub.edges = ((iterated order (component g first)).flatMap (edges_directed g.graph)).map (·.weight) := by
    rw [assembled.edges,none_yet,List.nil_append]
  refine ⟨sub,?_,assembled.ok,fun x => by rw [sameIds]; exact names x,fun x connected => ?_,?_⟩
  · rw [subgraph,(ok.index root first).mpr at_first]
    simp only [run,Option.bind_some,built,Option.map_some]
  · obtain ⟨n,there,rfl⟩ := List.mem_map.mp ((names x).mpr connected)
    obtain ⟨i,-,at_i⟩ := mem_found found n there
    obtain ⟨j,at_j⟩ := List.mem_iff_getElem?.mp there
    have at_sub : sub.graph.nodes[j]? = some (recordedIn sub.edges n) := by
      rw [assembled.nodes,nodesC,sameEdges]
      simp [ExecutionGraph.new,DiGraph.new,at_j]
    rw [get_node_eq ok (i := i) (by rw [ids_get,at_i]; rfl),at_i,get_node_eq assembled.ok (i := j) (by rw [ids_get,at_sub]; rfl),at_sub]
    rfl
  · rw [sameEdges,sameIds,← component_edges ok at_first names]
    exact (copied_slots order (component g first)).map _

/-- Where the nodes record their edges, as in every graph that calls build, they are copied as they are. -/
theorem Component.same (ok : RepOk g) (recorded : Recorded g) (part : Component g root sub) {x : NodeId} (connected : Connected g root x) :
    sub.get_node x = g.get_node x := by
  rw [part.nodes x connected]
  cases found : g.get_node x with
  | none => rfl
  | some n =>
    obtain ⟨i,at_i,at_n⟩ := Option.bind_eq_some_iff.mp found
    have named : n.id = x := by
      have there := (ok.index x i).mp at_i
      rw [ids_get,at_n] at there
      exact Option.some.inj there
    have known : ∀ e ∈ sub.edges, e.target = n.id → e.source ∈ n.dependencies := fun e member target =>
      recorded.known ok at_n (List.mem_of_mem_filter (part.edges.mem_iff.mp member)) target
    rw [Option.map_some,recordedIn_known known]

end

/-! ### All traversals -/

section
variable {g : ExecutionGraph}

/-- The nodes that come out when the iterators start at the nodes without predecessors are all nodes. -/
theorem yields_all (ok : RepOk g) {ns : List Node} (yields : Yields g (roots g) ns) (x : NodeId) : x ∈ ns.map (·.id) ↔ x ∈ ids g :=
  (yields.reached x).trans (reached_roots ok x)

/-- Both iterators go to the nodes that can be reached from the given roots, each once, the one with the queue to the nearest first, and to
    all nodes from the roots of the graph; the dependencies and dependents of a node are those with a path of edges to it and from it, never
    the node itself; the subgraph of a node has the nodes that hang together with it, as they are, and all edges between them. -/
theorem traversals_exact (ok : RepOk g) :
    (∀ roots, ∃ ns, (∀ calls, g.node_count < calls → items g (BreadthFirst.next g) calls (BreadthFirst.new g roots) = some ns) ∧
      Yields g roots ns ∧ Nearest g roots ns) ∧
    (∀ roots, ∃ ns, (∀ calls, g.node_count < calls → items g (DepthFirst.next g) calls (DepthFirst.new g roots) = some ns) ∧
      Yields g roots ns) ∧
    (∀ id x, (x ∈ ancestors g id ↔ Relation.TransGen (Precedes g) x id) ∧ (x ∈ descendants g id ↔ Relation.TransGen (Precedes g) id x)) ∧
    (∀ id, id ∉ ancestors g id ∧ id ∉ descendants g id) ∧
    (∃ ns, (∀ calls, g.node_count < calls → items g (BreadthFirst.next g) calls (BreadthFirst.from_roots g) = some ns) ∧
      (ns.map (·.id)).Nodup ∧ ∀ x, x ∈ ns.map (·.id) ↔ x ∈ ids g) ∧
    (∃ ns, (∀ calls, g.node_count < calls → items g (DepthFirst.next g) calls (DepthFirst.from_roots g) = some ns) ∧
      (ns.map (·.id)).Nodup ∧ ∀ x, x ∈ ns.map (·.id) ↔ x ∈ ids g) ∧
    ∀ order root, (root ∉ ids g → subgraph order g root = some (.error (.NodeNotFound root))) ∧
      (root ∈ ids g → ∃ sub, subgraph order g root = some (.ok sub) ∧ Component g root sub ∧
        (Recorded g → ∀ x, Connected g root x → sub.get_node x = g.get_node x)) := by
  refine ⟨breadth_yields ok,depth_yields ok,fun id x => ⟨mem_ancestors ok id x,mem_descendants ok id x⟩,fun id => ⟨?_,?_⟩,?_,?_,
    fun order root => ⟨fun unknown => ?_,fun known => ?_⟩⟩
  · exact fun member => precedes_acyclic ok id ((mem_ancestors ok id id).mp member)
  · exact fun member => precedes_acyclic ok id ((mem_descendants ok id id).mp member)
  · obtain ⟨ns,out,yields,-⟩ := breadth_yields ok (roots g)
    exact ⟨ns,out,yields.once,yields_all ok yields⟩
  · obtain ⟨ns,out,yields⟩ := depth_yields ok (roots g)
    exact ⟨ns,out,yields.once,yields_all ok yields⟩
  · rw [subgraph,lookup_unknown ok unknown]
  · obtain ⟨sub,built,part⟩ := subgraph_component ok order known
    exact ⟨sub,built,part,fun recorded x connected => part.same ok recorded connected⟩

/-- The chain that is left when its first node is removed hangs together. -/
theorem chain_subgraph : ∃ sub, subgraph id (build "chain" chainCalls) ⟨2⟩ = some (.ok sub) ∧ Component (build "chain" chainCalls) ⟨2⟩ sub ∧
    sub.get_node ⟨3⟩ = (build "chain" chainCalls).get_node ⟨3⟩ := by
  have ok := repOk_build "chain" chainCalls
  obtain ⟨-,-,-,-,-,-,parts⟩ := traversals_exact ok
  obtain ⟨sub,built,part,same⟩ := (parts id ⟨2⟩).2 (by decide)
  refine ⟨sub,built,part,same (recorded_build "chain" chainCalls) ⟨3⟩ (.single (.inl ?_))⟩
  exact ⟨Edge.new ⟨2⟩ ⟨3⟩ .DependsOn,by decide,rfl,rfl⟩

end
end Daf.GraphSubgraph
