import Daf.GraphOutcome
import Daf.Traversals

/-!
The traversals of an execution graph: the breadth-first and the depth-first iterator, and the transitive dependencies and dependents
of a node. They walk over indices; what is proved about them is about the ids and the edges between them.
-/
namespace Daf.GraphWalker
open Daf.Cycles Daf.Digraph Daf.GraphNodes Daf.GraphDag Daf.GraphInvariant Daf.GraphStates Daf.GraphOutcome Daf.Traversals

inductive Direction where
  | Incoming | Outgoing

/-- The other ends of the edges in one direction, one for each edge; the edge that was added last comes first. -/
def neighbors_directed (graph : DiGraph Node Edge) (i : Nat) : Direction → List Nat
  | .Incoming => ((graph.incoming i).map (·.source)).reverse
  | .Outgoing => (graph.successors i).reverse

/-- The ids of the nodes without edges into them. -/
def roots (g : ExecutionGraph) : List NodeId :=
  ((List.range g.graph.nodes.length).filter (fun i => (neighbors_directed g.graph i .Incoming).isEmpty)).filterMap
    (fun i => (g.graph.nodes[i]?).map (·.id))

/-- The nodes that come out of an iterator in so many calls. An index that is out of range panics. -/
def items {σ : Type} (g : ExecutionGraph) (next : σ → Option (Nat × σ)) (calls : Nat) (it : σ) : Option (List Node) :=
  (collect next calls it).1.mapM (fun i => g.graph.nodes[i]?)

namespace BreadthFirst

def new (g : ExecutionGraph) (roots : List NodeId) : Breadth Nat :=
  roots.foldl (fun it root =>
    match g.index_map.lookup root with
    | none => it
    | some idx => it.push idx) ⟨[],∅⟩

def from_roots (g : ExecutionGraph) : Breadth Nat := new g (roots g)

def next (g : ExecutionGraph) : Breadth Nat → Option (Nat × Breadth Nat) := Breadth.advance (neighbors_directed g.graph · .Outgoing)

end BreadthFirst

namespace DepthFirst

/-- The roots are put on the stack from the last to the first. -/
def new (g : ExecutionGraph) (roots : List NodeId) : Depth Nat where
  stack := roots.reverse.foldl (fun stack root =>
    match g.index_map.lookup root with
    | none => stack
    | some idx => idx :: stack) []
  visited := ∅

def from_roots (g : ExecutionGraph) : Depth Nat := new g (roots g)

def next (g : ExecutionGraph) : Depth Nat → Option (Nat × Depth Nat) := Depth.advance (neighbors_directed g.graph · .Outgoing)

end DepthFirst

/-- A neighbour that has not been seen is put into the queue and its id into the result. -/
def meet (g : ExecutionGraph) (s : Breadth Nat × Finset NodeId) (i : Nat) : Breadth Nat × Finset NodeId :=
  if i ∈ s.1.visited then s
  else
    (s.1.push i,
      match g.graph.nodes[i]? with
      | none => s.2
      | some node => insert node.id s.2)

def gather (g : ExecutionGraph) (direction : Direction) (s : Breadth Nat × Finset NodeId) : Option (Nat × Breadth Nat × Finset NodeId) :=
  match s.1.queue with
  | [] => none
  | idx :: rest => some (idx,(neighbors_directed g.graph idx direction).foldl (meet g) ({ s.1 with queue := rest },s.2))

/-- The ids of the nodes that are met from a node on. No node comes into the queue twice, so that the bound is never reached. -/
def gathered (g : ExecutionGraph) (direction : Direction) (id : NodeId) : Finset NodeId :=
  match g.index_map.lookup id with
  | none => ∅
  | some start_idx => (collect (gather g direction) (g.graph.nodes.length + 1) (⟨[start_idx],{start_idx}⟩,∅)).2.2

def ancestors (g : ExecutionGraph) (id : NodeId) : Finset NodeId := gathered g .Incoming id
def descendants (g : ExecutionGraph) (id : NodeId) : Finset NodeId := gathered g .Outgoing id

/-! ### Indices and ids -/

/-- The walk over the indices follows a relation between the ids. -/
structure Follows (g : ExecutionGraph) (next : Nat → List Nat) (rel : NodeId → NodeId → Prop) : Prop where
  forth : ∀ i x, (ids g)[i]? = some x → ∀ j ∈ next i, ∃ y, (ids g)[j]? = some y ∧ rel x y
  back : ∀ i x, (ids g)[i]? = some x → ∀ y, rel x y → ∃ j, (ids g)[j]? = some y ∧ j ∈ next i

def Direction.rel (g : ExecutionGraph) : Direction → NodeId → NodeId → Prop
  | .Incoming => fun a b => Precedes g b a
  | .Outgoing => Precedes g

section
variable {g : ExecutionGraph} {next : Nat → List Nat} {rel : NodeId → NodeId → Prop} {starts : List Nat} {start : NodeId → Prop}
variable {i j n : Nat} {x id : NodeId} {direction : Direction}

theorem mem_neighbors (graph : DiGraph Node Edge) (i j : Nat) :
    (j ∈ neighbors_directed graph i .Incoming ↔ graph.Adjacent j i) ∧ (j ∈ neighbors_directed graph i .Outgoing ↔ graph.Adjacent i j) := by
  simp only [neighbors_directed,DiGraph.incoming,DiGraph.successors,List.mem_reverse,List.mem_map,List.mem_filter,decide_eq_true_eq,
    DiGraph.Adjacent]
  constructor
  · constructor
    · rintro ⟨s,⟨member,target⟩,source⟩
      exact ⟨s,member,source,target⟩
    · rintro ⟨s,member,source,target⟩
      exact ⟨s,⟨member,target⟩,source⟩
  · constructor
    · rintro ⟨s,⟨member,source⟩,target⟩
      exact ⟨s,member,source,target⟩
    · rintro ⟨s,member,source,target⟩
      exact ⟨s,⟨member,source⟩,target⟩

theorem follows_directed (ok : RepOk g) (direction : Direction) : Follows g (neighbors_directed g.graph · direction) (direction.rel g) := by
  have forth : ∀ i j, g.graph.Adjacent i j → ∃ x y, (ids g)[i]? = some x ∧ (ids g)[j]? = some y ∧ Precedes g x y := by
    rintro _ _ ⟨s,inside,rfl,rfl⟩
    obtain ⟨source,target⟩ := ok.ends s inside
    exact ⟨_,_,source,target,s.weight,mem_edges inside,rfl,rfl⟩
  have back : ∀ x y, Precedes g x y → ∃ i j, (ids g)[i]? = some x ∧ (ids g)[j]? = some y ∧ g.graph.Adjacent i j := by
    rintro _ _ ⟨e,member,rfl,rfl⟩
    obtain ⟨s,inside,rfl⟩ := List.mem_map.mp member
    obtain ⟨source,target⟩ := ok.ends s inside
    exact ⟨_,_,source,target,s,inside,rfl,rfl⟩
  cases direction with
  | Incoming =>
    constructor
    · intro i x at_i j member
      obtain ⟨y,x',at_j,at_i',edge⟩ := forth j i ((mem_neighbors g.graph i j).1.mp member)
      rw [at_i] at at_i'
      cases at_i'
      exact ⟨y,at_j,edge⟩
    · intro i x at_i y edge
      obtain ⟨j,i',at_j,at_i',adjacent⟩ := back y x edge
      exact ⟨j,at_j,(mem_neighbors g.graph i j).1.mpr (ok.index_unique at_i' at_i ▸ adjacent)⟩
  | Outgoing =>
    constructor
    · intro i x at_i j member
      obtain ⟨x',y,at_i',at_j,edge⟩ := forth i j ((mem_neighbors g.graph i j).2.mp member)
      rw [at_i] at at_i'
      cases at_i'
      exact ⟨y,at_j,edge⟩
    · intro i x at_i y edge
      obtain ⟨i',j,at_i',at_j,adjacent⟩ := back x y edge
      exact ⟨j,at_j,(mem_neighbors g.graph i j).2.mpr (ok.index_unique at_i' at_i ▸ adjacent)⟩

/-- The starts of a walk over indices are those of one over ids. -/
def SameStarts (g : ExecutionGraph) (starts : List Nat) (start : NodeId → Prop) : Prop :=
  (∀ i ∈ starts, ∃ x, (ids g)[i]? = some x ∧ start x) ∧ ∀ x, start x → ∃ i ∈ starts, (ids g)[i]? = some x

theorem away_iff (ok : RepOk g) (follows : Follows g next rel) (same : SameStarts g starts start) (at_i : (ids g)[i]? = some x) :
    Away (Edge next) (Root starts) n i ↔ Away rel start n x := by
  constructor
  · intro away
    obtain ⟨y,at_y,there⟩ := away.lift (R := fun i x => (ids g)[i]? = some x) same.1 fun i j x at_i edge => follows.forth i x at_i j edge
    rw [at_i] at at_y
    cases at_y
    exact there
  · intro away
    obtain ⟨j,at_j,there⟩ := away.lift (R := fun x i => (ids g)[i]? = some x) (fun x here => by
        obtain ⟨i,member,at_x⟩ := same.2 x here
        exact ⟨i,at_x,member⟩) fun x y i at_x edge => follows.back i x at_x y edge
    exact ok.index_unique at_j at_i ▸ there

theorem reached_known (follows : Follows g next rel) (same : SameStarts g starts start) (reached : Reached (Edge next) (Root starts) i) :
    ∃ x, (ids g)[i]? = some x ∧ Reached rel start x := by
  obtain ⟨n,away⟩ := reached
  obtain ⟨x,at_i,there⟩ := away.lift (R := fun i x => (ids g)[i]? = some x) same.1 fun i j x at_i edge => follows.forth i x at_i j edge
  exact ⟨x,at_i,n,there⟩

theorem reached_index (follows : Follows g next rel) (same : SameStarts g starts start) (reached : Reached rel start x) :
    ∃ i, (ids g)[i]? = some x ∧ Reached (Edge next) (Root starts) i := by
  obtain ⟨n,away⟩ := reached
  obtain ⟨i,at_i,there⟩ := away.lift (R := fun x i => (ids g)[i]? = some x) (fun x here => by
      obtain ⟨i,member,at_x⟩ := same.2 x here
      exact ⟨i,at_x,member⟩) fun x y i at_x edge => follows.back i x at_x y edge
  exact ⟨i,at_i,n,there⟩

theorem distance_eq (ok : RepOk g) (follows : Follows g next rel) (same : SameStarts g starts start) (at_i : (ids g)[i]? = some x) :
    distance (Edge next) (Root starts) i = distance rel start x := by
  rw [distance,distance]
  congr 1
  ext n
  exact away_iff ok follows same at_i

/-- A walk reaches nodes of the graph only, of which there are finitely many. -/
theorem reached_low (follows : Follows g next rel) (same : SameStarts g starts start) :
    ∀ i, Reached (Edge next) (Root starts) i → i ∈ Finset.range g.graph.nodes.length := by
  intro i reached
  obtain ⟨x,at_i,-⟩ := reached_known follows same reached
  have low := (List.getElem?_eq_some_iff.mp at_i).1
  rw [Finset.mem_range]
  simpa [ids] using low

/-! ### The iterators -/

/-- The roots that are known start a walk. -/
def Given (g : ExecutionGraph) (roots : List NodeId) (x : NodeId) : Prop := x ∈ roots ∧ x ∈ ids g

theorem sameStarts_roots (ok : RepOk g) (roots : List NodeId) : SameStarts g (roots.filterMap g.index_map.lookup) (Given g roots) := by
  constructor
  · intro i member
    obtain ⟨x,given,found⟩ := List.mem_filterMap.mp member
    have at_i := (ok.index x i).mp found
    exact ⟨x,at_i,given,List.mem_of_getElem? at_i⟩
  · rintro x ⟨given,known⟩
    obtain ⟨i,at_i⟩ := List.mem_iff_getElem?.mp known
    exact ⟨i,List.mem_filterMap.mpr ⟨x,given,(ok.index x i).mpr at_i⟩,at_i⟩

theorem breadth_new (g : ExecutionGraph) (roots : List NodeId) : BreadthFirst.new g roots = Breadth.begin (roots.filterMap g.index_map.lookup) := by
  have pushed : ∀ it : Breadth Nat, roots.foldl (fun it root =>
      match g.index_map.lookup root with
      | none => it
      | some idx => it.push idx) it = (roots.filterMap g.index_map.lookup).foldl Breadth.push it := by
    induction roots with
    | nil => exact fun _ => rfl
    | cons root later ih =>
      intro it
      rw [List.foldl_cons,List.filterMap_cons]
      cases g.index_map.lookup root with
      | none => exact ih it
      | some idx => exact ih (it.push idx)
  exact pushed _

theorem depth_new (g : ExecutionGraph) (roots : List NodeId) : DepthFirst.new g roots = ⟨roots.filterMap g.index_map.lookup,∅⟩ := by
  have stacked : ∀ list : List NodeId, list.foldr (fun root stack =>
      match g.index_map.lookup root with
      | none => stack
      | some idx => idx :: stack) [] = list.filterMap g.index_map.lookup := by
    intro list
    induction list with
    | nil => rfl
    | cons root later ih =>
      rw [List.foldr_cons,List.filterMap_cons,ih]
      cases g.index_map.lookup root <;> rfl
  rw [DepthFirst.new,List.foldl_reverse,stacked]

/-- The nodes at some indices of the graph. -/
theorem mapM_nodes {list : List Nat} (inside : ∀ i ∈ list, i < g.graph.nodes.length) :
    ∃ ns, list.mapM (fun i => g.graph.nodes[i]?) = some ns ∧ List.Forall₂ (fun i n => g.graph.nodes[i]? = some n) list ns := by
  induction list with
  | nil => exact ⟨[],rfl,.nil⟩
  | cons i later ih =>
    obtain ⟨here,rest⟩ := List.forall_mem_cons.mp inside
    obtain ⟨ns,mapped,found⟩ := ih rest
    have at_i := List.getElem?_eq_getElem here
    exact ⟨_,by rw [List.mapM_cons,at_i,mapped]; rfl,.cons at_i found⟩

theorem names_found {list : List Nat} {ns : List Node} (found : List.Forall₂ (fun i n => g.graph.nodes[i]? = some n) list ns) :
    list.map (fun i => (ids g)[i]?) = ns.map (fun n => some n.id) := by
  induction found with
  | nil => rfl
  | cons at_i _ ih => rw [List.map_cons,List.map_cons,ih,ids_get,at_i]; rfl

theorem mem_found {list : List Nat} {ns : List Node} (found : List.Forall₂ (fun i n => g.graph.nodes[i]? = some n) list ns) :
    ∀ n ∈ ns, ∃ i ∈ list, g.graph.nodes[i]? = some n := by
  induction found with
  | nil => exact fun _ member => absurd member List.not_mem_nil
  | cons at_i _ ih =>
    intro n member
    rcases List.mem_cons.mp member with rfl | deeper
    · exact ⟨_,List.mem_cons_self,at_i⟩
    · obtain ⟨i,inside,at_n⟩ := ih n deeper
      exact ⟨i,List.mem_cons_of_mem _ inside,at_n⟩

/-- The ids of the nodes at some indices. -/
theorem mem_names {list : List Nat} {ns : List Node} (found : List.Forall₂ (fun i n => g.graph.nodes[i]? = some n) list ns) (x : NodeId) :
    x ∈ ns.map (·.id) ↔ ∃ i ∈ list, (ids g)[i]? = some x := by
  constructor
  · intro member
    obtain ⟨n,inside,rfl⟩ := List.mem_map.mp member
    obtain ⟨i,listed,at_i⟩ := mem_found found n inside
    exact ⟨i,listed,by rw [ids_get,at_i]; rfl⟩
  · rintro ⟨i,listed,at_i⟩
    have there : (ids g)[i]? ∈ list.map (fun i => (ids g)[i]?) := List.mem_map_of_mem listed
    rw [names_found found,at_i] at there
    obtain ⟨n,inside,same⟩ := List.mem_map.mp there
    exact List.mem_map.mpr ⟨n,inside,Option.some.inj same⟩

/-- The nodes at different indices have different ids. -/
theorem names_nodup (ok : RepOk g) {list : List Nat} {ns : List Node} (once : list.Nodup) (inside : ∀ i ∈ list, i < g.graph.nodes.length)
    (found : List.Forall₂ (fun i n => g.graph.nodes[i]? = some n) list ns) : (ns.map (·.id)).Nodup := by
  have distinct : (list.map (fun i => (ids g)[i]?)).Nodup := by
    refine (List.nodup_map_iff_inj_on once).mpr fun i first j second same => ?_
    obtain ⟨x,at_i⟩ : ∃ x, (ids g)[i]? = some x := ⟨_,List.getElem?_eq_getElem (by simpa [ids] using inside i first)⟩
    exact ok.index_unique at_i (same ▸ at_i)
  have split : ns.map (fun n => some n.id) = (ns.map (·.id)).map some := (List.map_map ..).symm
  rw [names_found found,split] at distinct
  exact List.Nodup.of_map some distinct

/-- What comes out of an iterator, seen by the ids. -/
structure Yields (g : ExecutionGraph) (roots : List NodeId) (ns : List Node) : Prop where
  once : (ns.map (·.id)).Nodup
  nodes : ∀ n ∈ ns, g.get_node n.id = some n
  reached : ∀ x, x ∈ ns.map (·.id) ↔ Reached (Precedes g) (Given g roots) x

theorem yields_of (ok : RepOk g) {roots : List NodeId} {list : List Nat} (once : list.Nodup)
    (all : ∀ i, i ∈ list ↔ Reached (Edge (neighbors_directed g.graph · .Outgoing)) (Root (roots.filterMap g.index_map.lookup)) i) :
    ∃ ns, list.mapM (fun i => g.graph.nodes[i]?) = some ns ∧ list.map (fun i => (ids g)[i]?) = ns.map (fun n => some n.id) ∧ Yields g roots ns := by
  have follows := follows_directed ok .Outgoing
  have same := sameStarts_roots ok roots
  have low : ∀ i ∈ list, i < g.graph.nodes.length := fun i member => Finset.mem_range.mp (reached_low follows same i ((all i).mp member))
  obtain ⟨ns,mapped,found⟩ := mapM_nodes low
  refine ⟨ns,mapped,names_found found,names_nodup ok once low found,?_,fun x => (mem_names found x).trans ⟨?_,?_⟩⟩
  · intro n member
    obtain ⟨i,-,at_n⟩ := mem_found found n member
    rw [get_node_eq ok (i := i) (by rw [ids_get,at_n]; rfl),at_n]
  · rintro ⟨i,listed,at_i⟩
    obtain ⟨y,at_y,reached⟩ := reached_known follows same ((all i).mp listed)
    rw [at_i] at at_y
    cases at_y
    exact reached
  · intro reached
    obtain ⟨i,at_i,there⟩ := reached_index follows same reached
    exact ⟨i,(all i).mpr there,at_i⟩

/-- Of the nodes that come out of the queue none is farther from the roots than a later one. -/
def Nearest (g : ExecutionGraph) (roots : List NodeId) (ns : List Node) : Prop :=
  (ns.map (·.id)).Pairwise fun a b => distance (Precedes g) (Given g roots) a ≤ distance (Precedes g) (Given g roots) b

theorem nearest_of (ok : RepOk g) {roots : List NodeId} {list : List Nat} {ns : List Node}
    (known : ∀ i ∈ list, Reached (Edge (neighbors_directed g.graph · .Outgoing)) (Root (roots.filterMap g.index_map.lookup)) i)
    (names : list.map (fun i => (ids g)[i]?) = ns.map (fun n => some n.id))
    (sorted : list.Pairwise fun i j =>
      distance (Edge (neighbors_directed g.graph · .Outgoing)) (Root (roots.filterMap g.index_map.lookup)) i ≤
        distance (Edge (neighbors_directed g.graph · .Outgoing)) (Root (roots.filterMap g.index_map.lookup)) j) : Nearest g roots ns := by
  have follows := follows_directed ok .Outgoing
  have same := sameStarts_roots ok roots
  -- The distance of an index is that of the id that stands there.
  let far : Option NodeId → Nat := fun found => found.elim 0 (distance (Precedes g) (Given g roots))
  have measured : ∀ i ∈ list, distance (Edge (neighbors_directed g.graph · .Outgoing)) (Root (roots.filterMap g.index_map.lookup)) i =
      far (ids g)[i]? := by
    intro i member
    obtain ⟨x,at_i,-⟩ := reached_known follows same (known i member)
    rw [at_i]
    exact distance_eq ok follows same at_i
  have ordered : (list.map (fun i => (ids g)[i]?)).Pairwise fun a b => far a ≤ far b := by
    refine List.pairwise_map.mpr (sorted.imp_of_mem fun {i j} first second le => ?_)
    rw [← measured i first,← measured j second]
    exact le
  rw [names] at ordered
  exact List.pairwise_map.mpr ((List.pairwise_map (R := fun a b => far a ≤ far b)).mp ordered)

/-- The iterator with the queue goes to the nodes that can be reached from the roots, to the nearest first. -/
theorem breadth_yields (ok : RepOk g) (roots : List NodeId) : ∃ ns,
    (∀ calls, g.node_count < calls → items g (BreadthFirst.next g) calls (BreadthFirst.new g roots) = some ns) ∧
    Yields g roots ns ∧ Nearest g roots ns := by
  have low := reached_low (follows_directed ok .Outgoing) (sameStarts_roots ok roots)
  obtain ⟨ended,spread⟩ := breadth_exact (neighbors_directed g.graph · .Outgoing) (roots.filterMap g.index_map.lookup) low
    (n := g.graph.nodes.length + 1) (by simp)
  have once := (List.nodup_append.mp spread.distinct).1
  obtain ⟨ns,mapped,names,yields⟩ := yields_of ok once (spread.complete ended)
  refine ⟨ns,fun calls enough => ?_,yields,?_⟩
  · obtain ⟨more,rfl⟩ := Nat.exists_eq_add_of_le (Nat.succ_le_of_lt enough)
    rw [items,breadth_new,BreadthFirst.next]
    rw [show g.node_count.succ = g.graph.nodes.length + 1 from rfl,collect_more ended]
    exact mapped
  · exact nearest_of ok (fun i out => (spread.complete ended i).mp out) names (List.pairwise_append.mp spread.sorted).1

/-- The iterator with the stack goes to the nodes that can be reached from the roots. -/
theorem depth_yields (ok : RepOk g) (roots : List NodeId) : ∃ ns,
    (∀ calls, g.node_count < calls → items g (DepthFirst.next g) calls (DepthFirst.new g roots) = some ns) ∧ Yields g roots ns := by
  have low := reached_low (follows_directed ok .Outgoing) (sameStarts_roots ok roots)
  obtain ⟨ended,deep⟩ := depth_exact (neighbors_directed g.graph · .Outgoing) (roots.filterMap g.index_map.lookup) low
    (n := g.graph.nodes.length + 1) (by simp)
  obtain ⟨ns,mapped,-,yields⟩ := yields_of ok deep.distinct (deep.complete ended)
  refine ⟨ns,fun calls enough => ?_,yields⟩
  obtain ⟨more,rfl⟩ := Nat.exists_eq_add_of_le (Nat.succ_le_of_lt enough)
  rw [items,depth_new,DepthFirst.next]
  rw [show g.node_count.succ = g.graph.nodes.length + 1 from rfl,collect_more ended]
  exact mapped

/-! ### All nodes -/

theorem mem_roots (ok : RepOk g) (x : NodeId) : x ∈ roots g ↔ x ∈ ids g ∧ ∀ y, ¬ Precedes g y x := by
  have follows := follows_directed ok .Incoming
  simp only [roots,List.mem_filterMap,List.mem_filter,List.mem_range,List.isEmpty_iff,← ids_get]
  constructor
  · rintro ⟨i,⟨-,none⟩,at_i⟩
    refine ⟨List.mem_of_getElem? at_i,fun y edge => ?_⟩
    obtain ⟨j,-,member⟩ := follows.back i x at_i y edge
    rw [none] at member
    exact List.not_mem_nil member
  · rintro ⟨known,free⟩
    obtain ⟨i,at_i⟩ := List.mem_iff_getElem?.mp known
    have inside := (List.getElem?_eq_some_iff.mp at_i).1
    refine ⟨i,⟨by simpa [ids] using inside,List.eq_nil_iff_forall_not_mem.mpr fun j member => ?_⟩,at_i⟩
    obtain ⟨y,-,edge⟩ := follows.forth i x at_i j member
    exact free y edge

/-- Every node can be reached from a node without predecessors. -/
theorem reached_roots (ok : RepOk g) (x : NodeId) : Reached (Precedes g) (Given g (roots g)) x ↔ x ∈ ids g := by
  constructor
  · intro reached
    obtain ⟨s,⟨-,known⟩,path⟩ := reached_iff.mp reached
    rcases Relation.ReflTransGen.cases_tail path with rfl | ⟨y,-,edge⟩
    · exact known
    · exact (precedes_mem ok edge).2
  · intro known
    induction x using (precedes_wellFounded ok).induction with
    | _ x ih =>
      by_cases free : ∀ y, ¬ Precedes g y x
      · exact ⟨0,.start ⟨(mem_roots ok x).mpr ⟨known,free⟩,known⟩⟩
      · simp only [not_forall,not_not] at free
        obtain ⟨y,edge⟩ := free
        exact (ih y edge (precedes_mem ok edge).1).next edge

/-! ### Dependencies and dependents -/

theorem meet_push (g : ExecutionGraph) (list : List Nat) (s : Breadth Nat × Finset NodeId) :
    (list.foldl (meet g) s).1 = list.foldl Breadth.push s.1 := by
  induction list generalizing s with
  | nil => rfl
  | cons i later ih =>
    rw [List.foldl_cons,List.foldl_cons,ih,meet]
    by_cases seen : i ∈ s.1.visited
    · rw [if_pos seen,Breadth.push,if_pos seen]
    · rw [if_neg seen]

theorem push_visited (s : Breadth Nat) (i j : Nat) : j ∈ (s.push i).visited ↔ j = i ∨ j ∈ s.visited := by
  rw [Breadth.push]
  split_ifs with seen
  · exact ⟨.inr,fun there => there.elim (fun same => same ▸ seen) id⟩
  · exact Finset.mem_insert

theorem sameStarts_one {first : Nat} (at_first : (ids g)[first]? = some id) : SameStarts g [first] (· = id) := by
  refine ⟨fun i member => ⟨id,?_,rfl⟩,fun y here => ⟨first,List.mem_singleton.mpr rfl,here ▸ at_first⟩⟩
  rw [List.mem_singleton.mp member]
  exact at_first

theorem begin_one (first : Nat) : Breadth.begin [first] = ⟨[first],{first}⟩ := by
  simp [Breadth.begin,Breadth.push]

/-- The ids in the result are those of the nodes that have been seen, apart from the start. -/
def Named (g : ExecutionGraph) (start : Nat) (s : Breadth Nat × Finset NodeId) : Prop :=
  start ∈ s.1.visited ∧ ∀ x, x ∈ s.2 ↔ ∃ i ∈ s.1.visited, i ≠ start ∧ (ids g)[i]? = some x

theorem Named.meet {first : Nat} {s : Breadth Nat × Finset NodeId} (named : Named g first s) (i : Nat) : Named g first (meet g s i) := by
  rw [GraphWalker.meet]
  split_ifs with seen
  · exact named
  have apart : i ≠ first := fun same => seen (same ▸ named.1)
  refine ⟨(push_visited s.1 i first).mpr (.inr named.1),fun x => ?_⟩
  have split : (∃ j ∈ (s.1.push i).visited, j ≠ first ∧ (ids g)[j]? = some x) ↔ (ids g)[i]? = some x ∨ x ∈ s.2 := by
    rw [named.2]
    constructor
    · rintro ⟨j,there,other,at_j⟩
      rcases (push_visited s.1 i j).mp there with rfl | old
      · exact .inl at_j
      · exact .inr ⟨j,old,other,at_j⟩
    · rintro (at_i | ⟨j,old,other,at_j⟩)
      · exact ⟨i,(push_visited s.1 i i).mpr (.inl rfl),apart,at_i⟩
      · exact ⟨j,(push_visited s.1 i j).mpr (.inr old),other,at_j⟩
  rw [split,ids_get]
  cases g.graph.nodes[i]? with
  | none => simp
  | some n => simp [eq_comm]

theorem Named.meets {first : Nat} {s : Breadth Nat × Finset NodeId} (named : Named g first s) (list : List Nat) :
    Named g first (list.foldl (GraphWalker.meet g) s) := by
  induction list generalizing s with
  | nil => exact named
  | cons i later ih => exact ih (named.meet i)

theorem gather_advance (g : ExecutionGraph) (direction : Direction) (s : Breadth Nat × Finset NodeId) :
    Breadth.advance (neighbors_directed g.graph · direction) s.1 = (gather g direction s).map fun moved => (moved.1,moved.2.1) := by
  rw [Breadth.advance,gather]
  cases s.1.queue with
  | nil => rfl
  | cons head rest => rw [Option.map_some,meet_push]

/-- What is gathered are the ids of the other nodes that can be reached. -/
theorem mem_gathered (ok : RepOk g) (direction : Direction) {first : Nat} (at_first : (ids g)[first]? = some id) (x : NodeId) :
    x ∈ gathered g direction id ↔ Reached (direction.rel g) (· = id) x ∧ x ≠ id := by
  have follows := follows_directed ok direction
  have same := sameStarts_one at_first
  have seen : ∀ i, i ∈ (collect (gather g direction) (g.graph.nodes.length + 1) (⟨[first],{first}⟩,∅)).2.1.visited ↔
      Reached (Edge (neighbors_directed g.graph · direction)) (Root [first]) i := by
    intro i
    have walk := collect_image Prod.fst (gather_advance g direction) (g.graph.nodes.length + 1) (⟨[first],{first}⟩,∅)
    rw [← breadth_visited _ _ (reached_low follows same) (show _ < g.graph.nodes.length + 1 by simp),begin_one,walk]
  have named : Named g first (collect (gather g direction) (g.graph.nodes.length + 1) (⟨[first],{first}⟩,∅)).2 := by
    refine @collect_induction _ _ _ _ (fun _ s => Named g first s) (fun done s a s' now moved => ?_) _ [] ⟨by simp,fun y => by simp⟩
    rw [gather] at moved
    cases queue : s.1.queue with
    | nil =>
      rw [queue] at moved
      cases moved
    | cons head rest =>
      rw [queue] at moved
      cases moved
      exact Named.meets (s := ({ s.1 with queue := rest },s.2)) now _
  rw [gathered,(ok.index id first).mpr at_first]
  refine (named.2 x).trans ⟨?_,?_⟩
  · rintro ⟨i,there,other,at_i⟩
    obtain ⟨y,at_y,reached⟩ := reached_known follows same ((seen i).mp there)
    rw [at_i] at at_y
    cases at_y
    exact ⟨reached,fun named => other (ok.index_unique at_i (named ▸ at_first))⟩
  · rintro ⟨reached,other⟩
    obtain ⟨i,at_i,there⟩ := reached_index follows same reached
    refine ⟨i,(seen i).mpr there,fun same' => other ?_,at_i⟩
    rw [same',at_first] at at_i
    exact (Option.some.inj at_i).symm

theorem lookup_unknown (ok : RepOk g) (unknown : id ∉ ids g) : g.index_map.lookup id = none := by
  cases found : g.index_map.lookup id with
  | none => rfl
  | some i => exact absurd (List.mem_of_getElem? ((ok.index id i).mp found)) unknown

theorem gathered_unknown (ok : RepOk g) (direction : Direction) (unknown : id ∉ ids g) : gathered g direction id = ∅ := by
  rw [gathered,lookup_unknown ok unknown]

/-- On a relation without cycles, the other nodes that can be reached are those with a path of at least one edge. -/
theorem reached_other {rel : NodeId → NodeId → Prop} (acyclic : Acyclic rel) (x id : NodeId) :
    Reached rel (· = id) x ∧ x ≠ id ↔ Relation.TransGen rel id x := by
  rw [reached_iff]
  constructor
  · rintro ⟨⟨_,rfl,path⟩,other⟩
    exact (Relation.reflTransGen_iff_eq_or_transGen.mp path).resolve_left other
  · intro path
    exact ⟨⟨id,rfl,path.to_reflTransGen⟩,fun same => acyclic id (same ▸ path)⟩

theorem mem_descendants (ok : RepOk g) (id x : NodeId) : x ∈ descendants g id ↔ Relation.TransGen (Precedes g) id x := by
  by_cases known : id ∈ ids g
  · obtain ⟨first,at_first⟩ := List.mem_iff_getElem?.mp known
    rw [descendants,mem_gathered ok .Outgoing at_first,← reached_other (precedes_acyclic ok)]
    rfl
  · rw [descendants,gathered_unknown ok .Outgoing known]
    refine iff_of_false (Finset.notMem_empty x) fun path => ?_
    obtain ⟨y,edge,-⟩ := Relation.TransGen.head'_iff.mp path
    exact known (precedes_mem ok edge).1

theorem mem_ancestors (ok : RepOk g) (id x : NodeId) : x ∈ ancestors g id ↔ Relation.TransGen (Precedes g) x id := by
  have acyclic : Acyclic (fun a b => Precedes g b a) := fun a cycle => precedes_acyclic ok a (Relation.transGen_swap.mp cycle)
  by_cases known : id ∈ ids g
  · obtain ⟨first,at_first⟩ := List.mem_iff_getElem?.mp known
    rw [ancestors,mem_gathered ok .Incoming at_first,← Relation.transGen_swap]
    exact reached_other acyclic x id
  · rw [ancestors,gathered_unknown ok .Incoming known]
    refine iff_of_false (Finset.notMem_empty x) fun path => ?_
    obtain ⟨y,-,edge⟩ := Relation.TransGen.tail'_iff.mp path
    exact known (precedes_mem ok edge).2

end
end Daf.GraphWalker
