import Daf.Cycles
import Mathlib.Data.List.Nodup

/-!
Directed multigraphs with node and edge weights in index order. Removing an
element moves the last one into its slot, so that removing a node renumbers one
other node and the ends of its edges.
-/
namespace Daf.Digraph
open Daf.Cycles
universe u v
variable {α : Type u} {N : Type u} {E : Type v}

/-- Remove the element at an index by moving the last one into its slot. -/
def swapRemove (list : List α) (i : Nat) : List α :=
  match list.getLast? with
  | none => list
  | some last => if i < list.length then (list.set i last).dropLast else list

theorem swapRemove_concat (list : List α) (last : α) : swapRemove (list ++ [last]) list.length = list := by
  simp [swapRemove]

/-- After the removal the slot holds the last element, and every other index what
    it held before. -/
theorem swapRemove_get {list : List α} {i : Nat} (inside : i < list.length) (j : Nat) :
    (swapRemove list i)[j]? =
      if j < list.length - 1 then list[if j = i then list.length - 1 else j]? else none := by
  have nonempty : list ≠ [] := by rintro rfl; simp at inside
  simp only [swapRemove,List.getLast?_eq_some_getLast nonempty,inside,if_true]
  rw [List.getElem?_dropLast]
  simp only [List.length_set]
  by_cases low : j < list.length - 1
  · simp only [low,if_true]
    by_cases same : j = i
    · subst same
      simp [inside,List.getLast_eq_getElem]
    · simp [same,Ne.symm same]
  · simp [low]

theorem map_swapRemove {β : Type v} (f : α → β) (list : List α) (i : Nat) :
    (swapRemove list i).map f = swapRemove (list.map f) i := by
  unfold swapRemove
  rw [List.getLast?_map]
  cases list.getLast? with
  | none => rfl
  | some last =>
    simp only [Option.map_some,List.length_map]
    split_ifs <;> simp [List.map_dropLast,List.map_set]

/-- The index that an element has after the last one moved into the freed slot. -/
def renumber (last freed i : Nat) : Nat := if i = last then freed else i

/-- The index that an element had before the removal. -/
def formerly (last freed i : Nat) : Nat := if i = freed then last else i

theorem formerly_renumber {last freed i : Nat} (other : i ≠ freed) : formerly last freed (renumber last freed i) = i := by
  unfold formerly renumber
  split_ifs <;> omega

theorem renumber_lt {n freed i : Nat} (inside : i < n) (free : freed < n) (other : i ≠ freed) :
    renumber (n - 1) freed i < n - 1 := by
  unfold renumber
  split_ifs <;> omega

theorem renumber_formerly {n freed j : Nat} (inside : j < n - 1) :
    renumber (n - 1) freed (formerly (n - 1) freed j) = j := by
  unfold formerly renumber
  split_ifs <;> omega

/-- After the removal of an element the others stand at their new indices. -/
theorem swapRemove_renumber {list : List α} {freed i : Nat} (free : freed < list.length) (inside : i < list.length)
    (other : i ≠ freed) : (swapRemove list freed)[renumber (list.length - 1) freed i]? = list[i]? := by
  rw [swapRemove_get free,if_pos (renumber_lt inside free other)]
  exact congrArg (list[·]?) (formerly_renumber other)

/-- What stands at an index after a removal, by the index where it stood before. -/
theorem swapRemove_formerly {list : List α} {freed j : Nat} {x : α} (free : freed < list.length) :
    (swapRemove list freed)[j]? = some x ↔ j < list.length - 1 ∧ list[formerly (list.length - 1) freed j]? = some x := by
  rw [swapRemove_get free]
  by_cases low : j < list.length - 1
  · simp [low,formerly]
  · simp [low]

theorem formerly_ne {n freed j : Nat} (inside : j < n - 1) : formerly (n - 1) freed j ≠ freed := by
  unfold formerly
  split_ifs <;> omega

/-- An edge with the indices of its ends. -/
structure Slot (E : Type v) where
  source : Nat
  target : Nat
  weight : E

structure DiGraph (N : Type u) (E : Type v) where
  nodes : List N
  edges : List (Slot E)

namespace DiGraph

def new : DiGraph N E := ⟨[],[]⟩

def node_count (g : DiGraph N E) : Nat := g.nodes.length

/-- Append a node; its index is the former number of nodes. -/
def add_node (g : DiGraph N E) (node : N) : DiGraph N E := { g with nodes := g.nodes ++ [node] }
/-- Append an edge; its index is the former number of edges. -/
def add_edge (g : DiGraph N E) (source target : Nat) (weight : E) : DiGraph N E :=
  { g with edges := g.edges ++ [⟨source,target,weight⟩] }
def remove_edge (g : DiGraph N E) (i : Nat) : DiGraph N E := { g with edges := swapRemove g.edges i }
/-- Change the weight of a node in place. -/
def modify (g : DiGraph N E) (i : Nat) (f : N → N) : DiGraph N E := { g with nodes := g.nodes.modify i f }

/-- The edges into a node. -/
def incoming (g : DiGraph N E) (i : Nat) : List (Slot E) := g.edges.filter (·.target = i)
/-- The ends of the edges out of a node, one for each edge. -/
def successors (g : DiGraph N E) (i : Nat) : List Nat := (g.edges.filter (·.source = i)).map (·.target)

/-- Remove a node with its edges; the last node takes its index. The order of
    the remaining edges is not part of the interface of the removal. -/
def remove_node (g : DiGraph N E) (a : Nat) : Option N × DiGraph N E :=
  match g.nodes[a]? with
  | none => (none,g)
  | some node =>
    (some node,
      { nodes := swapRemove g.nodes a
        edges := (g.edges.filter (fun s => s.source ≠ a ∧ s.target ≠ a)).map (fun s =>
          { s with
            source := renumber (g.nodes.length - 1) a s.source
            target := renumber (g.nodes.length - 1) a s.target }) })

/-- Some edge leads from the first node to the second. -/
def hasEdge (g : DiGraph N E) (a b : Nat) : Bool := g.edges.any (fun s => s.source = a ∧ s.target = b)

/-- The graph has a directed cycle; an edge from a node to itself is one. -/
def is_cyclic_directed (g : DiGraph N E) : Bool :=
  !(peel g.hasEdge g.nodes.length (List.range g.nodes.length)).isEmpty

/-- Every edge connects nodes of the graph. -/
def InRange (g : DiGraph N E) : Prop := ∀ s ∈ g.edges, s.source < g.nodes.length ∧ s.target < g.nodes.length
/-- The edge relation between node indices. -/
def Adjacent (g : DiGraph N E) (a b : Nat) : Prop := ∃ s ∈ g.edges, s.source = a ∧ s.target = b

theorem hasEdge_iff (g : DiGraph N E) (a b : Nat) : g.hasEdge a b = true ↔ g.Adjacent a b := by
  simp [hasEdge,Adjacent]

/-- The cycle check is exact on graphs whose edges connect nodes of the graph. -/
theorem is_cyclic_directed_iff {g : DiGraph N E} (inRange : g.InRange) :
    g.is_cyclic_directed = false ↔ Acyclic g.Adjacent := by
  have relation : (fun a b => g.hasEdge a b = true) = g.Adjacent := by
    funext a b
    exact propext (g.hasEdge_iff a b)
  have covers : ∀ a b, g.hasEdge a b = true → a ∈ List.range g.nodes.length ∧ b ∈ List.range g.nodes.length := by
    intro a b edge
    obtain ⟨s,member,rfl,rfl⟩ := (g.hasEdge_iff a b).mp edge
    simpa using inRange s member
  have exact := peel_nil_iff g.hasEdge (List.range g.nodes.length) covers
  rw [relation,List.length_range] at exact
  rw [← exact,is_cyclic_directed]
  simp

/-- Undoing the addition of an edge gives the graph back. -/
theorem remove_added_edge (g : DiGraph N E) (a b : Nat) (weight : E) :
    (g.add_edge a b weight).remove_edge g.edges.length = g := by
  simp [add_edge,remove_edge,swapRemove_concat]

/-- The edges after the removal of a node are the edges of the other nodes. -/
theorem mem_remove_node {g : DiGraph N E} {a : Nat} {node : N} (found : g.nodes[a]? = some node) (s : Slot E) :
    s ∈ (g.remove_node a).2.edges ↔ ∃ old ∈ g.edges, old.source ≠ a ∧ old.target ≠ a ∧
      s = ⟨renumber (g.nodes.length - 1) a old.source,renumber (g.nodes.length - 1) a old.target,old.weight⟩ := by
  simp only [remove_node,found,List.mem_map,List.mem_filter,decide_eq_true_eq,and_assoc]
  exact exists_congr (fun old => and_congr_right (fun _ => and_congr_right (fun _ => and_congr_right (fun _ => eq_comm))))

end DiGraph
end Daf.Digraph
