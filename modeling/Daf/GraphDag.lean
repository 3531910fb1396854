import Daf.Digraph
import Daf.GraphNodes
import Mathlib.Data.List.AList

/-!
The execution graph: a directed graph of nodes with a map from node ids to
indices, kept by hand next to it, and the dependency set that each node carries
of its predecessors. The operations keep the three in step (`RepOk`, `Deps`) and
the graph acyclic.
-/
namespace Daf.GraphDag
open Daf.Cycles Daf.Digraph Daf.GraphNodes

structure ExecutionGraph where
  graph : DiGraph Node Edge
  index_map : AList (fun _ : NodeId => Nat)
  name : String

namespace ExecutionGraph

def new (name : String) : ExecutionGraph := ⟨DiGraph.new,∅,name⟩

def node_count (g : ExecutionGraph) : Nat := g.graph.node_count
def nodes (g : ExecutionGraph) : List Node := g.graph.nodes
/-- The edges of the graph, in index order. -/
def edges (g : ExecutionGraph) : List Edge := g.graph.edges.map (·.weight)

/-- Change the node at an index in place. -/
def modify (g : ExecutionGraph) (i : Nat) (f : Node → Node) : ExecutionGraph := { g with graph := g.graph.modify i f }

/-- Register a node under its id; an id that is known keeps its first node. -/
def add_node (g : ExecutionGraph) (node : Node) : NodeId × ExecutionGraph :=
  if (g.index_map.lookup node.id).isSome then (node.id,g)
  else (node.id,{ g with
    graph := g.graph.add_node node
    index_map := g.index_map.insert node.id g.graph.nodes.length })

/-- Add an edge between known nodes, unless it closes a cycle: then the edge that
    was added for the check is removed again. -/
def add_edge (g : ExecutionGraph) (edge : Edge) : Except GraphError Unit × ExecutionGraph :=
  match g.index_map.lookup edge.source with
  | none => (.error (.NodeNotFound edge.source),g)
  | some src_idx =>
    match g.index_map.lookup edge.target with
    | none => (.error (.NodeNotFound edge.target),g)
    | some tgt_idx =>
      let edge_idx := g.graph.edges.length
      let graph := g.graph.add_edge src_idx tgt_idx edge
      if graph.is_cyclic_directed then (.error .CycleDetected,{ g with graph := graph.remove_edge edge_idx })
      else
        match graph.nodes[src_idx]? with
        | none => (.ok (),{ g with graph })
        | some source => (.ok (),{ g with
            graph := graph.modify tgt_idx (fun n => { n with dependencies := insert source.id n.dependencies }) })

/-- Remove a node with its edges, and its id from the dependency sets of the
    nodes behind it. -/
def remove_node (g : ExecutionGraph) (id : NodeId) : Except GraphError Node × ExecutionGraph :=
  match g.index_map.lookup id with
  | none => (.error (.NodeNotFound id),g)
  | some idx =>
    let index_map := g.index_map.erase id
    let cleaned := (g.graph.successors idx).foldl
      (fun graph dep_idx => graph.modify dep_idx (fun n => { n with dependencies := n.dependencies.erase id })) g.graph
    match cleaned.remove_node idx with
    | (none,graph) => (.error (.NodeNotFound id),{ g with graph, index_map })
    | (some removed,graph) =>
      -- The node that was last now stands at `idx`, unless the removed one was last.
      match graph.nodes[idx]? with
      | none => (.ok removed,{ g with graph, index_map })
      | some swapped => (.ok removed,{ g with graph, index_map := index_map.insert swapped.id idx })

def get_node (g : ExecutionGraph) (id : NodeId) : Option Node :=
  (g.index_map.lookup id).bind (fun i => g.graph.nodes[i]?)

/-- Change the node with an id in place, if there is one. -/
def modifyNode (g : ExecutionGraph) (id : NodeId) (f : Node → Node) : ExecutionGraph :=
  match g.index_map.lookup id with
  | none => g
  | some i => g.modify i f

def edge_satisfied (pred : Node) (edge : Edge) : Bool := satisfied pred.state edge

/-- The edge fires in the present state of its source node. -/
def fires (g : ExecutionGraph) (s : Slot Edge) : Bool :=
  match g.graph.nodes[s.source]? with
  | none => false
  | some pred => edge_satisfied pred s.weight

/-- The id of the node at an index, if it is pending and its edges are satisfied. -/
def readyAt (g : ExecutionGraph) (i : Nat) : Option NodeId :=
  match g.graph.nodes[i]? with
  | none => none
  | some node => if node.state = .Pending ∧ (g.graph.incoming i).all g.fires then some node.id else none

/-- The pending nodes whose incoming edges are all satisfied, in index order. -/
def ready_nodes (g : ExecutionGraph) : List NodeId := (List.range g.graph.nodes.length).filterMap g.readyAt

/-- A terminal source node rules the edge out. -/
def blocks (g : ExecutionGraph) (s : Slot Edge) : Bool :=
  match g.graph.nodes[s.source]? with
  | none => false
  | some pred => pred.state.is_terminal && !edge_satisfied pred s.weight

/-- The indices of the pending nodes with an edge that can no longer fire. -/
def impossible (g : ExecutionGraph) : List Nat :=
  (List.range g.graph.nodes.length).filter (fun i =>
    match g.graph.nodes[i]? with
    | none => false
    | some node => node.state = .Pending && (g.graph.incoming i).any g.blocks)

def skipAt (g : ExecutionGraph) (i : Nat) : ExecutionGraph := g.modify i (fun n => { n with state := .Skipped })

/-- The rounds of `skip_impossible_nodes`. -/
def skipLoop : Nat → ExecutionGraph → ExecutionGraph
  | 0,g => g
  | rounds+1,g =>
    match g.impossible with
    | [] => g
    | found => skipLoop rounds (found.foldl skipAt g)

/-- Skip pending nodes that can no longer run, until there are none. Every round
    skips a pending node, so that the bound on the rounds is never reached. -/
def skip_impossible_nodes (g : ExecutionGraph) : ExecutionGraph := skipLoop (g.graph.nodes.length + 1) g

/-- Record the outcome of a node, skip what it made impossible and return the
    nodes that are ready. -/
def mark_complete (g : ExecutionGraph) (id : NodeId) (new_state : NodeState) (actual_duration : Option Duration) :
    Except GraphError (List NodeId) × ExecutionGraph :=
  match g.index_map.lookup id with
  | none => (.error (.NodeNotFound id),g)
  | some idx =>
    let marked := g.modify idx (fun n => { n with state := new_state, actual_duration })
    let g := marked.skip_impossible_nodes
    (.ok g.ready_nodes,g)

end ExecutionGraph
end Daf.GraphDag
