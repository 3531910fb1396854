import Daf.GraphAssembly
import Daf.GraphWalker
import Daf.LongestPaths
import Mathlib.Algebra.Order.BigOperators.Group.List
import Mathlib.Algebra.Order.Group.Nat

/-!
The critical path of an execution graph: the path along its edges with the longest estimate. The topological sort of the graph library and the
order in which the map of the distances is iterated are parameters.
-/
namespace Daf.CriticalPath
open Daf.Cycles Daf.Digraph Daf.GraphNodes Daf.GraphDag Daf.GraphInvariant Daf.GraphStates Daf.GraphOutcome Daf.GraphAssembly
open Daf.GraphWalker Daf.LongestPaths

/-- What is documented of the sort: unless there is a cycle, all nodes in an order in which each stands before its successors. -/
structure Documented (toposort : DiGraph Node Edge → Option (List Nat)) : Prop where
  sorted : ∀ graph topo, graph.InRange → toposort graph = some topo →
    topo.Perm (List.range graph.nodes.length) ∧ Sorted graph.Adjacent topo
  acyclic : ∀ graph, graph.InRange → Acyclic graph.Adjacent → (toposort graph).isSome = true

/-- The sort that takes the first node without predecessors among the remaining ones. -/
def sourcesFirst (graph : DiGraph Node Edge) : Option (List Nat) := arrange graph.hasEdge graph.nodes.length (List.range graph.nodes.length)

abbrev Distances := AList fun _ : Nat => Duration
abbrev Predecessors := AList fun _ : Nat => Nat

/-- The longest path that ends at an index, and the node before it on that path. An index out of range and an overflow of the sum panic. -/
def relax (g : ExecutionGraph) (s : Distances × Predecessors) (idx : Nat) : Option (Distances × Predecessors) :=
  match g.graph.nodes[idx]? with
  | none => none
  | some node =>
    let node_dur := node.estimated_duration.getD (Duration.from_secs 1)
    let best := (neighbors_directed g.graph idx .Incoming).foldl (improve fun pred_idx => (s.1.lookup pred_idx).getD 0) (0,none)
    if Duration.MAX < best.1 + node_dur then none
    else some (s.1.insert idx (best.1 + node_dur),
      match best.2 with
      | none => s.2
      | some p => s.2.insert idx p)

/-- The entries of the map in the order in which it is iterated. -/
def entries (order : Nat → Nat) (dist : Distances) : List (Nat × Duration) :=
  (dist.keys.insertionSort fun i j => order i ≤ order j).filterMap fun i => (dist.lookup i).map fun d => (i,d)

/-- The outer `none` is a panic. Without cycles the way back is not longer than there are nodes, so that the bound is never reached. -/
def critical_path (toposort : DiGraph Node Edge → Option (List Nat)) (order : Nat → Nat) (g : ExecutionGraph) :
    Option (Except GraphError (List NodeId × Duration)) :=
  match toposort g.graph with
  | none => some (.error .CycleDetected)
  | some topo =>
    if topo.isEmpty then some (.ok ([],0))
    else
      (topo.foldlM (relax g) (∅,∅)).bind fun found =>
        (max_by_key (·.2) (entries order found.1)).bind fun last =>
          (trace found.2.lookup g.graph.nodes.length last.1 [last.1]).bind fun path =>
            (path.mapM fun idx => g.graph.nodes[idx]?).map fun nodes => .ok (nodes.map (·.id),last.2)

/-- The estimate of a node, a second if it has none. -/
def estimate (g : ExecutionGraph) (id : NodeId) : Duration := ((g.get_node id).bind (·.estimated_duration)).getD (Duration.from_secs 1)

/-- A path along the edges of the graph. -/
def Path (g : ExecutionGraph) (path : List NodeId) : Prop := path ⊆ ids g ∧ path.IsChain (Precedes g)

theorem sourcesFirst_documented : Documented sourcesFirst := by
  have relation : ∀ graph : DiGraph Node Edge, (fun a b => graph.hasEdge a b = true) = graph.Adjacent := by
    intro graph
    funext a b
    exact propext (graph.hasEdge_iff a b)
  constructor
  · intro graph topo _ found
    have sorted := arrange_sorted found
    rw [relation] at sorted
    exact sorted
  · intro graph _ acyclic
    refine arrange_some ?_ (by rw [List.length_range])
    rw [relation]
    exact acyclic

section
variable {g : ExecutionGraph} {order : Nat → Nat}

/-! ### Paths of indices -/

def estimateAt (g : ExecutionGraph) (i : Nat) : Duration := ((g.graph.nodes[i]?).bind (·.estimated_duration)).getD (Duration.from_secs 1)

/-- The indices of some ids. -/
def At (g : ExecutionGraph) (is : List Nat) (xs : List NodeId) : Prop := List.Forall₂ (fun i x => (ids g)[i]? = some x) is xs

theorem at_exists {xs : List NodeId} (known : xs ⊆ ids g) : ∃ is, At g is xs := by
  induction xs with
  | nil => exact ⟨[],.nil⟩
  | cons x later ih =>
    obtain ⟨here,rest⟩ := List.cons_subset.mp known
    obtain ⟨i,at_i⟩ := List.mem_iff_getElem?.mp here
    obtain ⟨is,found⟩ := ih rest
    exact ⟨i :: is,.cons at_i found⟩

theorem At.nodes {is : List Nat} {ns : List Node} (found : List.Forall₂ (fun i n => g.graph.nodes[i]? = some n) is ns) : At g is (ns.map (·.id)) := by
  refine List.forall₂_map_right_iff.mpr (found.imp fun i n at_i => ?_)
  rw [ids_get,at_i]
  rfl

theorem At.mem {is : List Nat} {xs : List NodeId} (found : At g is xs) : (∀ i ∈ is, i < g.graph.nodes.length) ∧ xs ⊆ ids g := by
  induction found with
  | nil => simp
  | cons at_i _ ih =>
    have low := (List.getElem?_eq_some_iff.mp at_i).1
    exact ⟨List.forall_mem_cons.mpr ⟨by simpa [ids] using low,ih.1⟩,List.cons_subset.mpr ⟨List.mem_of_getElem? at_i,ih.2⟩⟩

theorem adjacent_at (ok : RepOk g) {i j : Nat} {x y : NodeId} (at_i : (ids g)[i]? = some x) (at_j : (ids g)[j]? = some y) :
    g.graph.Adjacent i j ↔ Precedes g x y := by
  rw [adjacent_iff ok,at_i,at_j,Precedes]
  refine exists_congr fun e => and_congr_right fun _ => ?_
  rw [Option.some.injEq,Option.some.injEq,eq_comm (a := x),eq_comm (a := y)]

theorem At.chain (ok : RepOk g) {is : List Nat} {xs : List NodeId} (found : At g is xs) :
    is.IsChain g.graph.Adjacent ↔ xs.IsChain (Precedes g) := by
  induction found with
  | nil => simp
  | cons at_i rest ih =>
    cases rest with
    | nil => simp
    | cons at_j rest => rw [List.isChain_cons_cons,List.isChain_cons_cons,ih,adjacent_at ok at_i at_j]

theorem At.weight (ok : RepOk g) {is : List Nat} {xs : List NodeId} (found : At g is xs) :
    weight (estimateAt g) is = weight (estimate g) xs := by
  have same : List.Forall₂ (fun i x => estimateAt g i = estimate g x) is xs := by
    refine found.imp fun i x at_i => ?_
    rw [estimateAt,estimate,get_node_eq ok at_i]
  rw [LongestPaths.weight,LongestPaths.weight]
  congr 1
  exact List.forall₂_eq_eq_eq ▸ List.forall₂_map_left_iff.mpr (List.forall₂_map_right_iff.mpr same)

/-! ### The distances -/

/-- The estimates along the edges do not overflow. -/
def Fits (g : ExecutionGraph) : Prop := ∀ path, Path g path → weight (estimate g) path ≤ Duration.MAX

theorem Fits.indices (ok : RepOk g) (fits : Fits g) {is : List Nat} (low : ∀ i ∈ is, i < g.graph.nodes.length) (chain : is.IsChain g.graph.Adjacent) :
    weight (estimateAt g) is ≤ Duration.MAX := by
  obtain ⟨ns,-,found⟩ := mapM_nodes low
  have names := At.nodes found
  rw [names.weight ok]
  exact fits _ ⟨names.mem.2,(names.chain ok).mp chain⟩

/-- One step solves one more node. -/
theorem relax_solved (ok : RepOk g) (fits : Fits g) {done : List Nat} {s : Distances × Predecessors} {idx : Nat}
    (solved : Solved g.graph.Adjacent (estimateAt g) done s.1.lookup s.2.lookup) (low : ∀ i ∈ done ++ [idx], i < g.graph.nodes.length)
    (new : idx ∉ done) (before : ∀ p, g.graph.Adjacent p idx → p ∈ done) :
    ∃ s', relax g s idx = some s' ∧ Solved g.graph.Adjacent (estimateAt g) (done ++ [idx]) s'.1.lookup s'.2.lookup := by
  obtain ⟨node,at_idx⟩ : ∃ node, g.graph.nodes[idx]? = some node := ⟨_,List.getElem?_eq_getElem (low idx (by simp))⟩
  have next := solved.extend new (fun p => (mem_neighbors g.graph idx p).1) before _ rfl
  obtain ⟨path,-,chain,inside,sum⟩ := next.traced idx _ (Function.update_self ..)
  have small := fits.indices ok (fun i member => low i (inside member)) chain
  rw [sum] at small
  have dur : estimateAt g idx = node.estimated_duration.getD (Duration.from_secs 1) := by
    rw [estimateAt,at_idx]
    rfl
  rw [dur] at small next
  refine ⟨_,by rw [relax,at_idx]; exact if_neg (not_lt.mpr small),?_⟩
  convert next using 1
  · funext i
    rw [extended]
    by_cases same : i = idx
    · subst same; simp
    · simp [AList.lookup_insert_ne same,Function.update_of_ne same]
  · funext i
    rw [linked]
    cases ((neighbors_directed g.graph idx .Incoming).foldl (improve fun pred_idx => (s.1.lookup pred_idx).getD 0) (0,none)).2 with
    | none => rfl
    | some p =>
      by_cases same : i = idx
      · subst same; simp
      · simp [AList.lookup_insert_ne same,Function.update_of_ne same]

/-- All steps solve all nodes. -/
theorem relax_all (ok : RepOk g) (fits : Fits g) {done rest : List Nat} {s : Distances × Predecessors}
    (solved : Solved g.graph.Adjacent (estimateAt g) done s.1.lookup s.2.lookup) (sorted : Sorted g.graph.Adjacent (done ++ rest))
    (all : (done ++ rest).Perm (List.range g.graph.nodes.length)) :
    ∃ s', rest.foldlM (relax g) s = some s' ∧ Solved g.graph.Adjacent (estimateAt g) (done ++ rest) s'.1.lookup s'.2.lookup := by
  induction rest generalizing done s with
  | nil =>
    rw [List.append_nil]
    exact ⟨s,rfl,solved⟩
  | cons idx later ih =>
    have once : (done ++ idx :: later).Nodup := all.nodup_iff.mpr List.nodup_range
    have split : done ++ idx :: later = done ++ [idx] ++ later := by simp
    have low : ∀ i ∈ done ++ [idx], i < g.graph.nodes.length := by
      intro i member
      exact List.mem_range.mp (all.mem_iff.mp (split ▸ List.mem_append_left later member))
    have new : idx ∉ done := fun member => (List.nodup_append.mp once).2.2 idx member idx List.mem_cons_self rfl
    have before : ∀ p, g.graph.Adjacent p idx → p ∈ done := by
      intro p edge
      have listed : p ∈ done ++ idx :: later := by
        obtain ⟨slot,inside,rfl,-⟩ := edge
        exact all.mem_iff.mpr (List.mem_range.mpr (ok.inRange slot inside).1)
      rcases List.mem_append.mp listed with early | late
      · exact early
      · rcases List.mem_cons.mp late with same | late
        · exact absurd (Relation.TransGen.single (same ▸ edge)) (ok.acyclic idx)
        · exact absurd edge ((List.pairwise_cons.mp (List.pairwise_append.mp sorted).2.1).1 _ late)
    obtain ⟨next,moved,solved'⟩ := relax_solved ok fits solved low new before
    rw [split] at sorted all
    obtain ⟨final,run,whole⟩ := ih solved' sorted all
    refine ⟨final,?_,split ▸ whole⟩
    rw [List.foldlM_cons,moved]
    exact run

theorem mem_entries (dist : Distances) (entry : Nat × Duration) : entry ∈ entries order dist ↔ dist.lookup entry.1 = some entry.2 := by
  obtain ⟨i,d⟩ := entry
  rw [entries,List.mem_filterMap]
  constructor
  · rintro ⟨j,-,found⟩
    obtain ⟨e,at_j,same⟩ := Option.map_eq_some_iff.mp found
    cases same
    exact at_j
  · intro found
    have listed : i ∈ dist.keys := AList.mem_keys.mp (AList.lookup_isSome.mp (by rw [found]; rfl))
    exact ⟨i,(List.perm_insertionSort _ _).mem_iff.mpr listed,by rw [found]; rfl⟩

/-! ### The longest path -/

/-- A path along the edges whose estimates sum up to the total, and than which no path is longer. -/
structure LongestPath (g : ExecutionGraph) (path : List NodeId) (total : Duration) : Prop where
  along : Path g path
  sum : weight (estimate g) path = total
  longest : ∀ other, Path g other → weight (estimate g) other ≤ total

/-- Once all nodes are solved, what no distance exceeds no path exceeds. -/
theorem longest_of_solved (ok : RepOk g) {topo : List Nat} {s : Distances × Predecessors} {total : Duration}
    (solved : Solved g.graph.Adjacent (estimateAt g) topo s.1.lookup s.2.lookup) (all : topo.Perm (List.range g.graph.nodes.length))
    (above : ∀ i d, s.1.lookup i = some d → d ≤ total) (other : List NodeId) (path : Path g other) : weight (estimate g) other ≤ total := by
  obtain ⟨js,at_js⟩ := at_exists path.1
  rw [← at_js.weight ok]
  cases ends : js.getLast? with
  | none =>
    rw [List.getLast?_eq_none_iff.mp ends]
    exact Nat.zero_le _
  | some j =>
    have listed := all.mem_iff.mpr (List.mem_range.mpr (at_js.mem.1 j (List.mem_of_getLast? ends)))
    obtain ⟨d,at_j⟩ := Option.isSome_iff_exists.mp ((solved.known j).mpr listed)
    have reach := solved.longest j d at_j js ((at_js.chain ok).mpr path.2) ends
    exact reach.trans (above j d at_j)

/-- As long as no sum along a path overflows, the critical path is a longest one; that of the empty graph is empty. -/
theorem critical_path_longest {toposort : DiGraph Node Edge → Option (List Nat)} (documented : Documented toposort) (ok : RepOk g) (fits : Fits g) :
    ∃ path total, critical_path toposort order g = some (.ok (path,total)) ∧ LongestPath g path total ∧
      (g.node_count = 0 → path = [] ∧ total = 0) := by
  obtain ⟨topo,sortedBy⟩ := Option.isSome_iff_exists.mp (documented.acyclic g.graph ok.inRange ok.acyclic)
  obtain ⟨all,sorted⟩ := documented.sorted g.graph topo ok.inRange sortedBy
  rw [critical_path,sortedBy]
  have size : topo.length = g.node_count := by rw [all.length_eq,List.length_range]; rfl
  by_cases empty : topo = []
  · subst empty
    have none : ids g = [] := by
      rw [ids,List.length_eq_zero_iff.mp size.symm]
      rfl
    refine ⟨[],0,rfl,⟨⟨by simp,by simp⟩,rfl,fun other inside => ?_⟩,fun _ => ⟨rfl,rfl⟩⟩
    have same : other = [] := List.subset_nil.mp (none ▸ inside.1)
    rw [same]
    exact le_refl _
  · obtain ⟨found,run,solved⟩ := relax_all ok fits (s := (∅,∅)) (Solved.nil g.graph.Adjacent (estimateAt g)) sorted all
    have filled : entries order found.1 ≠ [] := by
      obtain ⟨i,member⟩ := List.exists_mem_of_ne_nil topo empty
      obtain ⟨d,at_i⟩ := Option.isSome_iff_exists.mp ((solved.known i).mpr member)
      exact List.ne_nil_of_mem ((mem_entries found.1 (i,d)).mpr at_i)
    obtain ⟨last,member,greatest,above⟩ := max_by_key_some (·.2) filled
    obtain ⟨is,traced,chain,inside,sum⟩ := solved.traced last.1 last.2 ((mem_entries found.1 last).mp member)
    have low : ∀ i ∈ is, i < g.graph.nodes.length := fun i listed => List.mem_range.mp (all.mem_iff.mp (inside listed))
    have short : is.length ≤ g.graph.nodes.length := by
      have few := (List.subperm_of_subset (chain_nodup ok.acyclic chain) inside).length_le
      exact few.trans_eq size
    obtain ⟨ns,mapped,nodes⟩ := mapM_nodes low
    have names := At.nodes nodes
    have highest : ∀ i d, found.1.lookup i = some d → d ≤ last.2 := fun i d at_i => above (i,d) ((mem_entries found.1 (i,d)).mpr at_i)
    refine ⟨ns.map (·.id),last.2,?_,⟨⟨names.mem.2,(names.chain ok).mp chain⟩,?_,longest_of_solved ok solved all highest⟩,fun none => ?_⟩
    · have back := traced.trace short []
      rw [List.append_nil] at back
      simp only [List.isEmpty_iff,empty,if_false,run,greatest,back,mapped,Option.bind_some,Option.map_some]
    · rw [← names.weight ok]
      exact sum
    · exact absurd (List.length_eq_zero_iff.mp (size.trans none)) empty

/-- Where the sum of all estimates does not overflow, no path does. -/
theorem fits_of_sum (ok : RepOk g) (small : weight (estimate g) (ids g) ≤ Duration.MAX) : Fits g := by
  intro path inside
  obtain ⟨some,perm,sub⟩ := List.subperm_of_subset (chain_nodup (precedes_acyclic ok) inside.2) inside.1
  have less : weight (estimate g) path ≤ weight (estimate g) (ids g) := by
    rw [weight,weight,← (perm.map (estimate g)).sum_eq]
    exact (sub.map (estimate g)).sum_le_sum fun _ _ => Nat.zero_le _
  exact less.trans small

/-- The chain that is left when its first node is removed, without estimates. -/
theorem chain_critical_path : ∃ path total, critical_path sourcesFirst id (build "chain" chainCalls) = some (.ok (path,total)) ∧
    Duration.from_secs 2 ≤ total := by
  have ok := repOk_build "chain" chainCalls
  obtain ⟨path,total,out,longest,-⟩ := critical_path_longest sourcesFirst_documented ok (fits_of_sum ok (by decide))
  have edge : Precedes (build "chain" chainCalls) ⟨2⟩ ⟨3⟩ := ⟨Edge.new ⟨2⟩ ⟨3⟩ .DependsOn,by decide,rfl,rfl⟩
  refine ⟨path,total,out,?_⟩
  exact longest.longest [⟨2⟩,⟨3⟩] ⟨by decide,.cons_cons edge (.singleton _)⟩

end
end Daf.CriticalPath
