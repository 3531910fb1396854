import Daf.Cycles
import Mathlib.Data.List.AList
import Mathlib.Data.List.Dedup
import Mathlib.Data.List.Induction
import Mathlib.Data.List.Nodup
import Mathlib.Data.List.Perm.Subperm

/-!
Topological sorting with a queue. Every node counts the edges that still lead to it, and
joins the queue when its count reaches zero. The nodes that are sorted do not depend on the
order in which the queue starts.
-/
namespace Daf.Kahn

variable {α : Type} [DecidableEq α]

structure Graph (α : Type) [DecidableEq α] where
  in_degree : AList (fun _ : α => Nat)
  adj : AList (fun _ : α => List α)

/-- A node without edges, unless it is there. -/
def addNode (degrees : AList (fun _ : α => Nat)) (v : α) : AList (fun _ : α => Nat) :=
  if v ∈ degrees then degrees else degrees.insert v 0

def nodes (vs : List α) : AList (fun _ : α => Nat) := vs.foldl addNode ∅

/-- The edge from the first node to the second. -/
def addEdge (g : Graph α) (e : α × α) : Graph α :=
  ⟨g.in_degree.insert e.2 ((g.in_degree.lookup e.2).getD 0 + 1),g.adj.insert e.1 ((g.adj.lookup e.1).getD [] ++ [e.2])⟩

def build (vs : List α) (edges : List (α × α)) : Graph α := edges.foldl addEdge ⟨nodes vs,∅⟩

/-- One edge to the neighbour is gone. -/
def relax (state : AList (fun _ : α => Nat) × List α) (neighbor : α) : AList (fun _ : α => Nat) × List α :=
  match state.1.lookup neighbor with
  | none => state
  | some deg => (state.1.insert neighbor (deg - 1),if deg - 1 = 0 then state.2 ++ [neighbor] else state.2)

/-- The sorted nodes when the queue is empty. Every round sorts one node, so as many rounds as nodes are enough. -/
def loop (adj : AList (fun _ : α => List α)) : Nat → AList (fun _ : α => Nat) → List α → List α → List α
  | 0,_,_,sorted => sorted
  | _ + 1,_,[],sorted => sorted
  | fuel + 1,degrees,name :: queue,sorted =>
    let next := ((adj.lookup name).getD []).foldl relax (degrees,queue)
    loop adj fuel next.1 next.2 (sorted ++ [name])

/-- Sort from a start queue, which holds the nodes without incoming edges in some order. -/
def sort (g : Graph α) (start : List α) : List α := loop g.adj g.in_degree.keys.length g.in_degree start []

/-! ### What is built -/

theorem nodes_lookup (vs : List α) : ∀ (degrees : AList (fun _ : α => Nat)) (v : α),
    (vs.foldl addNode degrees).lookup v = if v ∈ degrees then degrees.lookup v else if v ∈ vs then some 0 else none := by
  induction vs with
  | nil =>
    intro degrees v
    by_cases there : v ∈ degrees
    · simp [there]
    · simp [there,AList.lookup_eq_none.2 there]
  | cons w later ih =>
    intro degrees v
    rw [List.foldl_cons,ih]
    by_cases old : w ∈ degrees
    · by_cases there : v ∈ degrees
      · simp [addNode,old,there]
      · have other : v ≠ w := fun same => there (same ▸ old)
        simp [addNode,old,there,other]
    · by_cases same : v = w
      · subst same
        simp [addNode,old]
      · simp [addNode,old,same]

theorem build_lookup (vs : List α) (edges : List (α × α)) (inside : ∀ e ∈ edges, e.2 ∈ vs) :
    (∀ v, (build vs edges).in_degree.lookup v = if v ∈ vs then some (edges.countP (·.2 = v)) else none) ∧
      ∀ u, ((build vs edges).adj.lookup u).getD [] = (edges.filter (·.1 = u)).map Prod.snd := by
  induction edges using List.reverseRecOn with
  | nil =>
    constructor
    · intro v
      simp [build,nodes,nodes_lookup]
    · intro u
      simp [build]
  | append_singleton edges e ih =>
    obtain ⟨degrees,next⟩ := ih (fun e' there => inside e' (List.mem_append_left _ there))
    have target : e.2 ∈ vs := inside e (by simp)
    have built : build vs (edges ++ [e]) = addEdge (build vs edges) e := by simp [build]
    rw [built]
    constructor
    · intro v
      by_cases same : v = e.2
      · subst same
        simp [addEdge,degrees,target,List.countP_append]
      · simp [addEdge,degrees,same,Ne.symm same,List.countP_append]
    · intro u
      by_cases same : u = e.1
      · subst same
        simp [addEdge,next]
      · simp [addEdge,next,same,Ne.symm same]

/-! ### The loop -/

/-- The counts of the nodes, with the nodes that have none left sorted or in the queue. -/
structure Counted (vs : List α) (count : α → Nat) (sorted queue : List α) (degrees : AList (fun _ : α => Nat)) : Prop where
  degree : ∀ v, degrees.lookup v = if v ∈ vs then some (count v) else none
  nodup : (sorted ++ queue).Nodup
  inside : ∀ v ∈ sorted ++ queue, v ∈ vs
  zero : ∀ v ∈ vs, count v = 0 ↔ v ∈ sorted ++ queue

theorem relax_counted {vs : List α} {count : α → Nat} {sorted queue : List α} {degrees : AList (fun _ : α => Nat)} {w : α}
    (counted : Counted vs count sorted queue degrees) (node : w ∈ vs) (some_left : 0 < count w) :
    Counted vs (fun v => if v = w then count v - 1 else count v) sorted (relax (degrees,queue) w).2 (relax (degrees,queue) w).1 := by
  have found : degrees.lookup w = some (count w) := by rw [counted.degree,if_pos node]
  have fresh : w ∉ sorted ++ queue := fun there => by
    have := (counted.zero w node).2 there
    omega
  have degree : ∀ v, (degrees.insert w (count w - 1)).lookup v = if v ∈ vs then some (if v = w then count v - 1 else count v) else none := by
    intro v
    by_cases same : v = w
    · subst same
      simp [node]
    · rw [AList.lookup_insert_ne same,counted.degree]
      simp [same]
  by_cases last : count w - 1 = 0
  · simp only [relax,found,last,if_true]
    rw [last] at degree
    refine ⟨degree,?_,?_,?_⟩
    · rw [← List.append_assoc]
      exact List.nodup_append.2 ⟨counted.nodup,by simp,by
        intro a inA b inB
        have : b = w := by simpa using inB
        subst this
        exact fun same => fresh (same ▸ inA)⟩
    · intro v there
      rw [← List.append_assoc,List.mem_append] at there
      rcases there with there | there
      · exact counted.inside v there
      · have : v = w := by simpa using there
        exact this ▸ node
    · intro v inV
      rw [← List.append_assoc,List.mem_append,List.mem_singleton]
      by_cases same : v = w
      · subst same
        simp [last]
      · simp only [same,if_false,or_false]
        exact counted.zero v inV
  · simp only [relax,found,last,if_false]
    refine ⟨degree,counted.nodup,counted.inside,?_⟩
    intro v inV
    by_cases same : v = w
    · subst same
      simp only [if_true,last,false_iff]
      exact fresh
    · simp only [same,if_false]
      exact counted.zero v inV

theorem relax_all {vs : List α} (neighbors : List α) : ∀ {count : α → Nat} {sorted queue : List α} {degrees : AList (fun _ : α => Nat)},
    Counted vs count sorted queue degrees → (∀ v ∈ neighbors, v ∈ vs) → (∀ v, neighbors.count v ≤ count v) →
    Counted vs (fun v => count v - neighbors.count v) sorted (neighbors.foldl relax (degrees,queue)).2 (neighbors.foldl relax (degrees,queue)).1 := by
  induction neighbors with
  | nil =>
    intro count sorted queue degrees counted _ _
    simpa using counted
  | cons w later ih =>
    intro count sorted queue degrees counted inside enough
    have here : 0 < count w := by
      have := enough w
      simp at this
      omega
    have one := relax_counted counted (inside w List.mem_cons_self) here
    have rest := ih one (fun v there => inside v (List.mem_cons_of_mem _ there)) (fun v => by
      have := enough v
      by_cases same : v = w
      · subst same
        simp at this ⊢
        omega
      · simpa [same,Ne.symm same] using this)
    have counts : (fun v => (if v = w then count v - 1 else count v) - later.count v) = fun v => count v - (w :: later).count v := by
      funext v
      by_cases same : v = w
      · subst same
        simp
        omega
      · simp [same,Ne.symm same]
    rw [counts] at rest
    exact rest

/-- The edges to a node from nodes that are not sorted. -/
def waiting (edges : List (α × α)) (sorted : List α) (v : α) : Nat := edges.countP (fun e => e.2 = v ∧ e.1 ∉ sorted)

theorem waiting_sorted (edges : List (α × α)) {sorted : List α} {u : α} (fresh : u ∉ sorted) (v : α) :
    waiting edges sorted v = waiting edges (sorted ++ [u]) v + ((edges.filter (·.1 = u)).map Prod.snd).count v := by
  induction edges with
  | nil => rfl
  | cons e later ih =>
    simp only [waiting] at ih ⊢
    by_cases target : e.2 = v <;> by_cases source : e.1 = u <;> by_cases old : e.1 ∈ sorted
    all_goals simp_all
    all_goals try omega

/-- Every node comes after the nodes that have an edge to it. -/
def Ordered (edges : List (α × α)) (sorted : List α) : Prop := ∀ a v b, sorted = a ++ v :: b → ∀ u, (u,v) ∈ edges → u ∈ a

omit [DecidableEq α] in
theorem Ordered.concat {edges : List (α × α)} {sorted : List α} (ordered : Ordered edges sorted) {v : α} (ready : ∀ u, (u,v) ∈ edges → u ∈ sorted) :
    Ordered edges (sorted ++ [v]) := by
  intro a w b split u edge
  rcases List.eq_nil_or_concat b with rfl | ⟨b,z,rfl⟩
  · obtain ⟨rfl,same⟩ := List.append_inj' split rfl
    cases same
    exact ready u edge
  · have inner : sorted ++ [v] = (a ++ w :: b) ++ [z] := by simpa using split
    obtain ⟨rfl,-⟩ := List.append_inj' inner rfl
    exact ordered a w b rfl u edge

/-- The result of sorting: no node is left behind whose predecessors are all sorted. -/
structure Sorted (edges : List (α × α)) (vs sorted : List α) : Prop where
  nodup : sorted.Nodup
  inside : ∀ v ∈ sorted, v ∈ vs
  ordered : Ordered edges sorted
  closed : ∀ v ∈ vs, (∀ u, (u,v) ∈ edges → u ∈ sorted) → v ∈ sorted

theorem waiting_zero {edges : List (α × α)} {sorted : List α} {v : α} : waiting edges sorted v = 0 ↔ ∀ u, (u,v) ∈ edges → u ∈ sorted := by
  simp only [waiting,List.countP_eq_zero,decide_eq_true_eq,not_and,not_not]
  constructor
  · intro all u edge
    exact all (u,v) edge rfl
  · rintro all ⟨u,w⟩ edge rfl
    exact all u edge

/-- What the loop knows: the counts are those of the edges from nodes that are not sorted. -/
structure Going (edges : List (α × α)) (vs sorted queue : List α) (degrees : AList (fun _ : α => Nat)) : Prop where
  counted : Counted vs (waiting edges sorted) sorted queue degrees
  ordered : Ordered edges sorted

theorem Going.round {edges : List (α × α)} {vs sorted queue : List α} {degrees : AList (fun _ : α => Nat)} {v : α}
    (going : Going edges vs sorted (v :: queue) degrees) (targets : ∀ e ∈ edges, e.2 ∈ vs) {next : List α}
    (outgoing : next = (edges.filter (·.1 = v)).map Prod.snd) :
    Going edges vs (sorted ++ [v]) (next.foldl relax (degrees,queue)).2 (next.foldl relax (degrees,queue)).1 := by
  have same : sorted ++ v :: queue = (sorted ++ [v]) ++ queue := by simp
  have ready : waiting edges sorted v = 0 :=
    (going.counted.zero v (going.counted.inside v (by simp))).2 (by simp)
  have fresh : v ∉ sorted := by
    have := going.counted.nodup
    rw [List.nodup_append] at this
    intro there
    exact this.2.2 v there v List.mem_cons_self rfl
  have moved : Counted vs (waiting edges sorted) (sorted ++ [v]) queue degrees :=
    ⟨going.counted.degree,same ▸ going.counted.nodup,same ▸ going.counted.inside,same ▸ going.counted.zero⟩
  have counts : waiting edges (sorted ++ [v]) = fun w => waiting edges sorted w - next.count w := by
    funext w
    rw [waiting_sorted edges fresh w,← outgoing]
    omega
  refine ⟨?_,going.ordered.concat (waiting_zero.1 ready)⟩
  rw [counts]
  refine relax_all next moved (fun w there => ?_) (fun w => ?_)
  · rw [outgoing] at there
    obtain ⟨e,inE,rfl⟩ := List.mem_map.1 there
    exact targets e (List.mem_of_mem_filter inE)
  · rw [waiting_sorted edges fresh w,← outgoing]
    omega

theorem Going.finished {edges : List (α × α)} {vs sorted : List α} {degrees : AList (fun _ : α => Nat)}
    (going : Going edges vs sorted [] degrees) : Sorted edges vs sorted where
  nodup := by simpa using going.counted.nodup
  inside := by simpa using going.counted.inside
  ordered := going.ordered
  closed v inV ready := by simpa using (going.counted.zero v inV).1 (waiting_zero.2 ready)

theorem loop_sorted {edges : List (α × α)} {vs : List α} (targets : ∀ e ∈ edges, e.2 ∈ vs) {adj : AList (fun _ : α => List α)}
    (outgoing : ∀ v, (adj.lookup v).getD [] = (edges.filter (·.1 = v)).map Prod.snd) :
    ∀ (fuel : Nat) {sorted queue : List α} {degrees : AList (fun _ : α => Nat)}, Going edges vs sorted queue degrees →
      vs.dedup.length ≤ fuel + sorted.length → Sorted edges vs (loop adj fuel degrees queue sorted) := by
  intro fuel
  induction fuel with
  | zero =>
    intro sorted queue degrees going enough
    -- all nodes are sorted, so the queue is empty
    have room : (sorted ++ queue).length ≤ vs.dedup.length := by
      have sub : sorted ++ queue ⊆ vs.dedup := fun v there => List.mem_dedup.2 (going.counted.inside v there)
      exact (going.counted.nodup.subperm sub).length_le
    have empty : queue = [] := by
      rw [List.length_append] at room
      exact List.eq_nil_of_length_eq_zero (by omega)
    subst empty
    exact going.finished
  | succ fuel ih =>
    intro sorted queue degrees going enough
    cases queue with
    | nil => exact going.finished
    | cons v queue =>
      have next := going.round targets (outgoing v)
      exact ih next (by simp; omega)

/-- The nodes that no edge leads to. -/
def sources (g : Graph α) : List α := g.in_degree.keys.filter (fun v => g.in_degree.lookup v = some 0)

theorem sort_sorted (vs : List α) (edges : List (α × α)) (targets : ∀ e ∈ edges, e.2 ∈ vs) (start : List α)
    (perm : start.Perm (sources (build vs edges))) : Sorted edges vs (sort (build vs edges) start) := by
  obtain ⟨degrees,next⟩ := build_lookup vs edges targets
  have keys : ∀ v, v ∈ (build vs edges).in_degree.keys ↔ v ∈ vs := by
    intro v
    rw [← AList.mem_keys,← AList.lookup_isSome,degrees v]
    by_cases there : v ∈ vs <;> simp [there]
  have starts : ∀ v, v ∈ start ↔ v ∈ vs ∧ edges.countP (·.2 = v) = 0 := by
    intro v
    rw [perm.mem_iff,sources,List.mem_filter,keys v,degrees v]
    by_cases there : v ∈ vs <;> simp [there]
  have all : ∀ v, waiting edges [] v = edges.countP (·.2 = v) := by
    intro v
    simp [waiting]
  have nodup : (build vs edges).in_degree.keys.Nodup := AList.keys_nodup _
  refine loop_sorted targets next _ ⟨⟨?_,?_,?_,?_⟩,?_⟩ ?_
  · intro v
    rw [degrees v,all v]
  · simpa using perm.nodup_iff.2 (nodup.filter _)
  · intro v there
    exact ((starts v).1 (by simpa using there)).1
  · intro v inV
    rw [all v,List.nil_append,starts v]
    simp [inV]
  · intro a v b split
    simp at split
  · have sub : vs.dedup ⊆ (build vs edges).in_degree.keys := fun v there => (keys v).2 (List.mem_dedup.1 there)
    simpa using ((List.nodup_dedup vs).subperm sub).length_le

omit [DecidableEq α] in
/-- Two sorts of one graph sort the same nodes. -/
theorem Sorted.sub {edges : List (α × α)} {vs l m : List α} (first : Sorted edges vs l) (second : Sorted edges vs m) : ∀ v ∈ l, v ∈ m := by
  have upTo : ∀ a b, l = a ++ b → ∀ v ∈ a, v ∈ m := by
    intro a
    induction a using List.reverseRecOn with
    | nil => simp
    | append_singleton a w ih =>
      intro b split v there
      have earlier := ih (w :: b) (by simpa using split)
      rcases List.mem_append.1 there with there | there
      · exact earlier v there
      · have same : v = w := by simpa using there
        subst same
        have before := first.ordered a v b (by simpa using split)
        exact second.closed v (first.inside v (by simp [split])) (fun u edge => earlier u (before u edge))
  exact upTo l [] (by simp)

omit [DecidableEq α] in
theorem Sorted.perm {edges : List (α × α)} {vs l m : List α} (first : Sorted edges vs l) (second : Sorted edges vs m) : l.Perm m :=
  (List.perm_ext_iff_of_nodup first.nodup second.nodup).2 (fun v => ⟨first.sub second v,second.sub first v⟩)

/-- In a sort, every node stands behind those that have an edge to it. -/
theorem Sorted.idxOf_lt {edges : List (α × α)} {vs sorted : List α} (whole : Sorted edges vs sorted) {u v : α} (edge : (u,v) ∈ edges) (there : v ∈ sorted) :
    sorted.idxOf u < sorted.idxOf v := by
  obtain ⟨a,b,split⟩ := List.append_of_mem there
  have before : u ∈ a := whole.ordered a v b split u edge
  have nodup := whole.nodup
  rw [split,List.nodup_append] at nodup
  have apart : v ∉ a := fun inA => nodup.2.2 v inA v List.mem_cons_self rfl
  rw [split,List.idxOf_append_of_mem before,List.idxOf_append_of_notMem apart,List.idxOf_cons_self,Nat.add_zero]
  exact List.idxOf_lt_length_of_mem before

/-- All nodes are sorted exactly when no edges lead around. -/
theorem Sorted.length_iff {edges : List (α × α)} {vs sorted : List α} (whole : Sorted edges vs sorted) (distinct : vs.Nodup)
    (inside : ∀ e ∈ edges, e.1 ∈ vs ∧ e.2 ∈ vs) : sorted.length = vs.length ↔ Cycles.Acyclic (fun u v => (u,v) ∈ edges) := by
  constructor
  · intro full a cycle
    have perm : sorted.Perm vs := (whole.nodup.subperm whole.inside).perm_of_length_le (by omega)
    have rises : ∀ u v, Relation.TransGen (fun u v => (u,v) ∈ edges) u v → sorted.idxOf u < sorted.idxOf v := by
      intro u v path
      induction path with
      | single edge => exact whole.idxOf_lt edge (perm.mem_iff.2 (inside _ edge).2)
      | tail _ edge ih => exact ih.trans (whole.idxOf_lt edge (perm.mem_iff.2 (inside _ edge).2))
    exact absurd (rises a a cycle) (lt_irrefl _)
  · intro acyclic
    have all : ∀ v ∈ vs, v ∈ sorted := by
      by_contra some_left
      push Not at some_left
      obtain ⟨v,inV,left⟩ := some_left
      have remaining : vs.filter (fun v => v ∉ sorted) ≠ [] := List.ne_nil_of_mem (List.mem_filter.2 ⟨inV,by simpa using left⟩)
      -- A node that is left without one before it would have been sorted.
      obtain ⟨w,there,first⟩ := acyclic.exists_source remaining
      obtain ⟨inW,open_⟩ := List.mem_filter.1 there
      refine absurd (whole.closed w inW fun u edge => ?_) (by simpa using open_)
      by_contra unsorted
      exact first u (List.mem_filter.2 ⟨(inside _ edge).1,by simpa using unsorted⟩) edge
    exact Nat.le_antisymm (whole.nodup.subperm whole.inside).length_le (distinct.subperm all).length_le

end Daf.Kahn
