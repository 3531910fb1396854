import Daf.GraphInvariant

/-!
What the operations of an execution graph do to the states of its nodes. On
graphs that keep the representation invariant a node is known by its id and an
edge by the ids of its ends.
-/
namespace Daf.GraphStates
open Daf.Digraph Daf.GraphNodes Daf.GraphDag Daf.GraphInvariant

/-- The state of the node with an id. -/
def stateOf (g : ExecutionGraph) (id : NodeId) : Option NodeState := (g.get_node id).map (·.state)

/-- Every edge into the node is satisfied by the state of its source. -/
def EdgesSatisfied (g : ExecutionGraph) (id : NodeId) : Prop :=
  ∀ e ∈ g.edges, e.target = id → ∃ state, stateOf g e.source = some state ∧ satisfied state e = true

/-- Some edge into the node can no longer be satisfied. -/
def Blocked (g : ExecutionGraph) (id : NodeId) : Prop :=
  ∃ e ∈ g.edges, e.target = id ∧
    ∃ state, stateOf g e.source = some state ∧ state.is_terminal = true ∧ satisfied state e = false

/-- The second graph has the edges of the first and its terminal states. -/
structure Extends (g h : ExecutionGraph) : Prop where
  same : shape h = shape g
  terminal : ∀ id state, stateOf g id = some state → state.is_terminal = true → stateOf h id = some state

theorem edges_of_shape {g h : ExecutionGraph} (same : shape h = shape g) : h.edges = g.edges := by
  have edges := congrArg (·.graph.edges) same
  simp only [shape_edges] at edges
  simp [ExecutionGraph.edges,edges]

theorem ids_of_shape {g h : ExecutionGraph} (same : shape h = shape g) : ids h = ids g := by
  rw [← ids_shape h,same,ids_shape]

theorem Extends.refl (g : ExecutionGraph) : Extends g g := ⟨rfl,fun _ _ known _ => known⟩

theorem Extends.trans {a b c : ExecutionGraph} (first : Extends a b) (second : Extends b c) : Extends a c :=
  ⟨second.same.trans first.same,fun id state known terminal =>
    second.terminal id state (first.terminal id state known terminal) terminal⟩

/-- Satisfied edges stay satisfied while terminal states stay. -/
theorem EdgesSatisfied.extend {g h : ExecutionGraph} {id : NodeId} (ready : EdgesSatisfied g id) (grows : Extends g h) :
    EdgesSatisfied h id := by
  intro e member target
  rw [edges_of_shape grows.same] at member
  obtain ⟨state,known,holds⟩ := ready e member target
  exact ⟨state,grows.terminal _ state known (terminal_of_satisfied holds),holds⟩

theorem Blocked.extend {g h : ExecutionGraph} {id : NodeId} (blocked : Blocked g id) (grows : Extends g h) : Blocked h id := by
  obtain ⟨e,member,target,state,known,terminal,fails⟩ := blocked
  exact ⟨e,by rwa [edges_of_shape grows.same],target,state,grows.terminal _ state known terminal,terminal,fails⟩

/-! ### Nodes by id -/

theorem get_node_eq {g : ExecutionGraph} (ok : RepOk g) {i : Nat} {id : NodeId} (at_i : (ids g)[i]? = some id) :
    g.get_node id = g.graph.nodes[i]? := by
  simp [ExecutionGraph.get_node,(ok.index id i).mpr at_i]

theorem get_node_none {g : ExecutionGraph} {id : NodeId} (unknown : g.index_map.lookup id = none) : g.get_node id = none := by
  simp [ExecutionGraph.get_node,unknown]

/-- The nodes with a state are the nodes of the graph. -/
theorem stateOf_isSome {g : ExecutionGraph} (ok : RepOk g) (id : NodeId) : (∃ state, stateOf g id = some state) ↔ id ∈ ids g := by
  constructor
  · rintro ⟨state,known⟩
    cases found : g.index_map.lookup id with
    | none => simp [stateOf,get_node_none found] at known
    | some i => exact List.mem_of_getElem? ((ok.index id i).mp found)
  · intro member
    obtain ⟨i,at_i⟩ := List.mem_iff_getElem?.mp member
    have node := at_i
    rw [ids_get] at node
    obtain ⟨n,at_n,_⟩ := Option.map_eq_some_iff.mp node
    exact ⟨n.state,by simp [stateOf,get_node_eq ok at_i,at_n]⟩

theorem stateOf_eq {g : ExecutionGraph} (ok : RepOk g) {i : Nat} {id : NodeId} (at_i : (ids g)[i]? = some id) :
    stateOf g id = (g.graph.nodes[i]?).map (·.state) := by
  rw [stateOf,get_node_eq ok at_i]

/-- A change in place is seen at the id of the changed node only. -/
theorem stateOf_modify {g : ExecutionGraph} (ok : RepOk g) {i : Nat} {id : NodeId} (at_i : (ids g)[i]? = some id)
    {f : Node → Node} (keeps : ∀ n, forget (f n) = forget n) (x : NodeId) :
    stateOf (g.modify i f) x = if x = id then (g.get_node id).map (fun n => (f n).state) else stateOf g x := by
  have same := shape_modify g i keeps
  have okAfter := ok.of_shape same
  by_cases here : x = id
  · subst here
    rw [if_pos rfl,stateOf_eq okAfter (by rwa [ids_of_shape same]),get_node_eq ok at_i]
    simp [ExecutionGraph.modify,DiGraph.modify,Function.comp_def]
  · rw [if_neg here]
    cases found : g.index_map.lookup x with
    | none =>
      have unknown : (g.modify i f).index_map.lookup x = none := found
      simp [stateOf,get_node_none found,get_node_none unknown]
    | some j =>
      have at_j := (ok.index x j).mp found
      have other : i ≠ j := by
        rintro rfl
        rw [at_i] at at_j
        exact here (Option.some.inj at_j).symm
      rw [stateOf_eq okAfter (by rwa [ids_of_shape same]),stateOf_eq ok at_j]
      simp [ExecutionGraph.modify,DiGraph.modify,other]

/-- Writing a state: the node has it afterwards, the others keep theirs. -/
theorem stateOf_write {g : ExecutionGraph} (ok : RepOk g) {i : Nat} {id : NodeId} (at_i : (ids g)[i]? = some id)
    {f : Node → Node} (keeps : ∀ n, forget (f n) = forget n) {state : NodeState} (writes : ∀ n, (f n).state = state)
    (x : NodeId) : stateOf (g.modify i f) x = if x = id then some state else stateOf g x := by
  rw [stateOf_modify ok at_i keeps]
  by_cases here : x = id
  · have known := at_i
    rw [ids_get] at known
    obtain ⟨n,at_n,_⟩ := Option.map_eq_some_iff.mp known
    simp [here,get_node_eq ok at_i,at_n,writes]
  · simp [here]

/-! ### Edges by id -/

theorem mem_edges {g : ExecutionGraph} {s : Slot Edge} (member : s ∈ g.graph.edges) : s.weight ∈ g.edges :=
  List.mem_map.mpr ⟨s,member,rfl⟩

/-- The slots into an index hold the edges into the id that stands there. -/
theorem mem_incoming {g : ExecutionGraph} (ok : RepOk g) {i : Nat} {id : NodeId} (at_i : (ids g)[i]? = some id)
    (s : Slot Edge) : s ∈ g.graph.incoming i ↔ s ∈ g.graph.edges ∧ s.weight.target = id := by
  simp only [DiGraph.incoming,List.mem_filter,decide_eq_true_eq]
  refine and_congr_right (fun member => ?_)
  obtain ⟨_,target⟩ := ok.ends s member
  constructor
  · intro here
    rw [here,at_i] at target
    exact (Option.some.inj target).symm
  · intro same
    rw [same] at target
    exact ok.index_unique target at_i

theorem fires_iff {g : ExecutionGraph} (ok : RepOk g) {s : Slot Edge} (member : s ∈ g.graph.edges) :
    g.fires s = true ↔ ∃ state, stateOf g s.weight.source = some state ∧ satisfied state s.weight = true := by
  rw [stateOf_eq ok (ok.ends s member).1]
  unfold ExecutionGraph.fires
  cases g.graph.nodes[s.source]? <;> simp [ExecutionGraph.edge_satisfied]

theorem blocks_iff {g : ExecutionGraph} (ok : RepOk g) {s : Slot Edge} (member : s ∈ g.graph.edges) :
    g.blocks s = true ↔ ∃ state, stateOf g s.weight.source = some state ∧ state.is_terminal = true ∧
      satisfied state s.weight = false := by
  rw [stateOf_eq ok (ok.ends s member).1]
  unfold ExecutionGraph.blocks
  cases g.graph.nodes[s.source]? <;> simp [ExecutionGraph.edge_satisfied]

theorem edgesSatisfied_iff {g : ExecutionGraph} (ok : RepOk g) {i : Nat} {id : NodeId} (at_i : (ids g)[i]? = some id) :
    (g.graph.incoming i).all g.fires = true ↔ EdgesSatisfied g id := by
  rw [List.all_eq_true]
  constructor
  · intro all e member target
    obtain ⟨s,inside,rfl⟩ := List.mem_map.mp member
    exact (fires_iff ok inside).mp (all s ((mem_incoming ok at_i s).mpr ⟨inside,target⟩))
  · intro ready s into
    obtain ⟨inside,target⟩ := (mem_incoming ok at_i s).mp into
    exact (fires_iff ok inside).mpr (ready s.weight (mem_edges inside) target)

theorem blocked_iff {g : ExecutionGraph} (ok : RepOk g) {i : Nat} {id : NodeId} (at_i : (ids g)[i]? = some id) :
    (g.graph.incoming i).any g.blocks = true ↔ Blocked g id := by
  rw [List.any_eq_true]
  constructor
  · rintro ⟨s,into,blocks⟩
    obtain ⟨inside,target⟩ := (mem_incoming ok at_i s).mp into
    exact ⟨s.weight,mem_edges inside,target,(blocks_iff ok inside).mp blocks⟩
  · rintro ⟨e,member,target,fails⟩
    obtain ⟨s,inside,rfl⟩ := List.mem_map.mp member
    exact ⟨s,(mem_incoming ok at_i s).mpr ⟨inside,target⟩,(blocks_iff ok inside).mpr fails⟩

/-! ### Ready nodes -/

theorem readyAt_iff {g : ExecutionGraph} (ok : RepOk g) (i : Nat) (id : NodeId) :
    g.readyAt i = some id ↔ (ids g)[i]? = some id ∧ stateOf g id = some .Pending ∧ EdgesSatisfied g id := by
  unfold ExecutionGraph.readyAt
  cases found : g.graph.nodes[i]? with
  | none => simp [ids_get,found]
  | some node =>
    have at_i : (ids g)[i]? = some node.id := by simp [ids_get,found]
    have state : stateOf g node.id = some node.state := by simp [stateOf_eq ok at_i,found]
    rw [at_i]
    simp only
    constructor
    · intro chosen
      split_ifs at chosen with ready
      cases chosen
      exact ⟨rfl,by rw [state,ready.1],(edgesSatisfied_iff ok at_i).mp ready.2⟩
    · rintro ⟨same,pending,free⟩
      cases same
      rw [state,Option.some.injEq] at pending
      rw [if_pos ⟨pending,(edgesSatisfied_iff ok at_i).mpr free⟩]

/-- The ready nodes are the pending ones whose edges are all satisfied. -/
theorem mem_ready_nodes {g : ExecutionGraph} (ok : RepOk g) (id : NodeId) :
    id ∈ g.ready_nodes ↔ stateOf g id = some .Pending ∧ EdgesSatisfied g id := by
  unfold ExecutionGraph.ready_nodes
  rw [List.mem_filterMap]
  constructor
  · rintro ⟨i,_,chosen⟩
    exact ((readyAt_iff ok i id).mp chosen).2
  · rintro ⟨pending,free⟩
    obtain ⟨i,at_i⟩ := List.mem_iff_getElem?.mp ((stateOf_isSome ok id).mp ⟨_,pending⟩)
    have inside := (List.getElem?_eq_some_iff.mp at_i).1
    exact ⟨i,by simpa [ids] using inside,(readyAt_iff ok i id).mpr ⟨at_i,pending,free⟩⟩

theorem ready_nodes_nodup {g : ExecutionGraph} (ok : RepOk g) : g.ready_nodes.Nodup := by
  refine List.Nodup.filterMap ?_ List.nodup_range
  intro i j id first second
  exact ok.index_unique ((readyAt_iff ok i id).mp first).1 ((readyAt_iff ok j id).mp second).1

/-! ### Skipping -/

theorem mem_impossible {g : ExecutionGraph} (ok : RepOk g) (i : Nat) :
    i ∈ g.impossible ↔ ∃ id, (ids g)[i]? = some id ∧ stateOf g id = some .Pending ∧ Blocked g id := by
  unfold ExecutionGraph.impossible
  rw [List.mem_filter]
  cases found : g.graph.nodes[i]? with
  | none => simp [ids_get,found]
  | some node =>
    have at_i : (ids g)[i]? = some node.id := by simp [ids_get,found]
    have inside : i ∈ List.range g.graph.nodes.length := by simpa using (List.getElem?_eq_some_iff.mp found).1
    simp only [inside,true_and,Bool.and_eq_true,decide_eq_true_eq,blocked_iff ok at_i,at_i,Option.some.injEq,
      exists_eq_left',stateOf_eq ok at_i,found,Option.map_some]

theorem impossible_nodup (g : ExecutionGraph) : g.impossible.Nodup := List.nodup_range.filter _

/-- One skip: a pending node that is blocked becomes skipped. -/
structure Skip (g : ExecutionGraph) (i : Nat) (id : NodeId) : Prop where
  at_i : (ids g)[i]? = some id
  pending : stateOf g id = some .Pending
  blocked : Blocked g id

theorem stateOf_skipAt {g : ExecutionGraph} (ok : RepOk g) {i : Nat} {id : NodeId} (at_i : (ids g)[i]? = some id) (x : NodeId) :
    stateOf (g.skipAt i) x = if x = id then some .Skipped else stateOf g x :=
  stateOf_write ok at_i (f := fun n => { n with state := .Skipped }) (fun _ => rfl) (fun _ => rfl) x

theorem Skip.extends {g : ExecutionGraph} (ok : RepOk g) {i : Nat} {id : NodeId} (skip : Skip g i id) :
    Extends g (g.skipAt i) := by
  refine ⟨shape_skipAt g i,fun x state known terminal => ?_⟩
  rw [stateOf_skipAt ok skip.at_i]
  by_cases here : x = id
  · subst here
    rw [skip.pending] at known
    cases known
    simp [NodeState.is_terminal] at terminal
  · rw [if_neg here,known]

/-- The nodes found in one round can be skipped one after the other. -/
theorem skipRound_induction {P : ExecutionGraph → Prop} (step : ∀ g i id, RepOk g → Skip g i id → P g → P (g.skipAt i))
    {g : ExecutionGraph} (ok : RepOk g) (start : P g) (found : List Nat) (distinct : found.Nodup)
    (each : ∀ i ∈ found, ∃ id, Skip g i id) : P (found.foldl ExecutionGraph.skipAt g) := by
  induction found generalizing g with
  | nil => exact start
  | cons i later ih =>
    obtain ⟨fresh,distinct⟩ := List.nodup_cons.mp distinct
    obtain ⟨id,skip⟩ := each i List.mem_cons_self
    have same := shape_skipAt g i
    refine ih (ok.of_shape same) (step g i id ok skip start) distinct (fun j member => ?_)
    obtain ⟨x,other⟩ := each j (List.mem_cons_of_mem i member)
    have apart : x ≠ id := by
      rintro rfl
      exact fresh (ok.index_unique skip.at_i other.at_i ▸ member)
    exact ⟨x,by rw [ids_of_shape same]; exact other.at_i,by rw [stateOf_skipAt ok skip.at_i,if_neg apart]; exact other.pending,
      other.blocked.extend (skip.extends ok)⟩

/-- What every single skip keeps, the whole cascade keeps. -/
theorem skip_induction {P : ExecutionGraph → Prop} (step : ∀ g i id, RepOk g → Skip g i id → P g → P (g.skipAt i))
    {g : ExecutionGraph} (ok : RepOk g) (start : P g) : P g.skip_impossible_nodes := by
  have rounds : ∀ n (h : ExecutionGraph), RepOk h → P h → P (ExecutionGraph.skipLoop n h) := by
    intro n
    induction n with
    | zero => exact fun h _ start => start
    | succ n ih =>
      intro h ok start
      rw [ExecutionGraph.skipLoop]
      split
      · exact start
      · refine ih _ (ok.of_shape (shape_foldl h _ shape_skipAt _)) ?_
        refine skipRound_induction step ok start _ (impossible_nodup h) (fun i member => ?_)
        obtain ⟨id,at_i,pending,blocked⟩ := (mem_impossible ok i).mp member
        exact ⟨id,at_i,pending,blocked⟩
  exact rounds _ g ok start

theorem skip_extends {g : ExecutionGraph} (ok : RepOk g) : Extends g g.skip_impossible_nodes :=
  skip_induction (P := Extends g) (fun _ _ _ ok skip grown => grown.trans (skip.extends ok)) ok (Extends.refl g)

/-- A cascade only turns pending nodes into skipped ones. -/
theorem stateOf_skip {g : ExecutionGraph} (ok : RepOk g) (id : NodeId) :
    stateOf g.skip_impossible_nodes id = stateOf g id ∨
      stateOf g id = some .Pending ∧ stateOf g.skip_impossible_nodes id = some .Skipped := by
  refine skip_induction (P := fun h => stateOf h id = stateOf g id ∨ stateOf g id = some .Pending ∧ stateOf h id = some .Skipped)
    (fun h i x okH skip reached => ?_) ok (.inl rfl)
  rw [stateOf_skipAt okH skip.at_i]
  by_cases here : id = x
  · subst here
    rcases reached with same | ⟨_,skipped⟩
    · exact .inr ⟨same ▸ skip.pending,by simp⟩
    · have := skip.pending
      rw [skipped] at this
      cases this
  · simpa [here] using reached

/-! ### The cascade runs to its end -/

/-- The number of pending nodes. -/
def pendingCount (g : ExecutionGraph) : Nat := g.graph.nodes.countP (fun n => n.state = .Pending)

theorem countP_modify_le {α : Type} (p : α → Bool) (f : α → α) (list : List α) (i : Nat) (never : ∀ a, p (f a) = false) :
    (list.modify i f).countP p ≤ list.countP p ∧
      ∀ a, list[i]? = some a → p a = true → (list.modify i f).countP p < list.countP p := by
  induction list generalizing i with
  | nil => simp
  | cons head tail ih =>
    cases i with
    | zero => simp only [List.modify_zero_cons,List.countP_cons]; grind
    | succ i =>
      simp only [List.modify_succ_cons,List.countP_cons,List.getElem?_cons_succ]
      obtain ⟨le,lt⟩ := ih i
      exact ⟨by omega,fun a at_i holds => by have := lt a at_i holds; omega⟩

theorem pendingCount_skipAt (g : ExecutionGraph) (i : Nat) : pendingCount (g.skipAt i) ≤ pendingCount g :=
  (countP_modify_le _ _ g.graph.nodes i (fun _ => by simp)).1

theorem pendingCount_foldl (g : ExecutionGraph) (found : List Nat) :
    pendingCount (found.foldl ExecutionGraph.skipAt g) ≤ pendingCount g := by
  induction found generalizing g with
  | nil => exact le_refl _
  | cons i later ih => exact (ih (g.skipAt i)).trans (pendingCount_skipAt g i)

theorem pendingCount_round {g : ExecutionGraph} {i : Nat} {later : List Nat} (found : g.impossible = i :: later) :
    pendingCount ((i :: later).foldl ExecutionGraph.skipAt g) < pendingCount g := by
  have member : i ∈ g.impossible := by simp [found]
  have chosen := (List.mem_filter.mp member).2
  cases at_i : g.graph.nodes[i]? with
  | none => simp [at_i] at chosen
  | some node =>
    simp only [at_i,Bool.and_eq_true] at chosen
    have strict := (countP_modify_le (fun n : Node => decide (n.state = .Pending)) (fun n => { n with state := .Skipped })
      g.graph.nodes i (fun _ => by simp)).2 node at_i chosen.1
    exact lt_of_le_of_lt (pendingCount_foldl (g.skipAt i) later) strict

theorem skipLoop_fixed (rounds : Nat) (g : ExecutionGraph) (enough : pendingCount g < rounds) :
    (ExecutionGraph.skipLoop rounds g).impossible = [] := by
  induction rounds generalizing g with
  | zero => omega
  | succ rounds ih =>
    rw [ExecutionGraph.skipLoop]
    split
    · assumption
    · rename_i found nonempty
      cases list : g.impossible with
      | nil => exact absurd list nonempty
      | cons i later =>
        have := pendingCount_round list
        exact ih _ (by omega)

/-- After a cascade no pending node is blocked. -/
theorem skip_fixed {g : ExecutionGraph} (ok : RepOk g) {id : NodeId}
    (pending : stateOf g.skip_impossible_nodes id = some .Pending) : ¬ Blocked g.skip_impossible_nodes id := by
  intro blocked
  have okAfter := ok.of_shape (shape_skip g)
  have fixed : g.skip_impossible_nodes.impossible = [] :=
    skipLoop_fixed _ g (by have := List.countP_le_length (l := g.graph.nodes) (p := fun n => decide (n.state = .Pending))
                           unfold pendingCount; omega)
  obtain ⟨i,at_i⟩ := List.mem_iff_getElem?.mp ((stateOf_isSome okAfter id).mp ⟨_,pending⟩)
  have member := (mem_impossible okAfter i).mpr ⟨id,at_i,pending,blocked⟩
  rw [fixed] at member
  cases member

/-! ### Recording an outcome -/

/-- Recording an outcome writes it and starts a cascade from there. -/
theorem mark_complete_eq {g : ExecutionGraph} (ok : RepOk g) {id : NodeId} (known : id ∈ ids g) (state : NodeState)
    (duration : Option Duration) : ∃ marked, (g.mark_complete id state duration).2 = marked.skip_impossible_nodes ∧
      RepOk marked ∧ shape marked = shape g ∧ ∀ x, stateOf marked x = if x = id then some state else stateOf g x := by
  obtain ⟨i,at_i⟩ := List.mem_iff_getElem?.mp known
  refine ⟨g.modify i (fun n => { n with state, actual_duration := duration }),?_,?_,?_,?_⟩
  · simp [ExecutionGraph.mark_complete,(ok.index id i).mpr at_i]
  · exact ok.of_shape (shape_modify g i (fun _ => rfl))
  · exact shape_modify g i (fun _ => rfl)
  · exact stateOf_write ok at_i (f := fun n => { n with state, actual_duration := duration }) (fun _ => rfl) (fun _ => rfl)

end Daf.GraphStates
