import Daf.GraphExecutor

/-!
What the writes of the executor do to the states of the nodes: the marks of a
wave, the outcome of a task and the cancellation of what is left.
-/
namespace Daf.GraphUpdates
open Daf.GraphNodes Daf.GraphDag Daf.GraphInvariant Daf.GraphStates Daf.GraphExecutor

/-- No node goes back: terminal states stay, and no node comes to wait that did
    not wait before. -/
structure Forward (g h : ExecutionGraph) : Prop extends Extends g h where
  waits : ∀ id, stateOf h id = some .Pending ∨ stateOf h id = some .Ready →
    stateOf g id = some .Pending ∨ stateOf g id = some .Ready

/-- Every node is in a terminal state. -/
def AllTerminal (g : ExecutionGraph) : Prop := ∀ id state, stateOf g id = some state → state.is_terminal = true

theorem Forward.refl (g : ExecutionGraph) : Forward g g := ⟨Extends.refl g,fun _ waits => waits⟩

theorem AllTerminal.forward {g h : ExecutionGraph} (ok : RepOk g) (all : AllTerminal g) (grows : Extends g h) : AllTerminal h := by
  intro id state known
  have member : id ∈ ids g := by
    rw [← ids_of_shape grows.same]
    exact (stateOf_isSome (ok.of_shape grows.same) id).mp ⟨state,known⟩
  obtain ⟨before,knownBefore⟩ := (stateOf_isSome ok id).mpr member
  have kept := grows.terminal id before knownBefore (all id before knownBefore)
  rw [known] at kept
  cases kept
  exact all id state knownBefore

theorem maxRetries_of_shape {g h : ExecutionGraph} (same : shape h = shape g) (id : NodeId) : maxRetries h id = maxRetries g id := by
  have specs : ∀ g : ExecutionGraph, maxRetries (shape g) id = maxRetries g id := by
    intro g
    simp only [maxRetries,ExecutionGraph.get_node,shape,List.getElem?_map,Option.bind_assoc]
    cases g.index_map.lookup id with
    | none => rfl
    | some i => cases found : g.graph.nodes[i]? <;> simp [found,forget]
  rw [← specs h,same,specs g]

/-! ### Writes by id -/

theorem shape_modifyNode (g : ExecutionGraph) (id : NodeId) {f : Node → Node} (keeps : ∀ n, forget (f n) = forget n) :
    shape (g.modifyNode id f) = shape g := by
  unfold ExecutionGraph.modifyNode
  split
  · rfl
  · exact shape_modify g _ keeps

theorem stateOf_modifyNode {g : ExecutionGraph} (ok : RepOk g) {f : Node → Node} {w : NodeState → NodeState}
    (keeps : ∀ n, forget (f n) = forget n) (writes : ∀ n, (f n).state = w n.state) (id x : NodeId) :
    stateOf (g.modifyNode id f) x = if x = id then (stateOf g x).map w else stateOf g x := by
  unfold ExecutionGraph.modifyNode
  cases found : g.index_map.lookup id with
  | none =>
    by_cases here : x = id
    · subst here
      simp [stateOf,get_node_none found]
    · simp [here]
  | some i =>
    rw [stateOf_modify ok ((ok.index id i).mp found) keeps]
    by_cases here : x = id
    · subst here
      simp [stateOf,Function.comp_def,writes]
    · simp [here]

/-- The same write at each id of a list. -/
theorem stateOf_foldl {f : Node → Node} {w : NodeState → NodeState} (keeps : ∀ n, forget (f n) = forget n)
    (writes : ∀ n, (f n).state = w n.state) (again : ∀ state, w (w state) = w state) (list : List NodeId)
    {g : ExecutionGraph} (ok : RepOk g) :
    shape (list.foldl (fun g id => g.modifyNode id f) g) = shape g ∧ ∀ x,
      stateOf (list.foldl (fun g id => g.modifyNode id f) g) x =
        if x ∈ list then (stateOf g x).map w else stateOf g x := by
  induction list generalizing g with
  | nil => simp
  | cons id later ih =>
    have same := shape_modifyNode g id keeps
    obtain ⟨kept,states⟩ := ih (ok.of_shape same)
    refine ⟨kept.trans same,fun x => ?_⟩
    rw [List.foldl_cons,states,stateOf_modifyNode ok keeps writes]
    by_cases here : x = id
    · subst here
      by_cases repeated : x ∈ later <;> simp [repeated,again,Function.comp_def]
    · by_cases later' : x ∈ later <;> simp [here,later']

/-! ### The marks of a wave -/

theorem markReady_states {g : ExecutionGraph} (ok : RepOk g) (wave : List NodeId) :
    shape (markReady g wave) = shape g ∧ ∀ x, stateOf (markReady g wave) x =
      if x ∈ wave then (stateOf g x).map (fun state => if state = .Pending then .Ready else state) else stateOf g x := by
  refine stateOf_foldl (fun n => ?_) (fun n => ?_) (fun state => ?_) wave ok
  · by_cases pending : n.state = .Pending <;> simp [pending,forget]
  · by_cases pending : n.state = .Pending <;> simp [pending]
  · cases state <;> rfl

theorem markReady_forward {g : ExecutionGraph} (ok : RepOk g) {wave : List NodeId}
    (pending : ∀ id ∈ wave, stateOf g id = some .Pending) : Forward g (markReady g wave) := by
  obtain ⟨same,states⟩ := markReady_states ok wave
  refine ⟨⟨same,fun id state known terminal => ?_⟩,fun id waits => ?_⟩
  · rw [states]
    by_cases member : id ∈ wave
    · rw [pending id member] at known
      cases known
      cases terminal
    · rw [if_neg member,known]
  · rw [states] at waits
    by_cases member : id ∈ wave
    · exact .inl (pending id member)
    · rwa [if_neg member] at waits

theorem markReady_ready {g : ExecutionGraph} (ok : RepOk g) {wave : List NodeId} {id : NodeId} (member : id ∈ wave)
    (pending : stateOf g id = some .Pending) : stateOf (markReady g wave) id = some .Ready := by
  rw [(markReady_states ok wave).2,if_pos member,pending]
  rfl

theorem markRunning_states {g : ExecutionGraph} (ok : RepOk g) {id : NodeId} (ready : stateOf g id = some .Ready) (x : NodeId) :
    stateOf (markRunning g id) x = if x = id then some .Running else stateOf g x := by
  rw [markRunning,stateOf_modifyNode ok (f := fun n => { n with state := .Running }) (w := fun _ => .Running) (fun _ => rfl)
    (fun _ => rfl)]
  by_cases here : x = id
  · subst here
    simp [ready]
  · simp [here]

theorem markRunning_forward {g : ExecutionGraph} (ok : RepOk g) {id : NodeId} (ready : stateOf g id = some .Ready) :
    Forward g (markRunning g id) := by
  refine ⟨⟨shape_modifyNode g id (fun _ => rfl),fun x state known terminal => ?_⟩,fun x waits => ?_⟩
  · rw [markRunning_states ok ready]
    by_cases here : x = id
    · subst here
      rw [ready] at known
      cases known
      cases terminal
    · rw [if_neg here,known]
  · rw [markRunning_states ok ready] at waits
    by_cases here : x = id
    · simp [here] at waits
    · rwa [if_neg here] at waits

/-! ### Cancellation -/

theorem mem_remaining {g : ExecutionGraph} (ok : RepOk g) (id : NodeId) :
    id ∈ (g.graph.nodes.filter (fun n => !n.state.is_terminal)).map (·.id) ↔
      ∃ state, stateOf g id = some state ∧ state.is_terminal = false := by
  simp only [List.mem_map,List.mem_filter,Bool.not_eq_true']
  constructor
  · rintro ⟨node,⟨member,live⟩,rfl⟩
    obtain ⟨i,found⟩ := List.mem_iff_getElem?.mp member
    exact ⟨node.state,by rw [stateOf_eq ok (i := i) (by simp [ids_get,found]),found]; rfl,live⟩
  · rintro ⟨state,known,live⟩
    obtain ⟨i,at_i⟩ := List.mem_iff_getElem?.mp ((stateOf_isSome ok id).mp ⟨_,known⟩)
    rw [stateOf_eq ok at_i] at known
    obtain ⟨node,found,rfl⟩ := Option.map_eq_some_iff.mp known
    rw [ids_get,found] at at_i
    exact ⟨node,⟨List.mem_of_getElem? found,live⟩,Option.some.inj at_i⟩

theorem cancel_states {g : ExecutionGraph} (ok : RepOk g) (x : NodeId) :
    stateOf (cancel_remaining_nodes g) x = (stateOf g x).map (fun state => if state.is_terminal then state else .Cancelled) := by
  have states := (stateOf_foldl (f := fun n => { n with state := .Cancelled }) (w := fun _ => .Cancelled) (fun _ => rfl)
    (fun _ => rfl) (fun _ => rfl) ((g.graph.nodes.filter (fun n => !n.state.is_terminal)).map (·.id)) ok).2 x
  rw [cancel_remaining_nodes,states]
  by_cases member : x ∈ (g.graph.nodes.filter (fun n => !n.state.is_terminal)).map (·.id)
  · obtain ⟨state,known,live⟩ := (mem_remaining ok x).mp member
    rw [if_pos member]
    simp [known,live]
  · rw [if_neg member]
    cases known : stateOf g x with
    | none => rfl
    | some state =>
      cases live : state.is_terminal with
      | true => simp [live]
      | false => exact absurd ((mem_remaining ok x).mpr ⟨state,known,live⟩) member

theorem cancel_shape {g : ExecutionGraph} (ok : RepOk g) : shape (cancel_remaining_nodes g) = shape g :=
  (stateOf_foldl (f := fun n => { n with state := .Cancelled }) (w := fun _ => .Cancelled) (fun _ => rfl)
    (fun _ => rfl) (fun _ => rfl) _ ok).1

theorem cancel_allTerminal {g : ExecutionGraph} (ok : RepOk g) : AllTerminal (cancel_remaining_nodes g) := by
  intro id state known
  rw [cancel_states ok] at known
  obtain ⟨before,_,rfl⟩ := Option.map_eq_some_iff.mp known
  cases before <;> rfl

theorem cancel_forward {g : ExecutionGraph} (ok : RepOk g) : Forward g (cancel_remaining_nodes g) := by
  refine ⟨⟨cancel_shape ok,fun id state known terminal => ?_⟩,fun id waits => ?_⟩
  · rw [cancel_states ok,known]
    simp [terminal]
  · rcases waits with waits | waits
    · have := cancel_allTerminal ok id _ waits
      cases this
    · have := cancel_allTerminal ok id _ waits
      cases this

/-! ### Outcomes -/

theorem skip_forward {g : ExecutionGraph} (ok : RepOk g) : Forward g g.skip_impossible_nodes := by
  refine ⟨skip_extends ok,fun id waits => ?_⟩
  rcases stateOf_skip ok id with same | ⟨pending,_⟩
  · rwa [same] at waits
  · exact .inl pending

/-- Apart from one node, every state is as it was, or the node was pending and is
    skipped. -/
def Elsewhere (g h : ExecutionGraph) (id : NodeId) : Prop :=
  ∀ x, x ≠ id → stateOf h x = stateOf g x ∨ stateOf g x = some .Pending ∧ stateOf h x = some .Skipped

theorem Elsewhere.kept {g h : ExecutionGraph} {id x : NodeId} (others : Elsewhere g h id) (apart : x ≠ id) {state : NodeState}
    (known : stateOf g x = some state) (settled : state ≠ .Pending) : stateOf h x = some state := by
  rcases others x apart with same | ⟨pending,_⟩
  · rw [same,known]
  · rw [pending] at known
    exact absurd (Option.some.inj known).symm settled

/-- Recording a terminal outcome changes the node, and skips some pending ones. -/
theorem mark_complete_states {g : ExecutionGraph} (ok : RepOk g) {id : NodeId} (known : id ∈ ids g) {state : NodeState}
    (terminal : state.is_terminal = true) (duration : Option Duration) :
    stateOf (g.mark_complete id state duration).2 id = some state ∧ Elsewhere g (g.mark_complete id state duration).2 id := by
  obtain ⟨marked,result,okMarked,_,states⟩ := mark_complete_eq ok known state duration
  rw [result]
  constructor
  · exact (skip_extends okMarked).terminal id state (by rw [states,if_pos rfl]) terminal
  · intro x other
    have before : stateOf marked x = stateOf g x := by rw [states,if_neg other]
    rw [← before]
    exact stateOf_skip okMarked x

theorem mark_complete_forward {g : ExecutionGraph} (ok : RepOk g) {id : NodeId} {old : NodeState}
    (known : stateOf g id = some old) (live : old.is_terminal = false) {state : NodeState} (terminal : state.is_terminal = true)
    (duration : Option Duration) : Forward g (g.mark_complete id state duration).2 := by
  obtain ⟨here,others⟩ := mark_complete_states ok ((stateOf_isSome ok id).mp ⟨old,known⟩) terminal duration
  refine ⟨⟨shape_mark_complete g id state duration,fun x kept knownX terminalX => ?_⟩,fun x waits => ?_⟩
  · have apart : x ≠ id := by
      rintro rfl
      rw [known] at knownX
      cases knownX
      rw [live] at terminalX
      cases terminalX
    rcases others x apart with same | ⟨pending,_⟩
    · rw [same,knownX]
    · rw [pending] at knownX
      cases knownX
      cases terminalX
  · by_cases apart : x = id
    · subst apart
      rw [here] at waits
      rcases waits with waits | waits <;> (cases waits; cases terminal)
    · rcases others x apart with same | ⟨pending,_⟩
      · rwa [same] at waits
      · exact .inl pending

theorem attempt_terminal (result : Attempt) : result.state.is_terminal = true := by
  cases result <;> rfl

/-- A task records its outcome on a running node; a cancelled node keeps its state. -/
theorem recordOutcome_states {g : ExecutionGraph} (ok : RepOk g) {id : NodeId}
    (live : stateOf g id = some .Running ∨ stateOf g id = some .Cancelled) (result : Attempt) (elapsed : Duration) :
    Forward g (recordOutcome g id result elapsed) ∧
    (stateOf (recordOutcome g id result elapsed) id =
      some (if stateOf g id = some .Cancelled then .Cancelled else result.state)) ∧
    Elsewhere g (recordOutcome g id result elapsed) id := by
  unfold recordOutcome
  by_cases cancelled : stateOf g id = some .Cancelled
  · simp only [cancelled,if_true]
    exact ⟨Forward.refl g,trivial,fun _ _ => .inl rfl⟩
  · have running := live.resolve_right cancelled
    simp only [cancelled,if_false]
    have known := (stateOf_isSome ok id).mp ⟨_,running⟩
    obtain ⟨here,others⟩ := mark_complete_states ok known (attempt_terminal result) (some elapsed)
    exact ⟨mark_complete_forward ok running rfl (attempt_terminal result) _,here,others⟩

end Daf.GraphUpdates
