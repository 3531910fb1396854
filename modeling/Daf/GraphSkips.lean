import Daf.Cascades
import Daf.GraphUpdates

/-!
Skipping as a cascade: the nodes that are skipped are the least set of pending nodes that an unsatisfied edge from a terminal
or skipped node leads into. Completions may be followed by a cascade each, or by one cascade in the end.
-/
namespace Daf.GraphSkips
open Daf.Digraph Daf.GraphNodes Daf.GraphDag Daf.GraphInvariant Daf.GraphStates Daf.GraphUpdates Daf.Cascades

/-- A terminal state in which the source of an edge rules its target out. -/
def rule (edges : List Edge) : Rule NodeId (Option NodeState) where
  waits s := s = some .Pending
  ended s := ∃ state, s = some state ∧ state.is_terminal = true
  fallen := some .Skipped
  strikes a b s := ∃ e ∈ edges, e.source = a ∧ e.target = b ∧ ∃ state, s = some state ∧ state.is_terminal = true ∧ satisfied state e = false
  fallen_ended := ⟨.Skipped,rfl,rfl⟩
  not_ended := by
    rintro s rfl ⟨state,same,terminal⟩
    cases same
    cases terminal
  strikes_ended := by
    rintro a b s ⟨e,-,-,-,state,same,terminal,-⟩
    exact ⟨state,same,terminal⟩

section
variable {g h : ExecutionGraph} {id : NodeId}

theorem blocked_iff_struck : Blocked g id ↔ ∃ a, (rule g.edges).strikes a id (stateOf g a) := by
  constructor
  · rintro ⟨e,member,target,blocks⟩
    exact ⟨e.source,e,member,rfl,target,blocks⟩
  · rintro ⟨a,e,member,rfl,target,blocks⟩
    exact ⟨e,member,target,blocks⟩

/-- Every skip on the way is one of the cascade. -/
theorem skip_falls (ok : RepOk g) (x : NodeId) : stateOf g.skip_impossible_nodes x = stateOf g x ∨
    Falls (rule g.edges) (stateOf g) x ∧ stateOf g.skip_impossible_nodes x = some .Skipped := by
  refine (skip_induction (P := fun k => shape k = shape g ∧ ∀ x, stateOf k x = stateOf g x ∨
    Falls (rule g.edges) (stateOf g) x ∧ stateOf k x = some .Skipped) (fun k i id okK skip reached => ?_) ok
    ⟨rfl,fun _ => .inl rfl⟩).2 x
  obtain ⟨same,states⟩ := reached
  refine ⟨(shape_skipAt k i).trans same,fun x => ?_⟩
  rw [stateOf_skipAt okK skip.at_i]
  by_cases here : x = id
  · subst here
    rw [if_pos rfl]
    have waits : stateOf g x = some .Pending := by
      rcases states x with kept | ⟨-,skipped⟩
      · rw [← kept,skip.pending]
      · exact nomatch skip.pending.symm.trans skipped
    obtain ⟨a,strikes⟩ := blocked_iff_struck.mp skip.blocked
    rw [edges_of_shape same] at strikes
    rcases states a with kept | ⟨falls,skipped⟩
    · exact .inr ⟨.struck waits (kept ▸ strikes),rfl⟩
    · rw [skipped] at strikes
      exact .inr ⟨.next waits falls strikes,rfl⟩
  · rw [if_neg here]
    exact states x

/-- All that falls has been skipped when nothing is blocked any more. -/
theorem falls_skipped (ok : RepOk g) {x : NodeId} (falls : Falls (rule g.edges) (stateOf g) x) :
    stateOf g.skip_impossible_nodes x = some .Skipped := by
  have grown := skip_extends ok
  -- A node that is struck in the end is not pending any more.
  have settled : ∀ {a b}, stateOf g b = some .Pending → (rule g.edges).strikes a b (stateOf g.skip_impossible_nodes a) →
      stateOf g.skip_impossible_nodes b = some .Skipped := by
    intro a b waits strikes
    rcases stateOf_skip ok b with kept | ⟨-,skipped⟩
    · rw [← edges_of_shape grown.same] at strikes
      exact absurd (blocked_iff_struck.mpr ⟨a,strikes⟩) (skip_fixed ok (kept.trans waits))
    · exact skipped
  induction falls with
  | @struck a b waits strikes =>
    obtain ⟨state,known,terminal⟩ := (rule g.edges).strikes_ended _ _ _ strikes
    rw [known,← grown.terminal a state known terminal] at strikes
    exact settled waits strikes
  | @next a b waits _ strikes ih =>
    refine settled (a := a) waits ?_
    rw [ih]
    exact strikes

/-- The states after a cascade of the graph are those of the abstract one. -/
theorem stateOf_skip_eq (ok : RepOk g) : stateOf g.skip_impossible_nodes = spread (rule g.edges) (stateOf g) := by
  funext x
  by_cases falls : Falls (rule g.edges) (stateOf g) x
  · rw [falls_skipped ok falls,spread_falls falls]
    rfl
  · rw [spread_stays falls]
    exact (skip_falls ok x).resolve_right fun skipped => falls skipped.1

/-! ### The loop -/

theorem skipLoop_more (rounds more : Nat) (g : ExecutionGraph) (rest : (ExecutionGraph.skipLoop rounds g).impossible = []) :
    ExecutionGraph.skipLoop (rounds + more) g = ExecutionGraph.skipLoop rounds g := by
  induction rounds generalizing g with
  | zero =>
    rw [ExecutionGraph.skipLoop] at rest
    rw [Nat.zero_add]
    cases more with
    | zero => rfl
    | succ more => simp only [ExecutionGraph.skipLoop,rest]
  | succ rounds ih =>
    rw [Nat.add_right_comm,ExecutionGraph.skipLoop]
    rw [ExecutionGraph.skipLoop] at rest ⊢
    cases found : g.impossible with
    | nil => rfl
    | cons i later =>
      simp only [found] at rest
      exact ih _ rest

theorem pendingCount_le (g : ExecutionGraph) : pendingCount g ≤ g.graph.nodes.length := List.countP_le_length

/-- The loop ends within as many rounds as there are nodes, and one to find nothing more. -/
theorem skipLoop_ends (g : ExecutionGraph) : g.skip_impossible_nodes.impossible = [] ∧
    ∀ rounds, g.graph.nodes.length < rounds → ExecutionGraph.skipLoop rounds g = g.skip_impossible_nodes := by
  have bound := pendingCount_le g
  have rest : g.skip_impossible_nodes.impossible = [] := skipLoop_fixed _ g (by omega)
  refine ⟨rest,fun rounds enough => ?_⟩
  obtain ⟨more,rfl⟩ := Nat.exists_eq_add_of_lt enough
  rw [Nat.add_right_comm]
  exact skipLoop_more _ more g rest

theorem skip_idempotent (g : ExecutionGraph) : g.skip_impossible_nodes.skip_impossible_nodes = g.skip_impossible_nodes := by
  conv_lhs => rw [ExecutionGraph.skip_impossible_nodes,ExecutionGraph.skipLoop,(skipLoop_ends g).1]

/-- Only pending nodes change, and only their state. -/
theorem skip_nodes (ok : RepOk g) (i : Nat) : g.skip_impossible_nodes.graph.nodes[i]? = g.graph.nodes[i]? ∨
    ∃ node, g.graph.nodes[i]? = some node ∧ node.state = .Pending ∧
      g.skip_impossible_nodes.graph.nodes[i]? = some { node with state := .Skipped } := by
  refine skip_induction (P := fun k => k.graph.nodes[i]? = g.graph.nodes[i]? ∨ ∃ node, g.graph.nodes[i]? = some node ∧
    node.state = .Pending ∧ k.graph.nodes[i]? = some { node with state := .Skipped }) (fun k j id okK skip reached => ?_) ok (.inl rfl)
  by_cases here : j = i
  · subst here
    have pending := skip.pending
    rw [stateOf_eq okK skip.at_i] at pending
    obtain ⟨node,found,waits⟩ := Option.map_eq_some_iff.mp pending
    have after : (k.skipAt j).graph.nodes[j]? = some { node with state := .Skipped } := by
      simp [ExecutionGraph.skipAt,ExecutionGraph.modify,DiGraph.modify,found]
    rcases reached with kept | ⟨old,-,-,skipped⟩
    · exact .inr ⟨node,kept ▸ found,waits,after⟩
    · rw [found,Option.some.injEq] at skipped
      rw [skipped] at waits
      cases waits
  · have other : (k.skipAt j).graph.nodes[i]? = k.graph.nodes[i]? := by
      simp [ExecutionGraph.skipAt,ExecutionGraph.modify,DiGraph.modify,here]
    rw [other]
    exact reached

/-- Closed under the rule: an edge whose source is terminal, or in the set and so skipped, and that the state of its source
    does not satisfy, leads to no pending node outside. -/
def ClosedUnder (g : ExecutionGraph) (S : Set NodeId) : Prop :=
  ∀ e ∈ g.edges, ∀ state, (stateOf g e.source = some state ∧ state.is_terminal = true ∨ e.source ∈ S ∧ state = .Skipped) →
    satisfied state e = false → stateOf g e.target = some .Pending → e.target ∈ S

theorem closedUnder_iff (S : Set NodeId) : ClosedUnder g S ↔ Closed (rule g.edges) (stateOf g) S := by
  constructor
  · rintro closed b ⟨waits,a,⟨e,member,rfl,rfl,state,known,terminal,fails⟩ | ⟨inside,e,member,rfl,rfl,state,same,-,fails⟩⟩
    · exact closed e member state (.inl ⟨known,terminal⟩) fails waits
    · exact closed e member state (.inr ⟨inside,(Option.some.inj same).symm⟩) fails waits
  · rintro closed e member state (⟨known,terminal⟩ | ⟨inside,rfl⟩) fails waits
    · exact closed e.target ⟨waits,e.source,.inl ⟨e,member,rfl,rfl,state,known,terminal,fails⟩⟩
    · exact closed e.target ⟨waits,e.source,.inr ⟨inside,e,member,rfl,rfl,.Skipped,rfl,rfl,fails⟩⟩

/-- The nodes that a cascade skips. -/
def skipped (g : ExecutionGraph) : Set NodeId := {id | stateOf g id = some .Pending ∧ stateOf g.skip_impossible_nodes id = some .Skipped}

theorem skipped_eq (ok : RepOk g) : skipped g = {id | Falls (rule g.edges) (stateOf g) id} := by
  ext id
  constructor
  · rintro ⟨pending,skipped⟩
    rcases skip_falls ok id with kept | ⟨falls,-⟩
    · rw [kept,pending] at skipped
      cases skipped
    · exact falls
  · exact fun falls => ⟨falls.waits,falls_skipped ok falls⟩

theorem skipped_isLeast (ok : RepOk g) : IsLeast {S : Set NodeId | (∀ id ∈ S, stateOf g id = some .Pending) ∧ ClosedUnder g S} (skipped g) := by
  rw [skipped_eq ok]
  simp only [closedUnder_iff]
  exact falls_isLeast (stateOf g)

end

/-! ### Completions -/

structure Completion where
  id : NodeId
  new_state : NodeState
  actual_duration : Option Duration

/-- The outcome of a node, without a cascade. -/
def writeOutcome (g : ExecutionGraph) (c : Completion) : ExecutionGraph :=
  g.modifyNode c.id (fun n => { n with state := c.new_state, actual_duration := c.actual_duration })

def completeAll (g : ExecutionGraph) (done : List Completion) : ExecutionGraph := done.foldl writeOutcome g

/-- A cascade after each outcome. -/
def completeEach (g : ExecutionGraph) (done : List Completion) : ExecutionGraph :=
  done.foldl (fun g c => (g.mark_complete c.id c.new_state c.actual_duration).2) g

/-- Every outcome is terminal and is recorded for a node that has not come to an end by then. -/
def Timely (g : ExecutionGraph) : List Completion → Prop
  | [] => True
  | c :: later => (∃ state, stateOf g c.id = some state ∧ state.is_terminal = false) ∧ c.new_state.is_terminal = true ∧
      Timely (g.mark_complete c.id c.new_state c.actual_duration).2 later

section
variable {g : ExecutionGraph} {c : Completion} {done : List Completion}

def ends (done : List Completion) : List (NodeId × Option NodeState) := done.map fun c => (c.id,some c.new_state)

theorem shape_writeOutcome (g : ExecutionGraph) (c : Completion) : shape (writeOutcome g c) = shape g := shape_modifyNode g c.id fun _ => rfl

theorem stateOf_writeOutcome (ok : RepOk g) (known : ∃ state, stateOf g c.id = some state) :
    stateOf (writeOutcome g c) = Function.update (stateOf g) c.id (some c.new_state) := by
  obtain ⟨state,present⟩ := known
  funext x
  rw [writeOutcome,stateOf_modifyNode ok (f := fun n => { n with state := c.new_state, actual_duration := c.actual_duration })
    (w := fun _ => c.new_state) (fun _ => rfl) (fun _ => rfl)]
  by_cases here : x = c.id
  · subst here
    simp [present]
  · simp [here]

theorem stateOf_complete (ok : RepOk g) (known : ∃ state, stateOf g c.id = some state) :
    stateOf (g.mark_complete c.id c.new_state c.actual_duration).2 =
      spread (rule g.edges) (Function.update (stateOf g) c.id (some c.new_state)) := by
  obtain ⟨marked,result,okMarked,same,states⟩ := mark_complete_eq ok ((stateOf_isSome ok c.id).mp known) c.new_state c.actual_duration
  rw [result,stateOf_skip_eq okMarked,edges_of_shape same]
  congr 1
  funext x
  rw [states,Function.update_apply]

theorem stateOf_completeAll (ok : RepOk g) (known : ∀ c ∈ done, c.id ∈ ids g) :
    shape (completeAll g done) = shape g ∧ stateOf (completeAll g done) = record (stateOf g) (ends done) := by
  induction done generalizing g with
  | nil => exact ⟨rfl,rfl⟩
  | cons c later ih =>
    have same := shape_writeOutcome g c
    have written := stateOf_writeOutcome ok ((stateOf_isSome ok c.id).mpr (known c List.mem_cons_self))
    obtain ⟨kept,states⟩ := ih (ok.of_shape same) fun d member => ids_of_shape same ▸ known d (List.mem_cons_of_mem c member)
    rw [written] at states
    exact ⟨kept.trans same,states⟩

theorem Timely.known (ok : RepOk g) (timely : Timely g done) : ∀ c ∈ done, c.id ∈ ids g := by
  induction done generalizing g with
  | nil => exact fun _ member => absurd member List.not_mem_nil
  | cons c later ih =>
    obtain ⟨⟨state,present,-⟩,-,rest⟩ := timely
    have same := shape_mark_complete g c.id c.new_state c.actual_duration
    have others := ih (ok.of_shape same) rest
    rw [ids_of_shape same] at others
    exact List.forall_mem_cons.mpr ⟨(stateOf_isSome ok c.id).mp ⟨state,present⟩,others⟩

/-- The completions of the graph are those of the abstract cascade. -/
theorem Timely.fresh (ok : RepOk g) (timely : Timely g done) : Fresh (rule g.edges) (stateOf g) (ends done) ∧
    stateOf (completeEach g done) = each (rule g.edges) (stateOf g) (ends done) := by
  induction done generalizing g with
  | nil => exact ⟨trivial,rfl⟩
  | cons c later ih =>
    obtain ⟨⟨state,present,running⟩,terminal,rest⟩ := timely
    have same := shape_mark_complete g c.id c.new_state c.actual_duration
    obtain ⟨fresh,eachRest⟩ := ih (ok.of_shape same) rest
    rw [edges_of_shape same,stateOf_complete ok ⟨state,present⟩] at fresh eachRest
    refine ⟨⟨?_,⟨c.new_state,rfl,terminal⟩,fresh⟩,eachRest⟩
    rintro ⟨ended,known,past⟩
    rw [present,Option.some.injEq] at known
    rw [known,past] at running
    cases running

theorem Timely.once (ok : RepOk g) (timely : Timely g done) (nonempty : done ≠ []) :
    stateOf (completeEach g done) = stateOf (completeAll g done).skip_impossible_nodes := by
  obtain ⟨fresh,eachDone⟩ := timely.fresh ok
  obtain ⟨same,states⟩ := stateOf_completeAll ok (timely.known ok)
  rw [eachDone,fresh.each_eq fun empty => nonempty (List.map_eq_nil_iff.mp empty),stateOf_skip_eq (ok.of_shape same),states,
    edges_of_shape same]

theorem Timely.order {other : List Completion} (ok : RepOk g) (first : Timely g done) (second : Timely g other) (perm : done.Perm other) :
    stateOf (completeEach g done) = stateOf (completeEach g other) := by
  obtain ⟨fresh,eachDone⟩ := first.fresh ok
  obtain ⟨freshOther,eachOther⟩ := second.fresh ok
  rw [eachDone,eachOther]
  exact fresh.order freshOther (perm.map _)

end

/-- Skipping ends, changes pending nodes only and those only to skipped ones, skips the least set that the rule closes, and does
    nothing the second time. Outcomes that are recorded for nodes that have not come to an end give the same states with a
    cascade after each or one after all, in every such order. -/
theorem skips_least (g : ExecutionGraph) (ok : RepOk g) :
    (g.skip_impossible_nodes.impossible = [] ∧
      ∀ rounds, g.graph.nodes.length < rounds → ExecutionGraph.skipLoop rounds g = g.skip_impossible_nodes) ∧
    (g.skip_impossible_nodes.graph.edges = g.graph.edges ∧ g.skip_impossible_nodes.index_map = g.index_map ∧
      g.skip_impossible_nodes.name = g.name ∧ ∀ i : Nat, g.skip_impossible_nodes.graph.nodes[i]? = g.graph.nodes[i]? ∨
        ∃ node, g.graph.nodes[i]? = some node ∧ node.state = .Pending ∧
          g.skip_impossible_nodes.graph.nodes[i]? = some { node with state := .Skipped }) ∧
    IsLeast {S : Set NodeId | (∀ id ∈ S, stateOf g id = some .Pending) ∧ ClosedUnder g S} (skipped g) ∧
    g.skip_impossible_nodes.skip_impossible_nodes = g.skip_impossible_nodes ∧
    (∀ done, done ≠ [] → Timely g done →
      ∀ id, stateOf (completeEach g done) id = stateOf (completeAll g done).skip_impossible_nodes id) ∧
    (∀ done other, Timely g done → Timely g other → done.Perm other →
      ∀ id, stateOf (completeEach g done) id = stateOf (completeEach g other) id) := by
  have same := shape_skip g
  refine ⟨skipLoop_ends g,⟨?_,?_,?_,skip_nodes ok⟩,skipped_isLeast ok,skip_idempotent g,?_,?_⟩
  · exact congrArg (·.graph.edges) same
  · exact congrArg (·.index_map) same
  · exact congrArg (·.name) same
  · exact fun done nonempty timely id => congrFun (timely.once ok nonempty) id
  · exact fun done other first second perm id => congrFun (first.order ok second perm) id

/-- Three nodes in a chain. -/
def release : ExecutionGraph := build "release"
  [.add_node (Node.new ⟨1⟩ .Task "fetch"),.add_node (Node.new ⟨2⟩ .Task "build"),.add_node (Node.new ⟨3⟩ .Task "ship"),
    .add_edge (Edge.new ⟨1⟩ ⟨2⟩ .DependsOn),.add_edge (Edge.new ⟨2⟩ ⟨3⟩ .DependsOn)]

/-- The first node fails, and both others are skipped. -/
theorem release_fails : stateOf (completeEach release [⟨⟨1⟩,.Failed,none⟩]) =
    stateOf (completeAll release [⟨⟨1⟩,.Failed,none⟩]).skip_impossible_nodes :=
  funext ((skips_least release (repOk_build _ _)).2.2.2.2.1 [⟨⟨1⟩,.Failed,none⟩] (by simp) ⟨⟨.Pending,by decide,rfl⟩,rfl,trivial⟩)

/-- An outcome for a node that a cascade has skipped is written over the skip, and comes too late for the nodes behind it. -/
theorem late_outcome :
    let failed : Completion := ⟨⟨1⟩,.Failed,none⟩
    let succeeded : Completion := ⟨⟨2⟩,.Succeeded,none⟩
    stateOf (completeEach release [failed,succeeded]) ⟨3⟩ = some .Skipped ∧
      stateOf (completeAll release [failed,succeeded]).skip_impossible_nodes ⟨3⟩ = some .Pending ∧
      stateOf (completeEach release [succeeded,failed]) ⟨3⟩ = some .Pending := by
  decide

end Daf.GraphSkips
