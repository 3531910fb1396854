import Daf.GraphConfluence

/-!
Undisturbed executions end: every step takes from a weight of the nodes that
still wait, the tasks that are alive and the main future, and until the end some
step is possible.
-/
namespace Daf.GraphTermination
open Daf.Digraph Daf.GraphNodes Daf.GraphDag Daf.GraphInvariant Daf.GraphStates Daf.GraphScheduler Daf.GraphExecutor
open Daf.GraphUpdates Daf.GraphSafety Daf.GraphOutcome Daf.GraphConfluence

/-! ### Sums over lists -/

section
variable {α : Type} (w : α → Nat)

theorem sum_modify {list : List α} {i : Nat} {a : α} (found : list[i]? = some a) (f : α → α) :
    ((list.modify i f).map w).sum + w a = (list.map w).sum + w (f a) := by
  induction list generalizing i with
  | nil => simp at found
  | cons head tail ih =>
    cases i with
    | zero =>
      cases found
      simp only [List.modify_zero_cons,List.map_cons,List.sum_cons]
      omega
    | succ i =>
      have rest := ih (i := i) (by simpa using found)
      simp only [List.modify_succ_cons,List.map_cons,List.sum_cons]
      omega

theorem sum_set {list : List α} {i : Nat} {a : α} (found : list[i]? = some a) (b : α) :
    ((list.set i b).map w).sum + w a = (list.map w).sum + w b := by
  induction list generalizing i with
  | nil => simp at found
  | cons head tail ih =>
    cases i with
    | zero =>
      cases found
      simp only [List.set_cons_zero,List.map_cons,List.sum_cons]
      omega
    | succ i =>
      have rest := ih (i := i) (by simpa using found)
      simp only [List.set_cons_succ,List.map_cons,List.sum_cons]
      omega

theorem sum_eraseIdx {list : List α} {i : Nat} {a : α} (found : list[i]? = some a) :
    ((list.eraseIdx i).map w).sum + w a = (list.map w).sum := by
  induction list generalizing i with
  | nil => simp at found
  | cons head tail ih =>
    cases i with
    | zero =>
      cases found
      simp only [List.eraseIdx_cons_zero,List.map_cons,List.sum_cons]
      omega
    | succ i =>
      have rest := ih (i := i) (by simpa using found)
      simp only [List.eraseIdx_cons_succ,List.map_cons,List.sum_cons]
      omega

end

/-! ### Weights -/

def nodeRetries (n : Node) : Nat := (n.task_spec.map (·.max_retries)).getD 0

/-- A waiting node weighs more than the task that it will become. -/
def nodeWeight (n : Node) : Nat :=
  match n.state with
  | .Pending => 4 * nodeRetries n + 24
  | .Ready => 4 * nodeRetries n + 14
  | _ => 0

def graphWeight (g : ExecutionGraph) : Nat := (g.graph.nodes.map nodeWeight).sum

def taskWeight (t : NodeTask) : Nat :=
  match t.pc with
  | .waiting => 4 * t.max_retries + 9
  | .yielding k => 4 * k + 8
  | .attempting k => 4 * k + 7
  | .calling k => 4 * k + 6
  | .running k => 4 * k + 5
  | .finishing _ => 2
  | _ => 1

/-- Marking a wave is the one step at which this weight grows. -/
def mainWeight : MainPc → Nat
  | .marked _ _ => 13
  | .called => 12
  | .spawning _ _ => 12
  | .starting => 11
  | .joining _ => 11
  | .looping _ => 10
  | .waved _ _ => 9
  | .ending _ => 8
  | .returned _ => 7
  | .draining _ => 6
  | .dropping => 1
  | _ => 0

def weight (s : State) : Nat := mainWeight s.main + graphWeight s.graph + (s.tasks.map taskWeight).sum

section
variable {g : ExecutionGraph}

theorem weight_modify_le (g : ExecutionGraph) (i : Nat) {f : Node → Node} (less : ∀ n, nodeWeight (f n) ≤ nodeWeight n) :
    graphWeight (g.modify i f) ≤ graphWeight g := by
  unfold graphWeight ExecutionGraph.modify DiGraph.modify
  cases found : g.graph.nodes[i]? with
  | none => rw [List.modify_eq_self (by simpa using found)]
  | some n =>
    have exchanged := sum_modify nodeWeight found f
    have := less n
    simp only
    omega

theorem weight_modifyNode_le (g : ExecutionGraph) (id : NodeId) {f : Node → Node} (less : ∀ n, nodeWeight (f n) ≤ nodeWeight n) :
    graphWeight (g.modifyNode id f) ≤ graphWeight g := by
  unfold ExecutionGraph.modifyNode
  split
  · exact le_refl _
  · exact weight_modify_le g _ less

/-- Changing one known node by id exchanges its weight. -/
theorem weight_modifyNode {id : NodeId} {n : Node} (found : g.get_node id = some n) (f : Node → Node) :
    graphWeight (g.modifyNode id f) + nodeWeight n = graphWeight g + nodeWeight (f n) := by
  unfold ExecutionGraph.get_node at found
  obtain ⟨i,known,at_i⟩ := Option.bind_eq_some_iff.mp found
  simp only [ExecutionGraph.modifyNode,known]
  exact sum_modify nodeWeight at_i f

theorem weight_foldl_le {β : Type} (write : ExecutionGraph → β → ExecutionGraph)
    (less : ∀ g x, graphWeight (write g x) ≤ graphWeight g) (list : List β) (g : ExecutionGraph) :
    graphWeight (list.foldl write g) ≤ graphWeight g := by
  induction list generalizing g with
  | nil => exact le_refl _
  | cons x later ih => exact (ih (write g x)).trans (less g x)

theorem weight_skip_le (g : ExecutionGraph) : graphWeight g.skip_impossible_nodes ≤ graphWeight g := by
  have rounds : ∀ n g, graphWeight (ExecutionGraph.skipLoop n g) ≤ graphWeight g := by
    intro n
    induction n with
    | zero => exact fun g => le_refl _
    | succ n ih =>
      intro g
      rw [ExecutionGraph.skipLoop]
      split
      · exact le_refl _
      · refine (ih _).trans (weight_foldl_le _ (fun g i => ?_) _ g)
        exact weight_modify_le g i (fun n => by simp [nodeWeight])
  exact rounds _ g

theorem weight_terminal {n : Node} (terminal : n.state.is_terminal = true) : nodeWeight n = 0 := by
  unfold nodeWeight
  cases state : n.state <;> simp_all [NodeState.is_terminal]

theorem weight_mark_complete_le (g : ExecutionGraph) (id : NodeId) {state : NodeState} (terminal : state.is_terminal = true)
    (duration : Option Duration) : graphWeight (g.mark_complete id state duration).2 ≤ graphWeight g := by
  unfold ExecutionGraph.mark_complete
  split
  · exact le_refl _
  · refine (weight_skip_le _).trans (weight_modify_le g _ (fun n => ?_))
    rw [weight_terminal (n := { n with state, actual_duration := duration }) terminal]
    exact Nat.zero_le _

theorem weight_recordOutcome_le (g : ExecutionGraph) (id : NodeId) (result : Attempt) (elapsed : Duration) :
    graphWeight (recordOutcome g id result elapsed) ≤ graphWeight g := by
  unfold recordOutcome
  split_ifs
  · exact le_refl _
  · exact weight_mark_complete_le g id (attempt_terminal result) _

theorem weight_cancel_le (g : ExecutionGraph) : graphWeight (cancel_remaining_nodes g) ≤ graphWeight g :=
  weight_foldl_le _ (fun g id => weight_modifyNode_le g id (fun n => by simp [nodeWeight])) _ g

theorem get_node_of_state {id : NodeId} {state : NodeState} (known : stateOf g id = some state) :
    ∃ n, g.get_node id = some n ∧ n.state = state := by
  simpa [stateOf,Option.map_eq_some_iff] using known

/-- Marking a wave takes weight from its first node. -/
theorem weight_markReady {wave : List NodeId} (nonempty : wave ≠ [])
    (pending : ∀ id ∈ wave, stateOf g id = some .Pending) : graphWeight (markReady g wave) + 10 ≤ graphWeight g := by
  cases wave with
  | nil => exact absurd rfl nonempty
  | cons id later =>
    obtain ⟨n,found,state⟩ := get_node_of_state (pending id List.mem_cons_self)
    have first := weight_modifyNode found (fun n => if n.state = .Pending then { n with state := .Ready } else n)
    have rest := weight_foldl_le (fun g id => g.modifyNode id (fun n => if n.state = .Pending then { n with state := .Ready } else n))
      (fun g id => weight_modifyNode_le g id (fun n => by
        by_cases waits : n.state = .Pending
        · simp [nodeWeight,waits,nodeRetries]
        · simp [waits])) later (g.modifyNode id (fun n => if n.state = .Pending then { n with state := .Ready } else n))
    simp only [nodeWeight,state,if_true,nodeRetries] at first
    unfold markReady
    rw [List.foldl_cons]
    omega

theorem weight_markRunning {id : NodeId} (ready : stateOf g id = some .Ready) :
    graphWeight (markRunning g id) + (4 * maxRetries g id + 14) = graphWeight g := by
  obtain ⟨n,found,state⟩ := get_node_of_state ready
  have exchanged := weight_modifyNode found (fun n => { n with state := .Running })
  have retries : maxRetries g id = nodeRetries n := by simp [maxRetries,found,nodeRetries]
  simp only [nodeWeight,state] at exchanged
  rw [markRunning,retries]
  omega

/-! ### Every step takes weight -/

variable {outcome : NodeId → Bool} {states : NodeId → NodeState} {s s' : State}

theorem weight_advance (inv : Inv g s) {cfg : Config} (course : Course g s) (moved : advance cfg s = some s') :
    weight s' < weight s := by
  have phase := inv.phase
  unfold Phase at phase
  unfold Course at course
  cases main : s.main with
  | called =>
    simp only [advance,main] at moved
    split_ifs at moved <;> (cases moved; simp [weight,mainWeight,main])
  | starting =>
    simp only [advance,main] at moved
    split at moved
    · cases moved
      simp [weight,mainWeight,main]
    · cases moved
      simp [weight,mainWeight,main,State.unwind]
    · split_ifs at moved <;> (cases moved; simp [weight,mainWeight,main,State.unwind])
  | looping wave =>
    obtain ⟨shape,cases⟩ := looping_cases cfg main moved
    have less := weight_skip_le s.graph
    have tasks : s'.tasks = s.tasks := by rw [shape]
    have graph : s'.graph = s.graph.skip_impossible_nodes := by rw [shape]
    have next : mainWeight s'.main < 10 := by
      rcases cases with ⟨error,_,next⟩ | ⟨next,_⟩ | ⟨next,_⟩ | ⟨_,_,next⟩ <;> simp [next,mainWeight]
    have here : mainWeight s.main = 10 := by simp [main,mainWeight]
    simp only [weight,tasks,graph]
    omega
  | waved wave nodes =>
    simp only [main] at phase course
    simp only [advance,main] at moved
    split_ifs at moved
    · cases moved
      have := weight_cancel_le s.graph
      simp only [weight,State.cleanup,mainWeight,main]
      omega
    · cases moved
      have := weight_markReady course phase.2.waits
      simp only [weight,mainWeight,main]
      omega
  | spawning wave rest =>
    simp only [main] at phase
    cases rest with
    | nil =>
      simp only [advance,main,Option.some.injEq] at moved
      subst moved
      simp [weight,mainWeight,main]
    | cons id rest =>
      simp only [advance,main,Option.some.injEq] at moved
      subst moved
      have := weight_markRunning (phase.waits id List.mem_cons_self)
      simp only [weight,mainWeight,main,State.spawn,List.map_append,List.sum_append,List.map_cons,List.map_nil,List.sum_cons,
        List.sum_nil,NodeTask.spawn,taskWeight]
      omega
  | joining wave =>
    simp only [advance,main] at moved
    split_ifs at moved
    cases moved
    simp [weight,mainWeight,main]
  | ending waves =>
    simp only [advance,main] at moved
    split_ifs at moved <;> (cases moved; simp [weight,mainWeight,main])
  | draining result =>
    simp only [advance,main] at moved
    split_ifs at moved
    cases moved
    have := weight_cancel_le s.graph
    simp only [weight,State.cleanup,mainWeight,main]
    omega
  | marked wave nodes =>
    simp only [advance,main,Option.some.injEq] at moved
    subst moved
    simp [weight,mainWeight,main]
  | returned result =>
    simp only [advance,main,Option.some.injEq] at moved
    subst moved
    simp [weight,mainWeight,main]
  | rejected error => simp [advance,main] at moved
  | finished result => simp [advance,main] at moved
  | dropping => simp [main] at course
  | dropped => simp [main] at course

/-- Moving a task to a lighter point takes weight. -/
theorem weight_setPc {i : Nat} {t : NodeTask} (found : s.tasks[i]? = some t) (pc : TaskPc) {h : ExecutionGraph}
    (less : graphWeight h ≤ graphWeight s.graph) (lighter : taskWeight { t with pc } < taskWeight t) (events : List Event) :
    weight { s.setPc i t pc with graph := h, events } < weight s := by
  have exchanged := sum_set taskWeight found { t with pc }
  simp only [weight,State.setPc]
  omega

theorem taskWeight_retry {t : NodeTask} {k : Nat} (pc : t.pc = .running k) : taskWeight { t with pc := retry k } < taskWeight t := by
  cases k with
  | zero => simp [taskWeight,retry,pc]
  | succ k => simp [taskWeight,retry,pc]; omega

theorem weight_task {cfg : Config} {i : Nat} {t : NodeTask} (found : s.tasks[i]? = some t) {act : Action}
    (moved : taskStep cfg s i t t.pc act = some s') : weight s' < weight s := by
  have plain := fun pc lighter events => weight_setPc found pc (le_refl (graphWeight s.graph)) lighter events
  unfold taskStep at moved
  split at moved
  case h_1 pc =>
    split_ifs at moved
    cases moved
    exact plain _ (by simp [taskWeight,pc]) s.events
  case h_2 k pc =>
    split_ifs at moved
    cases moved
    exact plain _ (by simp [taskWeight,pc]) s.events
  case h_3 k pc =>
    split_ifs at moved
    cases moved
    exact plain _ (by simp [taskWeight,pc]) s.events
  case h_4 k pc =>
    cases moved
    exact plain (.running k) (by simp [taskWeight,pc]) _
  case h_5 k pc =>
    cases moved
    exact plain (.finishing .ok) (by simp [taskWeight,pc]) _
  case h_6 k pc =>
    cases moved
    exact plain (retry k) (taskWeight_retry pc) _
  case h_7 k pc =>
    split_ifs at moved
    cases moved
    exact plain (retry k) (taskWeight_retry pc) s.events
  case h_8 k pc =>
    split_ifs at moved
    cases moved
    exact plain _ (by simp [taskWeight,pc]) s.events
  case h_9 k pc =>
    cases moved
    exact plain .panicked (by simp [taskWeight,pc]) s.events
  case h_10 k pc =>
    cases moved
    exact plain (.attempting k) (by simp [taskWeight,pc]) s.events
  case h_11 result elapsed pc =>
    cases moved
    exact weight_setPc found .done (weight_recordOutcome_le _ _ _ _) (by simp [taskWeight,pc]) s.events
  case h_12 =>
    split_ifs at moved with flagged
    cases moved
    refine plain .aborted ?_ s.events
    cases pc : t.pc <;> simp [pc,TaskPc.suspended] at flagged <;> simp [taskWeight,pc]
  case h_13 => cases moved

theorem weight_joinFailed {i wave : Nat} {t : NodeTask} (found : s.tasks[i]? = some t) (main : s.main = .joining wave) :
    weight (joinFailed s i t.node) < weight s := by
  have erased := sum_eraseIdx taskWeight found
  have positive : 0 < taskWeight t := by cases pc : t.pc <;> simp [taskWeight,pc]
  have less := weight_mark_complete_le s.graph t.node (rfl : NodeState.Failed.is_terminal = true) none
  unfold joinFailed
  split
  all_goals
    rename_i result
    simp only [result] at less
    simp only [weight,mainWeight,main]
    omega

theorem weight_join {i : Nat} (moved : joinTask s i = some s') : weight s' < weight s := by
  unfold joinTask at moved
  split at moved
  · cases moved
  · rename_i t found
    have erased := sum_eraseIdx taskWeight found
    have positive : 0 < taskWeight t := by cases pc : t.pc <;> simp [taskWeight,pc]
    split at moved
    · rename_i wave main
      split at moved
      · cases moved
        simp only [weight]
        omega
      · cases moved
        exact weight_joinFailed found main
      · cases moved
        exact weight_joinFailed found main
      · cases moved
    · split_ifs at moved
      cases moved
      simp only [weight]
      omega
    · cases moved

/-- A calm run is no longer than the weight that it starts with. -/
theorem calm_length (calm : Calmly g outcome states s) (ok : RepOk g) (consistent : Consistent g outcome states)
    (plain : ∀ e ∈ g.edges, ∀ key, e.effective_condition ≠ .OnOutput key) {cfg : Config} (positive : cfg.max_concurrency ≠ some 0)
    {labels : List Label} (quiet : CalmRun cfg outcome s labels = true) (reached : run cfg s labels = some s') :
    labels.length + weight s' ≤ weight s := by
  induction labels generalizing s with
  | nil =>
    cases reached
    simp
  | cons label later ih =>
    obtain ⟨next,moved,rest⟩ := Option.bind_eq_some_iff.mp reached
    obtain ⟨fits,allowed,quiet⟩ := calmRun_cons quiet moved
    have shorter := ih (calm_step calm ok consistent plain positive fits allowed moved) quiet rest
    have lighter : weight next < weight s := by
      cases label with
      | advance => exact weight_advance calm.inv calm.course moved
      | join i => exact weight_join moved
      | task i act =>
        obtain ⟨t,found,_⟩ := calm_action allowed
        simp only [step,found] at moved
        exact weight_task found moved
      | _ => exact absurd allowed (by simp [Calm])
    simp only [List.length_cons]
    omega

/-! ### Some step is possible -/

theorem calm_moves {cfg : Config} {l : Label} (allowed : Calm outcome s l = true) (possible : (step cfg s l).isSome = true) :
    ∃ label s', Calm outcome s label = true ∧ step cfg s label = some s' := by
  obtain ⟨s',moved⟩ := Option.isSome_iff_exists.mp possible
  exact ⟨l,s',allowed,moved⟩

/-- A task behind its permit can go on. -/
theorem holder_moves (calm : Calmly g outcome states s) (cfg : Config) {i : Nat} {t : NodeTask} (found : s.tasks[i]? = some t)
    (holds : t.pc.holdsPermit = true) : ∃ label s', Calm outcome s label = true ∧ step cfg s label = some s' := by
  cases pc : t.pc with
  | attempting k =>
    exact calm_moves (l := .task i .check) (by simp [Calm,found,calmAction]) (by simp [step,found,pc,taskStep,calm.uncancelled])
  | calling k => exact calm_moves (l := .task i .call) (by simp [Calm,found,calmAction]) (by simp [step,found,pc,taskStep])
  | running k =>
    refine calm_moves (l := .task i (.answer (outcome t.node))) ?_ ?_
    · cases k <;> simp [Calm,found,calmAction,pc]
    · cases outcome t.node <;> simp [step,found,pc,taskStep]
  | yielding k => exact calm_moves (l := .task i .resume) (by simp [Calm,found,calmAction]) (by simp [step,found,pc,taskStep])
  | finishing result => exact calm_moves (l := .task i (.finish 0)) (by simp [Calm,found,calmAction]) (by simp [step,found,pc,taskStep])
  | _ => simp [pc,TaskPc.holdsPermit] at holds

/-- While tasks are left, one of them can go on or be joined. -/
theorem joining_moves (calm : Calmly g outcome states s) {cfg : Config} (positive : cfg.max_concurrency ≠ some 0) {wave : Nat}
    (main : s.main = .joining wave) (busy : s.tasks ≠ []) : ∃ label s', Calm outcome s label = true ∧ step cfg s label = some s' := by
  by_cases held : ∃ t ∈ s.tasks, t.pc.holdsPermit = true
  · obtain ⟨t,member,holds⟩ := held
    obtain ⟨i,found⟩ := List.mem_iff_getElem?.mp member
    exact holder_moves calm cfg found holds
  · obtain ⟨t,member⟩ := List.exists_mem_of_ne_nil _ busy
    obtain ⟨i,found⟩ := List.mem_iff_getElem?.mp member
    have onCourse := calm.onCourse t member
    have free : permitFree cfg s = true := by
      have none_held : s.tasks.countP (·.pc.holdsPermit) = 0 :=
        List.countP_eq_zero.mpr (fun u among holds => held ⟨u,among,holds⟩)
      unfold permitFree
      cases limit : cfg.max_concurrency with
      | none => rfl
      | some max =>
        rw [limit] at positive
        have : max ≠ 0 := fun zero => positive (by rw [zero])
        simp only [none_held,decide_eq_true_eq]
        omega
    cases pc : t.pc with
    | waiting => exact calm_moves (l := .task i .acquire) (by simp [Calm,found,calmAction]) (by simp [step,found,pc,taskStep,free])
    | done => exact calm_moves (l := .join i) rfl (by simp [step,joinTask,found,main,pc])
    | panicked => simp [OnCourse,pc] at onCourse
    | aborted => simp [OnCourse,pc] at onCourse
    | _ => exact absurd ⟨t,member,by simp [pc,TaskPc.holdsPermit]⟩ held

theorem looping_moves {cfg : Config} {wave : Nat} (main : s.main = .looping wave) : (advance cfg s).isSome = true := by
  simp only [advance,main]
  split
  · rfl
  · rfl
  · split <;> rfl

theorem starting_moves {cfg : Config} (main : s.main = .starting) : (advance cfg s).isSome = true := by
  simp only [advance,main]
  split
  · rfl
  · rfl
  · split_ifs <;> rfl

/-- An undisturbed execution that has not finished can go on. -/
theorem calm_progress (calm : Calmly g outcome states s) {cfg : Config} (positive : cfg.max_concurrency ≠ some 0) :
    (∃ result, s.main = .finished result) ∨ ∃ label s', Calm outcome s label = true ∧ step cfg s label = some s' := by
  have course := calm.course
  unfold Course at course
  have go : (advance cfg s).isSome = true → ∃ label s', Calm outcome s label = true ∧ step cfg s label = some s' :=
    fun possible => calm_moves (l := .advance) rfl possible
  cases main : s.main with
  | finished result => exact .inl ⟨result,rfl⟩
  | joining wave =>
    by_cases idle : s.tasks = []
    · exact .inr (go (by simp [advance,main,idle]))
    · exact .inr (joining_moves calm positive main idle)
  | draining result =>
    simp only [main] at course
    exact .inr (go (by simp [advance,main,course.1]))
  | called =>
    by_cases asks : s.graph.edges.any asksForOutput = true
    · exact .inr (go (by simp only [advance,main,calm.unlocked,if_pos asks]; rfl))
    · exact .inr (go (by simp only [advance,main,calm.unlocked,if_neg asks]; rfl))
  | starting => exact .inr (go (starting_moves main))
  | looping wave => exact .inr (go (looping_moves main))
  | waved wave nodes => exact .inr (go (by simp [advance,main,calm.uncancelled]))
  | marked wave nodes => exact .inr (go (by simp [advance,main]))
  | spawning wave rest => cases rest <;> exact .inr (go (by simp [advance,main]))
  | ending waves => exact .inr (go (by simp [advance,main,calm.uncancelled]))
  | returned result => exact .inr (go (by simp [advance,main]))
  | rejected error => simp [main] at course
  | dropping => simp [main] at course
  | dropped => simp [main] at course

end

/-- The longest run of an undisturbed execution. -/
def runBound (g : ExecutionGraph) : Nat := weight (State.init g false false)

theorem calm_init {g : ExecutionGraph} (outcome : NodeId → Bool) (states : NodeId → NodeState)
    (pending : ∀ id state, stateOf g id = some state → state = .Pending) :
    Calmly g outcome states (State.init g false false) where
  inv := inv_init g false false
  unlocked := rfl
  uncancelled := rfl
  agrees id state known terminal := by
    rw [pending id state known] at terminal
    cases terminal
  ready id known := by cases pending id _ known
  running id known := by cases pending id _ known
  onCourse _ member := absurd member List.not_mem_nil
  course := trivial

/-- Handlers with fixed results determine the states of all nodes: whatever the
    limit on the concurrency, the order of the ready nodes and the order of the steps,
    an undisturbed run is bounded, can always go on until it finishes, and finishes
    with the one assignment in which a node is skipped exactly when an edge into it is
    not satisfied. The steps must not panic in the creation of the semaphore or in the
    sum of the estimates. -/
theorem schedule_independent (name : String) (calls : List Call) (cfg : Config) (outcome : NodeId → Bool)
    (pending : ∀ id state, stateOf (build name calls) id = some state → state = .Pending)
    (plain : ∀ e ∈ (build name calls).edges, ∀ key, e.effective_condition ≠ .OnOutput key)
    (positive : cfg.max_concurrency ≠ some 0) :
    ∃ states, Consistent (build name calls) outcome states ∧
      (∀ others, Consistent (build name calls) outcome others → ∀ id ∈ ids (build name calls), others id = states id) ∧
      ∀ labels s, run cfg (State.init (build name calls) false false) labels = some s →
        CalmRun cfg outcome (State.init (build name calls) false false) labels = true →
        labels.length ≤ runBound (build name calls) ∧
        ((∃ result, s.main = .finished result) ∨ ∃ label s', Calm outcome s label = true ∧ step cfg s label = some s') ∧
        ∀ result, s.main = .finished result →
          (∀ id ∈ ids (build name calls), stateOf s.graph id = some (states id)) ∧
          ∃ progress, result = .ok progress ∧ progress.nodes_completed = progress.nodes_total ∧
            progress.nodes_total = (build name calls).node_count := by
  have ok := repOk_build name calls
  obtain ⟨states,consistent⟩ := consistent_exists ok outcome
  refine ⟨states,consistent,fun others also => consistent_unique ok also consistent,fun labels s reached quiet => ?_⟩
  have start := calm_init outcome states pending
  have calm := calm_run start ok consistent plain positive quiet reached
  have bounded := calm_length start ok consistent plain positive quiet reached
  refine ⟨by unfold runBound; omega,calm_progress calm positive,fun result main => ⟨fun id member => ?_,?_⟩⟩
  · have all : AllTerminal s.graph := by
      have phase := calm.inv.phase
      simp only [Phase,main] at phase
      exact phase.2
    obtain ⟨state,known⟩ := (stateOf_isSome (calm.inv.repOk ok) id).mpr (by rwa [ids_of_shape calm.inv.same])
    rw [known,calm.agrees id state known (all id state known)]
  · have course := calm.course
    simp only [Course,main] at course
    exact course

theorem oneTask_pending (id : NodeId) (state : NodeState) (known : stateOf (build "one" oneTask) id = some state) :
    state = .Pending := by
  have member := (stateOf_isSome (repOk_build "one" oneTask) id).mp ⟨state,known⟩
  have only : ids (build "one" oneTask) = [⟨1⟩] := by decide
  rw [only,List.mem_singleton] at member
  subst member
  have at_first : stateOf (build "one" oneTask) ⟨1⟩ = some .Pending := by decide
  rw [at_first] at known
  exact (Option.some.inj known).symm

theorem one_task_succeeds : ∃ states, Consistent (build "one" oneTask) (fun _ => true) states ∧ ∃ s,
    run unlimited (State.init (build "one" oneTask) false false) oneTaskLabels = some s ∧
    stateOf s.graph ⟨1⟩ = some (states ⟨1⟩) ∧ oneTaskLabels.length ≤ runBound (build "one" oneTask) := by
  obtain ⟨states,consistent,_,runs⟩ := schedule_independent "one" oneTask unlimited (fun _ => true) oneTask_pending
    (fun e member => by simp [build,oneTask,Call.apply,ExecutionGraph.edges,ExecutionGraph.add_node,ExecutionGraph.new,
      DiGraph.new,DiGraph.add_node] at member) (by simp [unlimited])
  have possible : (run unlimited (State.init (build "one" oneTask) false false) oneTaskLabels).map
      (fun s => MainPc.isFinished s.main) = some true := by decide
  obtain ⟨s,reached,finished⟩ := Option.map_eq_some_iff.mp possible
  obtain ⟨bounded,_,final⟩ := runs oneTaskLabels s reached (by decide)
  cases main : s.main <;> simp [main,MainPc.isFinished] at finished
  case finished result =>
    exact ⟨states,consistent,s,reached,(final result main).1 ⟨1⟩ (by decide),bounded⟩

/-- A limit that the semaphore does not support: the execution panics after its
    first plan, and its guard cancels a node that the outcome has as succeeded. -/
theorem too_many_permits_cancel : ∃ s,
    run ⟨some (2^64 - 1),none,none,byName⟩ (State.init (build "one" oneTask) false false) [.advance,.advance,.advance] = some s ∧
    s.main = .dropped ∧ stateOf s.graph ⟨1⟩ = some .Cancelled ∧
    ∀ states, Consistent (build "one" oneTask) (fun _ => true) states → states ⟨1⟩ = .Succeeded := by
  have possible : (run ⟨some (2^64 - 1),none,none,byName⟩ (State.init (build "one" oneTask) false false)
      [.advance,.advance,.advance]).map (fun s => (MainPc.isDropped s.main,stateOf s.graph ⟨1⟩)) =
        some (true,some .Cancelled) := by decide
  obtain ⟨s,reached,seen⟩ := Option.map_eq_some_iff.mp possible
  obtain ⟨dropped,cancelled⟩ := Prod.mk.inj seen
  refine ⟨s,reached,?_,cancelled,fun states consistent => ?_⟩
  · cases main : s.main <;> simp [main,MainPc.isDropped] at dropped
    rfl
  · rw [consistent ⟨1⟩ (by decide),if_pos]
    · rfl
    · rfl

end Daf.GraphTermination
