import Daf.GraphOutcome
import Daf.GraphSafety

/-!
Executions that are neither cancelled nor timed: whatever the limit on the
concurrency, the order of the ready nodes and the order of the steps, they come
to an end, and the nodes then have the states of the outcome of the graph.
-/
namespace Daf.GraphConfluence
open Daf.GraphNodes Daf.GraphDag Daf.GraphInvariant Daf.GraphStates Daf.GraphScheduler Daf.GraphExecutor Daf.GraphUpdates
open Daf.GraphSafety Daf.GraphOutcome

/-- An action of a task that is not disturbed, whose handler has a fixed result:
    an attempt may fail before the last one. -/
def calmAction (outcome : NodeId → Bool) (t : NodeTask) : Action → Bool
  | .acquire => true
  | .check => true
  | .call => true
  | .resume => true
  | .finish _ => true
  | .answer ok =>
    match t.pc with
    | .running (_+1) => !ok || outcome t.node
    | _ => ok == outcome t.node
  | _ => false

/-- A step of an execution that is neither cancelled nor timed nor dropped. -/
def Calm (outcome : NodeId → Bool) (s : State) : Label → Bool
  | .advance => true
  | .join _ => true
  | .task i act =>
    match s.tasks[i]? with
    | none => false
    | some t => calmAction outcome t act
  | _ => false

/-- The main future does not panic at its next step: the semaphore can be created,
    and the estimates of the plan can be added. -/
def Fits (cfg : Config) (s : State) : Bool :=
  match s.main with
  | .starting => !cfg.tooManyPermits && !(cfg.scheduler.plan_waves s.graph).overflows
  | .looping _ => !(cfg.scheduler.plan_waves s.graph.skip_impossible_nodes).overflows
  | _ => true

/-- A schedule of such steps, in which no step panics. -/
def CalmRun (cfg : Config) (outcome : NodeId → Bool) : State → List Label → Bool
  | s,[] => Fits cfg s
  | s,label :: later =>
    Fits cfg s && Calm outcome s label &&
      match step cfg s label with
      | none => true
      | some s' => CalmRun cfg outcome s' later

theorem calmRun_cons {cfg : Config} {outcome : NodeId → Bool} {s next : State} {label : Label} {later : List Label}
    (quiet : CalmRun cfg outcome s (label :: later) = true) (moved : step cfg s label = some next) :
    Fits cfg s = true ∧ Calm outcome s label = true ∧ CalmRun cfg outcome next later = true := by
  simpa [CalmRun,moved,and_assoc] using quiet

theorem calm_action {outcome : NodeId → Bool} {s : State} {i : Nat} {act : Action}
    (allowed : Calm outcome s (.task i act) = true) : ∃ t, s.tasks[i]? = some t ∧ calmAction outcome t act = true := by
  cases found : s.tasks[i]? with
  | none => simp [Calm,found] at allowed
  | some t => exact ⟨t,rfl,by simpa [Calm,found] using allowed⟩

/-- The nodes that are ready are those that the main future is about to spawn. -/
def toSpawn : MainPc → List NodeId
  | .marked _ nodes => nodes
  | .spawning _ rest => rest
  | _ => []

/-- What a task of a calm execution is about to record. -/
def OnCourse (outcome : NodeId → Bool) (t : NodeTask) : Prop :=
  match t.pc with
  | .finishing result => result.state = handled outcome t.node
  | .panicked => False
  | .aborted => False
  | _ => True

/-- The returned progress counts every node as completed. -/
def Complete (g : ExecutionGraph) (result : Except GraphError ExecutionProgress) : Prop :=
  ∃ progress, result = .ok progress ∧ progress.nodes_completed = progress.nodes_total ∧ progress.nodes_total = g.node_count

/-- Where the main future of a calm execution can be. -/
def Course (g : ExecutionGraph) (s : State) : Prop :=
  match s.main with
  | .waved _ nodes => nodes ≠ []
  | .ending _ => AllTerminal s.graph
  | .returned result => s.tasks = [] ∧ AllTerminal s.graph ∧ Complete g result
  | .draining result => s.tasks = [] ∧ AllTerminal s.graph ∧ Complete g result
  | .finished result => Complete g result
  | .rejected _ => False
  | .dropping => False
  | .dropped => False
  | _ => True

structure Calmly (g : ExecutionGraph) (outcome : NodeId → Bool) (states : NodeId → NodeState) (s : State) : Prop where
  inv : Inv g s
  unlocked : s.locked = false
  uncancelled : s.cancelled = false
  agrees : Agrees states s.graph
  ready : ∀ id, stateOf s.graph id = some .Ready → id ∈ toSpawn s.main
  running : ∀ id, stateOf s.graph id = some .Running → ∃ t ∈ s.tasks, t.node = id ∧ t.pc ≠ .done
  onCourse : ∀ t ∈ s.tasks, OnCourse outcome t
  course : Course g s

section
variable {g : ExecutionGraph} {outcome : NodeId → Bool} {states : NodeId → NodeState} {s s' : State}

/-! ### States under the writes -/

theorem agrees_forward {h k : ExecutionGraph} (agrees : Agrees states h)
    (new : ∀ id state, stateOf k id = some state → state.is_terminal = true → stateOf h id = some state) : Agrees states k :=
  fun id state known terminal => agrees id state (new id state known terminal) terminal

theorem agrees_markReady {h : ExecutionGraph} (ok : RepOk h) (agrees : Agrees states h) (wave : List NodeId) :
    Agrees states (markReady h wave) := by
  refine agrees_forward agrees (fun id state known terminal => ?_)
  rw [(markReady_states ok wave).2] at known
  split_ifs at known
  · obtain ⟨before,knownBefore,rfl⟩ := Option.map_eq_some_iff.mp known
    split_ifs at terminal with pending
    · cases terminal
    · rwa [if_neg pending]
  · exact known

theorem agrees_markRunning {h : ExecutionGraph} (ok : RepOk h) (agrees : Agrees states h) {id : NodeId}
    (ready : stateOf h id = some .Ready) : Agrees states (markRunning h id) := by
  refine agrees_forward agrees (fun x state known terminal => ?_)
  rw [markRunning_states ok ready] at known
  split_ifs at known
  · cases known
    cases terminal
  · exact known

theorem cancel_settled {h : ExecutionGraph} (ok : RepOk h) (all : AllTerminal h) (id : NodeId) :
    stateOf (cancel_remaining_nodes h) id = stateOf h id := by
  rw [cancel_states ok]
  cases known : stateOf h id with
  | none => rfl
  | some state => simp [all id state known]

/-- When every node is terminal, the progress counts every node. -/
theorem progress_complete {h : ExecutionGraph} (ok : RepOk h) (all : AllTerminal h) (same : shape h = shape g) (wave total : Nat) :
    Complete g (.ok (progress h wave total)) := by
  refine ⟨_,rfl,?_,?_⟩
  · refine List.countP_eq_length.mpr (fun node member => ?_)
    obtain ⟨i,found⟩ := List.mem_iff_getElem?.mp member
    exact all node.id node.state (by rw [stateOf_eq ok (i := i) (by simp [ids_get,found]),found]; rfl)
  · have size := congrArg List.length (ids_of_shape same)
    simpa [ids,progress,ExecutionGraph.node_count,Digraph.DiGraph.node_count] using size

/-! ### Steps of the main future -/

theorem Calmly.idle (calm : Calmly g outcome states s) (none_queued : toSpawn s.main = []) (none_alive : s.tasks = []) (id : NodeId)
    (state : NodeState) (known : stateOf s.graph id = some state) : state = .Pending ∨ state.is_terminal = true := by
  cases state with
  | Ready =>
    have queued := calm.ready id known
    rw [none_queued] at queued
    cases queued
  | Running =>
    obtain ⟨t,member,_⟩ := calm.running id known
    rw [none_alive] at member
    cases member
  | Pending => exact .inl rfl
  | _ => exact .inr rfl

/-- A step that only moves the main future. -/
theorem Calmly.move (calm : Calmly g outcome states s) {main : MainPc} {aborting : Bool} (inv : Inv g { s with main, aborting })
    (spawn : ∀ id ∈ toSpawn s.main, stateOf s.graph id = some .Ready → id ∈ toSpawn main)
    (course : Course g { s with main, aborting }) : Calmly g outcome states { s with main, aborting } :=
  { calm with
    inv, course
    ready := fun id known => spawn id (calm.ready id known) known }

theorem calm_looping (calm : Calmly g outcome states s) (ok : RepOk g) (consistent : Consistent g outcome states) {cfg : Config}
    (positive : cfg.max_concurrency ≠ some 0) {wave : Nat} (main : s.main = .looping wave) (fits : Fits cfg s = true)
    (moved : advance cfg s = some s') (inv : Inv g s') : Calmly g outcome states s' := by
  have idle : s.tasks = [] := by simpa [Phase,main] using calm.inv.phase
  have okS := calm.inv.repOk ok
  have okAfter := okS.of_shape (shape_skip s.graph)
  have agrees := calm.agrees.skip ok calm.inv.same consistent
  obtain ⟨shape,cases⟩ := looping_cases cfg main moved
  have graph : s'.graph = s.graph.skip_impossible_nodes := by rw [shape]
  have rest : ∀ id state, stateOf s'.graph id = some state → state = .Pending ∨ state.is_terminal = true := by
    intro id state known
    rw [graph] at known
    rcases stateOf_skip okS id with same | ⟨_,skipped⟩
    · exact calm.idle (by simp [toSpawn,main]) idle id state (same ▸ known)
    · rw [skipped] at known
      cases known
      exact .inr rfl
  refine
    { inv, unlocked := by rw [shape]; exact calm.unlocked, uncancelled := by rw [shape]; exact calm.uncancelled
      agrees := graph ▸ agrees, ready := fun id known => ?_, running := fun id known => ?_
      onCourse := by rw [shape]; exact calm.onCourse, course := ?_ }
  · rcases rest id _ known with wrong | wrong <;> cases wrong
  · rcases rest id _ known with wrong | wrong <;> cases wrong
  · rcases cases with ⟨error,zero,next⟩ | ⟨next,overflow⟩ | ⟨next,none_ready⟩ | ⟨_,some_ready,next⟩
    · exact absurd zero positive
    · simp [Fits,main,overflow,Planned.overflows] at fits
    · simp only [Course,next]
      refine settled (graph ▸ okAfter) rest (graph ▸ none_ready) (fun id pending => ?_)
      rw [graph] at pending ⊢
      exact skip_fixed okS pending
    · simp only [Course,next]
      exact nextWave_ne_nil positive some_ready

/-- The nodes of a wave are marked ready. -/
theorem calm_waved (calm : Calmly g outcome states s) (ok : RepOk g) {cfg : Config} {wave : Nat} {nodes : List NodeId} (main : s.main = .waved wave nodes)
    (moved : advance cfg s = some s') (inv : Inv g s') : Calmly g outcome states s' := by
  have okS := calm.inv.repOk ok
  have phase := calm.inv.phase
  simp only [Phase,main] at phase
  have uncancelled : ¬ s.cancelled = true := by simp [calm.uncancelled]
  simp only [advance,main,if_neg uncancelled] at moved
  cases moved
  obtain ⟨same,written⟩ := markReady_states okS nodes
  refine
    { calm with
      inv
      agrees := agrees_markReady okS calm.agrees nodes
      ready := fun id known => ?_
      running := fun id known => ?_
      course := trivial }
  · rw [written] at known
    by_cases member : id ∈ nodes
    · exact member
    · rw [if_neg member] at known
      simpa [toSpawn,main] using calm.ready id known
  · rw [written] at known
    by_cases member : id ∈ nodes
    · rw [if_pos member,phase.2.waits id member] at known
      cases known
    · rw [if_neg member] at known
      exact calm.running id known

/-- The next node of a wave is marked running and gets its task. -/
theorem calm_spawns (calm : Calmly g outcome states s) (ok : RepOk g) {cfg : Config} {wave : Nat} {id : NodeId} {rest : List NodeId}
    (main : s.main = .spawning wave (id :: rest)) (moved : advance cfg s = some s') (inv : Inv g s') : Calmly g outcome states s' := by
  have okS := calm.inv.repOk ok
  have phase := calm.inv.phase
  simp only [Phase,main] at phase
  simp only [advance,main,Option.some.injEq] at moved
  subst moved
  have ready := phase.waits id List.mem_cons_self
  have written := markRunning_states okS ready
  refine
    { inv, unlocked := calm.unlocked, uncancelled := calm.uncancelled
      agrees := agrees_markRunning okS calm.agrees ready
      ready := fun x known => ?_
      running := fun x known => ?_
      onCourse := fun t member => ?_
      course := trivial }
  · simp only [State.spawn,written] at known
    by_cases here : x = id
    · simp [here] at known
    · rw [if_neg here] at known
      have queued := calm.ready x known
      rw [main] at queued
      exact (List.mem_cons.mp queued).resolve_left here
  · simp only [State.spawn,written] at known
    by_cases here : x = id
    · exact ⟨NodeTask.spawn cfg s.graph id,by simp [State.spawn],here.symm,by simp [NodeTask.spawn]⟩
    · rw [if_neg here] at known
      obtain ⟨t,member,alive⟩ := calm.running x known
      exact ⟨t,List.mem_append_left _ member,alive⟩
  · rcases List.mem_append.mp member with old | new
    · exact calm.onCourse t old
    · rw [List.mem_singleton.mp new]
      trivial

/-- A graph whose conditions do not ask for outputs is not rejected. -/
theorem Calmly.accepted (calm : Calmly g outcome states s) (plain : ∀ e ∈ g.edges, ∀ key, e.effective_condition ≠ .OnOutput key) :
    ¬ s.graph.edges.any asksForOutput = true := by
  rw [List.any_eq_true,edges_of_shape calm.inv.same]
  rintro ⟨e,member,asks⟩
  unfold asksForOutput at asks
  split at asks
  · rename_i key condition
    exact plain e member key condition
  · cases asks

theorem calm_advance (calm : Calmly g outcome states s) (ok : RepOk g) (consistent : Consistent g outcome states)
    (plain : ∀ e ∈ g.edges, ∀ key, e.effective_condition ≠ .OnOutput key) {cfg : Config} (positive : cfg.max_concurrency ≠ some 0)
    (fits : Fits cfg s = true) (moved : advance cfg s = some s') : Calmly g outcome states s' := by
  have inv := (kept_advance calm.inv ok cfg moved).inv
  have okS := calm.inv.repOk ok
  have phase := calm.inv.phase
  have course := calm.course
  unfold Phase at phase
  unfold Course at course
  cases main : s.main with
  | called =>
    have unlocked : ¬ s.locked = true := by simp [calm.unlocked]
    simp only [advance,main,if_neg unlocked,if_neg (calm.accepted plain)] at moved
    cases moved
    exact calm.move inv (by simp [main,toSpawn]) trivial
  | rejected error => simp [main] at course
  | starting =>
    simp only [advance,main] at moved
    rcases plan_waves_cases cfg.scheduler s.graph with ⟨plan,planned,_⟩ | ⟨zero,_⟩ | planned
    · have permits : ¬ cfg.tooManyPermits = true := by simp_all [Fits]
      simp only [planned,if_neg permits] at moved
      cases moved
      exact calm.move inv (by simp [main,toSpawn]) trivial
    · exact absurd zero positive
    · simp [Fits,main,planned,Planned.overflows] at fits
  | looping wave => exact calm_looping calm ok consistent positive main fits moved inv
  | waved wave nodes => exact calm_waved calm ok main moved inv
  | marked wave nodes =>
    simp only [advance,main,Option.some.injEq] at moved
    subst moved
    refine calm.move inv (fun id member known => ?_) trivial
    rw [main] at member
    exact List.mem_filter.mpr ⟨member,by simpa using known⟩
  | spawning wave rest =>
    cases rest with
    | nil =>
      simp only [advance,main,Option.some.injEq] at moved
      subst moved
      exact calm.move inv (by simp [main,toSpawn]) trivial
    | cons id rest => exact calm_spawns calm ok main moved inv
  | joining wave =>
    simp only [advance,main] at moved
    split_ifs at moved with idle
    cases moved
    exact calm.move inv (by simp [main,toSpawn]) trivial
  | ending waves =>
    simp only [main] at phase course
    have uncancelled : ¬ s.cancelled = true := by simp [calm.uncancelled]
    simp only [advance,main,if_neg uncancelled] at moved
    cases moved
    exact calm.move inv (by simp [main,toSpawn]) ⟨phase,course,progress_complete okS course calm.inv.same _ _⟩
  | returned result =>
    simp only [main] at course
    simp only [advance,main,Option.some.injEq] at moved
    subst moved
    exact calm.move inv (by simp [main,toSpawn]) course
  | draining result =>
    simp only [main] at course
    simp only [advance,main,course.1,if_true,Option.some.injEq] at moved
    subst moved
    have same := cancel_settled okS course.2.1
    refine
      { calm with
        inv
        agrees := fun id state known => calm.agrees id state (same id ▸ known)
        ready := fun id known => ?_
        running := fun id known => ?_
        course := course.2.2 }
    · have := calm.ready id (same id ▸ known)
      simp [main,toSpawn] at this
    · exact calm.running id (same id ▸ known)
  | finished result => simp [advance,main] at moved
  | dropping => simp [main] at course
  | dropped => simp [main] at course

/-! ### Steps of the tasks -/

theorem course_tasks (course : Course g s) (busy : s.tasks ≠ []) (main : s'.main = s.main)
    (terminal : AllTerminal s.graph → AllTerminal s'.graph) : Course g s' := by
  unfold Course at course ⊢
  rw [main]
  cases at_main : s.main <;> simp only [at_main] at course ⊢
  case waved => exact course
  case ending => exact terminal course
  case returned => exact absurd course.1 busy
  case draining => exact absurd course.1 busy
  case finished => exact course

/-- A task moves to a point before the end. -/
theorem Calmly.moveTask (calm : Calmly g outcome states s) {i : Nat} {t : NodeTask} (found : s.tasks[i]? = some t) (pc : TaskPc)
    (ahead : pc ≠ .done) (onCourse : OnCourse outcome { t with pc }) {events : List Event}
    (inv : Inv g { s.setPc i t pc with events }) : Calmly g outcome states { s.setPc i t pc with events } := by
  have member := List.mem_of_getElem? found
  have inside := (List.getElem?_eq_some_iff.mp found).1
  refine
    { calm with
      inv
      running := fun id known => ?_
      onCourse := fun u among => ?_
      course := course_tasks calm.course (List.ne_nil_of_mem member) rfl (fun all => all) }
  · obtain ⟨u,among,node,alive⟩ := calm.running id known
    obtain ⟨j,at_j⟩ := List.mem_iff_getElem?.mp among
    by_cases here : i = j
    · subst here
      rw [found] at at_j
      cases at_j
      exact ⟨{ t with pc },List.mem_of_getElem? (List.getElem?_set_self inside),node,ahead⟩
    · exact ⟨u,List.mem_of_getElem? ((List.getElem?_set_ne here).trans at_j),node,alive⟩
  · rcases mem_moved calm.inv.distinct found among with rfl | ⟨old,_⟩
    · exact onCourse
    · exact calm.onCourse u old

/-- A task records the state that the outcome gives its node. -/
theorem Calmly.finish (calm : Calmly g outcome states s) (ok : RepOk g) (consistent : Consistent g outcome states) {i : Nat}
    {t : NodeTask} (found : s.tasks[i]? = some t) {result : Attempt} (pc : t.pc = .finishing result) (elapsed : Duration) :
    Calmly g outcome states { s.setPc i t .done with graph := recordOutcome s.graph t.node result elapsed } := by
  have okS := calm.inv.repOk ok
  have member := List.mem_of_getElem? found
  have inside := (List.getElem?_eq_some_iff.mp found).1
  have undropped : MainPc.isDropped s.main = false := by
    have course := calm.course
    unfold Course at course
    cases main : s.main <;> simp [main] at course <;> rfl
  have running : stateOf s.graph t.node = some .Running := by
    simpa [undropped] using calm.inv.live_state member (by simp [pc])
  have known := (stateOf_isSome okS t.node).mp ⟨_,running⟩
  obtain ⟨forward,here,others⟩ := recordOutcome_states okS (.inl running) result elapsed
  have result_state : result.state = states t.node := by
    have onCourse := calm.onCourse t member
    simp only [OnCourse,pc] at onCourse
    rw [onCourse]
    exact (calm.agrees.runs calm.inv.same consistent (ids_of_shape calm.inv.same ▸ known) (calm.inv.free t member)).symm
  have back : ∀ id state, id ≠ t.node → stateOf (recordOutcome s.graph t.node result elapsed) id = some state →
      state ≠ .Skipped → stateOf s.graph id = some state := by
    intro id state apart after settled
    rcases others id apart with same | ⟨_,skipped⟩
    · rwa [← same]
    · rw [skipped] at after
      exact absurd (Option.some.inj after).symm settled
  have terminal : ∀ state, stateOf (recordOutcome s.graph t.node result elapsed) t.node = some state → state.is_terminal = true := by
    intro state after
    rw [here,Option.some.injEq] at after
    rw [← after]
    split_ifs
    · rfl
    · exact attempt_terminal result
  refine
    { calm with
      inv := calm.inv.finish ok found pc elapsed
      agrees := ?_
      ready := fun id after => ?_
      running := fun id after => ?_
      onCourse := fun u among => ?_
      course := course_tasks calm.course (List.ne_nil_of_mem member) rfl (fun all => all.forward okS forward.toExtends) }
  · have unmarked : stateOf s.graph t.node ≠ some .Cancelled := by simp [running]
    simp only [recordOutcome,if_neg unmarked,result_state]
    exact calm.agrees.mark_complete ok calm.inv.same consistent known (some elapsed)
  · by_cases apart : id = t.node
    · subst apart
      cases terminal _ after
    · exact calm.ready id (back id _ apart after (by simp))
  · by_cases apart : id = t.node
    · subst apart
      cases terminal _ after
    · obtain ⟨u,among,node,alive⟩ := calm.running id (back id _ apart after (by simp))
      obtain ⟨j,at_j⟩ := List.mem_iff_getElem?.mp among
      have elsewhere : i ≠ j := by
        rintro rfl
        rw [found] at at_j
        cases at_j
        exact apart node.symm
      exact ⟨u,List.mem_of_getElem? ((List.getElem?_set_ne elsewhere).trans at_j),node,alive⟩
  · rcases mem_moved calm.inv.distinct found among with rfl | ⟨old,_⟩
    · trivial
    · exact calm.onCourse u old

theorem calm_task (calm : Calmly g outcome states s) (ok : RepOk g) (consistent : Consistent g outcome states) {cfg : Config}
    {i : Nat} {act : Action} (allowed : Calm outcome s (.task i act) = true) (moved : step cfg s (.task i act) = some s') :
    Calmly g outcome states s' := by
  obtain ⟨t,found,calmly⟩ := calm_action allowed
  clear allowed
  have inv := (kept_step calm.inv ok cfg moved).inv
  simp only [step,found] at moved
  unfold taskStep at moved
  split at moved
  case h_1 pc =>
    split_ifs at moved
    cases moved
    exact calm.moveTask found (.attempting t.max_retries) (by simp) trivial inv
  case h_2 k pc =>
    split_ifs at moved
    cases moved
    exact calm.moveTask found (.calling k) (by simp) trivial inv
  case h_3 => simp [calmAction] at calmly
  case h_4 k pc =>
    cases moved
    exact calm.moveTask found (.running k) (by simp) trivial inv
  case h_5 k pc =>
    cases moved
    refine calm.moveTask found (.finishing .ok) (by simp) ?_ inv
    have answer : outcome t.node = true := by cases k <;> simpa [calmAction,pc] using calmly
    simp [OnCourse,handled,answer,Attempt.state]
  case h_6 k pc =>
    cases moved
    refine calm.moveTask found (retry k) (by cases k <;> simp [retry]) ?_ inv
    cases k with
    | zero =>
      have answer : outcome t.node = false := by simpa [calmAction,pc] using calmly
      simp [OnCourse,retry,handled,answer,Attempt.state]
    | succ k => trivial
  case h_7 => simp [calmAction] at calmly
  case h_8 => simp [calmAction] at calmly
  case h_9 => simp [calmAction] at calmly
  case h_10 k pc =>
    cases moved
    exact calm.moveTask found (.attempting k) (by simp) trivial inv
  case h_11 result elapsed pc =>
    cases moved
    exact calm.finish ok consistent found pc elapsed
  case h_12 => simp [calmAction] at calmly
  case h_13 => cases moved

theorem calm_join (calm : Calmly g outcome states s) (ok : RepOk g) {cfg : Config} {i : Nat}
    (moved : step cfg s (.join i) = some s') : Calmly g outcome states s' := by
  have inv := (kept_step calm.inv ok cfg moved).inv
  simp only [step] at moved
  unfold joinTask at moved
  split at moved
  · cases moved
  · rename_i t found
    have member := List.mem_of_getElem? found
    have onCourse := calm.onCourse t member
    split at moved
    · rename_i wave main
      split at moved
      · rename_i pc
        cases moved
        refine
          { calm with
            inv
            running := fun id known => ?_
            onCourse := fun u among => calm.onCourse u (mem_joined calm.inv.distinct found among).1
            course := by simp [Course,main] }
        obtain ⟨u,among,node,alive⟩ := calm.running id known
        obtain ⟨j,at_j⟩ := List.mem_iff_getElem?.mp among
        have elsewhere : j ≠ i := by
          rintro rfl
          rw [found] at at_j
          cases at_j
          exact alive pc
        exact ⟨u,List.mem_eraseIdx_iff_getElem?.mpr ⟨j,elsewhere,at_j⟩,node,alive⟩
      · rename_i pc
        simp [OnCourse,pc] at onCourse
      · rename_i pc
        simp [OnCourse,pc] at onCourse
      · cases moved
    · rename_i result main
      have course := calm.course
      simp only [Course,main] at course
      rw [course.1] at member
      cases member
    · cases moved

theorem calm_step (calm : Calmly g outcome states s) (ok : RepOk g) (consistent : Consistent g outcome states)
    (plain : ∀ e ∈ g.edges, ∀ key, e.effective_condition ≠ .OnOutput key) {cfg : Config} (positive : cfg.max_concurrency ≠ some 0)
    (fits : Fits cfg s = true) {label : Label} (allowed : Calm outcome s label = true) (moved : step cfg s label = some s') :
    Calmly g outcome states s' := by
  cases label with
  | advance => exact calm_advance calm ok consistent plain positive fits moved
  | join i => exact calm_join calm ok moved
  | task i act => exact calm_task calm ok consistent allowed moved
  | _ => exact absurd allowed (by simp [Calm])

theorem calm_run (calm : Calmly g outcome states s) (ok : RepOk g) (consistent : Consistent g outcome states)
    (plain : ∀ e ∈ g.edges, ∀ key, e.effective_condition ≠ .OnOutput key) {cfg : Config} (positive : cfg.max_concurrency ≠ some 0)
    {labels : List Label} (quiet : CalmRun cfg outcome s labels = true) (reached : run cfg s labels = some s') :
    Calmly g outcome states s' := by
  induction labels generalizing s with
  | nil =>
    cases reached
    exact calm
  | cons label later ih =>
    obtain ⟨next,moved,rest⟩ := Option.bind_eq_some_iff.mp reached
    obtain ⟨fits,allowed,quiet⟩ := calmRun_cons quiet moved
    exact ih (calm_step calm ok consistent plain positive fits allowed moved) quiet rest

end
end Daf.GraphConfluence
