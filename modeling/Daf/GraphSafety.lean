import Daf.GraphUpdates

/-!
Safety of the executor over every schedule: the invariant `Inv` holds in every
state that a run reaches, whatever is cancelled, times out, panics or is dropped.
-/
namespace Daf.GraphSafety
open Daf.GraphNodes Daf.GraphDag Daf.GraphInvariant Daf.GraphStates Daf.GraphScheduler Daf.GraphExecutor Daf.GraphUpdates

/-- How often the handler of a node was started. -/
def starts (events : List Event) (id : NodeId) : Nat := events.count (.started id)

def Event.node : Event → NodeId
  | .started id => id
  | .answered id _ => id

/-- No handler is started again after it answered `Ok`. -/
def NoRestart (events : List Event) : Prop :=
  ∀ id before after, events = before ++ .answered id true :: after → .started id ∉ after

/-- The attempts that a task made so far, by where it stands. -/
def Counted (events : List Event) (t : NodeTask) : Prop :=
  match t.pc with
  | .waiting => starts events t.node = 0 ∧ .answered t.node true ∉ events
  | .attempting k => starts events t.node + k = t.max_retries ∧ .answered t.node true ∉ events
  | .calling k => starts events t.node + k = t.max_retries ∧ .answered t.node true ∉ events
  | .yielding k => starts events t.node + k = t.max_retries ∧ .answered t.node true ∉ events
  | .running k => starts events t.node + k = t.max_retries + 1 ∧ .answered t.node true ∉ events
  | _ => True

def MainPc.isDropped : MainPc → Bool
  | .dropped => true
  | _ => false

/-- The state of the node of a task: running until the task records an outcome,
    unless the guard of a dropped execution has cancelled it. -/
def Status (main : MainPc) (g : ExecutionGraph) (t : NodeTask) : Prop :=
  match t.pc with
  | .done => ∃ state, stateOf g t.node = some state ∧ state.is_terminal = true
  | _ => stateOf g t.node = some (if MainPc.isDropped main then .Cancelled else .Running)

/-- The nodes of a list are distinct, in the given state, and free to run. -/
structure Queued (g : ExecutionGraph) (state : NodeState) (nodes : List NodeId) : Prop where
  distinct : nodes.Nodup
  waits : ∀ id ∈ nodes, stateOf g id = some state
  free : ∀ id ∈ nodes, EdgesSatisfied g id

/-- What holds at each point of the main future. -/
def Phase (s : State) : Prop :=
  match s.main with
  | .waved _ nodes => s.tasks = [] ∧ Queued s.graph .Pending nodes
  | .marked _ nodes => s.tasks = [] ∧ Queued s.graph .Ready nodes
  | .spawning _ rest => Queued s.graph .Ready rest
  | .joining _ => True
  | .returned _ => True
  | .draining _ => True
  | .dropping => True
  | .finished _ => s.tasks = [] ∧ AllTerminal s.graph
  | .dropped => AllTerminal s.graph
  | _ => s.tasks = []

structure Inv (g : ExecutionGraph) (s : State) : Prop where
  same : shape s.graph = shape g
  distinct : (s.tasks.map (·.node)).Nodup
  retries : ∀ t ∈ s.tasks, t.max_retries = maxRetries g t.node
  free : ∀ t ∈ s.tasks, EdgesSatisfied s.graph t.node
  status : ∀ t ∈ s.tasks, Status s.main s.graph t
  counted : ∀ t ∈ s.tasks, Counted s.events t
  fresh : ∀ id, stateOf s.graph id = some .Pending ∨ stateOf s.graph id = some .Ready → ∀ e ∈ s.events, Event.node e ≠ id
  budget : ∀ id, starts s.events id ≤ maxRetries g id + 1
  once : NoRestart s.events
  phase : Phase s

/-- What a step adds to the events: nothing, the start of the handler that a task
    is about to call, or an answer. -/
def Seen (s s' : State) : Prop :=
  s'.events = s.events ∨
  (∃ t ∈ s.tasks, (∃ k, t.pc = .calling k) ∧ s'.events = s.events ++ [.started t.node]) ∨
  ∃ id ok, s'.events = s.events ++ [.answered id ok]

/-- A step keeps the invariant and takes no node back. -/
structure Kept (g : ExecutionGraph) (s s' : State) : Prop where
  inv : Inv g s'
  forward : Forward s.graph s'.graph
  seen : Seen s s'

section
variable {g : ExecutionGraph} {s : State}

theorem inv_init (g : ExecutionGraph) (locked cancelled : Bool) : Inv g (State.init g locked cancelled) where
  same := rfl
  distinct := List.nodup_nil
  retries _ member := absurd member List.not_mem_nil
  free _ member := absurd member List.not_mem_nil
  status _ member := absurd member List.not_mem_nil
  counted _ member := absurd member List.not_mem_nil
  fresh _ _ _ member := absurd member List.not_mem_nil
  budget _ := Nat.zero_le _
  once := by intro id before after split; simp [State.init] at split
  phase := rfl

theorem Inv.repOk (inv : Inv g s) (ok : RepOk g) : RepOk s.graph := ok.of_shape inv.same

/-! ### Steps of the main future -/

/-- A step that only moves the main future. -/
theorem Inv.move (inv : Inv g s) {s' : State} (graph : s'.graph = s.graph) (tasks : s'.tasks = s.tasks)
    (events : s'.events = s.events) (dropped : MainPc.isDropped s'.main = MainPc.isDropped s.main) (phase : Phase s') :
    Inv g s' where
  same := graph ▸ inv.same
  distinct := tasks ▸ inv.distinct
  retries := tasks ▸ inv.retries
  free := by rw [graph,tasks]; exact inv.free
  status := by
    rw [graph,tasks]
    intro t member
    have status := inv.status t member
    unfold Status at status ⊢
    rwa [dropped]
  counted := by rw [tasks,events]; exact inv.counted
  fresh := by rw [graph,events]; exact inv.fresh
  budget := by rw [events]; exact inv.budget
  once := by rw [events]; exact inv.once
  phase := phase

/-- A step that writes to the graph while no task is alive. -/
theorem Inv.write (inv : Inv g s) {s' : State} (forward : Forward s.graph s'.graph) (idle : s.tasks = [])
    (tasks : s'.tasks = s.tasks) (events : s'.events = s.events) (phase : Phase s') : Inv g s' where
  same := forward.same.trans inv.same
  distinct := tasks ▸ inv.distinct
  retries := tasks ▸ inv.retries
  free := by rw [tasks,idle]; exact fun _ member => absurd member List.not_mem_nil
  status := by rw [tasks,idle]; exact fun _ member => absurd member List.not_mem_nil
  counted := by rw [tasks,idle]; exact fun _ member => absurd member List.not_mem_nil
  fresh := by rw [events]; exact fun id waits => inv.fresh id (forward.waits id waits)
  budget := by rw [events]; exact inv.budget
  once := by rw [events]; exact inv.once
  phase := phase

/-- The guard of the execution cancels what is left. -/
theorem Inv.cleanup (inv : Inv g s) (ok : RepOk g) {main : MainPc} (live : MainPc.isDropped s.main = false)
    (fits : s.tasks = [] ∨ main = .dropped) (phase : Phase (s.cleanup main)) : Inv g (s.cleanup main) := by
  have okS := inv.repOk ok
  have forward := cancel_forward okS
  rcases fits with idle | rfl
  · exact inv.write forward idle rfl rfl phase
  · refine { inv with same := forward.same.trans inv.same, free := ?_, status := ?_, fresh := ?_, phase }
    · exact fun t member => (inv.free t member).extend forward.toExtends
    · intro t member
      have status := inv.status t member
      unfold Status at status ⊢
      rw [State.cleanup,cancel_states okS]
      cases pc : t.pc with
      | done =>
        obtain ⟨state,known,terminal⟩ := by simpa only [pc] using status
        exact ⟨state,by simp [known,terminal],terminal⟩
      | _ =>
        simp only [pc,live] at status
        simp [status,NodeState.is_terminal,MainPc.isDropped]
    · exact fun id waits => inv.fresh id (forward.waits id waits)

theorem Inv.spawn (inv : Inv g s) (ok : RepOk g) (cfg : Config) {wave : Nat} {id : NodeId} {rest : List NodeId}
    (main : s.main = .spawning wave (id :: rest)) : Inv g (s.spawn cfg wave id rest) := by
  have okS := inv.repOk ok
  have queued : Queued s.graph .Ready (id :: rest) := by simpa [Phase,main] using inv.phase
  have ready := queued.waits id List.mem_cons_self
  have forward := markRunning_forward okS ready
  have apart : ∀ t ∈ s.tasks, t.node ≠ id := by
    rintro t member rfl
    have status := inv.status t member
    unfold Status at status
    cases pc : t.pc with
    | done =>
      obtain ⟨state,known,terminal⟩ := by simpa only [pc] using status
      rw [ready] at known
      cases known
      cases terminal
    | _ => simp [pc,ready,main,MainPc.isDropped] at status
  have quiet := inv.fresh id (.inr ready)
  refine
    { same := forward.same.trans inv.same, distinct := ?_, retries := ?_, free := ?_, status := ?_, counted := ?_,
      fresh := fun x waits => inv.fresh x (forward.waits x waits), budget := inv.budget, once := inv.once, phase := ?_ }
  · simp only [State.spawn,List.map_append,List.map_cons,List.map_nil,NodeTask.spawn]
    refine List.nodup_append.mpr ⟨inv.distinct,List.nodup_singleton id,?_⟩
    intro x inside y last
    obtain ⟨t,member,rfl⟩ := List.mem_map.mp inside
    rw [List.mem_singleton.mp last]
    exact apart t member
  · intro t member
    rcases List.mem_append.mp member with old | new
    · exact inv.retries t old
    · rw [List.mem_singleton.mp new]
      exact maxRetries_of_shape inv.same id
  · intro t member
    rcases List.mem_append.mp member with old | new
    · exact (inv.free t old).extend forward.toExtends
    · rw [List.mem_singleton.mp new]
      exact (queued.free id List.mem_cons_self).extend forward.toExtends
  · intro t member
    rcases List.mem_append.mp member with old | new
    · have status := inv.status t old
      unfold Status at status ⊢
      simp only [State.spawn,markRunning_states okS ready,if_neg (apart t old)]
      rwa [main] at status
    · rw [List.mem_singleton.mp new]
      simp [Status,NodeTask.spawn,State.spawn,markRunning_states okS ready,MainPc.isDropped]
  · intro t member
    rcases List.mem_append.mp member with old | new
    · exact inv.counted t old
    · rw [List.mem_singleton.mp new]
      refine ⟨List.count_eq_zero.mpr (fun member => quiet _ member rfl),fun member => quiet _ member rfl⟩
  · obtain ⟨fresh,distinct⟩ := List.nodup_cons.mp queued.distinct
    refine ⟨distinct,fun x member => ?_,fun x member => ?_⟩
    · have other : x ≠ id := by rintro rfl; exact fresh member
      simp only [State.spawn,markRunning_states okS ready,if_neg other]
      exact queued.waits x (List.mem_cons_of_mem id member)
    · exact (queued.free x (List.mem_cons_of_mem id member)).extend forward.toExtends

/-- The next wave consists of pending nodes that are free to run. -/
theorem queued_nextWave {h : ExecutionGraph} (ok : RepOk h) (scheduler : WaveScheduler) :
    Queued h .Pending (scheduler.nextWave h) where
  distinct := nextWave_nodup scheduler ok
  waits id member := ((mem_ready_nodes ok id).mp (nextWave_sub scheduler h member)).1
  free id member := ((mem_ready_nodes ok id).mp (nextWave_sub scheduler h member)).2

theorem Queued.markReady {h : ExecutionGraph} (ok : RepOk h) {nodes : List NodeId} (queued : Queued h .Pending nodes) :
    Queued (markReady h nodes) .Ready nodes where
  distinct := queued.distinct
  waits id member := markReady_ready ok member (queued.waits id member)
  free id member := (queued.free id member).extend (markReady_forward ok queued.waits).toExtends

theorem Queued.runnable {h : ExecutionGraph} {nodes : List NodeId} (queued : Queued h .Ready nodes) :
    Queued h .Ready (runnable h nodes) where
  distinct := queued.distinct.filter _
  waits id member := queued.waits id (List.mem_filter.mp member).1
  free id member := queued.free id (List.mem_filter.mp member).1

/-- Planning either leaves the wave loop or finds the next wave. -/
theorem looping_cases (cfg : Config) {wave : Nat} (main : s.main = .looping wave) {s' : State} (moved : advance cfg s = some s') :
    s' = { s with graph := s.graph.skip_impossible_nodes, main := s'.main, aborting := s'.aborting } ∧
    ((∃ error, cfg.max_concurrency = some 0 ∧ s'.main = .returned (.error error)) ∨
      (s'.main = .dropping ∧ cfg.scheduler.plan_waves s.graph.skip_impossible_nodes = .overflow) ∨
      (s'.main = .ending wave ∧ s.graph.skip_impossible_nodes.ready_nodes = []) ∨
      cfg.max_concurrency ≠ some 0 ∧ s.graph.skip_impossible_nodes.ready_nodes ≠ [] ∧
        s'.main = .waved wave (cfg.scheduler.nextWave s.graph.skip_impossible_nodes)) := by
  simp only [advance,main] at moved
  rcases plan_waves_cases cfg.scheduler s.graph.skip_impossible_nodes with ⟨plan,planned,positive,first⟩ | ⟨zero,planned⟩ | planned
  · simp only [planned] at moved
    by_cases none_ready : s.graph.skip_impossible_nodes.ready_nodes = []
    · rw [if_pos none_ready] at first
      simp only [Option.map_eq_none_iff.mp first,Option.some.injEq] at moved
      subst moved
      exact ⟨rfl,.inr (.inr (.inl ⟨rfl,none_ready⟩))⟩
    · rw [if_neg none_ready] at first
      obtain ⟨next,head,nodes⟩ := Option.map_eq_some_iff.mp first
      simp only [head,Option.some.injEq] at moved
      subst moved
      exact ⟨rfl,.inr (.inr (.inr ⟨positive,none_ready,by rw [nodes]⟩))⟩
  · simp only [planned,Option.some.injEq] at moved
    subst moved
    exact ⟨rfl,.inl ⟨_,zero,rfl⟩⟩
  · simp only [planned,Option.some.injEq] at moved
    subst moved
    exact ⟨rfl,.inr (.inl ⟨rfl,planned⟩)⟩

/-- A step that only moves the main future keeps everything. -/
theorem kept_move (inv : Inv g s) {s' : State} (graph : s'.graph = s.graph) (tasks : s'.tasks = s.tasks) (events : s'.events = s.events)
    (dropped : MainPc.isDropped s'.main = MainPc.isDropped s.main) (phase : Phase s') : Kept g s s' where
  inv := inv.move graph tasks events dropped phase
  forward := graph ▸ Forward.refl _
  seen := .inl events

theorem kept_advance (inv : Inv g s) (ok : RepOk g) (cfg : Config) {s' : State} (moved : advance cfg s = some s') :
    Kept g s s' := by
  have okS := inv.repOk ok
  have phase := inv.phase
  unfold Phase at phase
  cases main : s.main with
  | called =>
    simp only [main] at phase
    simp only [advance,main] at moved
    split_ifs at moved
    all_goals
      cases moved
      exact kept_move inv rfl rfl rfl (by simp [main,MainPc.isDropped]) phase
  | rejected error => simp [advance,main] at moved
  | starting =>
    simp only [main] at phase
    simp only [advance,main] at moved
    split at moved
    · cases moved
      exact kept_move inv rfl rfl rfl (by simp [main,MainPc.isDropped]) trivial
    · cases moved
      exact kept_move inv rfl rfl rfl (by simp [main,MainPc.isDropped,State.unwind]) trivial
    · split_ifs at moved
      · cases moved
        exact kept_move inv rfl rfl rfl (by simp [main,MainPc.isDropped,State.unwind]) trivial
      · cases moved
        exact kept_move inv rfl rfl rfl (by simp [main,MainPc.isDropped]) phase
  | looping wave =>
    simp only [main] at phase
    obtain ⟨shape,cases⟩ := looping_cases cfg main moved
    rw [shape]
    refine ⟨inv.write (skip_forward okS) phase rfl rfl ?_,skip_forward okS,.inl rfl⟩
    rcases cases with ⟨error,_,next⟩ | ⟨next,_⟩ | ⟨next,_⟩ | ⟨_,_,next⟩
    · simp [Phase,next]
    · simp [Phase,next]
    · simpa [Phase,next] using phase
    · simp only [Phase,next]
      exact ⟨phase,queued_nextWave (okS.of_shape (shape_skip _)) cfg.scheduler⟩
  | waved wave nodes =>
    simp only [main] at phase
    simp only [advance,main] at moved
    split_ifs at moved
    · cases moved
      exact ⟨inv.cleanup ok (by simp [main,MainPc.isDropped]) (.inl phase.1) trivial,cancel_forward okS,.inl rfl⟩
    · cases moved
      have forward := markReady_forward okS phase.2.waits
      exact ⟨inv.write forward phase.1 rfl rfl ⟨phase.1,phase.2.markReady okS⟩,forward,.inl rfl⟩
  | marked wave nodes =>
    simp only [main] at phase
    simp only [advance,main,Option.some.injEq] at moved
    subst moved
    exact kept_move inv rfl rfl rfl (by simp [main,MainPc.isDropped]) phase.2.runnable
  | spawning wave rest =>
    simp only [main] at phase
    cases rest with
    | nil =>
      simp only [advance,main,Option.some.injEq] at moved
      subst moved
      exact kept_move inv rfl rfl rfl (by simp [main,MainPc.isDropped]) trivial
    | cons id rest =>
      simp only [advance,main,Option.some.injEq] at moved
      subst moved
      exact ⟨inv.spawn ok cfg main,markRunning_forward okS (phase.waits id List.mem_cons_self),.inl rfl⟩
  | joining wave =>
    simp only [advance,main] at moved
    split_ifs at moved with idle
    cases moved
    exact kept_move inv rfl rfl rfl (by simp [main,MainPc.isDropped]) idle
  | ending waves =>
    simp only [advance,main] at moved
    split_ifs at moved
    all_goals
      cases moved
      exact kept_move inv rfl rfl rfl (by simp [main,MainPc.isDropped]) trivial
  | returned result =>
    simp only [advance,main,Option.some.injEq] at moved
    subst moved
    exact kept_move inv rfl rfl rfl (by simp [main,MainPc.isDropped]) trivial
  | draining result =>
    simp only [advance,main] at moved
    split_ifs at moved with idle
    cases moved
    exact ⟨inv.cleanup ok (by simp [main,MainPc.isDropped]) (.inl idle) ⟨idle,cancel_allTerminal okS⟩,cancel_forward okS,.inl rfl⟩
  | finished result => simp [advance,main] at moved
  | dropping =>
    simp only [advance,main,Option.some.injEq] at moved
    subst moved
    exact ⟨inv.cleanup ok (by simp [main,MainPc.isDropped]) (.inr rfl) (cancel_allTerminal okS),cancel_forward okS,.inl rfl⟩
  | dropped => simp [advance,main] at moved

/-! ### Steps of the tasks -/

theorem nodes_set {tasks : List NodeTask} {i : Nat} {t u : NodeTask} (found : tasks[i]? = some t) (node : u.node = t.node) :
    (tasks.set i u).map (·.node) = tasks.map (·.node) := by
  apply List.ext_getElem?
  intro j
  by_cases here : i = j
  · subst here
    obtain ⟨inside,at_i⟩ := List.getElem?_eq_some_iff.mp found
    simp [inside,at_i,node]
  · simp [here]

theorem node_ne {tasks : List NodeTask} (distinct : (tasks.map (·.node)).Nodup) {i j : Nat} {t u : NodeTask}
    (found : tasks[i]? = some t) (other : tasks[j]? = some u) (apart : i ≠ j) : u.node ≠ t.node := by
  intro same
  refine apart (List.nodup_iff_injective_get.mp distinct |> fun inj => ?_)
  have low := (List.getElem?_eq_some_iff.mp found).1
  have high := (List.getElem?_eq_some_iff.mp other).1
  have equal := @inj ⟨i,by simpa using low⟩ ⟨j,by simpa using high⟩ (by
    have at_i := (List.getElem?_eq_some_iff.mp found).2
    have at_j := (List.getElem?_eq_some_iff.mp other).2
    simp [at_i,at_j,same])
  exact congrArg Fin.val equal

/-- After a task moved, the other tasks belong to other nodes. -/
theorem mem_moved {tasks : List NodeTask} (distinct : (tasks.map (·.node)).Nodup) {i : Nat} {t u v : NodeTask}
    (found : tasks[i]? = some t) (member : v ∈ tasks.set i u) : v = u ∨ v ∈ tasks ∧ v.node ≠ t.node := by
  obtain ⟨j,at_j⟩ := List.mem_iff_getElem?.mp member
  by_cases here : i = j
  · subst here
    rw [List.getElem?_set_self (List.getElem?_eq_some_iff.mp found).1] at at_j
    exact .inl (Option.some.inj at_j).symm
  · rw [List.getElem?_set_ne here] at at_j
    exact .inr ⟨List.mem_of_getElem? at_j,node_ne distinct found at_j here⟩

/-- After a task was joined, the remaining tasks belong to other nodes. -/
theorem mem_joined {tasks : List NodeTask} (distinct : (tasks.map (·.node)).Nodup) {i : Nat} {t v : NodeTask}
    (found : tasks[i]? = some t) (member : v ∈ tasks.eraseIdx i) : v ∈ tasks ∧ v.node ≠ t.node := by
  obtain ⟨j,apart,at_j⟩ := List.mem_eraseIdx_iff_getElem?.mp member
  exact ⟨List.mem_of_getElem? at_j,node_ne distinct found at_j (Ne.symm apart)⟩

theorem nodup_joined {tasks : List NodeTask} (distinct : (tasks.map (·.node)).Nodup) (i : Nat) :
    ((tasks.eraseIdx i).map (·.node)).Nodup :=
  distinct.sublist ((List.eraseIdx_sublist tasks i).map _)

theorem Inv.live_state (inv : Inv g s) {t : NodeTask} (member : t ∈ s.tasks) (live : t.pc ≠ .done) :
    stateOf s.graph t.node = some (if MainPc.isDropped s.main then .Cancelled else .Running) := by
  have status := inv.status t member
  unfold Status at status
  cases pc : t.pc <;> simp_all

theorem Inv.live_cases (inv : Inv g s) {t : NodeTask} (member : t ∈ s.tasks) (live : t.pc ≠ .done) :
    stateOf s.graph t.node = some .Running ∨ stateOf s.graph t.node = some .Cancelled := by
  rw [inv.live_state member live]
  cases MainPc.isDropped s.main <;> simp

/-- While a task exists the main future is at a point that allows tasks. -/
theorem phase_tasks {s s' : State} (phase : Phase s) (busy : s.tasks ≠ []) (main : s'.main = s.main)
    (queued : ∀ rest, Queued s.graph .Ready rest → Queued s'.graph .Ready rest)
    (terminal : AllTerminal s.graph → AllTerminal s'.graph) : Phase s' := by
  unfold Phase at phase ⊢
  rw [main]
  cases at_main : s.main <;> simp only [at_main] at phase ⊢
  case waved => exact absurd phase.1 busy
  case marked => exact absurd phase.1 busy
  case spawning rest => exact queued rest phase
  case finished => exact absurd phase.1 busy
  case dropped => exact terminal phase
  all_goals exact absurd phase busy

theorem counted_append {events : List Event} {t : NodeTask} (counted : Counted events t) {new : List Event}
    (foreign : ∀ e ∈ new, Event.node e ≠ t.node) : Counted (events ++ new) t := by
  have same : starts (events ++ new) t.node = starts events t.node := by
    unfold starts
    rw [List.count_append,List.count_eq_zero.mpr (fun member => foreign _ member rfl)]
    rfl
  have quiet : .answered t.node true ∉ events → Event.answered t.node true ∉ events ++ new := by
    intro absent member
    rcases List.mem_append.mp member with old | fresh
    · exact absent old
    · exact foreign _ fresh rfl
  unfold Counted at counted ⊢
  cases pc : t.pc <;> simp only [pc] at counted ⊢
  all_goals exact ⟨by rw [same]; exact counted.1,quiet counted.2⟩

/-- A task moves to a point before the end, and its handler may be seen to start
    or to answer. -/
theorem Inv.moveTask (inv : Inv g s) {i : Nat} {t : NodeTask} (found : s.tasks[i]? = some t) (live : t.pc ≠ .done)
    (pc : TaskPc) (ahead : pc ≠ .done) (new : List Event) (own : ∀ e ∈ new, Event.node e = t.node)
    (counted : Counted (s.events ++ new) { t with pc }) (budget : starts (s.events ++ new) t.node ≤ t.max_retries + 1)
    (once : NoRestart (s.events ++ new)) : Inv g { s.setPc i t pc with events := s.events ++ new } := by
  have member := List.mem_of_getElem? found
  have cases := fun u inside => mem_moved (v := u) (u := { t with pc }) inv.distinct found inside
  refine
    { same := inv.same, distinct := ?_, retries := ?_, free := ?_, status := ?_, counted := ?_, fresh := ?_, budget := ?_,
      once, phase := ?_ }
  · rw [State.setPc,nodes_set (u := { t with pc }) found rfl]
    exact inv.distinct
  · intro u inside
    rcases cases u inside with rfl | ⟨old,_⟩
    · exact inv.retries t member
    · exact inv.retries u old
  · intro u inside
    rcases cases u inside with rfl | ⟨old,_⟩
    · exact inv.free t member
    · exact inv.free u old
  · intro u inside
    rcases cases u inside with rfl | ⟨old,_⟩
    · have known := inv.live_state member live
      unfold Status
      cases pc <;> first | exact absurd rfl ahead | exact known
    · exact inv.status u old
  · intro u inside
    rcases cases u inside with rfl | ⟨old,apart⟩
    · exact counted
    · exact counted_append (inv.counted u old) (fun e fresh => by rw [own e fresh]; exact Ne.symm apart)
  · intro id waits e inside
    rcases List.mem_append.mp inside with old | fresh
    · exact inv.fresh id waits e old
    · rw [own e fresh]
      rintro rfl
      have waits : stateOf s.graph t.node = some .Pending ∨ stateOf s.graph t.node = some .Ready := waits
      rcases inv.live_cases member live with known | known <;> simp [known] at waits
  · intro id
    by_cases same : id = t.node
    · subst same
      exact inv.retries t member ▸ budget
    · have : starts (s.events ++ new) id = starts s.events id := by
        unfold starts
        rw [List.count_append,List.count_eq_zero.mpr (fun inside => same (own (.started id) inside))]
        rfl
      rw [this]
      exact inv.budget id
  · exact phase_tasks inv.phase (List.ne_nil_of_mem member) rfl (fun _ queued => queued) (fun all => all)

/-- A task moves without a sign of its handler. -/
theorem Inv.moveQuietly (inv : Inv g s) {i : Nat} {t : NodeTask} (found : s.tasks[i]? = some t) (live : t.pc ≠ .done)
    (pc : TaskPc) (ahead : pc ≠ .done) (counted : Counted s.events { t with pc }) : Inv g (s.setPc i t pc) := by
  have member := List.mem_of_getElem? found
  have moved := inv.moveTask found live pc ahead [] (fun _ member => absurd member List.not_mem_nil) (by simpa using counted)
    (by simpa [inv.retries t member] using inv.budget t.node) (by simpa using inv.once)
  simpa [State.setPc] using moved

theorem kept_quietly (inv : Inv g s) {i : Nat} {t : NodeTask} (found : s.tasks[i]? = some t) (live : t.pc ≠ .done)
    (pc : TaskPc) (ahead : pc ≠ .done) (counted : Counted s.events { t with pc }) : Kept g s (s.setPc i t pc) :=
  ⟨inv.moveQuietly found live pc ahead counted,Forward.refl _,.inl rfl⟩

/-- One more event is no restart where it is not the start of a task that has answered well. -/
theorem noRestart_snoc {events : List Event} (once : NoRestart events) {event : Event} (fresh : ∀ id, event = .started id → .answered id true ∉ events) :
    NoRestart (events ++ [event]) := by
  intro x before after split
  rcases List.append_eq_append_iff.mp split with ⟨mid,rfl,tail⟩ | ⟨mid,rfl,tail⟩
  · cases mid with
    | nil =>
      simp only [List.nil_append,List.cons.injEq] at tail
      rw [← tail.2]
      exact List.not_mem_nil
    | cons head rest => simp at tail
  · cases mid with
    | nil =>
      simp only [List.nil_append,List.cons.injEq] at tail
      rw [tail.2]
      exact List.not_mem_nil
    | cons head rest =>
      simp only [List.cons_append,List.cons.injEq] at tail
      obtain ⟨rfl,rfl⟩ := tail
      intro member
      rcases List.mem_append.mp member with old | last
      · exact once x before rest rfl old
      · exact fresh x (List.mem_singleton.mp last).symm (by simp)

theorem noRestart_started {events : List Event} (once : NoRestart events) {id : NodeId} (unanswered : .answered id true ∉ events) :
    NoRestart (events ++ [Event.started id]) :=
  noRestart_snoc once fun _ same => Event.started.inj same ▸ unanswered

theorem noRestart_answered {events : List Event} (once : NoRestart events) (id : NodeId) (ok : Bool) :
    NoRestart (events ++ [Event.answered id ok]) :=
  noRestart_snoc once nofun

theorem Queued.forward {h h' : ExecutionGraph} {rest : List NodeId} (queued : Queued h .Ready rest) (forward : Forward h h')
    (kept : ∀ x, stateOf h x = some .Ready → stateOf h' x = some .Ready) : Queued h' .Ready rest :=
  ⟨queued.distinct,fun id member => kept id (queued.waits id member),fun id member =>
    (queued.free id member).extend forward.toExtends⟩

/-- A task records its outcome. -/
theorem Inv.finish (inv : Inv g s) (ok : RepOk g) {i : Nat} {t : NodeTask} (found : s.tasks[i]? = some t)
    {result : Attempt} (pc : t.pc = .finishing result) (elapsed : Duration) :
    Inv g { s.setPc i t .done with graph := recordOutcome s.graph t.node result elapsed } := by
  have okS := inv.repOk ok
  have member := List.mem_of_getElem? found
  have live := inv.live_cases member (by simp [pc])
  obtain ⟨forward,here,others⟩ := recordOutcome_states okS live result elapsed
  have cases := fun u inside => mem_moved (v := u) (u := { t with pc := .done }) inv.distinct found inside
  have terminal : ∃ state, stateOf (recordOutcome s.graph t.node result elapsed) t.node = some state ∧
      state.is_terminal = true := by
    refine ⟨_,here,?_⟩
    split_ifs
    · rfl
    · exact attempt_terminal result
  refine
    { same := forward.same.trans inv.same, distinct := ?_, retries := ?_, free := ?_, status := ?_, counted := ?_,
      fresh := fun x waits => inv.fresh x (forward.waits x waits), budget := inv.budget, once := inv.once, phase := ?_ }
  · simp only [State.setPc]
    rw [nodes_set (u := { t with pc := .done }) found rfl]
    exact inv.distinct
  · intro u inside
    rcases cases u inside with rfl | ⟨old,_⟩
    · exact inv.retries t member
    · exact inv.retries u old
  · intro u inside
    rcases cases u inside with rfl | ⟨old,_⟩
    · exact (inv.free t member).extend forward.toExtends
    · exact (inv.free u old).extend forward.toExtends
  · intro u inside
    rcases cases u inside with rfl | ⟨old,apart⟩
    · exact terminal
    · have status := inv.status u old
      by_cases ended : u.pc = .done
      · simp only [Status,ended] at status ⊢
        obtain ⟨state,known,terminal⟩ := status
        exact ⟨state,forward.terminal _ state known terminal,terminal⟩
      · have known := inv.live_state old ended
        have after := others.kept apart known (by split_ifs <;> simp)
        unfold Status
        cases upc : u.pc <;> first | exact absurd upc ended | exact after
  · intro u inside
    rcases cases u inside with rfl | ⟨old,_⟩
    · trivial
    · exact inv.counted u old
  · refine phase_tasks inv.phase (List.ne_nil_of_mem member) rfl (fun rest queued => ?_) (fun all => ?_)
    · refine queued.forward forward (fun x ready => others.kept ?_ ready (by simp))
      rintro rfl
      rcases live with known | known <;> simp [known] at ready
    · exact all.forward okS forward.toExtends

theorem kept_task (inv : Inv g s) (ok : RepOk g) (cfg : Config) {i : Nat} {t : NodeTask} (found : s.tasks[i]? = some t)
    {act : Action} {s' : State} (moved : taskStep cfg s i t t.pc act = some s') : Kept g s s' := by
  have member := List.mem_of_getElem? found
  have counted := inv.counted t member
  have budget := inv.budget t.node
  rw [← inv.retries t member] at budget
  have retried : ∀ k, t.pc = .running k → Counted s.events { t with pc := retry k } := by
    intro k pc
    simp only [Counted,pc] at counted
    cases k with
    | zero => trivial
    | succ k => exact ⟨by simpa [retry] using (by omega : starts s.events t.node + k = t.max_retries),counted.2⟩
  unfold taskStep at moved
  split at moved
  case h_1 pc =>
    split_ifs at moved
    cases moved
    simp only [Counted,pc] at counted
    exact kept_quietly inv found (by simp [pc]) _ (by simp) ⟨by simp [counted.1],counted.2⟩
  case h_2 k pc =>
    split_ifs at moved
    cases moved
    simp only [Counted,pc] at counted
    exact kept_quietly inv found (by simp [pc]) _ (by simp) counted
  case h_3 k pc =>
    split_ifs at moved
    cases moved
    exact kept_quietly inv found (by simp [pc]) _ (by simp) trivial
  case h_4 k pc =>
    cases moved
    simp only [Counted,pc] at counted
    have one : starts (s.events ++ [Event.started t.node]) t.node = starts s.events t.node + 1 := by simp [starts]
    refine ⟨inv.moveTask found (by simp [pc]) (.running k) (by simp) [.started t.node] (by simp [Event.node]) ⟨?_,?_⟩ ?_
      (noRestart_started inv.once counted.2),Forward.refl _,.inr (.inl ⟨t,member,⟨k,pc⟩,rfl⟩)⟩
    · rw [one]
      have := counted.1
      simp only
      omega
    · simpa using counted.2
    · rw [one]
      have := counted.1
      omega
  case h_5 k pc =>
    cases moved
    exact ⟨inv.moveTask found (by simp [pc]) (.finishing .ok) (by simp) [.answered t.node true] (by simp [Event.node]) trivial
      (by simpa [starts] using budget) (noRestart_answered inv.once _ _),Forward.refl _,.inr (.inr ⟨_,_,rfl⟩)⟩
  case h_6 k pc =>
    cases moved
    have quiet : Counted (s.events ++ [Event.answered t.node false]) { t with pc := retry k } := by
      have before := retried k pc
      cases k with
      | zero => trivial
      | succ k => exact ⟨by simpa [retry,starts] using before.1,by simpa [retry] using before.2⟩
    exact ⟨inv.moveTask found (by simp [pc]) (retry k) (by cases k <;> simp [retry]) [.answered t.node false] (by simp [Event.node])
      quiet (by simpa [starts] using budget) (noRestart_answered inv.once _ _),Forward.refl _,.inr (.inr ⟨_,_,rfl⟩)⟩
  case h_7 k pc =>
    split_ifs at moved
    cases moved
    exact kept_quietly inv found (by simp [pc]) (retry k) (by cases k <;> simp [retry]) (retried k pc)
  case h_8 k pc =>
    split_ifs at moved
    cases moved
    exact kept_quietly inv found (by simp [pc]) _ (by simp) trivial
  case h_9 k pc =>
    cases moved
    exact kept_quietly inv found (by simp [pc]) _ (by simp) trivial
  case h_10 k pc =>
    cases moved
    simp only [Counted,pc] at counted
    exact kept_quietly inv found (by simp [pc]) _ (by simp) counted
  case h_11 result elapsed pc =>
    cases moved
    have live := inv.live_cases member (by simp [pc])
    exact ⟨inv.finish ok found pc elapsed,(recordOutcome_states (inv.repOk ok) live result elapsed).1,.inl rfl⟩
  case h_12 =>
    split_ifs at moved with flagged
    cases moved
    refine kept_quietly inv found ?_ .aborted (by simp) trivial
    intro pc
    simp [pc,TaskPc.suspended] at flagged
  case h_13 => cases moved

/-! ### Joins -/

/-- A task is taken out of the set, after a write that concerns its node. -/
theorem Inv.join (inv : Inv g s) {i : Nat} {t : NodeTask} (found : s.tasks[i]? = some t) {h : ExecutionGraph}
    (forward : Forward s.graph h) (others : Elsewhere s.graph h t.node) {main : MainPc}
    (dropped : MainPc.isDropped main = MainPc.isDropped s.main)
    (phase : Phase { s with graph := h, tasks := s.tasks.eraseIdx i, main }) :
    Inv g { s with graph := h, tasks := s.tasks.eraseIdx i, main } := by
  have cases := fun u inside => mem_joined (v := u) inv.distinct found inside
  refine
    { same := forward.same.trans inv.same, distinct := nodup_joined inv.distinct i,
      retries := fun u inside => inv.retries u (cases u inside).1,
      free := fun u inside => (inv.free u (cases u inside).1).extend forward.toExtends, status := ?_,
      counted := fun u inside => inv.counted u (cases u inside).1,
      fresh := fun x waits => inv.fresh x (forward.waits x waits), budget := inv.budget, once := inv.once, phase }
  intro u inside
  obtain ⟨old,apart⟩ := cases u inside
  have status := inv.status u old
  by_cases ended : u.pc = .done
  · simp only [Status,ended] at status ⊢
    obtain ⟨state,known,terminal⟩ := status
    exact ⟨state,forward.terminal _ state known terminal,terminal⟩
  · have known := inv.live_state old ended
    rw [← dropped] at known
    have after := others.kept apart known (by split_ifs <;> simp)
    unfold Status
    cases pc : u.pc <;> first | exact absurd pc ended | exact after

/-- A task that did not return has left its node running. -/
theorem kept_joinFailed (inv : Inv g s) (ok : RepOk g) {i wave : Nat} {t : NodeTask} (found : s.tasks[i]? = some t)
    (main : s.main = .joining wave) (live : t.pc ≠ .done) : Kept g s (joinFailed s i t.node) := by
  have okS := inv.repOk ok
  have running : stateOf s.graph t.node = some .Running := by
    simpa [main,MainPc.isDropped] using inv.live_state (List.mem_of_getElem? found) live
  have forward := mark_complete_forward okS running rfl (rfl : NodeState.Failed.is_terminal = true) none
  have others := (mark_complete_states okS ((stateOf_isSome okS t.node).mp ⟨_,running⟩)
    (rfl : NodeState.Failed.is_terminal = true) none).2
  unfold joinFailed
  split
  · rename_i error graph result
    rw [result] at forward others
    exact ⟨inv.join found forward others (by simp [main,MainPc.isDropped]) trivial,forward,.inl rfl⟩
  · rename_i ready graph result
    rw [result] at forward others
    exact ⟨inv.join found forward others rfl (by simp [Phase,main]),forward,.inl rfl⟩

theorem kept_join (inv : Inv g s) (ok : RepOk g) {i : Nat} {s' : State} (moved : joinTask s i = some s') : Kept g s s' := by
  unfold joinTask at moved
  split at moved
  · cases moved
  · rename_i t found
    split at moved
    · rename_i wave main
      split at moved
      · cases moved
        exact ⟨inv.join found (Forward.refl _) (fun _ _ => .inl rfl) rfl (by simp [Phase,main]),Forward.refl _,.inl rfl⟩
      · rename_i pc
        cases moved
        exact kept_joinFailed inv ok found main (by simp [pc])
      · rename_i pc
        cases moved
        exact kept_joinFailed inv ok found main (by simp [pc])
      · cases moved
    · rename_i result main
      split_ifs at moved
      cases moved
      exact ⟨inv.join found (Forward.refl _) (fun _ _ => .inl rfl) rfl (by simp [Phase,main]),Forward.refl _,.inl rfl⟩
    · cases moved

/-! ### Runs -/

theorem MainPc.not_dropped {main : MainPc} (awaits : main.awaits = true ∨ main.isDraining = true) :
    MainPc.isDropped main = false := by
  cases main <;> simp_all [MainPc.awaits,MainPc.isDraining,MainPc.isDropped]

/-- Every step keeps the invariant. -/
theorem kept_step (inv : Inv g s) (ok : RepOk g) (cfg : Config) {label : Label} {s' : State}
    (moved : step cfg s label = some s') : Kept g s s' := by
  cases label with
  | cancel =>
    cases moved
    exact ⟨inv.move rfl rfl rfl rfl inv.phase,Forward.refl _,.inl rfl⟩
  | advance => exact kept_advance inv ok cfg moved
  | elapsed =>
    simp only [step] at moved
    split at moved
    · rename_i main timeout
      split_ifs at moved
      cases moved
      have phase := inv.phase
      simp only [Phase,main] at phase
      exact ⟨inv.cleanup ok (by simp [main,MainPc.isDropped]) (.inl phase.1) trivial,cancel_forward (inv.repOk ok),.inl rfl⟩
    · cases moved
  | observe =>
    simp only [step] at moved
    split_ifs at moved with seen
    cases moved
    simp only [Bool.and_eq_true] at seen
    exact ⟨inv.move rfl rfl rfl (MainPc.not_dropped (.inl seen.2)).symm trivial,Forward.refl _,.inl rfl⟩
  | globalTimeout =>
    simp only [step] at moved
    split at moved
    · cases moved
    · split_ifs at moved with awaits
      cases moved
      exact ⟨inv.move rfl rfl rfl (MainPc.not_dropped (.inl awaits)).symm trivial,Forward.refl _,.inl rfl⟩
  | drop =>
    simp only [step] at moved
    split_ifs at moved with awaits
    cases moved
    simp only [Bool.or_eq_true] at awaits
    exact ⟨inv.move rfl rfl rfl (MainPc.not_dropped awaits).symm trivial,Forward.refl _,.inl rfl⟩
  | join i => exact kept_join inv ok moved
  | task i act =>
    simp only [step] at moved
    split at moved
    · cases moved
    · rename_i t found
      exact kept_task inv ok cfg found moved

/-- Every state that a run reaches keeps the invariant. -/
theorem inv_run (inv : Inv g s) (ok : RepOk g) (cfg : Config) {labels : List Label} {s' : State}
    (reached : run cfg s labels = some s') : Inv g s' := by
  induction labels generalizing s with
  | nil =>
    cases reached
    exact inv
  | cons label later ih =>
    obtain ⟨next,moved,rest⟩ := Option.bind_eq_some_iff.mp reached
    exact ih (kept_step inv ok cfg moved).inv rest

/-- Over every run of `execute` that is admitted, whatever is cancelled, times out,
    panics or is dropped: a handler is started only when all edges into its node are
    satisfied by terminal predecessors and, unless the guard of a dropped caller has
    run, while its node is not terminal; it is started at most once more than there
    are retries, and never after it answered `Ok`; terminal states stay; and when
    `execute` has returned or its guard has run, every node is terminal. -/
theorem execute_safe (name : String) (calls : List Call) (cfg : Config) (locked cancelled : Bool) (labels : List Label)
    (s : State) (reached : run cfg (State.init (build name calls) locked cancelled) labels = some s) :
    (∀ label s' id, step cfg s label = some s' → s'.events = s.events ++ [.started id] →
      (∀ e ∈ (build name calls).edges, e.target = id →
        ∃ state, stateOf s.graph e.source = some state ∧ state.is_terminal = true ∧ satisfied state e = true) ∧
      (s.main ≠ .dropped → ∃ state, stateOf s.graph id = some state ∧ state.is_terminal = false)) ∧
    (∀ id, starts s.events id ≤ maxRetries (build name calls) id + 1) ∧
    (∀ id before after, s.events = before ++ .answered id true :: after → .started id ∉ after) ∧
    (∀ label s' id state, step cfg s label = some s' → stateOf s.graph id = some state → state.is_terminal = true →
      stateOf s'.graph id = some state) ∧
    ((∃ result, s.main = .finished result) ∨ s.main = .dropped →
      ∀ id state, stateOf s.graph id = some state → state.is_terminal = true) := by
  have ok := repOk_build name calls
  have inv := inv_run (inv_init (build name calls) locked cancelled) ok cfg reached
  refine ⟨fun label s' id moved start => ?_,inv.budget,inv.once,fun label s' id state moved known terminal => ?_,fun ended => ?_⟩
  · rcases (kept_step inv ok cfg moved).seen with same | ⟨t,member,⟨k,pc⟩,called⟩ | ⟨x,answer,answered⟩
    · rw [same] at start
      simp at start
    · have node : t.node = id := by
        rw [called] at start
        simpa using start
      subst node
      constructor
      · intro e inside target
        rw [← edges_of_shape inv.same] at inside
        obtain ⟨state,known,holds⟩ := inv.free t member e inside target
        exact ⟨state,known,terminal_of_satisfied holds,holds⟩
      · intro live
        refine ⟨.Running,?_,rfl⟩
        rw [inv.live_state member (by simp [pc])]
        cases main : s.main <;> first | exact absurd main live | rfl
    · rw [answered] at start
      simp at start
  · exact (kept_step inv ok cfg moved).forward.terminal id state known terminal
  · have phase := inv.phase
    rcases ended with ⟨result,main⟩ | main
    · simp only [Phase,main] at phase
      exact phase.2
    · simp only [Phase,main] at phase
      exact phase

end

/-- An executor without limits. -/
def unlimited : Config := ⟨none,none,none,byName⟩

/-- A graph of one task without retries. -/
def oneTask : List Call := [.add_node (Node.new ⟨1⟩ .Task "fetch")]

/-- The schedule of a run that executes one task to its end. -/
def oneTaskLabels : List Label :=
  List.replicate 7 Label.advance ++ ([.task 0 .acquire,.task 0 .check,.task 0 .call,.task 0 (.answer true),.task 0 (.finish 5),.join 0] : List Label) ++
    List.replicate 5 Label.advance

def MainPc.isFinished : MainPc → Bool
  | .finished _ => true
  | _ => false

theorem one_task_safe : ∃ s, run unlimited (State.init (build "one" oneTask) false false) oneTaskLabels = some s ∧
    s.events = [.started ⟨1⟩,.answered ⟨1⟩ true] ∧ starts s.events ⟨1⟩ ≤ 1 ∧
    ∀ id state, stateOf s.graph id = some state → state.is_terminal = true := by
  have possible : (run unlimited (State.init (build "one" oneTask) false false) oneTaskLabels).map
      (fun s => (s.events,MainPc.isFinished s.main)) = some ([.started ⟨1⟩,.answered ⟨1⟩ true],true) := by decide
  obtain ⟨s,reached,seen⟩ := Option.map_eq_some_iff.mp possible
  obtain ⟨events,finished⟩ := Prod.mk.inj seen
  obtain ⟨_,budget,_,_,final⟩ := execute_safe "one" oneTask unlimited false false oneTaskLabels s reached
  refine ⟨s,reached,events,budget ⟨1⟩,final (.inl ?_)⟩
  cases main : s.main <;> simp [main,MainPc.isFinished] at finished ⊢

/-- A route on an output is refused before any work, and its nodes stay pending. -/
theorem output_route_left_pending : ∃ s,
    run unlimited (State.init (build "route" [.add_node (Node.new ⟨1⟩ .Task "fetch"),.add_node (Node.new ⟨2⟩ .Task "ship"),
      .add_edge { Edge.new ⟨1⟩ ⟨2⟩ .Conditional with condition := some (.OnOutput "done") }]) false false) [.advance] = some s ∧
    s.main = .rejected .UnsupportedOutputCondition ∧ stateOf s.graph ⟨1⟩ = some .Pending :=
  ⟨_,rfl,rfl,by decide⟩

end Daf.GraphSafety
