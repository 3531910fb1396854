import Daf.GraphScheduler

/-!
The graph executor as a machine of interleaved steps. The main future plans a
wave, spawns a task for each of its nodes and joins them; the tasks run their
handlers with retries and record the outcomes. Whoever is next is chosen by a
label, and so is everything that the executor does not decide: when the token is
cancelled, which timeout fires, what a handler answers, whether it panics, and
when the caller drops the future.
-/
namespace Daf.GraphExecutor
open Daf.GraphNodes Daf.GraphDag Daf.GraphInvariant Daf.GraphStates Daf.GraphScheduler

structure Config where
  max_concurrency : Option Nat
  node_timeout : Option Duration
  global_timeout : Option Duration
  order : Tiebreak

def Config.scheduler (cfg : Config) : WaveScheduler := ⟨cfg.max_concurrency,cfg.order⟩

/-- The largest number of permits that a semaphore can be created with. -/
def MAX_PERMITS : Nat := (2^64 - 1) / 8

/-- Creating the semaphore of the executor panics. -/
def Config.tooManyPermits (cfg : Config) : Bool :=
  match cfg.max_concurrency with
  | none => false
  | some max => MAX_PERMITS < max

structure ExecutionProgress where
  nodes_completed : Nat
  nodes_total : Nat
  current_wave : Nat
  total_waves : Nat
  nodes_running : Nat
  nodes_failed : Nat
  nodes_skipped : Nat
deriving DecidableEq,Repr

def progress (g : ExecutionGraph) (current_wave total_waves : Nat) : ExecutionProgress where
  nodes_completed := g.graph.nodes.countP (·.state.is_terminal)
  nodes_total := g.node_count
  current_wave
  total_waves
  nodes_running := g.graph.nodes.countP (fun n => n.state = .Running)
  nodes_failed := g.graph.nodes.countP (fun n => n.state = .Failed)
  nodes_skipped := g.graph.nodes.countP (fun n => n.state = .Skipped)

/-- Mark all non-terminal nodes as cancelled. -/
def cancel_remaining_nodes (g : ExecutionGraph) : ExecutionGraph :=
  ((g.graph.nodes.filter (fun n => !n.state.is_terminal)).map (·.id)).foldl
    (fun g id => g.modifyNode id (fun n => { n with state := .Cancelled })) g

/-- Mark the nodes of a wave as ready, where they are still pending. -/
def markReady (g : ExecutionGraph) (wave : List NodeId) : ExecutionGraph :=
  wave.foldl (fun g id => g.modifyNode id (fun n => if n.state = .Pending then { n with state := .Ready } else n)) g

def markRunning (g : ExecutionGraph) (id : NodeId) : ExecutionGraph :=
  g.modifyNode id (fun n => { n with state := .Running })

/-- The nodes of a wave that are ready. -/
def runnable (g : ExecutionGraph) (wave : List NodeId) : List NodeId := wave.filter (fun id => stateOf g id = some .Ready)

/-! ### Tasks -/

inductive Attempt where
  | ok | err | cancelled
deriving DecidableEq,Repr

/-- The state that a task records for its node. -/
def Attempt.state : Attempt → NodeState
  | .ok => .Succeeded
  | .err => .Failed
  | .cancelled => .Cancelled

/-- Where the future of a task stands. -/
inductive TaskPc where
  /-- Waiting for a permit of the semaphore. -/
  | waiting
  /-- At the top of the retry loop, before it looks at the token. -/
  | attempting (retries_remaining : Nat)
  /-- The token was not cancelled; the handler is called next. -/
  | calling (retries_remaining : Nat)
  /-- The future of the handler is awaited. -/
  | running (retries_remaining : Nat)
  | yielding (retries_remaining : Nat)
  /-- The retry loop has ended; the outcome is to be recorded. -/
  | finishing (result : Attempt)
  | done
  | panicked
  | aborted
deriving DecidableEq,Repr

/-- The future is alive behind its permit. -/
def TaskPc.holdsPermit : TaskPc → Bool
  | .attempting _ => true
  | .calling _ => true
  | .running _ => true
  | .yielding _ => true
  | .finishing _ => true
  | _ => false

/-- The future has ended, and can be joined. -/
def TaskPc.ended : TaskPc → Bool
  | .done => true
  | .panicked => true
  | .aborted => true
  | _ => false

/-- The future is suspended, so that an abort takes it away. -/
def TaskPc.suspended : TaskPc → Bool
  | .waiting => true
  | .running _ => true
  | .yielding _ => true
  | _ => false

structure NodeTask where
  node : NodeId
  max_retries : Nat
  timeout : Option Duration
  pc : TaskPc
deriving DecidableEq,Repr

/-- The retries that the specification of a node allows; none without one. -/
def maxRetries (g : ExecutionGraph) (id : NodeId) : Nat :=
  (((g.get_node id).bind (·.task_spec)).map (·.max_retries)).getD 0

/-- The shorter of the limit of the executor and the limit of the task. -/
def attemptTimeout (cfg : Config) (g : ExecutionGraph) (id : NodeId) : Option Duration :=
  match cfg.node_timeout,((g.get_node id).bind (·.task_spec)).bind (·.timeout) with
  | some a,some b => some (min a b)
  | a,b => a.or b

def NodeTask.spawn (cfg : Config) (g : ExecutionGraph) (id : NodeId) : NodeTask := ⟨id,maxRetries g id,attemptTimeout cfg g id,.waiting⟩

/-! ### The machine -/

inductive MainPc where
  | called
  | rejected (error : GraphError)
  | starting
  | looping (wave : Nat)
  | waved (wave : Nat) (nodes : List NodeId)
  | marked (wave : Nat) (nodes : List NodeId)
  | spawning (wave : Nat) (rest : List NodeId)
  | joining (wave : Nat)
  | ending (waves : Nat)
  | returned (result : Except GraphError ExecutionProgress)
  | draining (result : Except GraphError ExecutionProgress)
  | finished (result : Except GraphError ExecutionProgress)
  /-- The future is dropped or unwinds: its tasks are aborted, its guard has not run. -/
  | dropping
  | dropped

/-- The future of `execute_inner` is suspended, or about to be polled first. -/
def MainPc.awaits : MainPc → Bool
  | .starting => true
  | .spawning _ _ => true
  | .joining _ => true
  | _ => false

def MainPc.isDraining : MainPc → Bool
  | .draining _ => true
  | _ => false

/-- What an observer of the handlers sees. -/
inductive Event where
  | started (node : NodeId)
  | answered (node : NodeId) (ok : Bool)
deriving DecidableEq,Repr

structure State where
  graph : ExecutionGraph
  /-- The execution lock is held by another call. -/
  locked : Bool
  cancelled : Bool
  main : MainPc
  tasks : List NodeTask
  aborting : Bool
  events : List Event

def State.init (graph : ExecutionGraph) (locked cancelled : Bool) : State := ⟨graph,locked,cancelled,.called,[],false,[]⟩

inductive Action where
  | acquire | check | call
  | answer (ok : Bool)
  | timeout | interrupt | panic | resume
  | finish (elapsed : Duration)
  | reap
deriving DecidableEq,Repr

inductive Label where
  /-- Somebody cancels the token. -/
  | cancel
  /-- The main future goes on. -/
  | advance
  /-- The main future goes on and finds the global timeout exceeded. -/
  | elapsed
  /-- The outer select sees the cancelled token. -/
  | observe
  | globalTimeout
  | drop
  | join (i : Nat)
  | task (i : Nat) (act : Action)
deriving DecidableEq,Repr

/-- The end of the execution future: its guard cancels what is left. -/
def State.cleanup (s : State) (main : MainPc) : State := { s with graph := cancel_remaining_nodes s.graph, main }

/-- Drop the local variables of the future: the tasks are aborted first. -/
def State.unwind (s : State) : State := { s with main := .dropping, aborting := true }

/-- Spawn the task of a node. -/
def State.spawn (cfg : Config) (s : State) (wave : Nat) (id : NodeId) (rest : List NodeId) : State :=
  { s with
    graph := markRunning s.graph id
    tasks := s.tasks ++ [NodeTask.spawn cfg s.graph id]
    main := .spawning wave rest }

/-- The condition of the edge asks for an output of its source. -/
def asksForOutput (e : Edge) : Bool :=
  match e.effective_condition with
  | .OnOutput _ => true
  | _ => false

/-- The next step of the main future. -/
def advance (cfg : Config) (s : State) : Option State :=
  match s.main with
  | .called =>
    if s.locked then some { s with main := .rejected (.InvalidConfiguration "graph is already executing") }
    else if s.graph.edges.any asksForOutput then some { s with main := .rejected .UnsupportedOutputCondition }
    else some { s with main := .starting }
  | .starting =>
    match cfg.scheduler.plan_waves s.graph with
    | .failed error => some { s with main := .returned (.error error) }
    | .overflow => some s.unwind
    | .plan _ => if cfg.tooManyPermits then some s.unwind else some { s with main := .looping 0 }
  | .looping wave =>
    let graph := s.graph.skip_impossible_nodes
    match cfg.scheduler.plan_waves graph with
    | .failed error => some { s with graph, main := .returned (.error error) }
    | .overflow => some { s with graph }.unwind
    | .plan plan =>
      match plan.waves.head? with
      | none => some { s with graph, main := .ending wave }
      | some next => some { s with graph, main := .waved wave next.nodes }
  | .waved wave nodes =>
    if s.cancelled then some (s.cleanup (.returned (.error .Cancelled)))
    else some { s with graph := markReady s.graph nodes, main := .marked wave nodes }
  | .marked wave nodes => some { s with main := .spawning wave (runnable s.graph nodes) }
  | .spawning wave [] => some { s with main := .joining wave }
  | .spawning wave (id :: rest) => some (s.spawn cfg wave id rest)
  | .joining wave => if s.tasks = [] then some { s with main := .looping (wave + 1) } else none
  | .ending waves =>
    if s.cancelled then some { s with main := .returned (.error .Cancelled) }
    else some { s with main := .returned (.ok (progress s.graph (waves - 1) waves)) }
  | .returned result => some { s with main := .draining result, aborting := true }
  | .draining result => if s.tasks = [] then some (s.cleanup (.finished result)) else none
  | .dropping => some (s.cleanup .dropped)
  | .rejected _ => none
  | .finished _ => none
  | .dropped => none

/-- The join of a task that did not return marks its node as failed. -/
def joinFailed (s : State) (i : Nat) (id : NodeId) : State :=
  match s.graph.mark_complete id .Failed none with
  | (.error error,graph) => { s with graph, tasks := s.tasks.eraseIdx i, main := .returned (.error error) }
  | (.ok _,graph) => { s with graph, tasks := s.tasks.eraseIdx i }

/-- Join the task at a position: in the wave loop a task that did not return marks
    its node as failed, at the end of `execute` the results are ignored. -/
def joinTask (s : State) (i : Nat) : Option State :=
  match s.tasks[i]? with
  | none => none
  | some t =>
    match s.main with
    | .joining _ =>
      match t.pc with
      | .done => some { s with tasks := s.tasks.eraseIdx i }
      | .panicked => some (joinFailed s i t.node)
      | .aborted => some (joinFailed s i t.node)
      | _ => none
    | .draining _ => if t.pc.ended then some { s with tasks := s.tasks.eraseIdx i } else none
    | _ => none

/-- A permit is free. -/
def permitFree (cfg : Config) (s : State) : Bool :=
  match cfg.max_concurrency with
  | none => true
  | some max => s.tasks.countP (·.pc.holdsPermit) < max

/-- Put the task at a position to another point. -/
def State.setPc (s : State) (i : Nat) (t : NodeTask) (pc : TaskPc) : State := { s with tasks := s.tasks.set i { t with pc } }

/-- A failed attempt is repeated while retries remain. -/
def retry : Nat → TaskPc
  | 0 => .finishing .err
  | retries_remaining+1 => .yielding retries_remaining

/-- Record the outcome of a task, unless its node was cancelled. -/
def recordOutcome (g : ExecutionGraph) (id : NodeId) (result : Attempt) (elapsed : Duration) : ExecutionGraph :=
  if stateOf g id = some .Cancelled then g else (g.mark_complete id result.state (some elapsed)).2

/-- The next step of a task. -/
def taskStep (cfg : Config) (s : State) (i : Nat) (t : NodeTask) : TaskPc → Action → Option State
  | .waiting,.acquire => if permitFree cfg s then some (s.setPc i t (.attempting t.max_retries)) else none
  | .attempting k,.check => if s.cancelled then none else some (s.setPc i t (.calling k))
  | .attempting _,.interrupt => if s.cancelled then some (s.setPc i t (.finishing .cancelled)) else none
  | .calling k,.call => some { s.setPc i t (.running k) with events := s.events ++ [.started t.node] }
  | .running _,.answer true => some { s.setPc i t (.finishing .ok) with events := s.events ++ [.answered t.node true] }
  | .running k,.answer false => some { s.setPc i t (retry k) with events := s.events ++ [.answered t.node false] }
  | .running k,.timeout => if t.timeout.isSome then some (s.setPc i t (retry k)) else none
  | .running _,.interrupt => if s.cancelled then some (s.setPc i t (.finishing .cancelled)) else none
  | .running _,.panic => some (s.setPc i t .panicked)
  | .yielding k,.resume => some (s.setPc i t (.attempting k))
  | .finishing result,.finish elapsed =>
    some { s.setPc i t .done with graph := recordOutcome s.graph t.node result elapsed }
  | pc,.reap => if s.aborting && pc.suspended then some (s.setPc i t .aborted) else none
  | _,_ => none

/-- The step that a label names, if it is possible. -/
def step (cfg : Config) (s : State) : Label → Option State
  | .cancel => some { s with cancelled := true }
  | .advance => advance cfg s
  | .elapsed =>
    match s.main,cfg.global_timeout with
    | .waved _ _,some limit => if s.cancelled then none else some (s.cleanup (.returned (.error (.GlobalTimeout limit))))
    | _,_ => none
  | .observe => if s.cancelled && s.main.awaits then some { s with main := .returned (.error .Cancelled) } else none
  | .globalTimeout =>
    match cfg.global_timeout with
    | none => none
    | some limit => if s.main.awaits then some { s with main := .returned (.error (.GlobalTimeout limit)) } else none
  | .drop => if s.main.awaits || s.main.isDraining then some s.unwind else none
  | .join i => joinTask s i
  | .task i act =>
    match s.tasks[i]? with
    | none => none
    | some t => taskStep cfg s i t t.pc act

/-- The state after a schedule, if every step of it is possible. -/
def run (cfg : Config) (s : State) (labels : List Label) : Option State := labels.foldlM (step cfg) s

end Daf.GraphExecutor
