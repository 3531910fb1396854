import Daf.Interrupted
import Daf.MissionPlan
import Daf.UuidText

/-!
The execution of a mission: phase after phase in the resolved order, the tasks of a
phase one after the other, with retries and deadlines. What the code learns from
outside (the clock, the shutdown flag, the router, the workers, a dropped future) comes
from an environment that may answer each question differently.
-/
namespace Daf.MissionRun
open Daf.GraphNodes Daf.MissionPlan Daf.Interrupted

/-! ### The environment -/

inductive Sleep where
  | woken
  /-- The deadline passed first. -/
  | elapsed
  /-- The future of the mission was dropped. -/
  | dropped
deriving DecidableEq,Repr

/-- How the future of a worker ended. -/
inductive Execution where
  | returned (result : Except DafError Unit)
  /-- The deadline passed first, and the future was dropped. -/
  | elapsed

/-- The answers of the environment to the question with a number. -/
structure Env where
  now : Nat → Nat
  shutdown : Nat → Bool
  route : Nat → Except DafError AgentId
  /-- Whether the chosen agent still has a worker. -/
  registered : Nat → Bool
  sleep : Nat → Sleep
  /-- The last instant that the platform can represent. -/
  lastInstant : Nat

inductive MissionState where
  | Planning | Executing | Paused | Completed | Failed | Cancelled
deriving DecidableEq,Repr

inductive Event where
  /-- A task of this type is sent to an agent. -/
  | dispatch (phase : Nat) (task_type : String)
  | finished (phase : Nat) (succeeded : Bool)
deriving DecidableEq,Repr

structure Exec (ω : Type) where
  /-- The number of questions to the environment so far. -/
  tick : Nat
  trace : List Event
  /-- The state that the orchestrator shows for the mission. -/
  state : Option MissionState
  /-- What the workers work on. -/
  world : ω

section
variable {ω : Type}

def ask {α : Type} (answers : Nat → α) : Prog (Exec ω) α := do
  let x ← get
  set { x with tick := x.tick + 1 }
  pure (answers x.tick)

def emit (event : Event) : Prog (Exec ω) Unit := modify (fun x => { x with trace := x.trace ++ [event] })

def setState (state : MissionState) : Prog (Exec ω) Unit := modify (fun x => { x with state := some state })

/-- Run a program of the workers. -/
def inWorld {α : Type} (m : Prog ω α) : Prog (Exec ω) α :=
  (fun x => ((exec m x.world).1,{ x with world := (exec m x.world).2 }) : StateM (Exec ω) (Option α))

/-- The sum of an instant and a duration panics where it cannot be represented. -/
def after (env : Env) (instant : Nat) (d : Duration) : Prog (Exec ω) Nat :=
  if env.lastInstant < instant + d then failure else pure (instant + d)

/-! ### One task -/

/-- What is reported of a failed task: the text of an error, or a text of the engine. -/
inductive Failure where
  | error (e : DafError)
  | text (s : String)
deriving DecidableEq,Repr

structure Tally where
  tasks_succeeded : Nat
  tasks_failed : Nat
  tasks_skipped : Nat
  retries_used : Nat
  agents_used : List AgentId
  last_error : Option Failure

def Tally.zero : Tally := ⟨0,0,0,0,[],none⟩

/-- The deadline has passed, or the orchestrator is shutting down. -/
def expired (env : Env) (deadline : Nat) : Prog (Exec ω) Bool := do
  let now ← ask env.now
  if deadline ≤ now then pure true else ask env.shutdown

def dispatch_executable_task (env : Env) (phase : Nat) (task : TaskSpec) : Prog (Exec ω) (Except DafError AgentId) := do
  emit (.dispatch phase task.task_type)
  if ← ask env.shutdown then pure (.error (.Internal "orchestrator is shutting down, cannot dispatch")) else ask env.route

/-- The execution boundary of the workers. -/
abbrev Worker (ω : Type) := AgentId → TaskSpec → Prog ω Execution

/-- The deadline of a task within that of its phase. -/
def taskDeadline (env : Env) (task : TaskSpec) (deadline : Nat) : Prog (Exec ω) Nat :=
  match task.timeout with
  | none => pure deadline
  | some d => do
    let now ← ask env.now
    let own ← after env now d
    pure (min own deadline)

def execute (env : Env) (worker : Worker ω) (task : TaskSpec) (phase_start deadline : Nat) (agent : AgentId) :
    Prog (Exec ω) (Except DafError Unit) := do
  let registered ← ask env.registered
  let task_deadline ← taskDeadline env task deadline
  if registered then
    let now ← ask env.now
    if task_deadline ≤ now then pure (.error (.TimeoutError task.task_type (task.timeout.getD 0)))
    else
      match ← inWorld (worker agent task) with
      | .returned result => pure result
      | .elapsed => pure (.error (.TimeoutError task.task_type (task.timeout.getD (deadline - phase_start))))
  else pure (.error (.ConfigError ("no worker handler registered for " ++ UuidText.toText agent.uuid)))

/-- The pause before an attempt that is not the first one. -/
def backoff (env : Env) (deadline attempt : Nat) (tally : Tally) : Prog (Exec ω) (Except String Tally) :=
  if attempt = 0 then pure (.ok tally)
  else do
    match ← ask env.sleep with
    | .dropped => failure
    | .elapsed => pure (.error "deadline exceeded during retry backoff")
    | .woken => do
      if ← expired env deadline then pure (.error "deadline exceeded or shutdown after backoff")
      else pure (.ok { tally with retries_used := tally.retries_used + 1 })

/-- Send the task to an agent and await the result. -/
def tryOnce (env : Env) (worker : Worker ω) (phase : Nat) (task : TaskSpec) (phase_start deadline : Nat) (tally : Tally) :
    Prog (Exec ω) (Except DafError Unit × Tally) := do
  match ← dispatch_executable_task env phase task with
  | .error e => pure (.error e,tally)
  | .ok agent => do
    let result ← execute env worker task phase_start deadline agent
    pure (result,{ tally with agents_used := tally.agents_used ++ [agent] })

/-- The attempts at a task, and whether one of them succeeded. -/
def attempts (env : Env) (worker : Worker ω) (phase : Nat) (task : TaskSpec) (phase_start deadline : Nat) :
    Nat → Nat → Tally → Prog (Exec ω) (Bool × Tally)
  | 0,_,tally => pure (false,tally)
  | left + 1,attempt,tally => do
    if ← expired env deadline then
      pure (false,{ tally with last_error := some (.text "deadline exceeded or shutdown requested") })
    else
      match ← backoff env deadline attempt tally with
      | .error reason => pure (false,{ tally with last_error := some (.text reason) })
      | .ok tally => do
        match ← tryOnce env worker phase task phase_start deadline tally with
        | (.ok (),tally) => pure (true,tally)
        | (.error e,tally) =>
          attempts env worker phase task phase_start deadline left (attempt + 1) { tally with last_error := some (.error e) }

/-! ### Phases -/

structure Config where
  max_concurrent_missions : Nat
  wave_timeout_secs : Nat
  fail_fast : Bool

structure PhaseResult where
  phase_name : String
  succeeded : Bool
  tasks_succeeded : Nat
  tasks_failed : Nat
  tasks_skipped : Nat
  duration : Duration
  error : Option Failure
  agents_used : List AgentId
  retries_used : Nat

abbrev Outcomes := AList (fun _ : String => Bool)

/-- Some phase that this one names did not succeed, or did not run. -/
def blocked (outcomes : Outcomes) (phase : Phase) : Bool := phase.dependencies.any (fun name => outcomes.lookup name ≠ some true)

/-- Whether the next task is skipped. -/
def skips (env : Env) (stopped : Bool) : Prog (Exec ω) Bool := do
  if ← ask env.shutdown then pure true else pure stopped

/-- The tasks of a phase in order; `stopped` says that they are skipped in any case. -/
def runTasks (env : Env) (worker : Worker ω) (idx phase_start deadline max_retries : Nat) (stopped : Bool) :
    List TaskSpec → Tally → Prog (Exec ω) Tally
  | [],tally => pure tally
  | task :: later,tally => do
    if ← skips env stopped then
      runTasks env worker idx phase_start deadline max_retries stopped later { tally with tasks_skipped := tally.tasks_skipped + 1 }
    else
      let (success,tally) ← attempts env worker idx task phase_start deadline (max_retries + 1) 0 tally
      let tally := if success then { tally with tasks_succeeded := tally.tasks_succeeded + 1 }
        else { tally with tasks_failed := tally.tasks_failed + 1 }
      runTasks env worker idx phase_start deadline max_retries stopped later tally

/-- The deadline of a phase within those of its wave and of the mission. -/
def phaseDeadline (env : Env) (phase : Phase) (wave_deadline : Nat) (mission_deadline : Option Nat) (phase_start : Nat) :
    Prog (Exec ω) Nat :=
  let deadline := (mission_deadline.map (min wave_deadline)).getD wave_deadline
  match phase.timeout with
  | none => pure deadline
  | some d => do
    let own ← after env phase_start d
    pure (min deadline own)

structure Progress where
  phase_results : List PhaseResult
  failed : Bool
  outcomes : Outcomes

def runPhase (env : Env) (worker : Worker ω) (config : Config) (mission : Mission) (wave_deadline : Nat)
    (mission_deadline : Option Nat) (idx : Nat) (phase : Phase) (progress : Progress) : Prog (Exec ω) Progress := do
  let phase_start ← ask env.now
  let deadline ← phaseDeadline env phase wave_deadline mission_deadline phase_start
  let isBlocked := blocked progress.outcomes phase
  let policy := mission.effective_retry_policy phase
  let stopped := isBlocked || (progress.failed && config.fail_fast)
  let tally ← runTasks env worker idx phase_start deadline policy.max_retries stopped phase.tasks .zero
  let succeeded := tally.tasks_failed == 0 && tally.tasks_skipped == 0 && !isBlocked
  emit (.finished idx succeeded)
  let now ← ask env.now
  let error := if succeeded then none
    else some (tally.last_error.getD (.text "phase skipped due to failed dependency, fail-fast or shutdown"))
  pure {
    phase_results := progress.phase_results ++ [⟨phase.name,succeeded,tally.tasks_succeeded,tally.tasks_failed,tally.tasks_skipped,
      now - phase_start,error,tally.agents_used,tally.retries_used⟩]
    failed := progress.failed || !succeeded
    outcomes := progress.outcomes.insert phase.name succeeded }

def runWave (env : Env) (worker : Worker ω) (config : Config) (mission : Mission) (wave_deadline : Nat)
    (mission_deadline : Option Nat) : List Nat → Progress → Prog (Exec ω) Progress
  | [],progress => pure progress
  | idx :: later,progress =>
    match mission.phases[idx]? with
    | none => failure
    | some phase => do
      let progress ← runPhase env worker config mission wave_deadline mission_deadline idx phase progress
      runWave env worker config mission wave_deadline mission_deadline later progress

def runWaves (env : Env) (worker : Worker ω) (config : Config) (mission : Mission) (mission_deadline : Option Nat) :
    List (List Nat) → Progress → Prog (Exec ω) Progress
  | [],progress => pure progress
  | wave :: later,progress => do
    let now ← ask env.now
    let wave_deadline ← after env now (Duration.from_secs config.wave_timeout_secs)
    let progress ← runWave env worker config mission wave_deadline mission_deadline wave progress
    runWaves env worker config mission mission_deadline later progress

/-! ### Missions -/

structure MissionResult where
  mission_id : MissionId
  state : MissionState
  phase_results : List PhaseResult
  total_duration : Duration

def missionDeadline (env : Env) (mission : Mission) (start : Nat) : Prog (Exec ω) (Option Nat) :=
  match mission.timeout with
  | none => pure none
  | some d => do
    let deadline ← after env start d
    pure (some deadline)

/-- The part under the lease that marks the mission as cancelled when it is dropped. -/
def leased (env : Env) (worker : Worker ω) (config : Config) (mission : Mission) (waves : List (List Nat)) :
    Prog (Exec ω) MissionResult := do
  let start ← ask env.now
  let mission_deadline ← missionDeadline env mission start
  setState .Executing
  let progress ← runWaves env worker config mission mission_deadline waves ⟨[],false,∅⟩
  let shutdown ← ask env.shutdown
  let state := if shutdown then .Cancelled else if progress.failed then .Failed else .Completed
  setState state
  let now ← ask env.now
  pure ⟨mission.id,state,progress.phase_results,now - start⟩

/-- The lease: a mission that is dropped while it executes is cancelled. -/
def withLease {α : Type} (body : Prog (Exec ω) α) : Prog (Exec ω) α :=
  (fun x => match exec body x with
    | (some a,y) => (some a,y)
    | (none,y) =>
      (none,{ y with state := if y.state = some .Executing then some .Cancelled else y.state }) : StateM (Exec ω) (Option α))

def run_mission_async (env : Env) (worker : Worker ω) (config : Config) (active_missions : List MissionId) (mission : Mission) :
    Prog (Exec ω) (Except DafError MissionResult) :=
  match mission.resolve_execution_order with
  | .error e => pure (.error e)
  | .ok waves => do
    if ← ask env.shutdown then pure (.error (.Internal "orchestrator is shutting down"))
    else if mission.id ∈ active_missions then pure (.error (.ConfigError "mission is already executing"))
    else if config.max_concurrent_missions ≤ active_missions.length then pure (.error (.ResourceExhausted "mission slots"))
    else do
      let result ← withLease (leased env worker config mission waves)
      pure (.ok result)

end
end Daf.MissionRun
