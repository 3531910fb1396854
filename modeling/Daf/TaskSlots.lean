import Daf.AgentLifecycle
import Daf.MiddlewareStacks
import Daf.Json

/-!
The tasks of an agent instance. Each call of `process_task` takes a slot before its handler runs and gives
it back whatever comes of the handler: a result, an error, a timeout, or a caller that drops the call. The
calls and changes of the agent's state come in any order.
-/
namespace Daf.TaskSlots
open Daf.Runs Daf.Interleaving
open Daf.GraphNodes (Duration)
open Daf.MissionPlan (DafError AgentId)
open Daf.AgentLifecycle (InstanceState)
open Daf.MiddlewareStacks (pattern_matches)
open Daf.UuidText (Uuid)

structure SdkTaskSpec where
  id : Uuid
  name : String
  description : String
  inputs : Json.Value
  timeout : Duration
  required_capabilities : List String

structure SdkTaskResult where
  task_id : Uuid
  success : Bool
  output : Json.Value
  error : Option String
  duration : Duration

/-- A registered handler, by its number. -/
abbrev TaskHandler := Nat

structure HandlerRegistry where
  task_handlers : List (String × TaskHandler)
  default_task_handler : Option TaskHandler

def HandlerRegistry.find_task_handler (registry : HandlerRegistry) (capability : String) : Option TaskHandler :=
  match registry.task_handlers.find? fun entry => pattern_matches entry.1.toList capability.toList with
  | some (_,handler) => some handler
  | none => registry.default_task_handler

structure RuntimeStats where
  tasks_completed : Nat
  tasks_failed : Nat
deriving DecidableEq,Repr

/-- What an instance is made with. -/
structure Setup where
  id : AgentId
  handler_registry : HandlerRegistry
  max_concurrent_tasks : Nat

/-- What the calls share. -/
structure AgentInstance where
  state : InstanceState
  task_slots : Nat
  stats : RuntimeStats
deriving DecidableEq,Repr

def AgentInstance.new (setup : Setup) : AgentInstance := ⟨.Created,setup.max_concurrent_tasks,⟨0,0⟩⟩

abbrev TaskOutcome := Except DafError SdkTaskResult

/-- Where a call of `process_task` is. From `lookup` to `release` it holds a slot. -/
inductive Phase where
  | check
  | acquire
  | lookup
  | running (handler : TaskHandler)
  | count (result : TaskOutcome)
  | release (result : TaskOutcome)
  | returned (result : TaskOutcome)
  /-- Returned without a slot. -/
  | refused (error : DafError)
  /-- The caller has dropped the call. -/
  | dropped

inductive Call where
  | process_task (task : SdkTaskSpec) (phase : Phase)
  /-- A write of the lifecycle; `written` once it is done. -/
  | set_state (state : InstanceState) (written : Bool)

inductive Request where
  | process_task (task : SdkTaskSpec)
  | set_state (state : InstanceState)

/-- What comes next where a handler runs; elsewhere a call just goes on. -/
inductive Choice where
  | go
  | finish (result : TaskOutcome)
  | elapse
  | drop

def enter : Request → Call
  | .process_task task => .process_task task .check
  | .set_state state => .set_state state false

def capability (task : SdkTaskSpec) : String := (task.required_capabilities.head?).getD task.name

def timedOut (task : SdkTaskSpec) : TaskOutcome := .error (.TimeoutError "SDK task" task.timeout)

/-- A result that counts as a completed task. -/
def succeeded : TaskOutcome → Bool
  | .ok result => result.success
  | .error _ => false

def AgentInstance.count (agent : AgentInstance) (result : TaskOutcome) : AgentInstance :=
  if succeeded result then { agent with stats.tasks_completed := agent.stats.tasks_completed + 1 }
  else { agent with stats.tasks_failed := agent.stats.tasks_failed + 1 }

def processTask (setup : Setup) (agent : AgentInstance) (task : SdkTaskSpec) (phase : Phase) (choice : Choice) : AgentInstance × Phase :=
  match phase with
  | .check => (agent,if agent.state ≠ .Running then .refused (.AgentError (some setup.id.uuid) "agent is not running") else .acquire)
  | .acquire =>
    if agent.task_slots = 0 then (agent,.refused (.ResourceExhausted "SDK task slots"))
    else ({ agent with task_slots := agent.task_slots - 1 },.lookup)
  | .lookup =>
    match setup.handler_registry.find_task_handler (capability task) with
    | none => (agent,.count (.error (.NotFound "task_handler" (capability task))))
    | some handler => (agent,if task.timeout = 0 then .count (timedOut task) else .running handler)
  | .running handler =>
    match choice with
    | .go => (agent,.running handler)
    | .finish result => (agent,.count result)
    | .elapse => (agent,.count (timedOut task))
    | .drop => ({ agent with task_slots := agent.task_slots + 1 },.dropped)
  | .count result => (agent.count result,.release result)
  | .release result => ({ agent with task_slots := agent.task_slots + 1 },.returned result)
  | .returned result => (agent,.returned result)
  | .refused error => (agent,.refused error)
  | .dropped => (agent,.dropped)

def act (setup : Setup) (agent : AgentInstance) (call : Call) (choice : Choice) : AgentInstance × Call :=
  match call with
  | .process_task task phase =>
    let (agent,phase) := processTask setup agent task phase choice
    (agent,.process_task task phase)
  | .set_state state false => ({ agent with state },.set_state state true)
  | .set_state state true => (agent,.set_state state true)

def tasks (setup : Setup) : System AgentInstance Call Request Choice := ⟨.new setup,enter,fun _ agent call choice => act setup agent call choice⟩

abbrev World := Interleaving.World AgentInstance Call

abbrev Step := Interleaving.Event Request Choice

def run (setup : Setup) (events : List Step) : World := (tasks setup).run events

/-! ### What the calls hold and count for -/

def Phase.holds : Phase → Bool
  | .lookup | .running _ | .count _ | .release _ => true
  | _ => false

/-- The result of a call that was counted. -/
def Phase.counted : Phase → Option TaskOutcome
  | .release result | .returned result => some result
  | _ => none

def Phase.ended : Phase → Bool
  | .returned _ | .refused _ | .dropped => true
  | _ => false

def Phase.runs : Phase → Bool
  | .running _ => true
  | _ => false

/-- A condition on the calls of `process_task`. -/
def Call.task (p : Phase → Bool) : Call → Bool
  | .process_task _ phase => p phase
  | .set_state _ _ => false

def Phase.counts (success : Bool) (phase : Phase) : Bool :=
  match phase.counted with
  | some result => succeeded result == success
  | none => false

/-- A condition, as a number. -/
def weight (p : Phase → Bool) (call : Call) : Nat := if call.task p then 1 else 0

theorem weight_tally (p : Phase → Bool) (w : World) : w.tally (weight p) = w.calls.countP (Call.task p) := tally_countP fun _ _ => rfl

section
variable {setup : Setup}

/-- A step takes a slot when its call comes to hold one, and gives it back when it ends. -/
theorem slots_act (agent : AgentInstance) (call : Call) (choice : Choice) :
    (act setup agent call choice).1.task_slots + weight Phase.holds (act setup agent call choice).2 = agent.task_slots + weight Phase.holds call := by
  cases call with
  | set_state state written => cases written <;> rfl
  | process_task task phase =>
    cases phase with
    | check => simp only [act,processTask]; split_ifs <;> rfl
    | acquire =>
      simp only [act,processTask]
      split_ifs with none
      · rfl
      · show agent.task_slots - 1 + 1 = agent.task_slots + 0
        omega
    | lookup =>
      simp only [act,processTask]
      cases setup.handler_registry.find_task_handler (capability task) with
      | none => rfl
      | some handler => by_cases zero : task.timeout = 0 <;> simp [zero,weight,Call.task,Phase.holds]
    | running handler => cases choice <;> rfl
    | count result =>
      simp only [act,processTask,AgentInstance.count]
      split_ifs <;> rfl
    | _ => rfl

/-- A counter goes up when the result of its kind is counted. -/
theorem stats_act (agent : AgentInstance) (call : Call) (choice : Choice) :
    (act setup agent call choice).1.stats.tasks_completed + weight (Phase.counts true) call =
        agent.stats.tasks_completed + weight (Phase.counts true) (act setup agent call choice).2 ∧
      (act setup agent call choice).1.stats.tasks_failed + weight (Phase.counts false) call =
        agent.stats.tasks_failed + weight (Phase.counts false) (act setup agent call choice).2 := by
  cases call with
  | set_state state written => cases written <;> exact ⟨rfl,rfl⟩
  | process_task task phase =>
    cases phase with
    | check => simp only [act,processTask]; split_ifs <;> exact ⟨rfl,rfl⟩
    | acquire => simp only [act,processTask]; split_ifs <;> exact ⟨rfl,rfl⟩
    | lookup =>
      simp only [act,processTask]
      cases setup.handler_registry.find_task_handler (capability task) with
      | none => exact ⟨rfl,rfl⟩
      | some handler => by_cases zero : task.timeout = 0 <;> simp [zero,weight,Call.task,Phase.counts,Phase.counted]
    | running handler => cases choice <;> exact ⟨rfl,rfl⟩
    | count result =>
      simp only [act,processTask,AgentInstance.count]
      cases success : succeeded result <;> simp [weight,Call.task,Phase.counts,Phase.counted,success]
    | _ => exact ⟨rfl,rfl⟩

theorem weight_enter (p : Phase → Bool) (waits : p .check = false) (request : Request) : weight p (enter request) = 0 := by
  cases request with
  | process_task task => simp [weight,enter,Call.task,waits]
  | set_state state => rfl

/-- The free slots and the calls that hold one are as many as the instance may run. -/
theorem slots_held (setup : Setup) (events : List Step) :
    (run setup events).shared.task_slots + (run setup events).calls.countP (Call.task Phase.holds) = setup.max_concurrent_tasks := by
  rw [← weight_tally]
  exact balance (weight_enter Phase.holds rfl) (fun _ agent call choice => slots_act agent call choice) events

theorem runs_holds (call : Call) (runs : call.task Phase.runs = true) : call.task Phase.holds = true := by
  cases call with
  | set_state state written => cases runs
  | process_task task phase =>
    cases phase with
    | running handler => rfl
    | _ => cases runs

theorem ended_free {phase : Phase} (holds : phase.holds = true) : phase.ended = false := by
  cases phase <;> first | rfl | cases holds

/-- A call that comes for a slot. -/
theorem step_acquire {w : World} {n : Nat} {task : SdkTaskSpec} (there : w.calls[n]? = some (.process_task task .acquire)) (choice : Choice) :
    ((tasks setup).step w (.act n choice)).calls[n]? =
      some (.process_task task (if w.shared.task_slots = 0 then .refused (.ResourceExhausted "SDK task slots") else .lookup)) := by
  rw [own_act there]
  simp only [tasks,act,processTask]
  split_ifs <;> rfl

def Call.ended : Call → Bool
  | .process_task _ phase => phase.ended
  | .set_state _ _ => true

/-- In every order of calls, results, timeouts, dropped calls and changes of the agent's state: no more handlers run than the limit
    allows, a call is refused a slot just when all of them are held, and when all calls have ended all slots are free. -/
theorem slots_run (setup : Setup) (events : List Step) :
    (run setup events).calls.countP (Call.task Phase.runs) ≤ setup.max_concurrent_tasks ∧
      (∀ n task choice, (run setup events).calls[n]? = some (.process_task task .acquire) →
        (((tasks setup).step (run setup events) (.act n choice)).calls[n]? = some (.process_task task (.refused (.ResourceExhausted "SDK task slots"))) ↔
          (run setup events).calls.countP (Call.task Phase.holds) = setup.max_concurrent_tasks)) ∧
      ((∀ call ∈ (run setup events).calls, call.ended = true) → (run setup events).shared.task_slots = setup.max_concurrent_tasks) := by
  have held := slots_held setup events
  refine ⟨?_,fun n task choice there => ?_,fun ended => ?_⟩
  · have fewer := List.countP_mono_left (l := (run setup events).calls) fun call _ => runs_holds call
    omega
  · rw [step_acquire there]
    by_cases none : (run setup events).shared.task_slots = 0
    · rw [if_pos none]
      exact ⟨fun _ => by omega,fun _ => rfl⟩
    · rw [if_neg none]
      refine ⟨fun same => by simp at same,fun all => by omega⟩
  · have nothing : (run setup events).calls.countP (Call.task Phase.holds) = 0 := by
      rw [List.countP_eq_zero]
      intro call member holds
      have done := ended call member
      cases call with
      | set_state state written => cases holds
      | process_task task phase =>
        rw [Call.ended,ended_free holds] at done
        cases done
    omega

end

/-- An agent with one slot and a handler for every task. -/
def single : Setup := ⟨⟨1⟩,⟨[("*",0)],none⟩,1⟩

def lint : SdkTaskSpec := ⟨1,"lint","Run linter",.null,60,[]⟩

/-- One task is under way and another one asks for a slot. -/
def twoTasks : List Step :=
  [.call (.set_state .Running),.act 0 .go,.call (.process_task lint),.act 1 .go,.act 1 .go,.act 1 .go,.call (.process_task lint),.act 2 .go]

theorem second_refused : ((tasks single).step (run single twoTasks) (.act 2 .go)).calls[2]? =
    some (.process_task lint (.refused (.ResourceExhausted "SDK task slots"))) :=
  ((slots_run single twoTasks).2.1 2 lint .go (by rfl)).mpr (by decide)

end Daf.TaskSlots
