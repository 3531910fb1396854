import Daf.AgentLifecycle
import Daf.UuidText
import Mathlib.Algebra.BigOperators.Group.List.Basic
import Mathlib.Algebra.Ring.Nat
import Mathlib.Data.List.AList

/-!
Layers of middleware around a handler of messages. A handler answers, or it is dropped while it waits because a deadline around it has passed; a layer
sees what the handlers within it answer, and may call them again.
-/
namespace Daf.MiddlewareStacks
open Daf.GraphNodes
open Daf.AgentLifecycle (InstanceState)
open Daf.MissionPlan (DafError AgentId)

structure MessageId where
  uuid : BitVec 128
deriving DecidableEq,Repr

inductive MessageKind where
  | Request
  | Response
  | Event
  | Command
  | Heartbeat
  | Handoff
deriving DecidableEq,Repr

def MessageKind.to_string : MessageKind → String
  | .Request => "request"
  | .Response => "response"
  | .Event => "event"
  | .Command => "command"
  | .Heartbeat => "heartbeat"
  | .Handoff => "handoff"

inductive Priority where
  | Critical
  | High
  | Normal
  | Low
  | Background
deriving DecidableEq,Repr

structure Message where
  id : MessageId
  kind : MessageKind
  source : AgentId
  target : Option AgentId
  priority : Priority
  payload : List UInt8
  correlation_id : Option MessageId
  timestamp : Int
  ttl : Option Duration
  headers : AList fun _ : String => String

/-- What may be tried again. -/
def is_retryable : DafError → Bool
  | .TransportError _ _ retryable => retryable
  | .TimeoutError _ _ => true
  | .ResourceExhausted _ => true
  | _ => false

/-- How a call of a handler ends: with its result, or dropped by one of the deadlines around it, counted from the inside. -/
inductive Ending where
  | returned (result : Except DafError (Option Message))
  | cut (depth : Nat)

structure MetricsMiddleware where
  total_messages : UInt64
  successful : UInt64
  failed : UInt64
  total_latency_us : UInt64

/-- What the handlers share: the calls of the innermost handler so far, how often something slept and the clock was read, and the counters of each
    layer that counts. -/
structure World where
  calls : List Message
  sleeps : Nat
  readings : Nat
  metrics : Nat → MetricsMiddleware

/-- What is outside: the end of each call of the innermost handler, by all calls up to it; whether a deadline passes during a sleep; and the time that
    was measured. -/
structure Env where
  answer : List Message → Ending
  sleep : Nat → Duration → Option Nat
  elapsed : Nat → Nat

abbrev MessageHandler := Message → World → Ending × World

/-- The handler within all layers. -/
def terminal (env : Env) : MessageHandler := fun msg w => (env.answer (w.calls ++ [msg]),{ w with calls := w.calls ++ [msg] })

/-! ### The layers -/

/-- Logging leaves the message and the answer as they are. -/
structure LoggingMiddleware where
  log_payloads : Bool

def LoggingMiddleware.process (_ : LoggingMiddleware) (next : MessageHandler) : MessageHandler := fun msg w => next msg w

def World.count (w : World) (layer : Nat) (change : MetricsMiddleware → MetricsMiddleware) : World :=
  { w with metrics := Function.update w.metrics layer (change (w.metrics layer)) }

/-- The layer has its counters at a place of the world. -/
def MetricsMiddleware.process (env : Env) (layer : Nat) (next : MessageHandler) : MessageHandler := fun msg w =>
  match next msg (w.count layer fun m => { m with total_messages := m.total_messages + 1 }) with
  | (.cut depth,w) => (.cut depth,w)
  | (.returned result,w) =>
    let elapsed := UInt64.ofNat (env.elapsed w.readings)
    let w := ({ w with readings := w.readings + 1 }).count layer fun m => { m with total_latency_us := m.total_latency_us + elapsed }
    match result with
    | .ok _ => (.returned result,w.count layer fun m => { m with successful := m.successful + 1 })
    | .error _ => (.returned result,w.count layer fun m => { m with failed := m.failed + 1 })

structure RetryMiddleware where
  max_retries : Nat
  initial_backoff : Duration
  max_backoff : Duration

def MAX_DURATION : Duration := 2^64 * 1000000000 - 1

def saturating_mul (duration : Duration) (n : Nat) : Duration := min (duration * n) MAX_DURATION

/-- The attempts that are left, with the error of the last one. -/
def RetryMiddleware.attempts (retry : RetryMiddleware) (env : Env) (next : MessageHandler) (msg : Message) :
    List Nat → Option DafError → Duration → World → Ending × World
  | [],last_error,_,w => (.returned (.error (last_error.getD (.Internal "retry exhausted with no error"))),w)
  | attempt :: later,_,backoff,w =>
    match next msg w with
    | (.cut depth,w) => (.cut depth,w)
    | (.returned (.ok result),w) => (.returned (.ok result),w)
    | (.returned (.error e),w) =>
      if !is_retryable e || attempt = retry.max_retries then (.returned (.error e),w)
      else
        match env.sleep w.sleeps backoff with
        | some depth => (.cut depth,{ w with sleeps := w.sleeps + 1 })
        | none => retry.attempts env next msg later (some e) (min (saturating_mul backoff 2) retry.max_backoff) { w with sleeps := w.sleeps + 1 }

def RetryMiddleware.process (retry : RetryMiddleware) (env : Env) (next : MessageHandler) : MessageHandler := fun msg w =>
  retry.attempts env next msg (List.range (retry.max_retries + 1)) none (min retry.initial_backoff retry.max_backoff) w

structure TimeoutMiddleware where
  timeout : Duration

/-- A call that is dropped by this deadline ends with an error; one that is dropped by a later one is dropped here too. -/
def TimeoutMiddleware.process (deadline : TimeoutMiddleware) (next : MessageHandler) : MessageHandler := fun msg w =>
  match next msg w with
  | (.cut 0,w) => (.returned (.error (.TimeoutError "message handler" deadline.timeout)),w)
  | (.cut (depth + 1),w) => (.cut depth,w)
  | (.returned result,w) => (.returned result,w)

structure AuthMiddleware where
  header_key : String
  valid_tokens : List String

def AuthMiddleware.process (auth : AuthMiddleware) (next : MessageHandler) : MessageHandler := fun msg w =>
  match msg.headers.lookup auth.header_key with
  | some token =>
    if auth.valid_tokens.contains token then next msg w
    else (.returned (.error (.Unauthorized ("invalid auth token in header '" ++ auth.header_key ++ "'"))),w)
  | none => (.returned (.error (.Unauthorized ("missing auth header '" ++ auth.header_key ++ "'"))),w)

inductive Middleware where
  | logging (layer : LoggingMiddleware)
  /-- The place of its counters. -/
  | metrics (layer : Nat)
  | retry (layer : RetryMiddleware)
  | timeout (layer : TimeoutMiddleware)
  | auth (layer : AuthMiddleware)

def Middleware.process (middleware : Middleware) (env : Env) (next : MessageHandler) : MessageHandler :=
  match middleware with
  | .logging layer => layer.process next
  | .metrics layer => MetricsMiddleware.process env layer next
  | .retry layer => layer.process env next
  | .timeout layer => layer.process next
  | .auth layer => layer.process next

/-! ### The two chains -/

structure MiddlewareAdapter where
  middleware : Middleware
  next : MessageHandler

def MiddlewareAdapter.handle_message (adapter : MiddlewareAdapter) (env : Env) : MessageHandler := adapter.middleware.process env adapter.next

structure MiddlewareStack where
  handler : MessageHandler
  layers : List Middleware

def MiddlewareStack.handle_message (stack : MiddlewareStack) (env : Env) : MessageHandler :=
  stack.layers.foldl (fun current layer => MiddlewareAdapter.handle_message ⟨layer,current⟩ env) stack.handler

def pattern_matches (pattern input : List Char) : Bool :=
  if pattern = ['*'] then true
  else if pattern.getLast? = some '*' then pattern.dropLast.isPrefixOf input
  else pattern = input

structure HandlerRegistry where
  message_handlers : List (String × MessageHandler)
  default_message_handler : Option MessageHandler

def HandlerRegistry.find_message_handler (registry : HandlerRegistry) (key : String) : Option MessageHandler :=
  match registry.message_handlers.find? fun entry => pattern_matches entry.1.toList key.toList with
  | some (_,handler) => some handler
  | none => registry.default_message_handler

structure RuntimeStats where
  messages_received : UInt64
  messages_processed : UInt64
  messages_failed : UInt64

structure AgentInstance where
  id : AgentId
  handler_registry : HandlerRegistry
  middleware : List Middleware
  state : InstanceState
  stats : RuntimeStats

def routing_key (msg : Message) : String := (msg.headers.lookup "routing-key").getD msg.kind.to_string

def AgentInstance.process_message (agent : AgentInstance) (env : Env) (msg : Message) (w : World) : Ending × AgentInstance × World :=
  if agent.state ≠ .Running then (.returned (.error (.AgentError (some agent.id.uuid) "agent is not running")),agent,w)
  else
    let agent := { agent with stats := { agent.stats with messages_received := agent.stats.messages_received + 1 } }
    let (ending,w) :=
      match agent.handler_registry.find_message_handler (routing_key msg) with
      | some h => agent.middleware.foldl (fun h middleware => MiddlewareAdapter.handle_message ⟨middleware,h⟩ env) h msg w
      | none => (.returned (.ok none),w)
    match ending with
    | .returned (.ok _) => (ending,{ agent with stats := { agent.stats with messages_processed := agent.stats.messages_processed + 1 } },w)
    | .returned (.error _) => (ending,{ agent with stats := { agent.stats with messages_failed := agent.stats.messages_failed + 1 } },w)
    | .cut _ => (ending,agent,w)

/-! ### What a chain does to its handler -/

/-- A result that no layer tries again. -/
def Ending.final : Ending → Bool
  | .returned (.ok _) => true
  | .returned (.error e) => !is_retryable e
  | .cut _ => false

/-- The calls that a handler has made for a message: each with that message, and the last one with the first final result, which is then the result of
    the handler. -/
structure Calls (env : Env) (msg : Message) (start new : List Message) (ending : Ending) : Prop where
  same : ∀ m ∈ new, m = msg
  settled : ∀ before m after, new = before ++ m :: after → (env.answer (start ++ before ++ [m])).final →
    after = [] ∧ ending = env.answer (start ++ before ++ [m])

/-- The handler makes at most so many calls. -/
def Within (env : Env) (bound : Nat) (h : MessageHandler) : Prop :=
  ∀ msg w, ∃ new, (h msg w).2.calls = w.calls ++ new ∧ new.length ≤ bound ∧ Calls env msg w.calls new (h msg w).1

/-- The handler makes no call for the message. -/
def Idle (h : MessageHandler) (msg : Message) : Prop := ∀ w, (h msg w).2.calls = w.calls

/-- How often a layer calls the next one at most. -/
def Middleware.tries : Middleware → Nat
  | .retry layer => layer.max_retries + 1
  | _ => 1

/-- The header of the message has a token that is valid. -/
def AuthMiddleware.Admits (auth : AuthMiddleware) (msg : Message) : Prop :=
  ∃ token, msg.headers.lookup auth.header_key = some token ∧ token ∈ auth.valid_tokens

variable {env : Env} {msg : Message} {start new later : List Message} {ending other : Ending} {bound : Nat} {next : MessageHandler} {w : World}

theorem calls_none (env : Env) (msg : Message) (start : List Message) (ending : Ending) : Calls env msg start [] ending where
  same := fun _ member => absurd member List.not_mem_nil
  settled := by
    intro before m after split
    simp at split

/-- Calls after a result that may be tried again. -/
theorem Calls.append (first : Calls env msg start new ending) (retried : ending.final = false) (second : Calls env msg (start ++ new) later other) :
    Calls env msg start (new ++ later) other where
  same := fun m member => (List.mem_append.mp member).elim (first.same m) (second.same m)
  settled := by
    intro before m after split final
    rcases List.append_eq_append_iff.mp split with ⟨rest,rfl,behind⟩ | ⟨rest,inside,behind⟩
    · rw [← List.append_assoc] at final ⊢
      exact second.settled rest m after behind final
    · cases rest with
      | nil =>
        rw [List.append_nil] at inside
        subst inside
        have place : start ++ new ++ [m] = start ++ new ++ [] ++ [m] := by simp
        rw [place] at final ⊢
        exact second.settled [] m after behind.symm final
      | cons d rest =>
        rw [List.cons_append,List.cons.injEq] at behind
        obtain ⟨rfl,-⟩ := behind
        have settled := (first.settled before m rest inside final).2
        rw [← settled,retried] at final
        cases final

/-- Another ending that is not final either. -/
theorem Calls.change (calls : Calls env msg start new ending) (unsettled : ending.final = false) : Calls env msg start new other where
  same := calls.same
  settled := by
    intro before m after split final
    have settled := (calls.settled before m after split final).2
    rw [← settled,unsettled] at final
    cases final

theorem terminal_within (env : Env) : Within env 1 (terminal env) := by
  intro msg w
  refine ⟨[msg],rfl,Nat.le_refl _,fun m member => List.mem_singleton.mp member,?_⟩
  intro before m after split _
  cases before with
  | nil =>
    obtain ⟨rfl,rfl⟩ := List.cons.inj split
    exact ⟨rfl,by simp [terminal]⟩
  | cons d before => simp at split

@[simp] theorem count_calls (w : World) (layer : Nat) (change : MetricsMiddleware → MetricsMiddleware) : (w.count layer change).calls = w.calls := rfl

/-- Counting changes neither the result nor the calls. -/
theorem metrics_same (env : Env) (layer : Nat) (next : MessageHandler) (msg : Message) (w : World) :
    ∃ w', w'.calls = w.calls ∧ (MetricsMiddleware.process env layer next msg w).1 = (next msg w').1 ∧
      (MetricsMiddleware.process env layer next msg w).2.calls = (next msg w').2.calls := by
  refine ⟨w.count layer fun m => { m with total_messages := m.total_messages + 1 },rfl,?_⟩
  unfold MetricsMiddleware.process
  split
  case h_1 ended => rw [ended]; exact ⟨rfl,rfl⟩
  case h_2 result w' ended =>
    rw [ended]
    cases result with
    | ok reply => exact ⟨rfl,rfl⟩
    | error e => exact ⟨rfl,rfl⟩

/-! ### One layer -/

theorem metrics_within (layer : Nat) (within : Within env bound next) : Within env bound (MetricsMiddleware.process env layer next) := by
  intro msg w
  obtain ⟨w',start,ending,after⟩ := metrics_same env layer next msg w
  rw [ending,after,← start]
  exact within msg w'

theorem timeout_within (deadline : TimeoutMiddleware) (within : Within env bound next) : Within env bound (deadline.process next) := by
  intro msg w
  obtain ⟨new,after,short,calls⟩ := within msg w
  refine ⟨new,?_⟩
  unfold TimeoutMiddleware.process
  split
  case h_1 ended =>
    rw [ended] at after calls
    exact ⟨after,short,calls.change rfl⟩
  case h_2 ended =>
    rw [ended] at after calls
    exact ⟨after,short,calls.change rfl⟩
  case h_3 ended =>
    rw [ended] at after calls
    exact ⟨after,short,calls⟩

theorem auth_within (auth : AuthMiddleware) (within : Within env bound next) : Within env bound (auth.process next) := by
  intro msg w
  unfold AuthMiddleware.process
  split
  · split_ifs
    · exact within msg w
    · exact ⟨[],(List.append_nil _).symm,Nat.zero_le _,calls_none env msg _ _⟩
  · exact ⟨[],(List.append_nil _).symm,Nat.zero_le _,calls_none env msg _ _⟩

/-- The attempts go on only behind a result that is not final. -/
theorem attempts_within (retry : RetryMiddleware) (within : Within env bound next) (msg : Message) (attempts : List Nat) (last_error : Option DafError)
    (backoff : Duration) (w : World) :
    ∃ new, (retry.attempts env next msg attempts last_error backoff w).2.calls = w.calls ++ new ∧ new.length ≤ attempts.length * bound ∧
      Calls env msg w.calls new (retry.attempts env next msg attempts last_error backoff w).1 := by
  induction attempts generalizing last_error backoff w with
  | nil => exact ⟨[],(List.append_nil _).symm,Nat.zero_le _,calls_none env msg _ _⟩
  | cons attempt later ih =>
    obtain ⟨new,after,short,calls⟩ := within msg w
    have once : new.length ≤ (attempt :: later).length * bound := by
      rw [List.length_cons,Nat.succ_mul]
      omega
    unfold RetryMiddleware.attempts
    split
    case h_1 ended =>
      rw [ended] at after calls
      exact ⟨new,after,once,calls⟩
    case h_2 ended =>
      rw [ended] at after calls
      exact ⟨new,after,once,calls⟩
    case h_3 e w' ended =>
      rw [ended] at after calls
      split_ifs with stops
      · exact ⟨new,after,once,calls⟩
      · have retried : (Ending.returned (.error e)).final = false := by
          simp only [Bool.or_eq_true,not_or,Bool.not_eq_true] at stops
          exact stops.1
        split
        · exact ⟨new,after,once,calls.change retried⟩
        · obtain ⟨more,after',short',calls'⟩ := ih (some e) (min (saturating_mul backoff 2) retry.max_backoff) { w' with sleeps := w'.sleeps + 1 }
          refine ⟨new ++ more,?_,?_,?_⟩
          · rw [after',after,List.append_assoc]
          · rw [List.length_append,List.length_cons,Nat.succ_mul]
            omega
          · exact calls.append retried (after ▸ calls')

theorem process_within (middleware : Middleware) (within : Within env bound next) : Within env (middleware.tries * bound) (middleware.process env next) := by
  cases middleware with
  | logging layer => exact (Nat.one_mul bound).symm ▸ within
  | metrics layer => exact (Nat.one_mul bound).symm ▸ metrics_within layer within
  | retry layer =>
    intro msg w
    obtain ⟨new,after,short,calls⟩ := attempts_within layer within msg (List.range (layer.max_retries + 1)) none (min layer.initial_backoff layer.max_backoff) w
    rw [List.length_range] at short
    exact ⟨new,after,short,calls⟩
  | timeout layer => exact (Nat.one_mul bound).symm ▸ timeout_within layer within
  | auth layer => exact (Nat.one_mul bound).symm ▸ auth_within layer within

theorem attempts_idle (layer : RetryMiddleware) (idle : Idle next msg) (attempts : List Nat) (last_error : Option DafError) (backoff : Duration) (w : World) :
    (layer.attempts env next msg attempts last_error backoff w).2.calls = w.calls := by
  induction attempts generalizing last_error backoff w with
  | nil => rfl
  | cons attempt later ih =>
    have same := idle w
    unfold RetryMiddleware.attempts
    split
    case h_1 ended => rwa [ended] at same
    case h_2 ended => rwa [ended] at same
    case h_3 e w' ended =>
      rw [ended] at same
      split_ifs
      · exact same
      · split
        · exact same
        · exact (ih _ _ _).trans same

/-- A layer around a handler that makes no call makes none. -/
theorem process_idle (middleware : Middleware) (idle : Idle next msg) : Idle (middleware.process env next) msg := by
  intro w
  cases middleware with
  | logging layer => exact idle w
  | metrics layer =>
    obtain ⟨w',start,-,after⟩ := metrics_same env layer next msg w
    exact after.trans ((idle w').trans start)
  | retry layer => exact attempts_idle layer idle _ _ _ w
  | timeout layer =>
    have same := idle w
    show (layer.process next msg w).2.calls = w.calls
    unfold TimeoutMiddleware.process
    split
    case h_1 ended => rwa [ended] at same
    case h_2 ended => rwa [ended] at same
    case h_3 ended => rwa [ended] at same
  | auth layer =>
    show (layer.process next msg w).2.calls = w.calls
    unfold AuthMiddleware.process
    split
    · split_ifs
      · exact idle w
      · rfl
    · rfl

theorem auth_idle (auth : AuthMiddleware) (refused : ¬ auth.Admits msg) : Idle (auth.process next) msg := by
  intro w
  unfold AuthMiddleware.process
  split
  case h_1 token found =>
    rw [if_neg fun valid => refused ⟨token,found,List.contains_iff_mem.mp valid⟩]
  case h_2 => rfl

/-! ### The chain -/

theorem chain_within (layers : List Middleware) (within : Within env bound next) :
    Within env ((layers.map Middleware.tries).prod * bound) (layers.foldl (fun h layer => MiddlewareAdapter.handle_message ⟨layer,h⟩ env) next) := by
  induction layers generalizing bound next with
  | nil => exact (Nat.one_mul bound).symm ▸ within
  | cons layer layers ih =>
    have wrapped := ih (process_within layer within)
    rw [← Nat.mul_assoc,Nat.mul_comm _ layer.tries] at wrapped
    rw [List.map_cons,List.prod_cons]
    exact wrapped

theorem chain_idle (layers : List Middleware) (idle : Idle next msg) :
    Idle (layers.foldl (fun h layer => MiddlewareAdapter.handle_message ⟨layer,h⟩ env) next) msg := by
  induction layers generalizing next with
  | nil => exact idle
  | cons layer layers ih => exact ih (process_idle layer idle)

theorem chain_guarded {layers : List Middleware} {auth : AuthMiddleware} (there : .auth auth ∈ layers) (refused : ¬ auth.Admits msg)
    (next : MessageHandler) : Idle (layers.foldl (fun h layer => MiddlewareAdapter.handle_message ⟨layer,h⟩ env) next) msg := by
  obtain ⟨inner,outer,rfl⟩ := List.append_of_mem there
  rw [List.foldl_append,List.foldl_cons]
  exact chain_idle outer (auth_idle auth refused)

/-- A running agent that has found the handler wraps it as a stack does. -/
theorem process_message_stack {agent : AgentInstance} {handler : MessageHandler} (running : agent.state = .Running)
    (found : agent.handler_registry.find_message_handler (routing_key msg) = some handler) (env : Env) (w : World) :
    (agent.process_message env msg w).1 = (MiddlewareStack.handle_message ⟨handler,agent.middleware⟩ env msg w).1 ∧
      (agent.process_message env msg w).2.2 = (MiddlewareStack.handle_message ⟨handler,agent.middleware⟩ env msg w).2 := by
  unfold AgentInstance.process_message MiddlewareStack.handle_message
  simp only [running,found,ne_eq,not_true_eq_false,if_false]
  split
  case h_1 ended => exact ⟨rfl,rfl⟩
  case h_2 ended => exact ⟨rfl,rfl⟩
  case h_3 ended => exact ⟨rfl,rfl⟩

/-- An agent and a stack with the same layers do the same. The handler within them is called with the message only, at most as often as the layers that
    retry allow, not again after a final result, and not at all when a layer does not admit the message. -/
theorem layers_sound (env : Env) (agent : AgentInstance) (msg : Message) (w : World) (running : agent.state = .Running)
    (found : agent.handler_registry.find_message_handler (routing_key msg) = some (terminal env)) :
    ((agent.process_message env msg w).1 = (MiddlewareStack.handle_message ⟨terminal env,agent.middleware⟩ env msg w).1 ∧
        (agent.process_message env msg w).2.2 = (MiddlewareStack.handle_message ⟨terminal env,agent.middleware⟩ env msg w).2) ∧
      ∃ new, (MiddlewareStack.handle_message ⟨terminal env,agent.middleware⟩ env msg w).2.calls = w.calls ++ new ∧
        new.length ≤ (agent.middleware.map Middleware.tries).prod ∧
        Calls env msg w.calls new (MiddlewareStack.handle_message ⟨terminal env,agent.middleware⟩ env msg w).1 ∧
        ((∃ auth, .auth auth ∈ agent.middleware ∧ ¬ auth.Admits msg) → new = []) := by
  refine ⟨process_message_stack running found env w,?_⟩
  obtain ⟨new,after,short,calls⟩ := chain_within agent.middleware (terminal_within env) msg w
  rw [Nat.mul_one] at short
  refine ⟨new,after,short,calls,?_⟩
  rintro ⟨auth,there,refused⟩
  have same := (chain_guarded there refused (terminal env) w).symm.trans after
  exact List.self_eq_append_right.mp same

/-- A request without headers. -/
def request : Message := ⟨⟨1⟩,.Request,⟨2⟩,none,.Normal,[],none,0,none,∅⟩

/-- The handler is busy once, and then answers. -/
def busyOnce : Env where
  answer := fun calls => if calls.length = 1 then .returned (.error (.ResourceExhausted "slots")) else .returned (.ok none)
  sleep := fun _ _ => none
  elapsed := fun _ => 0

def retrying : AgentInstance where
  id := ⟨2⟩
  handler_registry := ⟨[],some (terminal busyOnce)⟩
  middleware := [.retry ⟨2,100,1000⟩,.timeout ⟨5000⟩]
  state := .Running
  stats := ⟨0,0,0⟩

theorem retrying_sound : ∃ new, (MiddlewareStack.handle_message ⟨terminal busyOnce,retrying.middleware⟩ busyOnce request ⟨[],0,0,fun _ => ⟨0,0,0,0⟩⟩).2.calls = new ∧
    new = [request,request] ∧ Calls busyOnce request [] new (.returned (.ok none)) := by
  obtain ⟨-,new,after,-,calls,-⟩ := layers_sound busyOnce retrying request ⟨[],0,0,fun _ => ⟨0,0,0,0⟩⟩ rfl rfl
  have twice : (MiddlewareStack.handle_message ⟨terminal busyOnce,retrying.middleware⟩ busyOnce request ⟨[],0,0,fun _ => ⟨0,0,0,0⟩⟩).2.calls =
      [request,request] := rfl
  exact ⟨new,after,after.symm.trans twice,calls⟩

end Daf.MiddlewareStacks
