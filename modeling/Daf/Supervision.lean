import Daf.MissionPlan
import Daf.SlidingWindow
import Mathlib.Algebra.Ring.Nat
import Mathlib.Data.List.Forall2
import Mathlib.Algebra.Order.Ring.Int
import Mathlib.Data.Int.ConditionallyCompleteOrder
import Mathlib.Data.List.Nodup
import Mathlib.Data.List.TakeWhile
import Mathlib.Order.ConditionallyCompleteLattice.Basic

/-!
The supervisor: which agents are restarted after a failure, and the budget of restarts
within a sliding window. Every call reads the clock several times, and an instant or a
span that the calendar cannot represent is handled as the source does.
-/
namespace Daf.Supervision
open Daf.GraphNodes Daf.MissionPlan Daf.SlidingWindow

inductive SupervisorStrategy where
  | OneForOne | AllForOne | RestForOne
deriving DecidableEq,Repr

structure RestartPolicy where
  max_restarts : UInt32
  time_window : Duration
deriving Repr

inductive SupervisorEvent where
  | AgentFailed (agent_id : AgentId) (reason : String) (timestamp : Int)
  | AgentRestarted (agent_id : AgentId) (attempt : Nat) (timestamp : Int)
  | RestartLimitExceeded (agent_id : AgentId) (restarts_used : Nat) (max_restarts : UInt32) (timestamp : Int)
deriving DecidableEq,Repr

structure DeadLetter where
  agent_id : AgentId
  reason : String
  restart_attempts : Nat
  declared_dead_at : Int
  strategy : SupervisorStrategy
deriving DecidableEq,Repr

structure RestartRecord where
  agent_id : AgentId
  timestamp : Int
deriving DecidableEq,Repr

structure Supervisor where
  strategy : SupervisorStrategy
  policy : RestartPolicy
  /-- The supervised agents in the order of their registration. -/
  agents : List AgentId
  restart_history : List RestartRecord
  events : List SupervisorEvent
  dead_letters : List DeadLetter

def Supervisor.new (strategy : SupervisorStrategy) (policy : RestartPolicy) : Supervisor where
  strategy
  policy
  agents := []
  restart_history := []
  events := []
  dead_letters := []

def Supervisor.add_agent (s : Supervisor) (agent_id : AgentId) : Supervisor :=
  if agent_id ∈ s.agents then s else { s with agents := s.agents ++ [agent_id] }

def Supervisor.remove_agent (s : Supervisor) (agent_id : AgentId) : Supervisor :=
  { s with agents := s.agents.filter (fun id => id ≠ agent_id) }

def Supervisor.agents_to_restart (s : Supervisor) (failed_agent : AgentId) : List AgentId :=
  match s.strategy with
  | .OneForOne => if failed_agent ∈ s.agents then [failed_agent] else []
  | .AllForOne => s.agents
  | .RestForOne => s.agents.dropWhile (fun id => id ≠ failed_agent)

/-! ### The calendar -/

/-- The longest span of the calendar: `i64::MAX` milliseconds. -/
def MAX_SPAN : Duration := 9223372036854775807 * 1000000

/-- The span of the calendar that stands for the window. -/
def windowSpan (time_window : Duration) : Duration :=
  if time_window ≤ MAX_SPAN then time_window else Duration.from_secs 60

/-- The clock by the number of the reading, and the first instant that the calendar can represent. -/
structure Calendar where
  now : Nat → Int
  earliest : Int

/-! ### Calls -/

/-- The supervisor with the number of clock readings so far and every event that it has produced. -/
structure Run where
  supervisor : Supervisor
  tick : Nat
  produced : List SupervisorEvent

def Run.new (strategy : SupervisorStrategy) (policy : RestartPolicy) : Run := ⟨.new strategy policy,0,[]⟩

def Run.emit (r : Run) (event : SupervisorEvent) : Run :=
  { r with supervisor := { r.supervisor with events := r.supervisor.events ++ [event] }, produced := r.produced ++ [event] }

/-- The records that are left when those before the window are dropped from the front. -/
def recent (window_start : Int) (history : List RestartRecord) : List RestartRecord :=
  history.dropWhile (fun r => decide (r.timestamp < window_start))

/-- Announce a restart and record it; the record has its own reading of the clock. -/
def restart (calendar : Calendar) (attempt : Nat) (r : Run) (agent_id : AgentId) : Run :=
  let r := { r.emit (.AgentRestarted agent_id attempt (calendar.now r.tick)) with tick := r.tick + 1 }
  { r with
    supervisor := { r.supervisor with restart_history := r.supervisor.restart_history ++ [⟨agent_id,calendar.now r.tick⟩] }
    tick := r.tick + 1 }

/-- The budget is used up: the agent is declared dead and no longer supervised. -/
def giveUp (calendar : Calendar) (failed_agent : AgentId) (reason : String) (restarts_in_window : Nat) (r : Run) : Run :=
  let max_restarts := r.supervisor.policy.max_restarts
  let r := { r.emit (.RestartLimitExceeded failed_agent restarts_in_window max_restarts (calendar.now r.tick)) with tick := r.tick + 1 }
  let letter : DeadLetter := ⟨failed_agent,reason,restarts_in_window,calendar.now r.tick,r.supervisor.strategy⟩
  { r with
    supervisor := { r.supervisor with dead_letters := r.supervisor.dead_letters ++ [letter] }.remove_agent failed_agent
    tick := r.tick + 1 }

/-- The start of the window at the second reading of a call; `none` when the subtraction panics. -/
def windowStart (calendar : Calendar) (r : Run) : Option Int :=
  let start := calendar.now (r.tick + 1) - windowSpan r.supervisor.policy.time_window
  if start < calendar.earliest then none else some start

/-- The failure is announced, and the clock is read again for the window. -/
def announce (calendar : Calendar) (failed_agent : AgentId) (reason : String) (r : Run) : Run :=
  { r.emit (.AgentFailed failed_agent reason (calendar.now r.tick)) with tick := r.tick + 2 }

def prune (window_start : Int) (r : Run) : Run :=
  { r with supervisor := { r.supervisor with restart_history := recent window_start r.supervisor.restart_history } }

def handle_failure (calendar : Calendar) (failed_agent : AgentId) (reason : String) (r : Run) : Run :=
  match windowStart calendar r with
  | none => announce calendar failed_agent reason r
  | some window_start =>
    let pruned := prune window_start (announce calendar failed_agent reason r)
    -- the length is cast to u32
    let restarts_in_window := pruned.supervisor.restart_history.length % 4294967296
    if pruned.supervisor.policy.max_restarts.toNat ≤ restarts_in_window then
      giveUp calendar failed_agent reason restarts_in_window pruned
    else
      (pruned.supervisor.agents_to_restart failed_agent).foldl (restart calendar (restarts_in_window + 1)) pruned

inductive Call where
  | add_agent (agent_id : AgentId)
  | remove_agent (agent_id : AgentId)
  | handle_failure (failed_agent : AgentId) (reason : String)
  | clear_events
deriving DecidableEq,Repr

def step (calendar : Calendar) (r : Run) : Call → Run
  | .add_agent agent_id => { r with supervisor := r.supervisor.add_agent agent_id }
  | .remove_agent agent_id => { r with supervisor := r.supervisor.remove_agent agent_id }
  | .handle_failure failed_agent reason => handle_failure calendar failed_agent reason r
  | .clear_events => { r with supervisor := { r.supervisor with events := [] } }

def run (calendar : Calendar) (calls : List Call) (r : Run) : Run := calls.foldl (step calendar) r

/-! ### What the calls produce -/

/-- The instants of the restarts among the events. -/
def restartTimes (events : List SupervisorEvent) : List Int :=
  events.filterMap (fun event => match event with
    | .AgentRestarted _ _ timestamp => some timestamp
    | _ => none)

/-- The agents that the events restart. -/
def restarted (events : List SupervisorEvent) : List AgentId :=
  events.filterMap (fun event => match event with
    | .AgentRestarted agent_id _ _ => some agent_id
    | _ => none)

@[simp] theorem restarted_append (events later : List SupervisorEvent) :
    restarted (events ++ later) = restarted events ++ restarted later := List.filterMap_append

/-- The event of a restart is not later than its record. -/
def Recorded (event : Int) (record : RestartRecord) : Prop := event ≤ record.timestamp

variable {calendar : Calendar}

/-- The restarts after a failure add a batch of events, and a record for each of them. -/
theorem foldl_restart (forward : Monotone calendar.now) (attempt : Nat) (agents : List AgentId) (r : Run) :
    ∃ batch records, restartTimes (agents.foldl (restart calendar attempt) r).produced = restartTimes r.produced ++ batch ∧
      (agents.foldl (restart calendar attempt) r).supervisor.restart_history = r.supervisor.restart_history ++ records ∧
      List.Forall₂ Recorded batch records ∧ batch.length = agents.length ∧ (∀ t ∈ batch, calendar.now r.tick ≤ t) ∧
      r.tick ≤ (agents.foldl (restart calendar attempt) r).tick ∧
      (agents.foldl (restart calendar attempt) r).supervisor.policy = r.supervisor.policy := by
  induction agents generalizing r with
  | nil => exact ⟨[],[],by simp,by simp,.nil,rfl,by simp,le_rfl,rfl⟩
  | cons agent later ih =>
    obtain ⟨batch,records,times,history,matched,size,after,ticks,policy⟩ := ih (restart calendar attempt r agent)
    refine ⟨calendar.now r.tick :: batch,⟨agent,calendar.now (r.tick + 1)⟩ :: records,?_,?_,?_,?_,?_,?_,?_⟩
    · rw [List.foldl_cons,times]
      simp [restart,Run.emit,restartTimes]
    · rw [List.foldl_cons,history]
      simp [restart,Run.emit]
    · exact .cons (forward (Nat.le_succ r.tick)) matched
    · simp [size]
    · intro t member
      rcases List.mem_cons.mp member with rfl | inside
      · exact le_rfl
      · exact (forward (show r.tick ≤ r.tick + 1 + 1 by omega)).trans (after t inside)
    · have grown : r.tick + 1 + 1 ≤ _ := ticks
      rw [List.foldl_cons]
      omega
    · exact policy

/-- The restarts after a failure name the selected agents and nobody else. -/
theorem foldl_restart_agents (attempt : Nat) (agents : List AgentId) (r : Run) :
    (agents.foldl (restart calendar attempt) r).supervisor.agents = r.supervisor.agents ∧
      ∃ new, (agents.foldl (restart calendar attempt) r).produced = r.produced ++ new ∧ restarted new = agents := by
  induction agents generalizing r with
  | nil => exact ⟨rfl,[],by simp,rfl⟩
  | cons agent later ih =>
    obtain ⟨same,new,produced,names⟩ := ih (restart calendar attempt r agent)
    refine ⟨same,.AgentRestarted agent attempt (calendar.now r.tick) :: new,?_,?_⟩
    · rw [List.foldl_cons,produced]
      simp [restart,Run.emit]
    · rw [← names]
      simp [restarted]

theorem foldl_restart_letters (attempt : Nat) (agents : List AgentId) (r : Run) :
    (agents.foldl (restart calendar attempt) r).supervisor.dead_letters = r.supervisor.dead_letters := by
  induction agents generalizing r with
  | nil => rfl
  | cons agent later ih => exact ih (restart calendar attempt r agent)

theorem agents_to_restart_sub (s : Supervisor) (failed_agent : AgentId) : ∀ id ∈ s.agents_to_restart failed_agent, id ∈ s.agents := by
  intro id member
  unfold Supervisor.agents_to_restart at member
  cases strategy : s.strategy with
  | OneForOne =>
    by_cases known : failed_agent ∈ s.agents
    · simp only [strategy,if_pos known,List.mem_singleton] at member
      rwa [member]
    · simp [strategy,known] at member
  | AllForOne => simpa [strategy] using member
  | RestForOne =>
    rw [strategy] at member
    exact (List.dropWhile_sublist _).subset member

/-! ### The budget -/

/-- The agents that the strategy restarts fit into what is left of the budget. -/
def Fits (calendar : Calendar) (r : Run) : Call → Prop
  | .handle_failure failed_agent _ => ∀ window_start ∈ windowStart calendar r,
      (recent window_start r.supervisor.restart_history).length < r.supervisor.policy.max_restarts.toNat →
      (recent window_start r.supervisor.restart_history).length + (r.supervisor.agents_to_restart failed_agent).length ≤
        r.supervisor.policy.max_restarts.toNat
  | _ => True

instance (calendar : Calendar) (r : Run) : (call : Call) → Decidable (Fits calendar r call)
  | .handle_failure failed_agent _ => inferInstanceAs (Decidable (∀ window_start ∈ windowStart calendar r,
      (recent window_start r.supervisor.restart_history).length < r.supervisor.policy.max_restarts.toNat →
      (recent window_start r.supervisor.restart_history).length + (r.supervisor.agents_to_restart failed_agent).length ≤
        r.supervisor.policy.max_restarts.toNat))
  | .add_agent _ | .remove_agent _ | .clear_events => .isTrue trivial

/-- Every call of the run fits. -/
def Fitting (calendar : Calendar) : List Call → Run → Prop
  | [],_ => True
  | call :: later,r => Fits calendar r call ∧ Fitting calendar later (step calendar r call)

instance (calendar : Calendar) : (calls : List Call) → (r : Run) → Decidable (Fitting calendar calls r)
  | [],_ => .isTrue trivial
  | call :: later,r => @instDecidableAnd _ _ inferInstance (instDecidableFitting calendar later (step calendar r call))

/-- The restarts so far: those before the window, and those that the history still records. -/
structure Budgeted (calendar : Calendar) (policy : RestartPolicy) (r : Run) : Prop where
  parts : ∃ old kept, restartTimes r.produced = old ++ kept ∧ List.Forall₂ Recorded kept r.supervisor.restart_history ∧
    ∀ t ∈ old, t + policy.time_window < calendar.now r.tick
  room : r.supervisor.restart_history.length ≤ policy.max_restarts.toNat
  bounded : Bounded (policy.time_window : Int) policy.max_restarts.toNat (restartTimes r.produced)
  same : r.supervisor.policy = policy

theorem budgeted_new (strategy : SupervisorStrategy) (policy : RestartPolicy) : Budgeted calendar policy (.new strategy policy) where
  parts := ⟨[],[],rfl,.nil,by simp⟩
  room := Nat.zero_le _
  bounded := bounded_nil
  same := rfl

variable {policy : RestartPolicy} {r : Run}

/-- A change that keeps the policy, the history and the restarts keeps the budget. -/
theorem Budgeted.still (budgeted : Budgeted calendar policy r) {t : Run} (forward : Monotone calendar.now)
    (samePolicy : t.supervisor.policy = r.supervisor.policy) (history : t.supervisor.restart_history = r.supervisor.restart_history)
    (times : restartTimes t.produced = restartTimes r.produced) (ticks : r.tick ≤ t.tick) : Budgeted calendar policy t where
  parts := by
    obtain ⟨old,kept,split,matched,expired⟩ := budgeted.parts
    refine ⟨old,kept,times.trans split,history ▸ matched,?_⟩
    intro e member
    exact (expired e member).trans_le (forward ticks)
  room := history ▸ budgeted.room
  bounded := times ▸ budgeted.bounded
  same := samePolicy.trans budgeted.same

/-- Among matched lists, every event has a record. -/
theorem recorded_of_mem {events : List Int} {records : List RestartRecord} (matched : List.Forall₂ Recorded events records) :
    ∀ e ∈ events, ∃ record ∈ records, Recorded e record := by
  induction matched with
  | nil => simp
  | cons first later ih =>
    intro e member
    rcases List.mem_cons.mp member with rfl | inside
    · exact ⟨_,List.mem_cons_self,first⟩
    · obtain ⟨record,known,recorded⟩ := ih e inside
      exact ⟨record,List.mem_cons_of_mem _ known,recorded⟩

/-- Dropping the records before the window keeps the budget: their events are older than the window. -/
theorem Budgeted.prune (budgeted : Budgeted calendar policy r) {window_start : Int}
    (start : window_start + policy.time_window ≤ calendar.now r.tick) : Budgeted calendar policy (prune window_start r) where
  parts := by
    obtain ⟨old,kept,split,matched,expired⟩ := budgeted.parts
    rw [← List.takeWhile_append_dropWhile (p := fun r => decide (r.timestamp < window_start)) (l := r.supervisor.restart_history)] at matched
    have early := List.forall₂_take_append _ _ _ matched
    have late := List.forall₂_drop_append _ _ _ matched
    refine ⟨old ++ kept.take (r.supervisor.restart_history.takeWhile (fun r => decide (r.timestamp < window_start))).length,_,?_,late,?_⟩
    · rw [List.append_assoc,List.take_append_drop]
      exact split
    · intro e member
      rcases List.mem_append.mp member with before | inside
      · exact expired e before
      · obtain ⟨record,dropped,recorded⟩ := recorded_of_mem early e inside
        have passed : record.timestamp < window_start := by simpa using List.mem_takeWhile_imp dropped
        have order : e ≤ record.timestamp := recorded
        show e + policy.time_window < calendar.now r.tick
        omega
  room := (List.dropWhile_sublist _).length_le.trans budgeted.room
  bounded := budgeted.bounded
  same := budgeted.same

/-- A batch of restarts that fits into the budget keeps it. -/
theorem Budgeted.restart (budgeted : Budgeted calendar policy r) (forward : Monotone calendar.now) {agents : List AgentId} (attempt : Nat)
    (fits : r.supervisor.restart_history.length + agents.length ≤ policy.max_restarts.toNat) :
    Budgeted calendar policy (agents.foldl (restart calendar attempt) r) := by
  obtain ⟨batch,records,times,history,matched,size,after,ticks,samePolicy⟩ := foldl_restart forward attempt agents r
  obtain ⟨old,kept,split,pairs,expired⟩ := budgeted.parts
  refine ⟨⟨old,kept ++ batch,?_,?_,?_⟩,?_,?_,samePolicy.trans budgeted.same⟩
  · rw [times,split,List.append_assoc]
  · rw [history]
    exact List.rel_append pairs matched
  · intro t member
    exact (expired t member).trans_le (forward ticks)
  · rw [history,List.length_append,← matched.length_eq,size]
    exact fits
  · rw [times,split]
    refine Bounded.append (split ▸ budgeted.bounded) expired after ?_
    rw [pairs.length_eq,size]
    exact fits

theorem windowStart_eq (budgeted : Budgeted calendar policy r) (represented : policy.time_window ≤ MAX_SPAN) {window_start : Int}
    (start : windowStart calendar r = some window_start) : window_start + policy.time_window = calendar.now (r.tick + 1) := by
  simp only [windowStart,budgeted.same,windowSpan,if_pos represented] at start
  split at start
  · cases start
  · have same := Option.some.inj start
    omega

theorem budgeted_handle_failure (budgeted : Budgeted calendar policy r) (forward : Monotone calendar.now)
    (represented : policy.time_window ≤ MAX_SPAN) (failed_agent : AgentId) (reason : String)
    (fits : Fits calendar r (.handle_failure failed_agent reason)) : Budgeted calendar policy (handle_failure calendar failed_agent reason r) := by
  have announced : Budgeted calendar policy (announce calendar failed_agent reason r) :=
    budgeted.still forward rfl rfl (by simp [announce,Run.emit,restartTimes]) (Nat.le_add_right _ _)
  unfold handle_failure
  cases start : windowStart calendar r with
  | none => exact announced
  | some window_start =>
    have begins := windowStart_eq budgeted represented start
    have pruned := announced.prune (begins.trans_le (forward (Nat.le_succ _)))
    -- the history is shorter than the budget, so the cast to u32 does not cut it
    have small : (prune window_start (announce calendar failed_agent reason r)).supervisor.restart_history.length < 4294967296 :=
      pruned.room.trans_lt policy.max_restarts.toNat_lt
    have left := fits window_start start
    rw [budgeted.same] at left
    simp only [Nat.mod_eq_of_lt small,pruned.same]
    split
    · exact pruned.still forward rfl rfl (by simp [giveUp,Run.emit,restartTimes]) (Nat.le_add_right _ 2)
    · rename_i more
      exact pruned.restart forward _ (left (Nat.lt_of_not_le more))

theorem budgeted_step (budgeted : Budgeted calendar policy r) (forward : Monotone calendar.now) (represented : policy.time_window ≤ MAX_SPAN)
    {call : Call} (fits : Fits calendar r call) : Budgeted calendar policy (step calendar r call) := by
  cases call with
  | add_agent agent_id =>
    refine budgeted.still forward ?_ ?_ rfl le_rfl
    all_goals
      simp only [step,Supervisor.add_agent]
      split <;> rfl
  | remove_agent agent_id => exact budgeted.still forward rfl rfl rfl le_rfl
  | handle_failure failed_agent reason => exact budgeted_handle_failure budgeted forward represented failed_agent reason fits
  | clear_events => exact budgeted.still forward rfl rfl rfl le_rfl

theorem budgeted_run (budgeted : Budgeted calendar policy r) (forward : Monotone calendar.now) (represented : policy.time_window ≤ MAX_SPAN)
    {calls : List Call} (fitting : Fitting calendar calls r) : Budgeted calendar policy (run calendar calls r) := by
  induction calls generalizing r with
  | nil => exact budgeted
  | cons call later ih => exact ih (budgeted_step budgeted forward represented fitting.1) fitting.2

/-! ### Dead letters -/

/-- A call produces events after the earlier ones; an agent that is not supervised is not among the restarted ones,
and only `add_agent` makes it supervised. -/
theorem step_absent {agent : AgentId} (absent : agent ∉ r.supervisor.agents) {call : Call} (other : call ≠ .add_agent agent) :
    agent ∉ (step calendar r call).supervisor.agents ∧
      ∃ new, (step calendar r call).produced = r.produced ++ new ∧ agent ∉ restarted new := by
  cases call with
  | add_agent agent_id =>
    refine ⟨?_,[],by simp [step],by simp [restarted]⟩
    simp only [step,Supervisor.add_agent]
    split
    · exact absent
    · intro member
      rcases List.mem_append.mp member with old | new
      · exact absent old
      · exact other (by rw [List.mem_singleton.mp new])
  | remove_agent agent_id =>
    refine ⟨?_,[],by simp [step],by simp [restarted]⟩
    intro member
    exact absent (List.mem_of_mem_filter member)
  | clear_events => exact ⟨absent,[],by simp [step],by simp [restarted]⟩
  | handle_failure failed_agent reason =>
    simp only [step,handle_failure]
    cases windowStart calendar r with
    | none => exact ⟨absent,[.AgentFailed failed_agent reason (calendar.now r.tick)],rfl,by simp [restarted]⟩
    | some window_start =>
      dsimp only
      split
      · exact ⟨fun member => absent (List.mem_of_mem_filter member),_,List.append_assoc ..,by simp [restarted]⟩
      · obtain ⟨same,new,produced,names⟩ := @foldl_restart_agents calendar
          ((prune window_start (announce calendar failed_agent reason r)).supervisor.restart_history.length % 4294967296 + 1)
          ((prune window_start (announce calendar failed_agent reason r)).supervisor.agents_to_restart failed_agent)
          (prune window_start (announce calendar failed_agent reason r))
        refine ⟨by rw [same]; exact absent,_,produced.trans (List.append_assoc ..),?_⟩
        rw [restarted_append,names]
        intro member
        rcases List.mem_append.mp member with first | selected
        · simp [restarted] at first
        · exact absent (agents_to_restart_sub _ _ _ selected)

/-- An agent that is not supervised is not restarted until it is added. -/
theorem run_absent {agent : AgentId} (absent : agent ∉ r.supervisor.agents) {calls : List Call} (others : .add_agent agent ∉ calls) :
    ∃ new, (run calendar calls r).produced = r.produced ++ new ∧ agent ∉ restarted new := by
  induction calls generalizing r with
  | nil => exact ⟨[],by simp [run],by simp [restarted]⟩
  | cons call later ih =>
    have other : call ≠ .add_agent agent := fun same => others (same ▸ List.mem_cons_self)
    obtain ⟨still,first,produced,clean⟩ := @step_absent calendar _ _ absent _ other
    obtain ⟨rest,later_produced,later_clean⟩ := ih still (fun member => others (List.mem_cons_of_mem _ member))
    refine ⟨first ++ rest,?_,?_⟩
    · rw [← List.append_assoc,← produced]
      exact later_produced
    · rw [restarted_append]
      exact fun member => (List.mem_append.mp member).elim clean later_clean

/-- The agent of a new dead letter is not supervised. -/
theorem dead_letter_absent {call : Call} {letter : DeadLetter}
    (recorded : (step calendar r call).supervisor.dead_letters = r.supervisor.dead_letters ++ [letter]) :
    letter.agent_id ∉ (step calendar r call).supervisor.agents := by
  have unchanged : ∀ {letters : List DeadLetter}, letters ≠ letters ++ [letter] := by
    intro letters same
    have sizes := congrArg List.length same
    simp at sizes
  cases call with
  | add_agent agent_id =>
    simp only [step,Supervisor.add_agent] at recorded
    split at recorded <;> exact absurd recorded unchanged
  | remove_agent agent_id => exact absurd recorded unchanged
  | clear_events => exact absurd recorded unchanged
  | handle_failure failed_agent reason =>
    simp only [step,handle_failure] at recorded ⊢
    cases start : windowStart calendar r with
    | none =>
      rw [start] at recorded
      exact absurd recorded unchanged
    | some window_start =>
      rw [start] at recorded
      dsimp only at recorded ⊢
      split at recorded
      · rename_i exceeded
        rw [if_pos exceeded]
        have same := List.append_cancel_left recorded
        simp only [List.cons.injEq,and_true] at same
        rw [← same]
        intro member
        simpa using List.of_mem_filter member
      · rw [foldl_restart_letters] at recorded
        exact absurd recorded unchanged

/-! ### Whole runs -/

/-- No event restarts the agent. -/
def NotRestarted (agent : AgentId) (events : List SupervisorEvent) : Prop := agent ∉ restarted events

/-- In every run whose failures fit into the budget, no interval of the window's length holds more than `max_restarts`
restarts, and the agent of a dead letter is not restarted unless it is added again. -/
theorem restart_budget (calendar : Calendar) (forward : Monotone calendar.now) (strategy : SupervisorStrategy) (policy : RestartPolicy)
    (represented : policy.time_window ≤ MAX_SPAN) (calls : List Call) (fitting : Fitting calendar calls (.new strategy policy)) :
    (∀ start, within (policy.time_window : Int) start (restartTimes (run calendar calls (.new strategy policy)).produced) ≤
      policy.max_restarts.toNat) ∧
    ∀ before call after letter, calls = before ++ call :: after →
      (run calendar (before ++ [call]) (.new strategy policy)).supervisor.dead_letters =
        (run calendar before (.new strategy policy)).supervisor.dead_letters ++ [letter] →
      .add_agent letter.agent_id ∉ after →
      NotRestarted letter.agent_id ((run calendar calls (.new strategy policy)).produced.drop
        (run calendar (before ++ [call]) (.new strategy policy)).produced.length) := by
  refine ⟨(budgeted_run (budgeted_new strategy policy) forward represented fitting).bounded,?_⟩
  intro before call after letter split recorded others
  have last : run calendar (before ++ [call]) (.new strategy policy) =
      step calendar (run calendar before (.new strategy policy)) call := by
    rw [run,run,List.foldl_append]
    rfl
  have whole : run calendar calls (.new strategy policy) = run calendar after (run calendar (before ++ [call]) (.new strategy policy)) := by
    rw [split,run,run,run,← List.foldl_append,List.append_assoc]
    rfl
  rw [last] at recorded whole
  obtain ⟨new,produced,clean⟩ := @run_absent calendar _ _ (dead_letter_absent recorded) _ others
  rw [whole,last,produced,List.drop_left]
  exact clean

/-- A worker that fails twice under a budget of one: the second failure is its dead letter. -/
def failingTwice : List Call :=
  [.add_agent ⟨1#128⟩,.handle_failure ⟨1#128⟩ "crash",.handle_failure ⟨1#128⟩ "crash",.handle_failure ⟨1#128⟩ "crash"]

/-- A clock that ticks once a second. -/
def secondsClock : Calendar := ⟨fun n => 1000000000 * n,-8334601228800000000000⟩

theorem secondsClock_forward : Monotone secondsClock.now := fun m n order => by
  show (1000000000 * (m : Int)) ≤ 1000000000 * n
  omega

theorem failing_twice_budgeted :
    Fitting secondsClock failingTwice (.new .OneForOne ⟨1,Duration.from_secs 60⟩) ∧
    (∀ start, within ((Duration.from_secs 60 : Nat) : Int) start
      (restartTimes (run secondsClock failingTwice (.new .OneForOne ⟨1,Duration.from_secs 60⟩)).produced) ≤ 1) := by
  have fits : Fitting secondsClock failingTwice (.new .OneForOne ⟨1,Duration.from_secs 60⟩) := by decide
  exact ⟨fits,(restart_budget secondsClock secondsClock_forward .OneForOne ⟨1,Duration.from_secs 60⟩ (by decide) failingTwice fits).1⟩

/-- Six agents that are restarted together. -/
def sixTogether : List Call :=
  [.add_agent ⟨1#128⟩,.add_agent ⟨2#128⟩,.add_agent ⟨3#128⟩,.add_agent ⟨4#128⟩,.add_agent ⟨5#128⟩,.add_agent ⟨6#128⟩,
    .handle_failure ⟨1#128⟩ "crash"]

/-- One failure under `AllForOne` restarts six agents within a window whose budget is five, and a window that the
calendar cannot represent is replaced by a minute. -/
theorem budget_overrun :
    ¬ (within ((Duration.from_secs 60 : Nat) : Int) 0
      (restartTimes (run secondsClock sixTogether (.new .AllForOne ⟨5,Duration.from_secs 60⟩)).produced) ≤ 5) ∧
    ¬ (within ((Duration.MAX : Nat) : Int) 0
      (restartTimes (run ⟨fun n => 61000000000 * n,-8334601228800000000000⟩ failingTwice
        (.new .OneForOne ⟨1,Duration.MAX⟩)).produced) ≤ 1) := by
  decide

end Daf.Supervision
