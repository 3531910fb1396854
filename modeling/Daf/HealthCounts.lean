import Daf.RegistrySweep
import Daf.Runs
import Mathlib.Data.List.Induction

/-!
The health of one agent over a sequence of heartbeats, checks and missed heartbeats. The counters are
machine words, and wrap.
-/
namespace Daf.HealthCounts
open Daf.Runs
open Daf.RegistrySweep (HealthStatus HealthConfig)

/-- A health record with its count of checks. -/
structure AgentHealth extends RegistrySweep.AgentHealth where
  /-- A u64. -/
  total_checks : Nat
deriving DecidableEq,Repr

def AgentHealth.new (now : Int) : AgentHealth := { RegistrySweep.AgentHealth.new now with total_checks := 0 }

def AgentHealth.record_heartbeat (h : AgentHealth) (now : Int) : AgentHealth :=
  { h with toAgentHealth := h.toAgentHealth.record_heartbeat now }

/-- A check with this status is recorded. -/
def AgentHealth.record_check (h : AgentHealth) (status : HealthStatus) : AgentHealth :=
  let h := { h with total_checks := (h.total_checks + 1) % 2^64 }
  match status with
  | .Healthy => { h with consecutive_failures := 0,status }
  | .Degraded | .Unhealthy | .Unknown =>
    { h with
      consecutive_failures := (h.consecutive_failures + 1) % 2^32
      total_failures := (h.total_failures + 1) % 2^64
      status }

def AgentHealth.record_missed_heartbeat (h : AgentHealth) (config : HealthConfig) : AgentHealth :=
  { h with toAgentHealth := h.toAgentHealth.record_missed_heartbeat config }

inductive Event where
  | heartbeat (now : Int)
  | check (status : HealthStatus)
  | missed_heartbeat
deriving DecidableEq,Repr

def step (config : HealthConfig) (h : AgentHealth) : Event → AgentHealth
  | .heartbeat now => h.record_heartbeat now
  | .check status => h.record_check status
  | .missed_heartbeat => h.record_missed_heartbeat config

/-! ### What the counters are to count -/

/-- The event is a failure; the others end a row of failures. -/
def Event.fails : Event → Bool
  | .heartbeat _ => false
  | .check status => status != .Healthy
  | .missed_heartbeat => true

def Event.isCheck : Event → Bool
  | .check _ => true
  | _ => false

def checks (events : List Event) : Nat := events.countP Event.isCheck

def failures (events : List Event) : Nat := events.countP Event.fails

/-- How many failures there are since the last heartbeat or healthy check. -/
def streak (events : List Event) : Nat := (events.reverse.takeWhile Event.fails).length

def healthyChecks (events : List Event) : Nat := events.countP (· = .check .Healthy)

def missed (events : List Event) : Nat := events.countP (· = .missed_heartbeat)

/-- The statistics after the events are consistent. -/
structure Consistent (config : HealthConfig) (events : List Event) (h : AgentHealth) : Prop where
  rate : 0 < h.total_checks → h.total_failures ≤ h.total_checks
  consecutive : h.consecutive_failures = streak events
  status : config.unhealthy_after_failures ≤ h.consecutive_failures → h.status ≠ .Healthy

/-- As many checks as failures, or none, as far as 64 bits count them; the failures in a row are counted by
32 bits; and some failure is needed to be unhealthy, if the last event is none. -/
structure Fair (config : HealthConfig) (events : List Event) : Prop where
  counted : checks events % 2^64 = 0 ∨ failures events % 2^64 ≤ checks events % 2^64
  short : streak events < 2^32
  threshold : (∃ last ∈ events.getLast?, last.fails = false) → 0 < config.unhealthy_after_failures

/-! ### What they count -/

section
variable {config : HealthConfig} {now : Int}

/-- What the counters and the status are after the events. -/
structure Counts (config : HealthConfig) (events : List Event) (h : AgentHealth) : Prop where
  checks : h.total_checks = checks events % 2^64
  failures : h.total_failures = failures events % 2^64
  consecutive : h.consecutive_failures = streak events % 2^32
  status : h.status = match events.getLast? with
    | none => .Unknown
    | some (.heartbeat _) => .Healthy
    | some (.check status) => status
    | some .missed_heartbeat => .from_failures (streak events % 2^32) config.degrade_after_failures config.unhealthy_after_failures

theorem streak_snoc (events : List Event) (event : Event) : streak (events ++ [event]) = if event.fails then streak events + 1 else 0 := by
  rw [streak,List.reverse_append,List.reverse_singleton,List.singleton_append,List.takeWhile_cons]
  split <;> rfl

theorem counts_step {events : List Event} {h : AgentHealth} (counts : Counts config events h) (event : Event) :
    Counts config (events ++ [event]) (step config h event) := by
  obtain ⟨checked,failed,row,-⟩ := counts
  have checks_snoc : checks (events ++ [event]) = checks events + if event.isCheck then 1 else 0 := by
    simp [checks,List.countP_append,List.countP_singleton]
  have failures_snoc : failures (events ++ [event]) = failures events + if event.fails then 1 else 0 := by
    simp [failures,List.countP_append,List.countP_singleton]
  cases event with
  | heartbeat now => exact ⟨by rw [checks_snoc]; exact checked,by rw [failures_snoc]; exact failed,by rw [streak_snoc]; rfl,by simp; rfl⟩
  | missed_heartbeat =>
    have next : (h.consecutive_failures + 1) % 2^32 = streak (events ++ [Event.missed_heartbeat]) % 2^32 := by
      rw [streak_snoc,if_pos (show Event.missed_heartbeat.fails from rfl),row,Nat.mod_add_mod]
    refine ⟨by rw [checks_snoc]; exact checked,?_,next,?_⟩
    · rw [failures_snoc]
      show (h.total_failures + 1) % 2^64 = _
      rw [failed,Nat.mod_add_mod]
      rfl
    · rw [List.getLast?_concat]
      exact congrArg (HealthStatus.from_failures · _ _) next
  | check status =>
    have count : (h.total_checks + 1) % 2^64 = checks (events ++ [Event.check status]) % 2^64 := by
      rw [checks_snoc,checked,Nat.mod_add_mod]
      rfl
    have last : (step config h (.check status)).status = status := by cases status <;> rfl
    refine ⟨?_,?_,?_,by rw [List.getLast?_concat]; exact last⟩
    · rw [← count]
      cases status <;> rfl
    · rw [failures_snoc]
      cases status with
      | Healthy => exact failed
      | Degraded | Unhealthy | Unknown =>
        show (h.total_failures + 1) % 2^64 = _
        rw [failed,Nat.mod_add_mod]
        rfl
    · rw [streak_snoc]
      cases status with
      | Healthy => rfl
      | Degraded | Unhealthy | Unknown =>
        show (h.consecutive_failures + 1) % 2^32 = _
        rw [row,Nat.mod_add_mod]
        rfl

theorem counts_run (config : HealthConfig) (now : Int) (events : List Event) : Counts config events (run (step config) (.new now) events) := by
  induction events using List.reverseRecOn with
  | nil => exact ⟨rfl,rfl,rfl,rfl⟩
  | append_singleton events event ih =>
    rw [run_snoc]
    exact counts_step ih event

theorem last_resets {events : List Event} {last : Event} (there : events.getLast? = some last) (resets : last.fails = false) : streak events = 0 := by
  obtain ⟨before,rfl⟩ := List.getLast?_eq_some_iff.mp there
  rw [streak_snoc,if_neg (by simp [resets])]

/-- A failure is a missed heartbeat or a check that is not healthy. -/
theorem failures_split (events : List Event) : failures events + healthyChecks events = missed events + checks events := by
  induction events with
  | nil => rfl
  | cons event events ih =>
    simp only [failures,healthyChecks,missed,checks,List.countP_cons] at ih ⊢
    cases event with
    | heartbeat now => simpa [Event.fails,Event.isCheck] using ih
    | missed_heartbeat => simp [Event.fails,Event.isCheck]; omega
    | check status => cases status <;> simp [Event.fails,Event.isCheck] <;> omega

theorem Fair.consistent {events : List Event} {h : AgentHealth} (counts : Counts config events h) (fair : Fair config events) : Consistent config events h := by
  have row : h.consecutive_failures = streak events := by rw [counts.consecutive,Nat.mod_eq_of_lt fair.short]
  refine ⟨fun some_check => ?_,row,fun many healthy => ?_⟩
  · have counted := fair.counted
    rw [counts.checks] at some_check ⊢
    rw [counts.failures]
    omega
  · have status := counts.status
    rw [healthy] at status
    cases last : events.getLast? with
    | none => rw [last] at status; exact nomatch status
    | some event =>
      rw [last] at status
      have resets (reset : event.fails = false) : False := by
        have positive := fair.threshold ⟨event,last,reset⟩
        have none_since := last_resets last reset
        omega
      cases event with
      | heartbeat now => exact resets rfl
      | check status' => exact resets (by rw [← show HealthStatus.Healthy = status' from status]; rfl)
      | missed_heartbeat =>
        rw [counts.consecutive] at many
        simp only [HealthStatus.from_failures,if_pos many,reduceCtorEq] at status

theorem Consistent.fair {events : List Event} {h : AgentHealth} (counts : Counts config events h) (consistent : Consistent config events h) :
    Fair config events := by
  have row := consistent.consecutive
  refine ⟨?_,?_,?_⟩
  · have rate := consistent.rate
    rw [counts.checks,counts.failures] at rate
    omega
  · rw [counts.consecutive] at row
    omega
  · rintro ⟨last,there,resets⟩
    by_contra zero
    refine consistent.status (by omega) ?_
    rw [counts.status,Option.mem_def.mp there]
    cases last with
    | heartbeat now => rfl
    | check status => simpa [Event.fails] using resets
    | missed_heartbeat => exact nomatch resets

end

/-- The statistics are consistent exactly after the sequences that are fair. Up to 2^64 events, that is those
with no check or with at least as many healthy checks as missed heartbeats. -/
theorem health_consistent (config : HealthConfig) (now : Int) (events : List Event) :
    (Consistent config events (run (step config) (.new now) events) ↔ Fair config events) ∧
    (events.length < 2^64 → (Fair config events ↔ (checks events = 0 ∨ missed events ≤ healthyChecks events) ∧ streak events < 2^32 ∧
      ((∃ last ∈ events.getLast?, last.fails = false) → 0 < config.unhealthy_after_failures))) := by
  have counts := counts_run config now events
  refine ⟨⟨Consistent.fair counts,Fair.consistent counts⟩,fun few => ?_⟩
  have split := failures_split events
  have failing : failures events ≤ events.length := List.countP_le_length
  have checking : checks events ≤ events.length := List.countP_le_length
  have small : failures events % 2^64 = failures events ∧ checks events % 2^64 = checks events :=
    ⟨Nat.mod_eq_of_lt (by omega),Nat.mod_eq_of_lt (by omega)⟩
  constructor
  · rintro ⟨counted,short,threshold⟩
    rw [small.1,small.2] at counted
    exact ⟨by omega,short,threshold⟩
  · rintro ⟨counted,short,threshold⟩
    exact ⟨by rw [small.1,small.2]; omega,short,threshold⟩

/-- The default thresholds. -/
def defaults : HealthConfig := ⟨30 * 10^9,3,5,10⟩

/-- One healthy check and two missed heartbeats are two failures in one check. -/
theorem two_missed : defaults.degrade_after_failures ≤ defaults.unhealthy_after_failures ∧
    ¬ Consistent defaults [.check .Healthy,.missed_heartbeat,.missed_heartbeat]
      (run (step defaults) (.new 0) [.check .Healthy,.missed_heartbeat,.missed_heartbeat]) :=
  ⟨by decide,fun consistent => absurd (consistent.rate (by decide)) (by decide)⟩

end Daf.HealthCounts
