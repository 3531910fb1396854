import Daf.Interleaving
import Daf.MissionPlan

/-!
The lifecycle calls of an agent instance. Each checks the state under one acquisition of its lock and
writes it under another, so that other calls come between.
-/
namespace Daf.AgentLifecycle
open Daf.Runs Daf.Interleaving
open Daf.MissionPlan (DafError AgentId)

inductive InstanceState where
  | Created
  | Starting
  | Running
  | Paused
  | Stopping
  | Stopped
  | Failed
deriving DecidableEq,Repr

def InstanceState.is_terminal : InstanceState → Bool
  | .Stopped | .Failed => true
  | _ => false

def InstanceState.toText : InstanceState → String
  | .Created => "created"
  | .Starting => "starting"
  | .Running => "running"
  | .Paused => "paused"
  | .Stopping => "stopping"
  | .Stopped => "stopped"
  | .Failed => "failed"

structure AgentInstance where
  id : AgentId
  state : InstanceState
  restarts : Nat
deriving DecidableEq,Repr

def AgentInstance.new (id : AgentId) : AgentInstance := ⟨id,.Created,0⟩

def AgentInstance.set_state (agent : AgentInstance) (state : InstanceState) : AgentInstance := { agent with state }

inductive Method where
  | start
  | stop
  | restart
  | pause
  | resume
deriving DecidableEq,Repr

/-- The next read or write of a call. -/
inductive Phase where
  | check_start
  | set_starting
  | set_running
  | check_stop
  | set_stopping
  | set_stopped
  | count_restart
  | set_created
  | check_pause
  | set_paused
  | check_resume
  | set_resumed
  | returned (result : Except DafError Unit)
deriving DecidableEq

structure Call where
  method : Method
  phase : Phase
deriving DecidableEq

def enter (method : Method) : Call where
  method
  phase :=
    match method with
    | .start => .check_start
    | .stop | .restart => .check_stop
    | .pause => .check_pause
    | .resume => .check_resume

def refuse (agent : AgentInstance) (verb : String) : Phase :=
  .returned (.error (.AgentError (some agent.id.uuid) ("cannot " ++ verb ++ " from state '" ++ agent.state.toText ++ "'")))

/-- What comes after `stop`, on its own or in `restart`. -/
def afterStop (method : Method) : Phase := if method = .restart then .count_restart else .returned (.ok ())

def act (agent : AgentInstance) (call : Call) : AgentInstance × Phase :=
  match call.phase with
  | .check_start => (agent,if agent.state ≠ .Created ∧ agent.state ≠ .Stopped then refuse agent "start" else .set_starting)
  | .set_starting => (agent.set_state .Starting,.set_running)
  | .set_running => (agent.set_state .Running,.returned (.ok ()))
  | .check_stop => (agent,if agent.state.is_terminal then afterStop call.method else .set_stopping)
  | .set_stopping => (agent.set_state .Stopping,.set_stopped)
  | .set_stopped => (agent.set_state .Stopped,afterStop call.method)
  | .count_restart => ({ agent with restarts := agent.restarts + 1 },.set_created)
  | .set_created => (agent.set_state .Created,.check_start)
  | .check_pause => (agent,if agent.state ≠ .Running then refuse agent "pause" else .set_paused)
  | .set_paused => (agent.set_state .Paused,.returned (.ok ()))
  | .check_resume => (agent,if agent.state ≠ .Paused then refuse agent "resume" else .set_resumed)
  | .set_resumed => (agent.set_state .Running,.returned (.ok ()))
  | .returned result => (agent,.returned result)

def lifecycle (id : AgentId) : System AgentInstance Call Method Unit :=
  ⟨AgentInstance.new id,enter,fun _ agent call _ => ((act agent call).1,{ call with phase := (act agent call).2 })⟩

abbrev World := Interleaving.World AgentInstance Call

abbrev Step := Interleaving.Event Method Unit

def go (n : Nat) : Step := .act n ()

/-! ### What the calls are for -/

/-- The changes of state that a lifecycle has. -/
def allowed : InstanceState → InstanceState → Bool
  | .Created,.Starting => true
  | .Stopped,.Starting => true
  | .Starting,.Running => true
  | .Running,.Paused => true
  | .Paused,.Running => true
  | state,.Stopping => !state.is_terminal
  | .Stopping,.Stopped => true
  | .Stopped,.Created => true
  | _,_ => false

/-- How many calls are between `Starting` and `Running`. -/
def between (w : World) : Nat := w.calls.countP (·.phase = .set_running)

/-- The state that a pause or a resume has checked. -/
def checked : Phase → Option InstanceState
  | .set_paused => some .Running
  | .set_resumed => some .Paused
  | _ => none

/-- A step of a lifecycle that is in order. -/
structure Sound (id : AgentId) (w : World) (event : Step) : Prop where
  change : ((lifecycle id).step w event).shared.state = w.shared.state ∨ allowed w.shared.state ((lifecycle id).step w event).shared.state
  single : between ((lifecycle id).step w event) ≤ 1
  own : ∀ n call state, event = go n → w.calls[n]? = some call → checked call.phase = some state →
    ((lifecycle id).step w event).shared.state = w.shared.state ∨ w.shared.state = state

/-- The check before a write would pass again at the write, or there is nothing left to change; and no
call starts an instance that another one is starting. -/
def fresh (w : World) : Phase → Bool
  | .set_starting => (w.shared.state = .Created || w.shared.state = .Stopped) && between w = 0
  | .set_running => w.shared.state = .Starting
  | .set_stopping => !w.shared.state.is_terminal
  | .set_stopped => w.shared.state = .Stopping || w.shared.state = .Stopped
  | .set_created => w.shared.state = .Stopped || w.shared.state = .Created
  | .set_paused => w.shared.state = .Running || w.shared.state = .Paused
  | .set_resumed => w.shared.state = .Paused || w.shared.state = .Running
  | _ => true

def Fresh (w : World) : Step → Prop
  | .call _ => True
  | .act n _ => ∀ call ∈ w.calls[n]?, fresh w call.phase

/-! ### What a step does -/

/-- The phases that a call of this method goes through. -/
def fits : Call → Bool
  | ⟨method,.check_start⟩ | ⟨method,.set_starting⟩ | ⟨method,.set_running⟩ => method = .start || method = .restart
  | ⟨method,.check_stop⟩ | ⟨method,.set_stopping⟩ | ⟨method,.set_stopped⟩ => method = .stop || method = .restart
  | ⟨method,.count_restart⟩ | ⟨method,.set_created⟩ => method = .restart
  | ⟨method,.check_pause⟩ | ⟨method,.set_paused⟩ => method = .pause
  | ⟨method,.check_resume⟩ | ⟨method,.set_resumed⟩ => method = .resume
  | ⟨_,.returned _⟩ => true

structure Inv (w : World) : Prop where
  single : between w ≤ 1
  starting : w.shared.state = .Starting → 0 < between w
  /-- What can become of an instance while a start has still to write `Running`. -/
  started : 0 < between w → w.shared.state = .Starting ∨ w.shared.state = .Stopping ∨ w.shared.state = .Stopped ∨ w.shared.state = .Created
  alive : w.shared.state ≠ .Failed
  fits : ∀ call ∈ w.calls, fits call

section
variable {id : AgentId} {w : World} {n : Nat} {call : Call}

variable (id) in
theorem state_go (there : w.calls[n]? = some call) : ((lifecycle id).step w (go n)).shared.state = (act w.shared call).1.state := by
  rw [go,step_act there]
  rfl

variable (id) in
theorem between_go (there : w.calls[n]? = some call) : between ((lifecycle id).step w (go n)) + (if call.phase = .set_running then 1 else 0) =
    between w + if (act w.shared call).2 = .set_running then 1 else 0 := by
  obtain ⟨inside,same⟩ := List.getElem?_eq_some_iff.mp there
  have counted : (if call.phase = .set_running then 1 else 0) ≤ between w := by
    split
    next mine => exact List.countP_pos_iff.mpr ⟨call,List.mem_of_getElem? there,decide_eq_true mine⟩
    next => exact Nat.zero_le _
  have after : between ((lifecycle id).step w (go n)) = between w - (if call.phase = .set_running then 1 else 0) +
      if (act w.shared call).2 = .set_running then 1 else 0 := by
    rw [go,step_act there]
    unfold between
    rw [List.countP_set inside,same]
    by_cases new : (act w.shared call).2 = .set_running <;> simp [lifecycle,new]
  omega

theorem act_fits (own : fits call) : fits { call with phase := (act w.shared call).2 } := by
  obtain ⟨method,phase⟩ := call
  cases phase <;> simp only [act,afterStop,refuse] <;> (try split) <;> (try split) <;> simp_all [fits]

theorem sound_go (there : w.calls[n]? = some call) : Sound id w (go n) ↔
    ((act w.shared call).1.state = w.shared.state ∨ allowed w.shared.state (act w.shared call).1.state) ∧
      between ((lifecycle id).step w (go n)) ≤ 1 ∧
        ∀ state, checked call.phase = some state → (act w.shared call).1.state = w.shared.state ∨ w.shared.state = state := by
  rw [← state_go id there]
  constructor
  · intro sound
    exact ⟨sound.change,sound.single,fun state own => sound.own n call state rfl there own⟩
  · rintro ⟨change,single,own⟩
    refine ⟨change,single,fun m other state same here isChecked => ?_⟩
    cases same
    cases there.symm.trans here
    exact own state isChecked

theorem fresh_go (there : w.calls[n]? = some call) : Fresh w (go n) ↔ fresh w call.phase := by
  simp [Fresh,go,there]

theorem afterStop_out (method : Method) : afterStop method ≠ .set_running := by
  unfold afterStop
  split <;> simp

/-- The phases whose next step only reads the state. -/
def reads : Phase → Bool
  | .check_start | .check_stop | .check_pause | .check_resume | .count_restart | .returned _ => true
  | _ => false

theorem act_reads (agent : AgentInstance) (reading : reads call.phase) :
    (act agent call).1.state = agent.state ∧ (act agent call).2 ≠ .set_running ∧ call.phase ≠ .set_running ∧ checked call.phase = none := by
  obtain ⟨method,phase⟩ := call
  cases phase <;> simp only [reads,Bool.false_eq_true] at reading <;> simp only [act,refuse,checked] <;> (try split) <;> simp [afterStop_out]

theorem sound_reads (inv : Inv w) (there : w.calls[n]? = some call) (reading : reads call.phase) : Sound id w (go n) := by
  obtain ⟨same,new,old,unchecked⟩ := act_reads w.shared reading
  have counted := between_go id there
  rw [if_neg new,if_neg old] at counted
  rw [sound_go there,unchecked]
  exact ⟨.inl same,by have := inv.single; omega,by simp⟩

theorem sound_iff_fresh (inv : Inv w) (there : w.calls[n]? = some call) : Sound id w (go n) ↔ fresh w call.phase := by
  have counted := between_go id there
  obtain ⟨method,phase⟩ := call
  by_cases reading : reads phase
  · refine ⟨fun _ => ?_,fun _ => sound_reads inv there reading⟩
    cases phase <;> first | rfl | cases reading
  · obtain ⟨single,starting,started,alive,-⟩ := inv
    rw [sound_go there]
    rcases w with ⟨⟨uuid,state,restarts⟩,calls⟩
    cases phase <;> simp only [reads,not_true_eq_false] at reading <;> simp only [act,AgentInstance.set_state,checked,fresh] at counted ⊢ <;>
      simp only [reduceCtorEq,↓reduceIte,Nat.add_zero,afterStop_out] at counted <;> cases state <;> simp_all [allowed,InstanceState.is_terminal] <;> omega

variable (id) in
theorem reads_go (there : w.calls[n]? = some call) (reading : reads call.phase) :
    between ((lifecycle id).step w (go n)) = between w ∧ ((lifecycle id).step w (go n)).shared.state = w.shared.state := by
  obtain ⟨same,new,old,-⟩ := act_reads w.shared reading
  have counted := between_go id there
  rw [if_neg new,if_neg old] at counted
  exact ⟨counted,(state_go id there).trans same⟩

variable (id) in
theorem fits_step (inv : Inv w) (event : Step) : ∀ call ∈ ((lifecycle id).step w event).calls, fits call := by
  cases event with
  | call method =>
    intro call inside
    rcases List.mem_append.mp inside with old | new
    · exact inv.fits call old
    · rw [List.mem_singleton.mp new]
      cases method <;> rfl
  | act n choice =>
    cases there : w.calls[n]? with
    | none =>
      rw [step_absent there]
      exact inv.fits
    | some mine =>
      rw [step_act there]
      intro call inside
      rcases List.mem_or_eq_of_mem_set inside with old | new
      · exact inv.fits call old
      · rw [new]
        exact act_fits (inv.fits mine (List.mem_of_getElem? there))

theorem inv_go (inv : Inv w) (there : w.calls[n]? = some call) (isFresh : fresh w call.phase) : Inv ((lifecycle id).step w (go n)) := by
  have all_fit := fits_step id inv (go n)
  by_cases reading : reads call.phase
  · obtain ⟨counted,same⟩ := reads_go id there reading
    exact ⟨counted ▸ inv.single,counted ▸ same ▸ inv.starting,counted ▸ same ▸ inv.started,same ▸ inv.alive,all_fit⟩
  have counted := between_go id there
  have after := state_go id there
  have single := inv.single
  obtain ⟨method,phase⟩ := call
  cases phase <;> simp only [reads,not_true_eq_false] at reading <;> simp only [act,AgentInstance.set_state] at counted after <;>
    simp only [reduceCtorEq,↓reduceIte,Nat.add_zero,afterStop_out,fresh,Bool.and_eq_true,Bool.or_eq_true,decide_eq_true_eq] at counted isFresh
  case set_starting => exact ⟨by omega,fun _ => by omega,fun _ => .inl after,by simp [after],all_fit⟩
  case set_running => exact ⟨by omega,by simp [after],fun more => by omega,by simp [after],all_fit⟩
  case set_stopping | set_stopped | set_created => exact ⟨by omega,by simp [after],by simp [after],by simp [after],all_fit⟩
  -- while a start has still to write Running the instance neither runs nor pauses
  case set_paused | set_resumed =>
    have none : ¬ 0 < between w := fun more => by
      have started := inv.started more
      rcases isFresh with state | state <;> simp [state] at started
    exact ⟨by omega,by simp [after],fun more => by omega,by simp [after],all_fit⟩

variable (id) in
theorem inv_call (inv : Inv w) (method : Method) : Inv ((lifecycle id).step w (.call method)) := by
  have same : between ((lifecycle id).step w (.call method)) = between w := by
    cases method <;> simp [between,System.step,lifecycle,enter]
  exact ⟨same ▸ inv.single,same ▸ inv.starting,same ▸ inv.started,inv.alive,fits_step id inv _⟩

theorem sound_event (inv : Inv w) (event : Step) : Sound id w event ↔ Fresh w event := by
  cases event with
  | call method =>
    have next := inv_call id inv method
    exact ⟨fun _ => trivial,fun _ => ⟨.inl rfl,next.single,by simp [go]⟩⟩
  | act n choice =>
    cases there : w.calls[n]? with
    | none =>
      have same : (lifecycle id).step w (.act n choice) = w := step_absent there choice
      refine ⟨fun _ => by simp [Fresh,there],fun _ => ⟨.inl (by rw [same]),by rw [same]; exact inv.single,?_⟩⟩
      intro m call state event here
      cases event
      cases there.symm.trans here
    | some call => exact (sound_iff_fresh inv there).trans (fresh_go there).symm

theorem inv_event (inv : Inv w) (event : Step) (isFresh : Fresh w event) : Inv ((lifecycle id).step w event) := by
  cases event with
  | call method => exact inv_call id inv method
  | act n choice =>
    cases there : w.calls[n]? with
    | none =>
      rw [step_absent there]
      exact inv
    | some call => exact inv_go inv there (isFresh call there)

end

/-! ### An instance that is stopped -/

def begins (method : Method) : Prop := method = .start ∨ method = .restart

/-- No start or restart is on its way. -/
def Quiet (w : World) : Prop := ∀ call ∈ w.calls, begins call.method → ∃ result, call.phase = .returned result

/-- A stop that is still on its way returns at this step. -/
def StopReturns (id : AgentId) (w : World) (n : Nat) : Prop :=
  ∃ phase, w.calls[n]? = some ⟨.stop,phase⟩ ∧ (∀ result, phase ≠ .returned result) ∧
    ∃ result, ((lifecycle id).step w (go n)).calls[n]? = some ⟨.stop,.returned result⟩

def run (id : AgentId) (events : List Step) : World := (lifecycle id).run events

/-- After a stop has returned, and no start or restart comes with it or later, the state is `Stopped`. -/
def StaysStopped (id : AgentId) (events : List Step) : Prop :=
  ∀ before n more, events = before ++ go n :: more → StopReturns id (run id before) n → Quiet (run id (before ++ [go n])) →
    (∀ method, Interleaving.Event.call method ∈ more → ¬ begins method) → (run id events).shared.state = .Stopped

section
variable {id : AgentId} {w : World} {n : Nat} {call : Call}

theorem stop_returns (inv : Inv w) (returns : StopReturns id w n) : ((lifecycle id).step w (go n)).shared.state = .Stopped := by
  obtain ⟨phase,there,open_,result,ended⟩ := returns
  have own := inv.fits _ (List.mem_of_getElem? there)
  have after := state_go id there
  have moved : ((lifecycle id).step w (go n)).calls[n]? = some ((lifecycle id).act n w.shared _ ()).2 := own_act there ()
  have phases := moved.symm.trans ended
  simp only [lifecycle,Option.some.injEq,Call.mk.injEq,true_and] at phases
  cases phase <;> simp [fits] at own <;> simp only [act,AgentInstance.set_state] at phases after
  case check_stop =>
    split at phases
    next terminal =>
      rw [after]
      have alive := inv.alive
      revert terminal alive
      cases w.shared.state <;> simp [InstanceState.is_terminal]
    next => cases phases
  case set_stopping => cases phases
  case set_stopped => exact after
  case returned result => exact absurd rfl (open_ result)

variable (id) in
theorem quiet_step (inv : Inv w) (quiet : Quiet w) (stopped : w.shared.state = .Stopped) (event : Step) (isFresh : Fresh w event)
    (later : ∀ method, event = .call method → ¬ begins method) :
    Quiet ((lifecycle id).step w event) ∧ ((lifecycle id).step w event).shared.state = .Stopped := by
  cases event with
  | call method =>
    refine ⟨fun call inside starts => ?_,stopped⟩
    rcases List.mem_append.mp inside with old | new
    · exact quiet call old starts
    · rw [List.mem_singleton.mp new] at starts
      exact absurd starts (later method rfl)
  | act n choice =>
    cases there : w.calls[n]? with
    | none =>
      rw [step_absent there]
      exact ⟨quiet,stopped⟩
    | some mine =>
      have inside := List.mem_of_getElem? there
      have own := inv.fits mine inside
      have current := isFresh mine there
      have ended := quiet mine inside
      have after : ((lifecycle id).step w (.act n choice)).shared.state = (act w.shared mine).1.state := state_go id there
      obtain ⟨method,phase⟩ := mine
      have out : begins method → ∃ result, (act w.shared ⟨method,phase⟩).2 = .returned result := by
        intro starts
        obtain ⟨result,rfl⟩ := ended starts
        exact ⟨result,rfl⟩
      refine ⟨fun call now starts => ?_,?_⟩
      · rw [step_act there] at now
        rcases List.mem_or_eq_of_mem_set now with old | new
        · exact quiet call old starts
        · rw [new] at starts ⊢
          exact out starts
      · rw [after]
        cases phase <;> simp [fresh,stopped,InstanceState.is_terminal] at current <;> simp only [act,AgentInstance.set_state,stopped]
        case set_starting | set_created =>
          simp only [fits,Bool.or_eq_true,decide_eq_true_eq] at own
          obtain ⟨result,impossible⟩ := ended (by simp [begins,own])
          cases impossible

theorem quiet_run (more : List Step) (inv : Inv w) (quiet : Quiet w) (stopped : w.shared.state = .Stopped)
    (every : Every (lifecycle id).step Fresh w more) (later : ∀ method, Interleaving.Event.call method ∈ more → ¬ begins method) :
    (Runs.run (lifecycle id).step w more).shared.state = .Stopped := by
  induction more generalizing w with
  | nil => exact stopped
  | cons event more ih =>
    obtain ⟨first,rest⟩ := every
    obtain ⟨still,after⟩ := quiet_step id inv quiet stopped event first (fun method same => later method (by simp [same]))
    exact ih (inv_event inv event first) still after rest (fun method inside => later method (List.mem_cons_of_mem _ inside))

end

theorem inv_start (id : AgentId) : Inv (lifecycle id).start :=
  ⟨Nat.zero_le 1,by simp [System.start,lifecycle,AgentInstance.new],by simp [System.start,between],by simp [System.start,lifecycle,AgentInstance.new],
    by simp [System.start]⟩

theorem inv_run {id : AgentId} {events : List Step} (every : Every (lifecycle id).step Fresh (lifecycle id).start events) : Inv (run id events) :=
  every.invariant (I := Inv) (fun _ event inv isFresh => inv_event inv event isFresh) (inv_start id)

theorem stays_stopped {id : AgentId} {events : List Step} (every : Every (lifecycle id).step Fresh (lifecycle id).start events) : StaysStopped id events := by
  rintro before n more rfl returns quiet later
  obtain ⟨first,now,rest⟩ := every_append.mp every
  have inv : Inv (run id before) := inv_run first
  have next : run id (before ++ [go n]) = (lifecycle id).step (run id before) (go n) := run_snoc _ _
  have whole : run id (before ++ go n :: more) = Runs.run (lifecycle id).step ((lifecycle id).step (run id before) (go n)) more := run_append _ _
  rw [next] at quiet
  rw [whole]
  exact quiet_run more (inv_event inv _ now) quiet (stop_returns inv returns) rest later

/-- A pause that has checked `Running`, and a stop that comes whole before it writes. -/
def pausedLate : List Step := [.call .start,go 0,go 0,go 0,.call .pause,go 1,.call .stop,go 2,go 2,go 2]

end Daf.AgentLifecycle
