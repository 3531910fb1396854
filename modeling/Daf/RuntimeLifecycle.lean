import Daf.Interleaving
import Daf.MissionPlan

/-!
The lifecycle of a runtime under any number of `start` and `shutdown` calls, each of which may be dropped
where it awaits. `start` writes the state itself, `shutdown` moves it by checked transitions while it
holds the shutdown lock.
-/
namespace Daf.RuntimeLifecycle
open Daf.Interleaving
open Daf.MissionPlan (DafError)

inductive RuntimeState where
  | Initializing
  | Running
  | ShuttingDown
  | Stopped
deriving DecidableEq,Repr

def RuntimeState.toText : RuntimeState → String
  | .Initializing => "initializing"
  | .Running => "running"
  | .ShuttingDown => "shutting_down"
  | .Stopped => "stopped"

/-- How far along its life a runtime is. -/
def RuntimeState.stage : RuntimeState → Nat
  | .Initializing => 0
  | .Running => 1
  | .ShuttingDown => 2
  | .Stopped => 3

structure ShutdownSignal where
  triggered : Bool
  forced : Bool
deriving DecidableEq,Repr

structure Runtime where
  state : RuntimeState
  shutdown : ShutdownSignal
  /-- The call that holds the shutdown lock. -/
  shutdown_lock : Option Nat
  /-- The calls that have entered `Running`. -/
  entered : List Nat

def Runtime.new : Runtime := ⟨.Initializing,⟨false,false⟩,none,[]⟩

def valid : RuntimeState → RuntimeState → Bool
  | .Initializing,.Running => true
  | .Running,.ShuttingDown => true
  | .Initializing,.ShuttingDown => true
  | .ShuttingDown,.Stopped => true
  | s,t => s == t

def invalidTransition (current target : RuntimeState) : DafError :=
  .Internal ("invalid runtime state transition: " ++ current.toText ++ " -> " ++ target.toText)

def Runtime.transition (r : Runtime) (target : RuntimeState) : Except DafError Runtime :=
  if valid r.state target then .ok { r with state := target } else .error (invalidTransition r.state target)

def cannotStart (state : RuntimeState) : DafError := .Internal ("runtime cannot start from " ++ state.toText)

def Runtime.trigger (r : Runtime) : Runtime := { r with shutdown := { r.shutdown with triggered := true } }

def Runtime.force (r : Runtime) : Runtime := { r with shutdown := { r.shutdown with forced := true } }

/-- The lock is free again when its holder returns or is dropped. -/
def Runtime.unlock (r : Runtime) (n : Nat) : Runtime := if r.shutdown_lock = some n then { r with shutdown_lock := none } else r

inductive Method where
  | start
  | shutdown
deriving DecidableEq,Repr

/-- Where a call is. -/
inductive Phase where
  /-- Not polled yet. -/
  | called
  /-- `start` waits for a signal. -/
  | listening
  /-- Waits for the shutdown lock. -/
  | locking
  /-- Has the lock, and is to read the state. -/
  | locked
  | stopping
  | leaving
  | draining
  | drained
  | returned (result : Except DafError Unit)
  | dropped
deriving DecidableEq

structure Call where
  method : Method
  phase : Phase
deriving DecidableEq

inductive OsSignal where
  | SIGTERM
  | SIGINT
  | SIGHUP
deriving DecidableEq,Repr

inductive Drain where
  | done
  | failed
  | timed_out
deriving DecidableEq,Repr

inductive Choice where
  /-- What the signal listener hears, and how the drain ends. -/
  | poll (heard : Option OsSignal) (drain : Drain)
  /-- The future is dropped where it awaits. -/
  | drop
deriving DecidableEq,Repr

/-- Whether a call in this phase awaits something, or has not been polled. -/
def Phase.awaits : Phase → Bool
  | .called | .listening | .locking | .leaving | .draining => true
  | _ => false

def Phase.holds : Phase → Bool
  | .locked | .stopping | .leaving | .draining | .drained => true
  | _ => false

/-- `Runtime::start` up to the wait for a signal. -/
def start (n : Nat) (r : Runtime) : Runtime × Phase :=
  if r.state ≠ .Initializing then (r,.returned (.error (cannotStart r.state)))
  else ({ r with state := .Running,entered := r.entered ++ [n] },.listening)

/-- One turn of `ShutdownSignal::listen_for_signals`. -/
def listen (r : Runtime) : Option OsSignal → Runtime × Phase
  | none => if r.shutdown.triggered then (r,.locking) else (r,.listening)
  | some .SIGTERM => (r.trigger,.locking)
  | some .SIGINT => if r.shutdown.triggered then (r.force,.locking) else (r.trigger,.locking)
  | some .SIGHUP => (r,.listening)

/-- A transition of `shutdown_inner`: its error is returned. -/
def move (n : Nat) (r : Runtime) (target : RuntimeState) (next : Phase) : Runtime × Phase :=
  match r.transition target with
  | .error e => (r.unlock n,.returned (.error e))
  | .ok r => (r,next)

def poll (n : Nat) (r : Runtime) (call : Call) (heard : Option OsSignal) (drain : Drain) : Runtime × Phase :=
  match call.phase with
  | .called =>
    match call.method with
    | .start => start n r
    | .shutdown => (r.trigger,.locking)
  | .listening => listen r heard
  | .locking => if r.shutdown_lock = none then ({ r with shutdown_lock := some n },.locked) else (r,.locking)
  | .locked => if r.state = .Stopped then (r.unlock n,.returned (.ok ())) else (r,.stopping)
  | .stopping => move n r .ShuttingDown .leaving
  | .leaving => (r,.draining)
  | .draining => if drain = .timed_out then (r.force,.drained) else (r,.drained)
  | .drained =>
    match move n r .Stopped (.returned (.ok ())) with
    | (r,phase) => (r.unlock n,phase)
  | .returned result => (r,.returned result)
  | .dropped => (r,.dropped)

def act (n : Nat) (r : Runtime) (call : Call) : Choice → Runtime × Call
  | .poll heard drain => let (r,phase) := poll n r call heard drain; (r,{ call with phase })
  | .drop => if call.phase.awaits then (r.unlock n,{ call with phase := .dropped }) else (r,call)

def lifecycle : System Runtime Call Method Choice := ⟨Runtime.new,fun method => ⟨method,.called⟩,act⟩

abbrev Step := Interleaving.Event Method Choice

/-! ### What a step does -/

/-- What the state is where a call stands. -/
def Stands (r : Runtime) (call : Call) : Prop :=
  match call.phase with
  | .stopping => r.state ≠ .Stopped
  | .leaving | .draining | .drained => r.state = .ShuttingDown
  | .returned (.ok _) => r.state = .Stopped
  | .returned (.error e) => call.method = .start ∧ ∃ state ≠ RuntimeState.Initializing, e = cannotStart state
  | .listening => call.method = .start
  | .called | .locking | .locked | .dropped => True

structure Local (n : Nat) (r : Runtime) (call : Call) : Prop where
  lock : r.shutdown_lock = some n ↔ call.phase.holds
  stands : Stands r call

structure Shared (r : Runtime) : Prop where
  once : r.entered.length ≤ 1
  before : r.state = .Initializing → r.entered = []

/-- All that a step of a call can do: take or leave the lock, enter `Running` first of all, and move on
while it holds the lock. -/
structure Does (n : Nat) (r s : Runtime) : Prop where
  lock : s.shutdown_lock = r.shutdown_lock ∨ r.shutdown_lock = some n ∧ s.shutdown_lock = none ∨ r.shutdown_lock = none ∧ s.shutdown_lock = some n
  state : s.state = r.state ∧ s.entered = r.entered ∨ r.state = .Initializing ∧ s.state = .Running ∧ s.entered = r.entered ++ [n] ∨
    r.shutdown_lock = some n ∧ s.entered = r.entered ∧ (r.state ≠ .Stopped ∧ s.state = .ShuttingDown ∨ r.state = .ShuttingDown ∧ s.state = .Stopped)

theorem Does.refl (n : Nat) (r : Runtime) : Does n r r := ⟨.inl rfl,.inl ⟨rfl,rfl⟩⟩

theorem Does.forward {n : Nat} {r s : Runtime} (does : Does n r s) : r.state.stage ≤ s.state.stage := by
  rcases does.state with ⟨same,-⟩ | ⟨before,after,-⟩ | ⟨-,-,⟨before,after⟩ | ⟨before,after⟩⟩
  · rw [same]
  · rw [before,after]
    decide
  · rw [after]
    revert before
    cases r.state <;> decide
  · rw [before,after]
    decide

theorem Does.shared {n : Nat} {r s : Runtime} (does : Does n r s) (shared : Shared r) : Shared s := by
  rcases does.state with ⟨same,entered⟩ | ⟨before,after,entered⟩ | ⟨-,entered,⟨-,after⟩ | ⟨-,after⟩⟩
  · exact ⟨entered ▸ shared.once,fun initial => entered ▸ shared.before (same ▸ initial)⟩
  · refine ⟨?_,fun initial => by simp [after] at initial⟩
    simp [entered,shared.before before]
  · exact ⟨entered ▸ shared.once,fun initial => by simp [after] at initial⟩
  · exact ⟨entered ▸ shared.once,fun initial => by simp [after] at initial⟩

theorem Does.locks {n m : Nat} {r s : Runtime} (does : Does n r s) (other : n ≠ m) : s.shutdown_lock = some m ↔ r.shutdown_lock = some m := by
  rcases does.lock with same | ⟨before,after⟩ | ⟨before,after⟩
  · rw [same]
  · simp [before,after,other]
  · simp [before,after,other]

/-- Another call stays where it stands. -/
theorem Does.other {n m : Nat} {r s : Runtime} {call : Call} (does : Does n r s) (other : n ≠ m) (own : Local m r call) : Local m s call := by
  refine ⟨(does.locks other).trans own.lock,?_⟩
  have stands := own.stands
  have holder : call.phase.holds → r.shutdown_lock ≠ some n := by
    intro holds mine
    have theirs := own.lock.mpr holds
    rw [mine] at theirs
    exact other (Option.some.inj theirs)
  obtain ⟨method,phase⟩ := call
  have kept : (phase.holds → s.state = r.state ∨ r.state = .Initializing ∧ s.state = .Running) ∧ (r.state = .Stopped → s.state = .Stopped) := by
    rcases does.state with ⟨same,-⟩ | ⟨before,after,-⟩ | ⟨mine,-,moved⟩
    · exact ⟨fun _ => .inl same,fun stopped => same.trans stopped⟩
    · exact ⟨fun _ => .inr ⟨before,after⟩,fun stopped => by simp [before] at stopped⟩
    · refine ⟨fun holds => absurd mine (holder holds),fun stopped => ?_⟩
      rcases moved with ⟨before,-⟩ | ⟨before,-⟩ <;> simp [stopped] at before
  cases phase with
  | stopping =>
    rcases kept.1 rfl with same | ⟨-,after⟩
    · exact fun stopped => stands (same.symm.trans stopped)
    · exact fun stopped => by simp [after] at stopped
  | leaving | draining | drained =>
    rcases kept.1 rfl with same | ⟨before,-⟩
    · exact same.trans stands
    · exact absurd (before.symm.trans stands) (by decide)
  | returned result =>
    cases result with
    | ok => exact kept.2 stands
    | error e => exact stands
  | listening => exact stands
  | called | locking | locked | dropped => trivial

/-! ### A call takes a step -/

theorem unlock_mine {n : Nat} {r : Runtime} (mine : r.shutdown_lock = some n) : r.unlock n = { r with shutdown_lock := none } := if_pos mine

theorem unlock_other {n : Nat} {r : Runtime} (other : r.shutdown_lock ≠ some n) : r.unlock n = r := if_neg other

theorem does_unlock (n : Nat) (r : Runtime) : Does n r (r.unlock n) := by
  by_cases mine : r.shutdown_lock = some n
  · rw [unlock_mine mine]
    exact ⟨.inr (.inl ⟨mine,rfl⟩),.inl ⟨rfl,rfl⟩⟩
  · rw [unlock_other mine]
    exact .refl n r

theorem unlock_free (n : Nat) (r : Runtime) : (r.unlock n).shutdown_lock ≠ some n := by
  by_cases mine : r.shutdown_lock = some n
  · simp [unlock_mine mine]
  · rwa [unlock_other mine]

theorem unlock_state (n : Nat) (r : Runtime) : (r.unlock n).state = r.state := by
  unfold Runtime.unlock
  split <;> rfl

/-- A phase that does not hold the lock, where the call does not. -/
theorem local_free {n : Nat} {r : Runtime} {call : Call} (free : r.shutdown_lock ≠ some n) (out : call.phase.holds = false) (stands : Stands r call) :
    Local n r call := ⟨by simp [free,out],stands⟩

theorem local_held {n : Nat} {r : Runtime} {call : Call} (mine : r.shutdown_lock = some n) (holds : call.phase.holds) (stands : Stands r call) :
    Local n r call := ⟨by simp [mine,holds],stands⟩

theorem start_spec {n : Nat} {r : Runtime} (free : r.shutdown_lock ≠ some n) :
    Does n r (start n r).1 ∧ Local n (start n r).1 ⟨.start,(start n r).2⟩ := by
  unfold start
  by_cases initial : r.state = .Initializing
  · rw [if_neg (not_not.mpr initial)]
    exact ⟨⟨.inl rfl,.inr (.inl ⟨initial,rfl,rfl⟩)⟩,local_free free rfl rfl⟩
  · rw [if_pos initial]
    exact ⟨.refl n r,local_free free rfl ⟨rfl,r.state,initial,rfl⟩⟩

theorem listen_spec {n : Nat} {r : Runtime} (free : r.shutdown_lock ≠ some n) (heard : Option OsSignal) :
    Does n r (listen r heard).1 ∧ Local n (listen r heard).1 ⟨.start,(listen r heard).2⟩ := by
  have quiet : ∀ s : Runtime, s.state = r.state → s.entered = r.entered → s.shutdown_lock = r.shutdown_lock →
      Does n r s ∧ s.shutdown_lock ≠ some n := fun s state entered lock => ⟨⟨.inl lock,.inl ⟨state,entered⟩⟩,lock ▸ free⟩
  have same := quiet r rfl rfl rfl
  have triggered := quiet r.trigger rfl rfl rfl
  have forced := quiet r.force rfl rfl rfl
  rcases heard with _ | _ | _ | _
  · simp only [listen]
    split
    · exact ⟨same.1,local_free same.2 rfl trivial⟩
    · exact ⟨same.1,local_free same.2 rfl rfl⟩
  · exact ⟨triggered.1,local_free triggered.2 rfl trivial⟩
  · simp only [listen]
    split
    · exact ⟨forced.1,local_free forced.2 rfl trivial⟩
    · exact ⟨triggered.1,local_free triggered.2 rfl trivial⟩
  · exact ⟨same.1,local_free same.2 rfl rfl⟩

theorem transition_stops {r : Runtime} (state : r.state ≠ .Stopped) : r.transition .ShuttingDown = .ok { r with state := .ShuttingDown } := by
  unfold Runtime.transition
  revert state
  cases r.state <;> simp [valid]

theorem transition_stopped {r : Runtime} (state : r.state = .ShuttingDown) : r.transition .Stopped = .ok { r with state := .Stopped } := by
  simp [Runtime.transition,state,valid]

theorem poll_spec {n : Nat} {r : Runtime} {call : Call} (own : Local n r call) (heard : Option OsSignal) (drain : Drain) :
    Does n r (poll n r call heard drain).1 ∧ Local n (poll n r call heard drain).1 { call with phase := (poll n r call heard drain).2 } := by
  obtain ⟨method,phase⟩ := call
  obtain ⟨lock,stands⟩ := own
  have free : phase.holds = false → r.shutdown_lock ≠ some n := fun out mine => by simp [lock.mp mine] at out
  cases phase with
  | called =>
    cases method with
    | start => exact start_spec (free rfl)
    | shutdown => exact ⟨⟨.inl rfl,.inl ⟨rfl,rfl⟩⟩,local_free (free rfl) rfl trivial⟩
  | listening =>
    cases (stands : method = .start)
    exact listen_spec (free rfl) heard
  | locking =>
    simp only [poll]
    split
    next none => exact ⟨⟨.inr (.inr ⟨none,rfl⟩),.inl ⟨rfl,rfl⟩⟩,local_held rfl rfl trivial⟩
    next taken => exact ⟨.refl n r,local_free (free rfl) rfl trivial⟩
  | locked =>
    simp only [poll]
    split
    next stopped => exact ⟨does_unlock n r,local_free (unlock_free n r) rfl ((unlock_state n r).trans stopped)⟩
    next going => exact ⟨.refl n r,local_held (lock.mpr rfl) rfl going⟩
  | stopping =>
    simp only [poll,move,transition_stops stands]
    exact ⟨⟨.inl rfl,.inr (.inr ⟨lock.mpr rfl,rfl,.inl ⟨stands,rfl⟩⟩)⟩,local_held (lock.mpr rfl) rfl rfl⟩
  | leaving => exact ⟨.refl n r,local_held (lock.mpr rfl) rfl stands⟩
  | draining =>
    simp only [poll]
    split
    · exact ⟨⟨.inl rfl,.inl ⟨rfl,rfl⟩⟩,local_held (lock.mpr rfl) rfl stands⟩
    · exact ⟨.refl n r,local_held (lock.mpr rfl) rfl stands⟩
  | drained =>
    have mine : r.shutdown_lock = some n := lock.mpr rfl
    have unlocked : Runtime.unlock { r with state := .Stopped } n = { r with state := .Stopped,shutdown_lock := none } := unlock_mine mine
    simp only [poll,move,transition_stopped stands,unlocked]
    exact ⟨⟨.inr (.inl ⟨mine,rfl⟩),.inr (.inr ⟨mine,rfl,.inr ⟨stands,rfl⟩⟩)⟩,local_free (by simp) rfl rfl⟩
  | returned result => exact ⟨.refl n r,⟨lock,stands⟩⟩
  | dropped => exact ⟨.refl n r,⟨lock,stands⟩⟩

theorem act_spec {n : Nat} {r : Runtime} {call : Call} (own : Local n r call) (choice : Choice) :
    Does n r (act n r call choice).1 ∧ Local n (act n r call choice).1 (act n r call choice).2 := by
  cases choice with
  | poll heard drain => exact poll_spec own heard drain
  | drop =>
    simp only [act]
    split
    · exact ⟨does_unlock n r,local_free (unlock_free n r) rfl trivial⟩
    · exact ⟨.refl n r,own⟩

/-- A call that has not been made does not hold the lock. -/
def Placed (n : Nat) (r : Runtime) : Option Call → Prop
  | none => r.shutdown_lock ≠ some n
  | some call => Local n r call

theorem rule : Rule lifecycle (fun _ _ _ _ => True) Shared Placed where
  initial := ⟨⟨Nat.zero_le 1,fun _ => rfl⟩,fun n => (Option.some_ne_none n).symm⟩
  enters _ _ _ _ free := local_free free rfl trivial
  shared _ _ _ choice shared own _ := (act_spec own choice).1.shared shared
  own _ _ _ choice _ own _ := (act_spec own choice).2
  other n m r t u choice other _ own theirs _ := by
    have does := (act_spec own choice).1
    cases u with
    | none => exact fun mine => theirs ((does.locks other).mp mine)
    | some call => exact does.other other theirs

/-! ### Runs -/

abbrev World := Interleaving.World Runtime Call

def run (events : List Step) : World := lifecycle.run events

abbrev Reached (w : World) : Prop := Holds Shared Placed w

theorem reached_step (w : World) (event : Step) (reached : Reached w) : Reached (lifecycle.step w event) := by
  refine rule.step w event reached ?_
  cases event with
  | call => trivial
  | act => exact fun _ _ => trivial

theorem reached_run (w : World) (events : List Step) (reached : Reached w) : Reached (Runs.run lifecycle.step w events) :=
  Runs.invariant reached_step reached events

theorem forward_step {w : World} (reached : Reached w) (event : Step) : w.shared.state.stage ≤ (lifecycle.step w event).shared.state.stage := by
  cases event with
  | call => exact Nat.le_refl _
  | act n choice =>
    cases there : w.calls[n]? with
    | none =>
      rw [step_absent there]
    | some call =>
      rw [step_act there]
      exact (act_spec (reached.call there) choice).1.forward

theorem forward_run (w : World) (events : List Step) (reached : Reached w) :
    w.shared.state.stage ≤ (Runs.run lifecycle.step w events).shared.state.stage := by
  induction events generalizing w with
  | nil => exact Nat.le_refl _
  | cons event events ih => exact Nat.le_trans (forward_step reached event) (ih _ (reached_step w event reached))

theorem stage_stopped {state : RuntimeState} (last : 3 ≤ state.stage) : state = .Stopped := by
  revert last
  cases state <;> decide

/-! ### A call that is not dropped can still return -/

/-- A call is polled, and hears nothing. -/
def go (n : Nat) : Step := .act n (.poll none .done)

/-- Polled alone, a call returns `Ok` and leaves the lock. -/
def Finishes (w : World) (n : Nat) (method : Method) : Prop :=
  ∃ turns, (Runs.run lifecycle.step w (List.replicate turns (go n))).calls[n]? = some ⟨method,.returned (.ok ())⟩ ∧
    (Runs.run lifecycle.step w (List.replicate turns (go n))).shared.shutdown_lock = none ∧
    ∀ m, n ≠ m → (Runs.run lifecycle.step w (List.replicate turns (go n))).calls[m]? = w.calls[m]?

theorem Finishes.back {w : World} {n : Nat} {method : Method} (finishes : Finishes (lifecycle.step w (go n)) n method) : Finishes w n method := by
  obtain ⟨turns,returned,free,others⟩ := finishes
  exact ⟨turns + 1,returned,free,fun m other => (others m other).trans (other_act other _)⟩

theorem finishes_now {w : World} {n : Nat} {method : Method} (returned : (lifecycle.step w (go n)).calls[n]? = some ⟨method,.returned (.ok ())⟩)
    (free : (lifecycle.step w (go n)).shared.shutdown_lock = none) : Finishes w n method :=
  Finishes.back ⟨0,returned,free,fun _ _ => rfl⟩

theorem polled {w : World} {n : Nat} {call : Call} (there : w.calls[n]? = some call) :
    (lifecycle.step w (go n)).calls[n]? = some { call with phase := (poll n w.shared call none .done).2 } ∧
      (lifecycle.step w (go n)).shared = (poll n w.shared call none .done).1 :=
  ⟨own_act there _,by rw [go,step_act there]; rfl⟩

theorem drained_finishes {w : World} {n : Nat} {method : Method} (reached : Reached w) (there : w.calls[n]? = some ⟨method,.drained⟩) :
    Finishes w n method := by
  have own : Local n w.shared ⟨method,.drained⟩ := reached.call there
  have unlocked : Runtime.unlock { w.shared with state := .Stopped } n = { w.shared with state := .Stopped,shutdown_lock := none } :=
    unlock_mine (own.lock.mpr rfl)
  have next : poll n w.shared ⟨method,.drained⟩ none .done = ({ w.shared with state := .Stopped,shutdown_lock := none },.returned (.ok ())) := by
    simp only [poll,move,transition_stopped own.stands,unlocked]
  obtain ⟨returned,after⟩ := polled there
  rw [next] at returned after
  exact finishes_now returned (by rw [after])

theorem draining_finishes {w : World} {n : Nat} {method : Method} (reached : Reached w) (there : w.calls[n]? = some ⟨method,.draining⟩) :
    Finishes w n method := .back (drained_finishes (reached_step w (go n) reached) (polled there).1)

theorem leaving_finishes {w : World} {n : Nat} {method : Method} (reached : Reached w) (there : w.calls[n]? = some ⟨method,.leaving⟩) :
    Finishes w n method := .back (draining_finishes (reached_step w (go n) reached) (polled there).1)

theorem stopping_finishes {w : World} {n : Nat} {method : Method} (reached : Reached w) (there : w.calls[n]? = some ⟨method,.stopping⟩) :
    Finishes w n method := by
  have own : Local n w.shared ⟨method,.stopping⟩ := reached.call there
  have next : (poll n w.shared ⟨method,.stopping⟩ none .done).2 = .leaving := by simp only [poll,move,transition_stops own.stands]
  have moved := (polled there).1
  rw [next] at moved
  exact .back (leaving_finishes (reached_step w (go n) reached) moved)

theorem locked_finishes {w : World} {n : Nat} {method : Method} (reached : Reached w) (there : w.calls[n]? = some ⟨method,.locked⟩) :
    Finishes w n method := by
  have own : Local n w.shared ⟨method,.locked⟩ := reached.call there
  obtain ⟨moved,after⟩ := polled there
  by_cases stopped : w.shared.state = .Stopped
  · have next : poll n w.shared ⟨method,.locked⟩ none .done = (w.shared.unlock n,.returned (.ok ())) := if_pos stopped
    rw [next] at moved after
    refine finishes_now moved ?_
    rw [after,unlock_mine (own.lock.mpr rfl)]
  · have next : poll n w.shared ⟨method,.locked⟩ none .done = (w.shared,.stopping) := if_neg stopped
    rw [next] at moved
    exact .back (stopping_finishes (reached_step w (go n) reached) moved)

theorem holder_finishes {w : World} {n : Nat} {call : Call} (reached : Reached w) (there : w.calls[n]? = some call) (holds : call.phase.holds) :
    Finishes w n call.method := by
  obtain ⟨method,phase⟩ := call
  cases phase with
  | locked => exact locked_finishes reached there
  | stopping => exact stopping_finishes reached there
  | leaving => exact leaving_finishes reached there
  | draining => exact draining_finishes reached there
  | drained => exact drained_finishes reached there
  | called | listening | locking | returned | dropped => cases holds

/-- Calls that go on, none of them dropped, let this one return `Ok`. -/
def CanReturn (w : World) (n : Nat) (method : Method) : Prop :=
  ∃ turns : List Nat, (Runs.run lifecycle.step w (turns.map go)).calls[n]? = some ⟨method,.returned (.ok ())⟩

theorem CanReturn.after {w : World} {n : Nat} {method : Method} (turns : List Nat)
    (returns : CanReturn (Runs.run lifecycle.step w (turns.map go)) n method) : CanReturn w n method := by
  obtain ⟨more,returned⟩ := returns
  refine ⟨turns ++ more,?_⟩
  rwa [List.map_append,Runs.run_append]

theorem Finishes.canReturn {w : World} {n : Nat} {method : Method} (finishes : Finishes w n method) : CanReturn w n method := by
  obtain ⟨turns,returned,-⟩ := finishes
  exact ⟨List.replicate turns n,by rwa [List.map_replicate]⟩

theorem free_returns {w : World} {n : Nat} {method : Method} (reached : Reached w) (there : w.calls[n]? = some ⟨method,.locking⟩)
    (free : w.shared.shutdown_lock = none) : CanReturn w n method := by
  have next : (poll n w.shared ⟨method,.locking⟩ none .done).2 = .locked := by simp [poll,free]
  have moved := (polled there).1
  rw [next] at moved
  exact .after [n] (locked_finishes (reached_step w (go n) reached) moved).canReturn

/-- Whoever holds the lock finishes, and then the one that waits for it does. -/
theorem locking_returns {w : World} {n : Nat} {method : Method} (reached : Reached w) (there : w.calls[n]? = some ⟨method,.locking⟩) :
    CanReturn w n method := by
  cases taken : w.shared.shutdown_lock with
  | none => exact free_returns reached there taken
  | some m =>
    have waits : Local n w.shared ⟨method,.locking⟩ := reached.call there
    have other : m ≠ n := by
      rintro rfl
      cases waits.lock.mp taken
    have place := reached.calls m
    cases theirs : w.calls[m]? with
    | none =>
      rw [theirs] at place
      exact absurd taken place
    | some call =>
      rw [theirs] at place
      obtain ⟨turns,-,free,others⟩ := holder_finishes reached theirs (place.lock.mp taken)
      refine .after (List.replicate turns m) ?_
      rw [List.map_replicate]
      exact free_returns (reached_run w _ reached) ((others n other).trans there) free

theorem shutdown_returns {w : World} {n : Nat} {phase : Phase} (reached : Reached w) (there : w.calls[n]? = some ⟨.shutdown,phase⟩) :
    phase = .dropped ∨ CanReturn w n .shutdown := by
  have own : Local n w.shared ⟨.shutdown,phase⟩ := reached.call there
  cases phase with
  | dropped => exact .inl rfl
  | called =>
    exact .inr (.after [n] (locking_returns (reached_step w (go n) reached) (polled there).1))
  | listening => cases (own.stands : Method.shutdown = .start)
  | locking => exact .inr (locking_returns reached there)
  | locked | stopping | leaving | draining | drained => exact .inr (holder_finishes reached there rfl).canReturn
  | returned result =>
    cases result with
    | ok => exact .inr ⟨[],there⟩
    | error => cases own.stands.1

theorem cannotStart_ne (state current target : RuntimeState) : cannotStart state ≠ invalidTransition current target := by
  intro same
  have first := congrArg (fun text : String => text.toList.head?) (DafError.Internal.inj same)
  simp [String.toList_append] at first

/-- The state moves forward only, one `start` enters `Running`, no transition is refused, a shutdown that
returns has stopped the runtime for good, and one that is not dropped can return, whatever was dropped. -/
theorem runtime_lifecycle (events : List Step) :
    (∀ more, (run events).shared.state.stage ≤ (run (events ++ more)).shared.state.stage) ∧ (run events).shared.entered.length ≤ 1 ∧
      (∀ (n : Nat) method current target, (run events).calls[n]? ≠ some ⟨method,.returned (.error (invalidTransition current target))⟩) ∧
      (∀ (n : Nat) result, (run events).calls[n]? = some ⟨.shutdown,.returned result⟩ →
        result = .ok () ∧ ∀ more, (run (events ++ more)).shared.state = .Stopped) ∧
      ∀ (n : Nat) phase, (run events).calls[n]? = some ⟨.shutdown,phase⟩ → phase = .dropped ∨ CanReturn (run events) n .shutdown := by
  have reached : Reached (run events) := rule.always (fun _ _ _ _ => trivial) events
  have forward : ∀ more, (run events).shared.state.stage ≤ (run (events ++ more)).shared.state.stage := by
    intro more
    have split : run (events ++ more) = Runs.run lifecycle.step (run events) more := Runs.run_append events more
    rw [split]
    exact forward_run _ more reached
  refine ⟨forward,reached.shared.once,?_,?_,fun n phase there => shutdown_returns reached there⟩
  · intro n method current target there
    have own : Local n (run events).shared _ := reached.call there
    obtain ⟨-,state,-,same⟩ := own.stands
    exact cannotStart_ne state current target same.symm
  · intro n result there
    have own : Local n (run events).shared _ := reached.call there
    cases result with
    | error e => cases own.stands.1
    | ok =>
      refine ⟨rfl,fun more => stage_stopped ?_⟩
      have stopped : (run events).shared.state = .Stopped := own.stands
      have past := forward more
      rwa [stopped] at past

end Daf.RuntimeLifecycle
