import Daf.Interleaving

/-!
The signal that tells a runtime to shut down. A waiter registers before it looks at the flag, and the flag is
set before the waiters are notified; a notification wakes those that are registered at that moment.
-/
namespace Daf.ShutdownSignal
open Daf.Runs Daf.Interleaving

/-- What the clones of a signal share; the calls whose waiters are registered and have not been notified. -/
structure Signal where
  triggered : Bool
  forced : Bool
  waiters : List Nat
deriving DecidableEq,Repr

def Signal.new : Signal := ⟨false,false,[]⟩

def Signal.notify_waiters (signal : Signal) : Signal := { signal with waiters := [] }

inductive Method where
  | wait | trigger | force
deriving DecidableEq,Repr

/-- Where a call of `wait` is. -/
inductive Waiting where
  | start | registered | suspended | returned
deriving DecidableEq,Repr

/-- Where a call of `trigger` is, and whether it is the one that set the flag. -/
inductive Triggering where
  | start
  | swapped (first : Bool)
  | returned (first : Bool)
deriving DecidableEq,Repr

inductive Forcing where
  | start | stored | returned
deriving DecidableEq,Repr

inductive Call where
  | wait (at_ : Waiting)
  | trigger (at_ : Triggering)
  | force (at_ : Forcing)
deriving DecidableEq,Repr

def Method.enter : Method → Call
  | .wait => .wait .start
  | .trigger => .trigger .start
  | .force => .force .start

def wait (n : Nat) (signal : Signal) : Waiting → Signal × Waiting
  | .start => ({ signal with waiters := n :: signal.waiters },.registered)
  | .registered =>
    -- a future that is dropped takes its waiter with it
    if signal.triggered then ({ signal with waiters := signal.waiters.erase n },.returned) else (signal,.suspended)
  | .suspended => (signal,if n ∈ signal.waiters then .suspended else .returned)
  | .returned => (signal,.returned)

def trigger (signal : Signal) : Triggering → Signal × Triggering
  | .start => ({ signal with triggered := true },.swapped !signal.triggered)
  | .swapped true => (signal.notify_waiters,.returned true)
  | .swapped false => (signal,.returned false)
  | .returned first => (signal,.returned first)

def force (signal : Signal) : Forcing → Signal × Forcing
  | .start => ({ signal with forced := true },.stored)
  | .stored => (signal.notify_waiters,.returned)
  | .returned => (signal,.returned)

def act (n : Nat) (signal : Signal) : Call → Unit → Signal × Call
  | .wait at_,_ => ((wait n signal at_).1,.wait (wait n signal at_).2)
  | .trigger at_,_ => ((trigger signal at_).1,.trigger (trigger signal at_).2)
  | .force at_,_ => ((force signal at_).1,.force (force signal at_).2)

def signals : System Signal Call Method Unit := ⟨.new,Method.enter,act⟩

abbrev World := Interleaving.World Signal Call

abbrev Event := Interleaving.Event Method Unit

/-- The signal and the calls after these events. -/
def after (events : List Event) : World := signals.run events

/-! ### No lost wakeup -/

/-- The call of `trigger` that set the flag has returned. -/
def Told (w : World) : Prop := ∃ m : Nat, w.calls[m]? = some (.trigger (.returned true))

/-- The waiter is suspended, and nobody has woken it. -/
def Asleep (w : World) (n : Nat) : Prop := w.calls[n]? = some (.wait .suspended) ∧ n ∈ w.shared.waiters

/-- Where a wait is after this many of its own steps, if it does not suspend. -/
def passes : Nat → Waiting
  | 0 => .start
  | 1 => .registered
  | _ + 2 => .returned

/-- How many steps the call takes. -/
def steps (n : Nat) (events : List Event) : Nat := events.count (.act n ())

structure LosesNone (events : List Event) : Prop where
  woken : Told (after events) → ∀ n, ¬ Asleep (after events) n
  /-- A wait that starts behind the trigger completes with its second step. -/
  late : ∀ before more, events = before ++ .call .wait :: more → Told (after before) →
    (after events).calls[(after before).calls.length]? = some (.wait (passes (steps (after before).calls.length more)))
  asked : ∀ n : Nat, (after events).calls[n]? = some (.wait .returned) → .call .trigger ∈ events ∨ .call .force ∈ events

section
variable {w : World} {n m : Nat} {events : List Event}

/-- Whoever has set the flag has left it set, and behind its notification nobody sleeps. -/
structure Inv (w : World) : Prop where
  flagged : ∀ m : Nat, w.calls[m]? = some (.trigger (.swapped true)) ∨ w.calls[m]? = some (.trigger (.returned true)) → w.shared.triggered = true
  woken : Told w → ∀ n, ¬ Asleep w n

theorem get_snoc {calls : List Call} {method : Method} {call : Call} (there : (calls ++ [method.enter])[n]? = some call) :
    calls[n]? = some call ∨ n = calls.length ∧ call = method.enter := by
  rcases Nat.lt_trichotomy n calls.length with old | new | beyond
  · rw [List.getElem?_append_left old] at there
    exact .inl there
  · subst new
    rw [List.getElem?_concat_length,Option.some.injEq] at there
    exact .inr ⟨rfl,there.symm⟩
  · rw [List.getElem?_eq_none (by simp; omega)] at there
    cases there

theorem inv_call (method : Method) (inv : Inv w) : Inv (signals.step w (.call method)) := by
  refine ⟨fun m there => inv.flagged m ?_,?_⟩
  · refine there.imp ?_ ?_
    all_goals
      intro there
      rcases get_snoc there with old | ⟨-,new⟩
      · exact old
      · cases method <;> cases new
  · rintro ⟨m,told⟩ n ⟨suspended,unnotified⟩
    have first : w.calls[m]? = some (.trigger (.returned true)) := by
      rcases get_snoc told with old | ⟨-,new⟩
      · exact old
      · cases method <;> cases new
    have second : w.calls[n]? = some (.wait .suspended) := by
      rcases get_snoc suspended with old | ⟨-,new⟩
      · exact old
      · cases method <;> cases new
    exact inv.woken ⟨m,first⟩ n ⟨second,unnotified⟩

/-- A call behind a step of call `k`: its own outcome, or another call as it was. -/
theorem get_act {k : Nat} {call t : Call} (there : w.calls[k]? = some t) (found : (signals.step w (.act k ())).calls[n]? = some call) :
    (n = k ∧ call = (act k w.shared t ()).2) ∨ (n ≠ k ∧ w.calls[n]? = some call) := by
  by_cases own : n = k
  · subst own
    rw [own_act there,Option.some.injEq] at found
    exact .inl ⟨rfl,found.symm⟩
  · rw [other_act (Ne.symm own)] at found
    exact .inr ⟨own,found⟩

theorem shared_act {k : Nat} {t : Call} (there : w.calls[k]? = some t) : (signals.step w (.act k ())).shared = (act k w.shared t ()).1 := by
  rw [step_act there]
  rfl

/-- The flag is never taken back. -/
theorem triggered_act (k : Nat) (signal : Signal) (t : Call) (set : signal.triggered = true) : (act k signal t ()).1.triggered = true := by
  cases t with
  | wait at_ =>
    cases at_ with
    | registered => simp [act,wait,set]
    | start | suspended | returned => exact set
  | trigger at_ =>
    cases at_ with
    | start => rfl
    | swapped first => cases first <;> exact set
    | returned => exact set
  | force at_ => cases at_ <;> exact set

/-- Only a call itself registers its waiter. -/
theorem waiters_act {k : Nat} {signal : Signal} {t : Call} (registered : n ∈ (act k signal t ()).1.waiters) : n = k ∨ n ∈ signal.waiters := by
  cases t with
  | wait at_ =>
    cases at_ with
    | start => exact List.mem_cons.mp registered
    | registered =>
      simp only [act,wait] at registered
      split at registered
      · exact .inr (List.mem_of_mem_erase registered)
      · exact .inr registered
    | suspended | returned => exact .inr registered
  | trigger at_ =>
    cases at_ with
    | start => exact .inr registered
    | swapped first =>
      cases first with
      | true => cases registered
      | false => exact .inr registered
    | returned => exact .inr registered
  | force at_ =>
    cases at_ with
    | start | returned => exact .inr registered
    | stored => cases registered

/-- A call of `trigger` that has just set the flag, or returned. -/
theorem trigger_act {k : Nat} {signal : Signal} {t : Call} :
    ((act k signal t ()).2 = .trigger (.swapped true) → (act k signal t ()).1.triggered = true) ∧
    ((act k signal t ()).2 = .trigger (.returned true) →
      (t = .trigger (.swapped true) ∧ (act k signal t ()).1.waiters = []) ∨ t = .trigger (.returned true)) := by
  cases t with
  | wait at_ => exact ⟨fun same => (by cases same),fun same => (by cases same)⟩
  | force at_ => exact ⟨fun same => (by cases same),fun same => (by cases same)⟩
  | trigger at_ =>
    cases at_ with
    | start => exact ⟨fun _ => rfl,fun same => by cases same⟩
    | swapped first =>
      cases first with
      | true => exact ⟨fun same => (by cases same),fun _ => .inl ⟨rfl,rfl⟩⟩
      | false => exact ⟨fun same => (by cases same),fun same => by cases same⟩
    | returned first =>
      refine ⟨fun same => (by cases same),fun same => .inr ?_⟩
      cases same
      rfl

/-- A call suspends when it finds the flag unset, and stays so until it is notified. -/
theorem suspended_act {k : Nat} {signal : Signal} {t : Call} (suspended : (act k signal t ()).2 = .wait .suspended) :
    (t = .wait .registered ∧ signal.triggered = false) ∨ (t = .wait .suspended ∧ k ∈ signal.waiters) := by
  cases t with
  | trigger | force => cases suspended
  | wait at_ =>
    cases at_ with
    | start | returned => cases suspended
    | registered =>
      refine .inl ⟨rfl,?_⟩
      cases set : signal.triggered with
      | false => rfl
      | true =>
        rw [act,wait,set] at suspended
        cases suspended
    | suspended =>
      refine .inr ⟨rfl,?_⟩
      by_contra notified
      simp [act,wait,notified] at suspended

theorem inv_act {k : Nat} {t : Call} (there : w.calls[k]? = some t) (inv : Inv w) : Inv (signals.step w (.act k ())) := by
  constructor
  · intro m setter
    rw [shared_act there]
    rcases setter with swapped | returned
    · rcases get_act there swapped with ⟨-,own⟩ | ⟨-,old⟩
      · exact trigger_act.1 own.symm
      · exact triggered_act k _ t (inv.flagged m (.inl old))
    · rcases get_act there returned with ⟨-,own⟩ | ⟨-,old⟩
      · rcases trigger_act.2 own.symm with ⟨rfl,-⟩ | rfl
        · exact triggered_act k _ _ (inv.flagged k (.inl there))
        · exact triggered_act k _ _ (inv.flagged k (.inr there))
      · exact triggered_act k _ t (inv.flagged m (.inr old))
  · rintro ⟨m,told⟩ n ⟨suspended,unnotified⟩
    rw [shared_act there] at unnotified
    have before : Told w := by
      rcases get_act there told with ⟨-,own⟩ | ⟨-,old⟩
      · rcases trigger_act.2 own.symm with ⟨-,empty⟩ | rfl
        · rw [empty] at unnotified
          cases unnotified
        · exact ⟨k,there⟩
      · exact ⟨m,old⟩
    obtain ⟨setter,set⟩ := before
    have flag := inv.flagged setter (.inr set)
    rcases get_act there suspended with ⟨rfl,own⟩ | ⟨other,old⟩
    · rcases suspended_act own.symm with ⟨-,unset⟩ | ⟨rfl,asleep⟩
      · rw [flag] at unset
        cases unset
      · exact inv.woken ⟨setter,set⟩ n ⟨there,asleep⟩
    · rcases waiters_act unnotified with own | still
      · exact other own
      · exact inv.woken ⟨setter,set⟩ n ⟨old,still⟩

theorem inv_step (w : World) (event : Event) (inv : Inv w) : Inv (signals.step w event) := by
  cases event with
  | call method => exact inv_call method inv
  | act k choice =>
    cases there : w.calls[k]? with
    | none =>
      rw [step_absent there]
      exact inv
    | some t => exact inv_act there inv

theorem inv_after (events : List Event) : Inv (after events) :=
  invariant inv_step ⟨fun m there => by simp [System.start] at there,fun ⟨m,told⟩ => by simp [System.start] at told⟩ events

/-! ### A wait that starts behind the trigger -/

/-- The flag is set, and the wait has taken this many steps without suspending. -/
def Late (n taken : Nat) (w : World) : Prop := w.shared.triggered = true ∧ w.calls[n]? = some (.wait (passes taken))

theorem wait_passes (n taken : Nat) {signal : Signal} (set : signal.triggered = true) : (wait n signal (passes taken)).2 = passes (taken + 1) := by
  rcases taken with _ | _ | taken
  · rfl
  · simp [passes,wait,set]
  · rfl

theorem late_step {taken : Nat} (event : Event) (late : Late n taken w) : Late n (taken + steps n [event]) (signals.step w event) := by
  obtain ⟨set,there⟩ := late
  cases event with
  | call method =>
    obtain ⟨inside,-⟩ := List.getElem?_eq_some_iff.mp there
    refine ⟨set,?_⟩
    show (w.calls ++ [method.enter])[n]? = _
    rw [List.getElem?_append_left inside,there]
    simp [steps]
  | act k choice =>
    by_cases own : k = n
    · subst own
      have one : steps k [.act k choice] = 1 := by simp [steps]
      rw [one]
      refine ⟨?_,?_⟩
      · rw [shared_act there]
        exact triggered_act k _ _ set
      · rw [own_act there]
        show some (Call.wait (wait k w.shared (passes taken)).2) = _
        rw [wait_passes k taken set]
    · have none : steps n [.act k choice] = 0 := by simp [steps,own]
      rw [none]
      refine ⟨?_,(other_act own choice).trans there⟩
      cases found : w.calls[k]? with
      | none => rwa [step_absent found]
      | some t =>
        rw [shared_act found]
        exact triggered_act k _ t set

theorem late_run {taken : Nat} (late : Late n taken w) (more : List Event) : Late n (taken + steps n more) (run signals.step w more) := by
  induction more generalizing w taken with
  | nil => exact late
  | cons event more ih =>
    have next := ih (late_step event late)
    have counted : steps n (event :: more) = steps n [event] + steps n more := by
      rw [steps,steps,steps,← List.singleton_append,List.count_append]
    rw [counted,← Nat.add_assoc]
    exact next

/-! ### Nobody returns unasked -/

/-- As long as nobody has triggered or forced the shutdown, every waiter stays registered and the flag unset. -/
structure Unasked (w : World) : Prop where
  unset : w.shared.triggered = false
  waiting : ∀ n call, w.calls[n]? = some call → call = .wait .start ∨ ((call = .wait .registered ∨ call = .wait .suspended) ∧ n ∈ w.shared.waiters)

theorem unasked_step (event : Event) (unasked : Unasked w) (wait_only : ∀ method, event = .call method → method = .wait) : Unasked (signals.step w event) := by
  cases event with
  | call method =>
    have only := wait_only method rfl
    subst only
    refine ⟨unasked.unset,fun n call there => ?_⟩
    have place : (w.calls ++ [Method.wait.enter])[n]? = some call := there
    rcases get_snoc place with old | ⟨-,rfl⟩
    · exact unasked.waiting n call old
    · exact .inl rfl
  | act k choice =>
    cases there : w.calls[k]? with
    | none =>
      rw [step_absent there]
      exact unasked
    | some t =>
      have unset := unasked.unset
      have kept : ∀ m, m ∈ w.shared.waiters → m ∈ (act k w.shared t ()).1.waiters := by
        intro m member
        rcases unasked.waiting k t there with rfl | ⟨rfl | rfl,-⟩
        · exact List.mem_cons_of_mem _ member
        · simpa [act,wait,unset] using member
        · exact member
      refine ⟨?_,fun n call found => ?_⟩
      · rw [shared_act there]
        rcases unasked.waiting k t there with rfl | ⟨rfl | rfl,-⟩
        · exact unset
        · simp [act,wait,unset]
        · exact unset
      · rw [shared_act there]
        rcases get_act there found with ⟨rfl,rfl⟩ | ⟨-,old⟩
        · rcases unasked.waiting n t there with rfl | ⟨rfl | rfl,here⟩
          · exact .inr ⟨.inl rfl,List.mem_cons_self⟩
          · exact .inr ⟨.inr (by simp [act,wait,unset]),kept n here⟩
          · exact .inr ⟨.inr (by simp [act,wait,here]),here⟩
        · exact (unasked.waiting n call old).imp id fun ⟨phase,here⟩ => ⟨phase,kept n here⟩

theorem unasked_run {events : List Event} (no_trigger : .call .trigger ∉ events) (no_force : .call .force ∉ events) : Unasked (after events) := by
  have every : Every signals.step (fun _ event => ∀ method, event = .call method → method = .wait) signals.start events := by
    refine every_of_mem fun event member method called => ?_
    subst called
    cases method with
    | wait => rfl
    | trigger => exact absurd member no_trigger
    | force => exact absurd member no_force
  exact every.invariant (fun w event unasked only => unasked_step event unasked only) ⟨rfl,fun n call there => by simp [System.start] at there⟩

/-- In every interleaving: nobody sleeps on behind the trigger that set the flag, who comes later does not sleep at
all, and nobody returns unasked. -/
theorem no_lost_wakeup (events : List Event) : LosesNone events where
  woken := (inv_after events).woken
  late := by
    rintro before more rfl ⟨m,told⟩
    have inv := inv_after before
    have started : Late (after before).calls.length 0 (signals.step (after before) (.call .wait)) :=
      ⟨inv.flagged m (.inr told),List.getElem?_concat_length⟩
    have result := (late_run started more).2
    rw [Nat.zero_add] at result
    rw [after,System.run,run_append]
    exact result
  asked := by
    intro n returned
    by_contra silent
    have unasked := unasked_run (fun asked => silent (.inl asked)) (fun asked => silent (.inr asked))
    rcases unasked.waiting n _ returned with same | ⟨same | same,-⟩ <;> cases same

end
end Daf.ShutdownSignal
