import Daf.Interleaving
import Daf.MissionRun
import Mathlib.Data.Finset.Card
import Mathlib.Data.Finset.Dedup

/-!
The missions of an orchestrator that run at the same time. A call of `run_mission_async` takes a slot, and a lease gives it back whether the
call returns or its future is dropped. The slot is given back first and a dropped mission recorded as cancelled after it, so a mission that was
started anew in between is shown as cancelled; and where the deadline cannot be represented there is no lease yet.
-/
namespace Daf.MissionSlots
open Daf.Runs Daf.Interleaving Daf.MissionPlan
open Daf.MissionRun (MissionState)

/-- What the calls share. -/
structure Orchestrator where
  active_missions : Finset MissionId
  missions : AList fun _ : MissionId => MissionState
  missions_started : Nat
  missions_completed : Nat
  shutdown_flag : Bool

def Orchestrator.new : Orchestrator := ⟨∅,∅,0,0,false⟩

def Orchestrator.mission_state (o : Orchestrator) (id : MissionId) : Option MissionState := o.missions.lookup id

def Orchestrator.set_state (o : Orchestrator) (id : MissionId) (state : MissionState) : Orchestrator :=
  { o with missions := o.missions.insert id state }

def Orchestrator.mission_started (o : Orchestrator) : Orchestrator := { o with missions_started := o.missions_started + 1 }

def Orchestrator.mission_completed (o : Orchestrator) : Orchestrator := { o with missions_completed := o.missions_completed + 1 }

def Orchestrator.release (o : Orchestrator) (id : MissionId) : Orchestrator := { o with active_missions := o.active_missions.erase id }

/-- What a mission comes to. -/
inductive Outcome where
  | Completed
  | Failed
  | Cancelled
deriving DecidableEq,Repr

def Outcome.state : Outcome → MissionState
  | .Completed => .Completed
  | .Failed => .Failed
  | .Cancelled => .Cancelled

/-- Where a call of `run_mission_async` is. -/
inductive Stage where
  | validate
  /-- Under the lock of the active missions. -/
  | admission
  | deadline
  | mark
  | start
  /-- The waves of the mission, under the lease. -/
  | running
  | finishing (failed : Bool)
  | settle (outcome : Outcome)
  | count (outcome : Outcome)
  | release (outcome : Outcome)
  | returned (result : Except DafError Outcome)
  /-- The lease of a dropped call: the slot first, the state and the counter after it. -/
  | dropping
  | cancel
  | countCancelled
  | dropped
  /-- The deadline of the mission cannot be represented. -/
  | panicked

inductive Call where
  | run_mission (mission : Mission) (stage : Stage)
  | shutdown (done : Bool)

inductive Request where
  | run_mission (mission : Mission)
  | shutdown

/-- What comes of the waves, or of the sum of an instant and a duration; elsewhere a call just goes on. -/
inductive Choice where
  | go
  | finish (failed : Bool)
  | drop
  | overflow
deriving DecidableEq,Repr

def enter : Request → Call
  | .run_mission mission => .run_mission mission .validate
  | .shutdown => .shutdown false

def slotsTaken : DafError := .ResourceExhausted "mission slots"

def admission (max_concurrent_missions : Nat) (o : Orchestrator) (id : MissionId) : Orchestrator × Stage :=
  if o.shutdown_flag then (o,.returned (.error (.Internal "orchestrator is shutting down")))
  else if id ∈ o.active_missions then (o,.returned (.error (.ConfigError "mission is already executing")))
  else if max_concurrent_missions ≤ o.active_missions.card then (o,.returned (.error slotsTaken))
  else ({ o with active_missions := insert id o.active_missions },.deadline)

def runMission (max_concurrent_missions : Nat) (o : Orchestrator) (mission : Mission) (stage : Stage) (choice : Choice) : Orchestrator × Stage :=
  match stage with
  | .validate =>
    match mission.resolve_execution_order with
    | .error e => (o,.returned (.error e))
    | .ok _ => (o,.admission)
  | .admission => admission max_concurrent_missions o mission.id
  | .deadline => (o,if mission.timeout.isSome ∧ choice = .overflow then .panicked else .mark)
  | .mark => (o.set_state mission.id .Executing,.start)
  | .start => (o.mission_started,.running)
  | .running =>
    match choice with
    | .go => (o,.running)
    | .finish failed => (o,.finishing failed)
    -- a future that is dropped and one that panics both drop the lease
    | .drop | .overflow => (o,.dropping)
  | .finishing failed => (o,.settle (if o.shutdown_flag then .Cancelled else if failed then .Failed else .Completed))
  | .settle outcome => (o.set_state mission.id outcome.state,.count outcome)
  | .count outcome => (o.mission_completed,.release outcome)
  | .release outcome => (o.release mission.id,.returned (.ok outcome))
  | .returned result => (o,.returned result)
  | .dropping => (o.release mission.id,.cancel)
  | .cancel => (o.set_state mission.id .Cancelled,.countCancelled)
  | .countCancelled => (o.mission_completed,.dropped)
  | .dropped => (o,.dropped)
  | .panicked => (o,.panicked)

def act (max_concurrent_missions : Nat) (o : Orchestrator) (call : Call) (choice : Choice) : Orchestrator × Call :=
  match call with
  | .run_mission mission stage =>
    let (o,stage) := runMission max_concurrent_missions o mission stage choice
    (o,.run_mission mission stage)
  | .shutdown _ => ({ o with shutdown_flag := true },.shutdown true)

def missionCalls (max_concurrent_missions : Nat) : System Orchestrator Call Request Choice :=
  ⟨.new,enter,fun _ o call choice => act max_concurrent_missions o call choice⟩

abbrev World := Interleaving.World Orchestrator Call

abbrev Step := Interleaving.Event Request Choice

def run (max_concurrent_missions : Nat) (events : List Step) : World := (missionCalls max_concurrent_missions).run events

/-! ### What the calls hold and count for -/

/-- From the admission until the lease is dropped. -/
def Stage.holds : Stage → Bool
  | .deadline | .mark | .start | .running | .finishing _ | .settle _ | .count _ | .release _ | .dropping | .panicked => true
  | _ => false

def Stage.ended : Stage → Bool
  | .returned _ | .dropped | .panicked => true
  | _ => false

/-- Recorded as executing and not yet as anything else. -/
def Stage.executes : Stage → Bool
  | .start | .running | .finishing _ | .settle _ | .dropping | .cancel => true
  | _ => false

def Stage.started : Stage → Bool
  | .running | .finishing _ | .settle _ | .count _ | .release _ | .returned (.ok _) | .dropping | .cancel | .countCancelled | .dropped => true
  | _ => false

def Stage.completed : Stage → Bool
  | .release _ | .returned (.ok _) | .dropped => true
  | _ => false

/-- What was made of a mission whose waves have ended. -/
def Stage.decides : Stage → Option Outcome
  | .settle outcome | .count outcome | .release outcome | .returned (.ok outcome) => some outcome
  | _ => none

/-- A condition on the calls of one mission, or of all. -/
def Call.mission (p : MissionId → Stage → Bool) : Call → Bool
  | .run_mission mission stage => p mission.id stage
  | .shutdown _ => false

def Call.held : Call → Option MissionId
  | .run_mission mission stage => if stage.holds then some mission.id else none
  | .shutdown _ => none

/-- The mission of a call that panicked before it had a lease. -/
def Call.leaked : Call → Option MissionId
  | .run_mission mission .panicked => some mission.id
  | _ => none

def Call.ended : Call → Bool
  | .run_mission _ stage => stage.ended
  | .shutdown _ => true

def weight (p : MissionId → Stage → Bool) (call : Call) : Nat := if call.mission p then 1 else 0

/-- The missions that hold a slot. -/
def heldMissions (w : World) : List MissionId := w.calls.filterMap Call.held

theorem weight_tally (p : MissionId → Stage → Bool) (w : World) : w.tally (weight p) = w.calls.countP (Call.mission p) := tally_countP fun _ _ => rfl

theorem weight_enter (p : MissionId → Stage → Bool) (waits : ∀ id, p id .validate = false) (request : Request) : weight p (enter request) = 0 := by
  cases request with
  | run_mission mission => simp [weight,enter,Call.mission,waits]
  | shutdown => rfl

section
variable {limit : Nat} {id : MissionId}

def holdsFor (id other : MissionId) (stage : Stage) : Bool := stage.holds && decide (other = id)

def slot (id : MissionId) (o : Orchestrator) : Nat := if id ∈ o.active_missions then 1 else 0

theorem slot_release (o : Orchestrator) (other : MissionId) : slot id (o.release other) = if other = id then 0 else slot id o := by
  by_cases same : other = id
  · simp [slot,Orchestrator.release,same]
  · simp [slot,Orchestrator.release,same,Ne.symm same]

/-- All that a step of a mission can do. -/
inductive Moves (limit : Nat) (o : Orchestrator) (id : MissionId) : Stage → Orchestrator → Stage → Prop where
  | on {stage after : Stage} (holds : after.holds = stage.holds) (executes : after.executes = stage.executes) (started : after.started = stage.started)
      (completed : after.completed = stage.completed) (decides : after.decides = stage.decides) : Moves limit o id stage o after
  | admission (flag : o.shutdown_flag = false) (new : id ∉ o.active_missions) (room : o.active_missions.card < limit) :
      Moves limit o id .admission { o with active_missions := insert id o.active_missions } .deadline
  | mark : Moves limit o id .mark (o.set_state id .Executing) .start
  | start : Moves limit o id .start o.mission_started .running
  | finishing (failed : Bool) : Moves limit o id (.finishing failed) o (.settle (if o.shutdown_flag then .Cancelled else if failed then .Failed else .Completed))
  | settle (outcome : Outcome) : Moves limit o id (.settle outcome) (o.set_state id outcome.state) (.count outcome)
  | count (outcome : Outcome) : Moves limit o id (.count outcome) o.mission_completed (.release outcome)
  | release (outcome : Outcome) : Moves limit o id (.release outcome) (o.release id) (.returned (.ok outcome))
  | dropping : Moves limit o id .dropping (o.release id) .cancel
  | cancel : Moves limit o id .cancel (o.set_state id .Cancelled) .countCancelled
  | countCancelled : Moves limit o id .countCancelled o.mission_completed .dropped

theorem runMission_moves (o : Orchestrator) (mission : Mission) (stage : Stage) (choice : Choice) :
    Moves limit o mission.id stage (runMission limit o mission stage choice).1 (runMission limit o mission stage choice).2 := by
  cases stage with
  | validate =>
    simp only [runMission]
    cases mission.resolve_execution_order <;> exact .on rfl rfl rfl rfl rfl
  | admission =>
    simp only [runMission,admission]
    split_ifs with shutdown taken full
    · exact .on rfl rfl rfl rfl rfl
    · exact .on rfl rfl rfl rfl rfl
    · exact .on rfl rfl rfl rfl rfl
    · exact .admission (by simpa using shutdown) taken (Nat.lt_of_not_le full)
  | deadline =>
    simp only [runMission]
    split_ifs <;> exact .on rfl rfl rfl rfl rfl
  | running => cases choice <;> exact .on rfl rfl rfl rfl rfl
  | mark => exact .mark
  | start => exact .start
  | finishing failed => exact .finishing failed
  | settle outcome => exact .settle outcome
  | count outcome => exact .count outcome
  | release outcome => exact .release outcome
  | dropping => exact .dropping
  | cancel => exact .cancel
  | countCancelled => exact .countCancelled
  | _ => exact .on rfl rfl rfl rfl rfl

variable {o o' : Orchestrator} {other : MissionId} {stage stage' : Stage}

/-- A step takes the slot of a mission when its call comes to hold it, and gives it back when the lease is dropped. -/
theorem Moves.takes (moves : Moves limit o other stage o' stage') (bound : (if holdsFor id other stage then 1 else 0) ≤ slot id o) :
    slot id o' + (if holdsFor id other stage then 1 else 0) = slot id o + if holdsFor id other stage' then 1 else 0 := by
  have gives : (if decide (other = id) then 1 else 0) ≤ slot id o → slot id (o.release other) + (if decide (other = id) then 1 else 0) = slot id o := by
    intro bound
    rw [slot_release]
    by_cases same : other = id
    · simp only [same,decide_true,if_true] at bound ⊢
      have most : slot id o ≤ 1 := by rw [slot]; split_ifs <;> omega
      omega
    · simp [same]
  cases moves with
  | on holds => rw [holdsFor,holdsFor,holds]
  | admission flag new =>
    by_cases same : other = id
    · subst same
      simp [slot,holdsFor,Stage.holds,new]
    · simp [slot,holdsFor,Stage.holds,same,Ne.symm same]
  | release outcome => exact gives bound
  | dropping => exact gives bound
  | _ => rfl

theorem slot_act (o : Orchestrator) (call : Call) (choice : Choice) (bound : weight (holdsFor id) call ≤ slot id o) :
    slot id (act limit o call choice).1 + weight (holdsFor id) call = slot id o + weight (holdsFor id) (act limit o call choice).2 := by
  cases call with
  | shutdown done => rfl
  | run_mission mission stage => exact (runMission_moves o mission stage choice).takes bound

theorem Moves.counters (moves : Moves limit o other stage o' stage') :
    o'.missions_started + (if stage.started then 1 else 0) = o.missions_started + (if stage'.started then 1 else 0) ∧
      o'.missions_completed + (if stage.completed then 1 else 0) = o.missions_completed + if stage'.completed then 1 else 0 := by
  cases moves with
  | on holds executes started completed => exact ⟨by rw [started],by rw [completed]⟩
  | _ => exact ⟨rfl,rfl⟩

theorem counters_act (o : Orchestrator) (call : Call) (choice : Choice) :
    (act limit o call choice).1.missions_started + weight (fun _ => Stage.started) call =
        o.missions_started + weight (fun _ => Stage.started) (act limit o call choice).2 ∧
      (act limit o call choice).1.missions_completed + weight (fun _ => Stage.completed) call =
        o.missions_completed + weight (fun _ => Stage.completed) (act limit o call choice).2 := by
  cases call with
  | shutdown done => exact ⟨rfl,rfl⟩
  | run_mission mission stage => exact (runMission_moves o mission stage choice).counters

theorem held_count (limit : Nat) (events : List Step) (id : MissionId) :
    (heldMissions (run limit events)).count id = slot id (run limit events).shared := by
  have metered : slot id (run limit events).shared = (run limit events).tally (weight (holdsFor id)) := meter rfl (weight_enter _ fun _ => rfl)
    (fun _ o call choice bound => slot_act o call choice bound) events
  rw [heldMissions,List.count_filterMap]
  refine (List.countP_congr fun call _ => ?_).trans ((weight_tally _ _).symm.trans metered.symm)
  cases call with
  | shutdown done => simp [Call.held,Call.mission]
  | run_mission mission stage => cases holds : stage.holds <;> simp [Call.held,Call.mission,holdsFor,holds]

theorem held_nodup (limit : Nat) (events : List Step) : (heldMissions (run limit events)).Nodup := by
  rw [List.nodup_iff_count_le_one]
  intro id
  rw [held_count,slot]
  split_ifs <;> omega

theorem active_eq (limit : Nat) (events : List Step) : (run limit events).shared.active_missions = (heldMissions (run limit events)).toFinset := by
  ext id
  have counted := held_count limit events id
  rw [List.mem_toFinset,← List.count_pos_iff,counted,slot]
  split_ifs with there <;> simp [there]

theorem Moves.active_le (moves : Moves limit o other stage o' stage') (bound : o.active_missions.card ≤ limit) : o'.active_missions.card ≤ limit := by
  cases moves with
  | admission flag new room => exact (Finset.card_insert_le _ _).trans room
  | release outcome => exact (Finset.card_le_card (Finset.erase_subset _ _)).trans bound
  | dropping => exact (Finset.card_le_card (Finset.erase_subset _ _)).trans bound
  | _ => exact bound

theorem active_le (limit : Nat) (events : List Step) : (run limit events).shared.active_missions.card ≤ limit := by
  refine shared_invariant (G := fun o : Orchestrator => o.active_missions.card ≤ limit) (Nat.zero_le _) (fun _ o call choice bound => ?_) events
  cases call with
  | shutdown done => exact bound
  | run_mission mission stage => exact (runMission_moves o mission stage choice).active_le bound

/-- A call that comes to the lock. -/
theorem step_admission {w : World} {n : Nat} {mission : Mission} (there : w.calls[n]? = some (.run_mission mission .admission)) (choice : Choice) :
    ((missionCalls limit).step w (.act n choice)).calls[n]? = some (.run_mission mission (admission limit w.shared mission.id).2) := own_act there choice

/-- In every order of calls, shutdowns and dropped futures: no mission runs twice at a time and no more run than there are slots; a call is
    refused a slot just when all of them are held, by other missions; and when all calls have ended, the slots that are not free are those of
    the missions whose deadline could not be represented. -/
theorem mission_slots_run (limit : Nat) (events : List Step) :
    (heldMissions (run limit events)).Nodup ∧ (heldMissions (run limit events)).length ≤ limit ∧
      (run limit events).shared.active_missions = (heldMissions (run limit events)).toFinset ∧
      (∀ n mission choice, (run limit events).calls[n]? = some (.run_mission mission .admission) →
        (((missionCalls limit).step (run limit events) (.act n choice)).calls[n]? = some (.run_mission mission (.returned (.error slotsTaken))) ↔
          (run limit events).shared.shutdown_flag = false ∧ mission.id ∉ heldMissions (run limit events) ∧
            (heldMissions (run limit events)).length = limit)) ∧
      ((∀ call ∈ (run limit events).calls, call.ended = true) →
        (run limit events).shared.active_missions = ((run limit events).calls.filterMap Call.leaked).toFinset) := by
  have distinct := held_nodup limit events
  have active := active_eq limit events
  have bound := active_le limit events
  have card : (run limit events).shared.active_missions.card = (heldMissions (run limit events)).length := by
    rw [active,List.toFinset_card_of_nodup distinct]
  refine ⟨distinct,by omega,active,fun n mission choice there => ?_,fun ended => ?_⟩
  · have member : mission.id ∈ (run limit events).shared.active_missions ↔ mission.id ∈ heldMissions (run limit events) := by
      rw [active,List.mem_toFinset]
    rw [step_admission there,admission]
    split_ifs with shutdown taken full
    · simp [shutdown,slotsTaken]
    · simp [member.mp taken,slotsTaken]
    · have all : (heldMissions (run limit events)).length = limit := by omega
      exact ⟨fun _ => ⟨by simpa using shutdown,fun held => taken (member.mpr held),all⟩,fun _ => rfl⟩
    · have some_left : (heldMissions (run limit events)).length ≠ limit := by omega
      simp [some_left]
  · rw [active,heldMissions]
    congr 1
    refine List.filterMap_congr fun call there => ?_
    have done := ended call there
    cases call with
    | shutdown done => rfl
    | run_mission mission stage => cases stage <;> first | rfl | cases done

/-- A mission without phases. -/
def emptyMission (id : MissionId) (timeout : Option GraphNodes.Duration) : Mission := ⟨id,"",[],timeout,⟨0⟩⟩

/-- There is one slot, and the first mission has it. -/
def twoMissions : List Step :=
  [.call (.run_mission (emptyMission ⟨1⟩ none)),.act 0 .go,.act 0 .go,.act 0 .go,.act 0 .go,.act 0 .go,.call (.run_mission (emptyMission ⟨2⟩ none)),.act 1 .go]

/-- The deadline of the only mission cannot be represented. -/
def farDeadline : List Step := [.call (.run_mission (emptyMission ⟨1⟩ (some 1))),.act 0 .go,.act 0 .go,.act 0 .overflow]

theorem second_mission_refused :
    ((missionCalls 1).step (run 1 twoMissions) (.act 1 .go)).calls[1]? = some (.run_mission (emptyMission ⟨2⟩ none) (.returned (.error slotsTaken))) ∧
      (run 1 farDeadline).shared.active_missions = {⟨1⟩} := by
  refine ⟨((mission_slots_run 1 twoMissions).2.2.2.1 1 _ .go rfl).mpr ⟨rfl,?_,rfl⟩,?_⟩
  · decide
  · refine ((mission_slots_run 1 farDeadline).2.2.2.2 ?_).trans rfl
    intro call there
    have only : call ∈ [Call.run_mission (emptyMission ⟨1⟩ (some 1)) .panicked] := there
    rw [List.mem_singleton.mp only]
    rfl

/-! ### What is shown of a mission -/

def executesFor (id other : MissionId) (stage : Stage) : Bool := stage.executes && decide (other = id)

theorem state_set (o : Orchestrator) (other : MissionId) (state : MissionState) :
    (o.set_state other state).mission_state id = if id = other then some state else o.mission_state id := by
  rw [Orchestrator.mission_state,Orchestrator.set_state]
  split_ifs with same
  · rw [same]
    exact AList.lookup_insert _
  · exact AList.lookup_insert_ne same

/-- All that a step can do to the state of a mission. -/
theorem state_act (o : Orchestrator) (call : Call) (choice : Choice) (id : MissionId) :
    (act limit o call choice).1.mission_state id = o.mission_state id ∨
      ∃ mission, mission.id = id ∧
        ((call = .run_mission mission .mark ∧ (act limit o call choice).1.mission_state id = some .Executing) ∨
          (∃ outcome : Outcome, call = .run_mission mission (.settle outcome) ∧ (act limit o call choice).1.mission_state id = some outcome.state) ∨
          call = .run_mission mission .cancel ∧ (act limit o call choice).1.mission_state id = some .Cancelled) := by
  cases call with
  | shutdown done => exact .inl rfl
  | run_mission mission stage =>
    have moves := @runMission_moves limit o mission stage choice
    simp only [act]
    generalize (runMission limit o mission stage choice).1 = o' at moves ⊢
    generalize (runMission limit o mission stage choice).2 = stage' at moves
    by_cases same : mission.id = id
    · subst same
      cases moves with
      | mark => exact .inr ⟨mission,rfl,.inl ⟨rfl,by rw [state_set,if_pos rfl]⟩⟩
      | settle outcome => exact .inr ⟨mission,rfl,.inr (.inl ⟨outcome,rfl,by rw [state_set,if_pos rfl]⟩)⟩
      | cancel => exact .inr ⟨mission,rfl,.inr (.inr ⟨rfl,by rw [state_set,if_pos rfl]⟩)⟩
      | _ => exact .inl rfl
    · left
      cases moves with
      | mark => rw [state_set,if_neg (Ne.symm same)]
      | settle outcome => rw [state_set,if_neg (Ne.symm same)]
      | cancel => rw [state_set,if_neg (Ne.symm same)]
      | _ => rfl

/-- A call goes on being one that executes the mission until it records what came of it. -/
theorem Moves.executes (moves : Moves limit o other stage o' stage') (executes : stage.executes = true) :
    stage'.executes = true ∨ o'.mission_state other ≠ some .Executing := by
  cases moves with
  | on holds same => exact .inl (same.trans executes)
  | start => exact .inl rfl
  | finishing failed => exact .inl rfl
  | dropping => exact .inl rfl
  | settle outcome =>
    rw [state_set,if_pos rfl]
    exact .inr (by cases outcome <;> rintro ⟨⟩)
  | cancel =>
    rw [state_set,if_pos rfl]
    exact .inr (by rintro ⟨⟩)
  | _ => cases executes

theorem executes_act (o : Orchestrator) (call : Call) (choice : Choice) (executes : call.mission (executesFor id) = true) :
    (act limit o call choice).2.mission (executesFor id) = true ∨ (act limit o call choice).1.mission_state id ≠ some .Executing := by
  cases call with
  | shutdown done => cases executes
  | run_mission mission stage =>
    obtain ⟨active,same⟩ := Bool.and_eq_true_iff.mp executes
    obtain rfl : mission.id = id := by simpa using same
    exact ((runMission_moves o mission stage choice).executes active).imp_left fun active => Bool.and_eq_true_iff.mpr ⟨active,same⟩

/-- A mission that is shown as executing is under way. -/
theorem executing_backed (limit : Nat) (events : List Step) (id : MissionId) (shown : (run limit events).shared.mission_state id = some .Executing) :
    ∃ call ∈ (run limit events).calls, call.mission (executesFor id) = true := by
  refine backed (A := fun o : Orchestrator => o.mission_state id = some .Executing)
    (B := fun call : Call => call.mission (executesFor id) = true) (fun shown => by cases shown) (fun _ o call choice now => ⟨?_,fun executes => ?_⟩) events shown
  · change (act limit o call choice).1.mission_state id = some .Executing at now
    rcases state_act o call choice id with same | ⟨mission,rfl,⟨rfl,-⟩ | ⟨outcome,rfl,settled⟩ | ⟨rfl,cancelled⟩⟩
    · exact .inl (same.symm.trans now)
    · exact .inr (by simp [missionCalls,act,runMission,Call.mission,executesFor,Stage.executes])
    · rw [settled] at now
      cases outcome <;> cases now
    · rw [cancelled] at now
      cases now
  · exact (executes_act o call choice executes).resolve_right fun stops => stops now

theorem states_known (limit : Nat) (events : List Step) (id : MissionId) (state : MissionState)
    (shown : (run limit events).shared.mission_state id = some state) : state = .Executing ∨ ∃ outcome : Outcome, state = outcome.state := by
  refine shared_invariant (G := fun o : Orchestrator => ∀ state, o.mission_state id = some state → state = .Executing ∨ ∃ outcome : Outcome, state = outcome.state)
    (fun _ shown => by cases shown) (fun _ o call choice held state shown => ?_) events state shown
  change (act limit o call choice).1.mission_state id = some state at shown
  rcases state_act o call choice id with same | ⟨mission,-,⟨-,marked⟩ | ⟨outcome,-,settled⟩ | ⟨-,cancelled⟩⟩
  · exact held state (same.symm.trans shown)
  · exact .inl (Option.some.inj (shown.symm.trans marked))
  · exact .inr ⟨outcome,Option.some.inj (shown.symm.trans settled)⟩
  · exact .inr ⟨.Cancelled,Option.some.inj (shown.symm.trans cancelled)⟩

/-- Under way, with a slot. -/
def Stage.marks (stage : Stage) : Bool := stage.executes && stage.holds

def marksFor (id other : MissionId) (stage : Stage) : Bool := stage.marks && decide (other = id)

/-- A mission that is under way with a slot is shown as executing. -/
def Shown (id : MissionId) (w : World) : Prop :=
  ∀ call ∈ w.calls, call.mission (marksFor id) = true → w.shared.mission_state id = some .Executing

/-- No dropped call of the mission records its cancellation while another call has started it anew. -/
def Careful (id : MissionId) (w : World) (step : Step) : Prop :=
  ∀ n choice mission, step = .act n choice → w.calls[n]? = some (.run_mission mission .cancel) → mission.id = id →
    ∀ call ∈ w.calls, call.mission (marksFor id) = false

theorem Moves.marks (moves : Moves limit o other stage o' stage') (marks : stage'.marks = true) :
    stage = .mark ∨ stage.marks = true ∧ o'.missions = o.missions := by
  cases moves with
  | on holds executes => exact .inr ⟨by rw [Stage.marks,← holds,← executes]; exact marks,rfl⟩
  | mark => exact .inl rfl
  | start => exact .inr ⟨rfl,rfl⟩
  | finishing failed => exact .inr ⟨rfl,rfl⟩
  | _ => cases marks

theorem marks_act (o : Orchestrator) (call : Call) (choice : Choice) (marks : (act limit o call choice).2.mission (marksFor id) = true) :
    (∃ mission, call = .run_mission mission .mark ∧ mission.id = id) ∨
      call.mission (marksFor id) = true ∧ (act limit o call choice).1.missions = o.missions := by
  cases call with
  | shutdown done => cases marks
  | run_mission mission stage =>
    obtain ⟨active,same⟩ := Bool.and_eq_true_iff.mp marks
    rcases (runMission_moves o mission stage choice).marks active with rfl | ⟨active,unchanged⟩
    · exact .inl ⟨mission,rfl,by simpa using same⟩
    · exact .inr ⟨Bool.and_eq_true_iff.mpr ⟨active,same⟩,unchanged⟩

theorem marks_holds {call : Call} (marks : call.mission (marksFor id) = true) : weight (holdsFor id) call = 1 := by
  cases call with
  | shutdown done => cases marks
  | run_mission mission stage =>
    obtain ⟨active,same⟩ := Bool.and_eq_true_iff.mp marks
    have holds := (Bool.and_eq_true_iff.mp active).2
    simp [weight,Call.mission,holdsFor,holds,same]

theorem shown_step {w : World} (metered : slot id w.shared = w.tally (weight (holdsFor id))) (shown : Shown id w) (step : Step) :
    Shown id ((missionCalls limit).step w step) ↔ Careful id w step := by
  cases step with
  | call request =>
    constructor
    · rintro - n choice mission same
      cases same
    · intro _ call member marks
      rcases List.mem_append.mp member with old | new
      · exact shown call old marks
      · rw [List.mem_singleton.mp new] at marks
        cases request <;> cases marks
  | act n choice =>
    cases there : w.calls[n]? with
    | none =>
      rw [step_absent there]
      refine ⟨fun _ k choice' mission same found => ?_,fun _ => shown⟩
      obtain ⟨rfl,rfl⟩ := Event.act.inj same
      rw [there] at found
      cases found
    | some call =>
      have after : ((missionCalls limit).step w (.act n choice)).shared = (act limit w.shared call choice).1 := by rw [step_act there]; rfl
      have own : ((missionCalls limit).step w (.act n choice)).calls[n]? = some (act limit w.shared call choice).2 := own_act there choice
      constructor
      · intro kept k choice' mission same found here other member
        obtain ⟨rfl,rfl⟩ := Event.act.inj same
        obtain rfl : call = .run_mission mission .cancel := Option.some.inj (there.symm.trans found)
        by_contra marks
        have marks : other.mission (marksFor id) = true := by simpa using marks
        obtain ⟨m,place⟩ := List.getElem?_of_mem member
        have differ : n ≠ m := by
          rintro rfl
          obtain rfl : other = .run_mission mission .cancel := Option.some.inj (place.symm.trans there)
          cases marks
        have still := kept other (List.mem_of_getElem? ((other_act differ choice).trans place)) marks
        rw [after] at still
        have cancelled : (w.shared.set_state mission.id .Cancelled).mission_state id = some .Executing := still
        rw [state_set,if_pos here.symm] at cancelled
        cases cancelled
      · intro careful other member marks
        rw [after]
        obtain ⟨m,place⟩ := List.getElem?_of_mem member
        by_cases same : n = m
        · subst same
          obtain rfl : other = (act limit w.shared call choice).2 := Option.some.inj (place.symm.trans own)
          rcases marks_act w.shared call choice marks with ⟨mission,rfl,rfl⟩ | ⟨marked,unchanged⟩
          · show (w.shared.set_state mission.id .Executing).mission_state mission.id = _
            rw [state_set,if_pos rfl]
          · rw [Orchestrator.mission_state,unchanged]
            exact shown call (List.mem_of_getElem? there) marked
        · have was : w.calls[m]? = some other := (other_act same choice).symm.trans place
          have old := shown other (List.mem_of_getElem? was) marks
          rcases state_act w.shared call choice id with unchanged | ⟨mission,here,⟨-,marked⟩ | ⟨outcome,rfl,-⟩ | ⟨rfl,-⟩⟩
          · exact unchanged.trans old
          · exact marked
          · -- two calls would hold the slot of the mission
            have settles : weight (holdsFor id) (.run_mission mission (.settle outcome)) = 1 := by
              simp [weight,Call.mission,holdsFor,Stage.holds,here]
            have most : slot id w.shared ≤ 1 := by rw [slot]; split_ifs <;> omega
            have both := le_tally_two (weight (holdsFor id)) same there was
            rw [settles,marks_holds marks] at both
            omega
          · have unmarked := careful n choice mission rfl there here other (List.mem_of_getElem? was)
            rw [marks] at unmarked
            cases unmarked

/-- Missions under way are shown as executing after every step of a run exactly when no call of theirs that was dropped records its
    cancellation after they were started anew. -/
theorem shown_iff (limit : Nat) (id : MissionId) (events : List Step) :
    Every (missionCalls limit).step (fun w step => Shown id ((missionCalls limit).step w step)) (missionCalls limit).start events ↔
      Every (missionCalls limit).step (Careful id) (missionCalls limit).start events := by
  refine every_congr (I := fun w : World => slot id w.shared = w.tally (weight (holdsFor id)) ∧ Shown id w)
    (fun w step held => shown_step held.1 held.2 step) (fun w step held shown => ⟨?_,shown⟩) ⟨rfl,fun call member => absurd member List.not_mem_nil⟩
  exact meter_step (weight_enter _ fun _ => rfl) (fun _ o call choice bound => slot_act o call choice bound) held.1 step

/-- The first call is dropped and gives its slot back; the mission is started anew before its cancellation is recorded. -/
def startedAnew : List Step :=
  [.call (.run_mission (emptyMission ⟨1⟩ none)),.act 0 .go,.act 0 .go,.act 0 .go,.act 0 .go,.act 0 .go,.act 0 .drop,.act 0 .go,
    .call (.run_mission (emptyMission ⟨1⟩ none)),.act 1 .go,.act 1 .go,.act 1 .go,.act 1 .go,.act 1 .go]

example : (run 1 startedAnew).calls[1]? = some (.run_mission (emptyMission ⟨1⟩ none) .running) ∧
    (run 1 (startedAnew ++ [.act 0 .go])).shared.mission_state ⟨1⟩ = some .Cancelled := ⟨rfl,rfl⟩

/-! ### After a shutdown -/

theorem Moves.held_before (moves : Moves limit o other stage o' stage') (down : o.shutdown_flag = true) (holds : stage'.holds = true) : stage.holds = true := by
  cases moves with
  | on same => exact same.symm.trans holds
  | admission flag => rw [down] at flag; cases flag
  | _ => first | rfl | cases holds

theorem Moves.decided_before (moves : Moves limit o other stage o' stage') (down : o.shutdown_flag = true) {outcome : Outcome} (goes_on : outcome ≠ .Cancelled)
    (decided : stage'.decides = some outcome) : stage.decides = some outcome := by
  cases moves with
  | on holds executes started completed same => exact same.symm.trans decided
  | finishing failed =>
    rw [down,if_pos rfl] at decided
    exact absurd (Option.some.inj decided).symm goes_on
  | settle outcome => exact decided
  | count outcome => exact decided
  | release outcome => exact decided
  | _ => cases decided

/-- The call of a mission is at such a stage. -/
def Call.At (mission : Mission) (Q : Stage → Prop) (call : Call) : Prop := ∃ stage, call = .run_mission mission stage ∧ Q stage

/-- What no step brings about once the orchestrator shuts down, a call has had since. -/
theorem since_shutdown {before : List Step} (down : (run limit before).shared.shutdown_flag = true) (after : List Step) {Q : Stage → Prop}
    (waits : ¬ Q .validate) (moves : ∀ {o id stage o' stage'}, Moves limit o id stage o' stage' → o.shutdown_flag = true → Q stage' → Q stage) {n : Nat}
    {mission : Mission} (there : (run limit (before ++ after)).calls[n]? = some (.run_mission mission stage)) (has : Q stage) :
    ∃ earlier, (run limit before).calls[n]? = some (.run_mission mission earlier) ∧ Q earlier := by
  have stays : ∀ (_ : Nat) (o : Orchestrator) (call : Call) (choice : Choice), o.shutdown_flag = true → (act limit o call choice).1.shutdown_flag = true := by
    intro _ o call choice down
    cases call with
    | shutdown done => rfl
    | run_mission other stage =>
      have moves := @runMission_moves limit o other stage choice
      show (runMission limit o other stage choice).1.shutdown_flag = true
      generalize (runMission limit o other stage choice).1 = o',(runMission limit o other stage choice).2 = stage' at moves ⊢
      cases moves <;> exact down
  have fresh : ∀ request, ¬ (enter request).At mission Q := by
    rintro request ⟨stage,same,has⟩
    cases request <;> cases same
    exact waits has
  have kept : ∀ (_ : Nat) (o : Orchestrator) (call : Call) (choice : Choice), o.shutdown_flag = true → (act limit o call choice).2.At mission Q →
      call.At mission Q := by
    rintro _ o call choice down ⟨stage,same,has⟩
    cases call with
    | shutdown done => cases same
    | run_mission other earlier =>
      obtain ⟨rfl,rfl⟩ := Call.run_mission.inj same
      exact ⟨earlier,rfl,moves (runMission_moves o other earlier choice) down has⟩
  rw [run,System.run,run_append] at there
  obtain ⟨call,was,earlier,rfl,had⟩ := inherited (P := Call.At mission Q) stays fresh kept down after there ⟨stage,rfl,has⟩
  exact ⟨earlier,was,had⟩

/-- Once the orchestrator shuts down, only calls that had a slot before hold one, and a call that returns anything but a cancelled mission was done
    with its waves before. -/
theorem shutdown_run (limit : Nat) (before after : List Step) (down : (run limit before).shared.shutdown_flag = true) :
    (∀ (n : Nat) (mission : Mission) (stage : Stage), (run limit (before ++ after)).calls[n]? = some (.run_mission mission stage) → stage.holds = true →
      ∃ earlier, (run limit before).calls[n]? = some (.run_mission mission earlier) ∧ earlier.holds = true) ∧
    ∀ (n : Nat) (mission : Mission) (outcome : Outcome), (run limit (before ++ after)).calls[n]? = some (.run_mission mission (.returned (.ok outcome))) →
      outcome ≠ .Cancelled → ∃ earlier, (run limit before).calls[n]? = some (.run_mission mission earlier) ∧ earlier.decides = some outcome :=
  ⟨fun _ _ _ there holds => since_shutdown down after (Q := fun stage => stage.holds = true) (by rintro ⟨⟩) Moves.held_before there holds,
    fun _ _ outcome there goes_on => since_shutdown down after (Q := fun stage => stage.decides = some outcome) (by rintro ⟨⟩)
      (fun moves down => moves.decided_before down goes_on) there rfl⟩

/-- A mission is done with its waves when the orchestrator shuts down. -/
def lateShutdown : List Step :=
  [.call (.run_mission (emptyMission ⟨1⟩ none)),.act 0 .go,.act 0 .go,.act 0 .go,.act 0 .go,.act 0 .go,.act 0 (.finish false),.act 0 .go,.call .shutdown,.act 1 .go]

theorem completes_after_shutdown :
    ∃ earlier, (run 1 lateShutdown).calls[0]? = some (.run_mission (emptyMission ⟨1⟩ none) earlier) ∧ earlier.decides = some .Completed :=
  (shutdown_run 1 lateShutdown [.act 0 .go,.act 0 .go,.act 0 .go] rfl).2 0 _ .Completed rfl (by decide)

end

end Daf.MissionSlots
