import Daf.MissionPlan
import Daf.UuidText
import Mathlib.Data.List.Induction

/-!
Sprints: waves of tasks and the results that are recorded for them. The state follows the latest result and the number of results, so what a failed
wave says of the sprint can be overwritten by a wave that succeeds later.
-/
namespace Daf.Sprints
open Daf.GraphNodes Daf.UuidText
open Daf.MissionPlan (AgentId MissionId)

structure SprintId where
  uuid : Uuid
deriving DecidableEq,Repr

inductive SprintState where
  | Planning
  | Running
  | Paused
  | Completed
  | Failed
  | Cancelled
deriving DecidableEq,Repr

structure Wave where
  index : Nat
  tasks : List TaskSpec
  phase_name : String
  concurrency_limit : Option Nat

structure TaskOutcome where
  task_type : String
  succeeded : Bool
  error : Option String
  agent_id : Option AgentId
  duration : Duration

structure WaveResult where
  wave_index : Nat
  phase_name : String
  tasks_succeeded : Nat
  tasks_failed : Nat
  duration : Duration
  task_outcomes : List TaskOutcome

def WaveResult.is_success (result : WaveResult) : Bool := result.tasks_failed = 0

structure Sprint where
  id : SprintId
  name : String
  mission_id : MissionId
  waves : List Wave
  state : SprintState
  created_at : Int
  started_at : Option Int
  deadline : Option Int
  wave_results : List WaveResult

def Sprint.new (id : SprintId) (name : String) (mission_id : MissionId) (waves : List Wave) (now : Int) : Sprint where
  id
  name
  mission_id
  waves
  state := .Planning
  created_at := now
  started_at := none
  deadline := none
  wave_results := []

def Sprint.with_deadline (sprint : Sprint) (deadline : Int) : Sprint := { sprint with deadline := some deadline }

def Sprint.record_wave_result (sprint : Sprint) (result : WaveResult) : Sprint :=
  let all_succeeded := result.is_success
  let recorded := { sprint with wave_results := sprint.wave_results ++ [result] }
  if !all_succeeded then { recorded with state := .Failed }
  else if recorded.wave_results.length ≥ recorded.waves.length then { recorded with state := .Completed }
  else recorded

def Sprint.record (sprint : Sprint) (results : List WaveResult) : Sprint := results.foldl Sprint.record_wave_result sprint

/-- A completed sprint has results enough and all of them good; a sprint with a bad one has failed. -/
structure Truthful (sprint : Sprint) : Prop where
  completed : sprint.state = .Completed → sprint.waves.length ≤ sprint.wave_results.length ∧ ∀ r ∈ sprint.wave_results, r.is_success
  failed : (∃ r ∈ sprint.wave_results, r.is_success = false) → sprint.state = .Failed

/-- No result is good that comes after a bad one and completes the number of waves. -/
def NoneOverwritten (sprint : Sprint) (results : List WaveResult) : Prop :=
  ∀ before r rest, results = before ++ r :: rest → r.is_success → (∃ bad ∈ sprint.wave_results ++ before, bad.is_success = false) →
    (sprint.wave_results ++ before).length + 1 < sprint.waves.length

variable {sprint : Sprint} {result : WaveResult} {results : List WaveResult}

theorem record_keeps (sprint : Sprint) (result : WaveResult) :
    (sprint.record_wave_result result).waves = sprint.waves ∧ (sprint.record_wave_result result).wave_results = sprint.wave_results ++ [result] := by
  unfold Sprint.record_wave_result
  dsimp only
  split_ifs <;> exact ⟨rfl,rfl⟩

theorem record_state (sprint : Sprint) (result : WaveResult) :
    (sprint.record_wave_result result).state =
      if result.is_success = false then .Failed
      else if sprint.waves.length ≤ sprint.wave_results.length + 1 then .Completed else sprint.state := by
  unfold Sprint.record_wave_result
  simp only [List.length_append,List.length_singleton,ge_iff_le,Bool.not_eq_true']
  split_ifs <;> rfl

/-- One result leaves a truthful sprint truthful exactly when it does not hide a bad one. -/
theorem record_truthful (truthful : Truthful sprint) (result : WaveResult) :
    Truthful (sprint.record_wave_result result) ↔
      (result.is_success → (∃ bad ∈ sprint.wave_results, bad.is_success = false) → sprint.wave_results.length + 1 < sprint.waves.length) := by
  obtain ⟨waves,recorded⟩ := record_keeps sprint result
  have state := record_state sprint result
  constructor
  · intro after success bad
    by_contra enough
    rw [if_neg (by simp [success]),if_pos (by omega)] at state
    obtain ⟨r,member,failed⟩ := bad
    have good := (after.completed state).2 r (by rw [recorded]; exact List.mem_append_left _ member)
    rw [failed] at good
    cases good
  · intro hides
    constructor
    · intro completed
      rw [state] at completed
      rw [waves,recorded]
      split_ifs at completed with bad enough
      · have all_good : ∀ r ∈ sprint.wave_results, r.is_success := by
          intro r member
          by_contra failed
          have fewer := hides (by simpa using bad) ⟨r,member,by simpa using failed⟩
          omega
        refine ⟨by rw [List.length_append,List.length_singleton]; exact enough,fun r member => ?_⟩
        rcases List.mem_append.mp member with old | new
        · exact all_good r old
        · rw [List.mem_singleton.mp new]
          simpa using bad
      · obtain ⟨many,all_good⟩ := truthful.completed completed
        exact absurd (Nat.le_succ_of_le many) enough
    · rintro ⟨r,member,failed⟩
      rw [recorded] at member
      rw [state]
      have old : ¬ result.is_success = false → r ∈ sprint.wave_results := by
        intro success
        refine (List.mem_append.mp member).resolve_right fun new => success ?_
        rw [← List.mem_singleton.mp new]
        exact failed
      split_ifs with bad enough
      · rfl
      · have fewer := hides (by simpa using bad) ⟨r,old bad,failed⟩
        omega
      · exact truthful.failed ⟨r,old bad,failed⟩

theorem record_concat (sprint : Sprint) (results : List WaveResult) (result : WaveResult) :
    sprint.record (results ++ [result]) = (sprint.record results).record_wave_result result := by
  simp [Sprint.record]

theorem record_results (sprint : Sprint) (results : List WaveResult) :
    (sprint.record results).waves = sprint.waves ∧ (sprint.record results).wave_results = sprint.wave_results ++ results := by
  induction results using List.reverseRecOn with
  | nil => exact ⟨rfl,(List.append_nil _).symm⟩
  | append_singleton results result ih =>
    obtain ⟨waves,recorded⟩ := record_keeps (sprint.record results) result
    rw [record_concat,waves,recorded,ih.1,ih.2,List.append_assoc]
    exact ⟨rfl,rfl⟩

/-- A sprint stays truthful from the start through all results exactly when none of them hides a bad one. -/
theorem truthful_iff (sprint : Sprint) (results : List WaveResult) :
    (∀ before rest, results = before ++ rest → Truthful (sprint.record before)) ↔ Truthful sprint ∧ NoneOverwritten sprint results := by
  constructor
  · intro all
    refine ⟨all [] results rfl,fun before r rest split good bad => ?_⟩
    obtain ⟨waves,recorded⟩ := record_results sprint before
    have next := all (before ++ [r]) rest (by rw [split]; simp)
    rw [record_concat] at next
    have hides := (record_truthful (all before (r :: rest) split) r).mp next good
    rw [waves,recorded] at hides
    exact hides bad
  · rintro ⟨start,none_hidden⟩ before
    induction before using List.reverseRecOn with
    | nil => exact fun _ _ => start
    | append_singleton before r ih =>
      intro rest split
      have listed : results = before ++ r :: rest := by rw [split]; simp
      obtain ⟨waves,recorded⟩ := record_results sprint before
      rw [record_concat,record_truthful (ih (r :: rest) listed),waves,recorded]
      exact none_hidden before r rest listed

theorem new_truthful (id : SprintId) (name : String) (mission_id : MissionId) (waves : List Wave) (now : Int) :
    Truthful (.new id name mission_id waves now) :=
  ⟨nofun,fun ⟨_,member,_⟩ => absurd member List.not_mem_nil⟩

/-- The result of a wave of one task. -/
def oneTask (wave_index tasks_succeeded tasks_failed : Nat) : WaveResult := ⟨wave_index,"build",tasks_succeeded,tasks_failed,0,[]⟩

def twoWaves : Sprint := .new ⟨1⟩ "sprint" ⟨1⟩ [⟨0,[],"build",none⟩,⟨1,[],"test",none⟩] 0

/-- The first of two waves fails and the second succeeds: the sprint is completed. -/
theorem failure_overwritten :
    ¬ ∀ before rest, [oneTask 0 0 1,oneTask 1 1 0] = before ++ rest → Truthful (twoWaves.record before) := by
  intro all
  have truthful := all [oneTask 0 0 1,oneTask 1 1 0] [] rfl
  have state : (twoWaves.record [oneTask 0 0 1,oneTask 1 1 0]).state = .Completed := rfl
  have failed := truthful.failed ⟨oneTask 0 0 1,by rw [(record_results _ _).2]; exact List.mem_cons_self,rfl⟩
  rw [state] at failed
  cases failed

end Daf.Sprints
