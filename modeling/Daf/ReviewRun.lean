import Daf.MissionGate
import Daf.ReviewOutput

/-!
The changed-file review: two roles ask a provider, every attempt is recorded in a state
file before and after the provider is called, and an interrupted review is resumed from
that file. The process can be killed at every access to the file and at every call.
-/
namespace Daf.ReviewRun
open Daf.Json Daf.ReviewOutput Daf.MissionPlan Daf.MissionRun Daf.Interrupted

/-! ### The state file -/

def VERSION : Nat := 1
def ROLES : List String := ["correctness","security"]
def STATUSES : List String := ["running","succeeded","invalid","failed","interrupted"]

structure Usage where
  input_tokens : Option Nat
  cached_input_tokens : Option Nat
  output_tokens : Option Nat
  source : String

def Usage.default : Usage := ⟨none,none,none,""⟩

structure Attempt where
  role : String
  number : Nat
  status : String
  usage : Usage
  error : Option String

structure ReviewReport where
  workflow_version : Nat
  provider_identity : String
  fingerprint : String
  files : List String
  findings : List Finding
  attempts : List Attempt
  completed_roles : List String

structure State where
  version : Nat
  report : ReviewReport
  outputs : List (String × List Finding)
  output_hashes : List (String × String)

/-- Insert in a map that is kept in key order. -/
def insertKey {α : Type} (k : String) (v : α) : List (String × α) → List (String × α)
  | [] => [(k,v)]
  | (k',v') :: later =>
    if k = k' then (k,v) :: later
    else if k < k' then (k,v) :: (k',v') :: later
    else (k',v') :: insertKey k v later

/-- What every invocation of a review has in common: the options, the snapshot of the
    changed files, the identity of the provider, and the digests of them. -/
structure Setup where
  state_dir : String
  timeout_secs : Nat
  max_retries : Nat
  allow_unknown_retry : Bool
  files : Files
  provider_identity : String
  /-- The digest of the version, the snapshot, the provider and the limits. -/
  fingerprint : String
  /-- The digest of the JSON text of some findings. -/
  hash : List Finding → String
  /-- The length of the JSON text of a state. -/
  encodedLen : State → Nat
  texts : Texts
  errorText : DafError → String

def State.hasOutput (s : State) (role : String) : Bool := (s.outputs.lookup role).isSome

def countRole (attempts : List Attempt) (role : String) : Nat := (attempts.filter (fun a => a.role == role)).length

def State.fresh (setup : Setup) : State where
  version := VERSION
  report := {
    workflow_version := VERSION
    provider_identity := setup.provider_identity
    fingerprint := setup.fingerprint
    files := setup.files.map (·.1)
    findings := []
    attempts := []
    completed_roles := [] }
  outputs := []
  output_hashes := []

/-! ### Resuming -/

/-- The attempts in order, with the number of each role counted up. -/
def checkAttempts (setup : Setup) : List Attempt → List Attempt → Except String Unit
  | _,[] => .ok ()
  | before,a :: later =>
    if a.role ∉ ROLES ∨ a.status ∉ STATUSES then .error "invalid persisted attempt role/status"
    else if a.number ≠ countRole before a.role + 1 ∨ setup.max_retries + 1 < countRole before a.role + 1 then
      .error "invalid persisted attempt sequence/budget"
    else checkAttempts setup (before ++ [a]) later

def succeededOf (attempts : List Attempt) (role : String) : Nat :=
  (attempts.filter (fun a => a.role == role && a.status == "succeeded")).length

def checkOutputs (setup : Setup) (hashes : List (String × String)) : List (String × List Finding) → Except String Unit
  | [] => .ok ()
  | (role,findings) :: later =>
    if hashes.lookup role ≠ some (setup.hash findings) then .error "cached output integrity mismatch"
    else if role ∉ ROLES then .error "unknown persisted role"
    else
      match validate_output setup.texts (outputOf findings) setup.files with
      | .error e => .error e
      | .ok _ => checkOutputs setup hashes later

def checks (setup : Setup) (s : State) : Except String Unit := do
  checkAttempts setup [] s.report.attempts
  if s.report.attempts.any (fun a => a.status == "succeeded" && !s.hasOutput a.role) then
    .error "successful attempt missing cached result"
  else if s.report.workflow_version ≠ VERSION ∨ s.report.provider_identity ≠ setup.provider_identity ∨
      s.report.files ≠ setup.files.map (·.1) then
    .error "inconsistent persisted workflow identity"
  else if s.report.completed_roles.any (fun role =>
      s.report.completed_roles.count role != 1 || succeededOf s.report.attempts role != 1) then
    .error "inconsistent completion evidence"
  else if s.output_hashes.length ≠ s.outputs.length then .error "cached output integrity mismatch"
  else
    checkOutputs setup s.output_hashes s.outputs
    if s.report.completed_roles.any (fun role => !s.hasOutput role) ∨
        s.outputs.any (fun output => !s.report.completed_roles.contains output.1) then
      .error "inconsistent cached completion state"
    else .ok ()

/-- An attempt that was running when the process ended. -/
def Attempt.settle (a : Attempt) : Attempt :=
  if a.status = "running" then
    { a with
      status := "interrupted"
      error := some "process ended before recording provider outcome; usage unknown" }
  else a

def allFindings (outputs : List (String × List Finding)) : List Finding := deduplicate (outputs.flatMap (·.2))

def State.adopt (s : State) : State :=
  { s with report := { s.report with findings := allFindings s.outputs, attempts := s.report.attempts.map Attempt.settle } }

/-- The state file, if it is of a readable size and belongs to this review, or a new state. -/
def load (setup : Setup) : Option State → Except String State
  | none => .ok (.fresh setup)
  | some s =>
    if 4194304 < setup.encodedLen s + 1 then .error "state exceeds 4 MiB"
    else if s.version ≠ VERSION ∨ s.report.fingerprint ≠ setup.fingerprint then
      .error "review input/configuration fingerprint changed; choose a new state directory"
    else .ok s

/-- The state that an invocation starts with, if it is consistent. -/
def resume (setup : Setup) (disk : Option State) : Except String State := do
  let s ← load setup disk
  checks setup s
  .ok s.adopt

/-- Some role without output has an attempt whose outcome is unknown. -/
def State.unknownOutcome (s : State) : Bool := s.report.attempts.any (fun a => a.status == "interrupted" && !s.hasOutput a.role)

/-! ### The environment -/

inductive SaveFault where
  | none
  | failedBefore (e : String)
  | killedBefore
  /-- The file was replaced, and the directory could not be synced. -/
  | failedAfter (e : String)
  | killedAfter

structure ProviderAttempt where
  output : Option Value
  usage : Usage
  error : Option String
  outcome_unknown : Bool

inductive ProviderReply where
  | answered (attempt : ProviderAttempt)
  /-- The deadline of the attempt passed. -/
  | timedOut
  /-- The mission dropped the worker. -/
  | dropped
  | killed

/-- What one invocation meets. -/
structure Env where
  /-- Why the invocation ends before it reads the state file, if it does. -/
  refused : Option String
  killedEarly : Bool
  save : Nat → SaveFault
  provider : Nat → ProviderReply
  mission : MissionRun.Env
  mission_id : MissionId
  /-- Whether the snapshot and the identity of the provider are the same at the end. -/
  unchanged : Except String Bool
  identityUnchanged : Bool

inductive Event where
  /-- The state file was written. -/
  | saved (s : State)
  /-- The provider was called for a role. -/
  | called (role : String)

structure World where
  disk : Option State
  /-- The state that the workers of an invocation share. -/
  memory : State
  log : List Event
  /-- The number of questions to the environment so far. -/
  tick : Nat

def ask {α : Type} (answers : Nat → α) : Prog World α := do
  let w ← get
  set { w with tick := w.tick + 1 }
  pure (answers w.tick)

def update (f : State → State) : Prog World Unit := modify (fun w => { w with memory := f w.memory })

/-- Replace the state file. -/
def persist : Prog World Unit := modify (fun w => { w with disk := some w.memory, log := w.log ++ [.saved w.memory] })

def save (setup : Setup) (env : Env) : Prog World (Except String Unit) := do
  let w ← get
  if 4194303 < setup.encodedLen w.memory then pure (.error "state exceeds 4 MiB limit")
  else
    match ← ask env.save with
    | .none => do
      persist
      pure (.ok ())
    | .failedBefore e => pure (.error e)
    | .killedBefore => failure
    | .failedAfter e => do
      persist
      pure (.error e)
    | .killedAfter => do
      persist
      failure

/-! ### One role -/

def State.onAttempt (s : State) (index : Nat) (f : Attempt → Attempt) : State :=
  { s with report := { s.report with attempts := s.report.attempts.modify index f } }

def State.start (s : State) (role : String) : State :=
  { s with report := { s.report with
      attempts := s.report.attempts ++ [⟨role,countRole s.report.attempts role + 1,"running",.default,none⟩] } }

/-- The status of an answered attempt that did not succeed and its error, or its findings. -/
def judge (setup : Setup) (response : ProviderAttempt) : Except (String × String) (List Finding) :=
  match response.error with
  | some error => .error (if response.outcome_unknown then "interrupted" else "failed",error)
  | none =>
    match response.output with
    | some output =>
      match validate_output setup.texts output setup.files with
      | .ok findings => .ok findings
      | .error e => .error ("invalid",e)
    | none => .error ("failed","provider returned no output")

def State.succeed (setup : Setup) (role : String) (index : Nat) (findings : List Finding) (s : State) : State :=
  let s := s.onAttempt index (fun a => { a with status := "succeeded" })
  let outputs := insertKey role findings s.outputs
  { s with
    outputs
    output_hashes := insertKey role (setup.hash findings) s.output_hashes
    report := { s.report with completed_roles := s.report.completed_roles ++ [role], findings := allFindings outputs } }

/-- How a worker ended; nothing, if it was dropped. -/
abbrev Ended := Option (Except String Unit)

def recordSuccess (setup : Setup) (env : Env) (role : String) (index : Nat) (findings : List Finding) : Prog World Ended := do
  update (State.succeed setup role index findings)
  let result ← save setup env
  pure (some result)

/-- Record the error of an attempt, and go on unless its outcome is unknown. -/
def recordFailure (setup : Setup) (env : Env) (index : Nat) (status error : String) (goOn : Prog World Ended) : Prog World Ended := do
  update (fun s => s.onAttempt index (fun a => { a with status, error := some error }))
  match ← save setup env with
  | .error e => pure (some (.error e))
  | .ok () => if status = "interrupted" then pure (some (.error (error ++ "; explicit resume required"))) else goOn

/-- Call the provider for an attempt and record what it answered. -/
def attempt (setup : Setup) (env : Env) (role : String) (index : Nat) (goOn : Prog World Ended) : Prog World Ended := do
  modify (fun w => { w with log := w.log ++ [.called role] })
  match ← ask env.provider with
  | .killed => failure
  | .dropped => pure none
  | .timedOut => recordFailure setup env index "interrupted" "provider deadline exceeded; usage unknown" goOn
  | .answered response => do
    update (fun s => s.onAttempt index (fun a => { a with usage := response.usage }))
    match ← save setup env with
    | .error e => pure (some (.error e))
    | .ok () =>
      match judge setup response with
      | .ok findings => recordSuccess setup env role index findings
      | .error (status,error) => recordFailure setup env index status error goOn

/-- The attempts of a role, as long as its budget lasts. -/
def rounds (setup : Setup) (env : Env) (role : String) : Nat → Prog World Ended
  | 0 => pure (some (.error (role ++ ": attempt budget exhausted")))
  | left + 1 => do
    let w ← get
    if setup.max_retries < countRole w.memory.report.attempts role then
      pure (some (.error (role ++ ": attempt budget exhausted")))
    else do
      update (·.start role)
      match ← save setup env with
      | .error e => pure (some (.error e))
      | .ok () => attempt setup env role w.memory.report.attempts.length (rounds setup env role left)

/-- The loop ends after at most as many rounds as the budget has attempts left. -/
def ReviewWorker.run (setup : Setup) (env : Env) (role : String) : Prog World Ended := do
  let w ← get
  if w.memory.hasOutput role then pure (some (.ok ()))
  else rounds setup env role (setup.max_retries + 2)

/-! ### The review -/

/-- The worker behind the mission engine. -/
def reviewWorker (setup : Setup) (env : Env) : Worker World := fun _ task => do
  match ← ReviewWorker.run setup env task.task_type with
  | none => pure .elapsed
  | some (.ok ()) => pure (.returned (.ok ()))
  | some (.error e) => pure (.returned (.error (.Internal e)))

def phaseSecs (setup : Setup) : Nat := (setup.timeout_secs + 5) * (setup.max_retries + 1) + 5

/-- The mission of the specialist plan: one phase with one task for each role. -/
def reviewMission (setup : Setup) (id : MissionId) : Mission where
  id
  name := "changed-file-review-v1"
  phases := ROLES.map (fun role => {
    name := role
    tasks := [⟨role,.object [],some (GraphNodes.Duration.from_secs (phaseSecs setup)),0⟩]
    dependencies := []
    concurrency_limit := none
    retry_policy := some ⟨0⟩
    timeout := none
    required_capabilities := [role] })
  timeout := some (GraphNodes.Duration.from_secs (phaseSecs setup * 2))
  retry_policy := ⟨0⟩

/-- The default configuration of the orchestrator. -/
def orchestratorConfig : Config := ⟨8,300,true⟩

/-- Run a program of the mission engine on the world of the review. -/
def underMission {α : Type} (m : Prog (Exec World) α) : Prog World α :=
  (fun w => ((exec m (MissionGate.start w)).1,(exec m (MissionGate.start w)).2.world) : StateM World (Option α))

/-- After the state is loaded and checked. -/
def proceed (setup : Setup) (env : Env) : Prog World (Except String ReviewReport) := do
  match ← save setup env with
  | .error e => pure (.error e)
  | .ok () => do
    let w ← get
    if !setup.allow_unknown_retry && w.memory.unknownOutcome then
      pure (.error "unknown provider outcome; resume with allow_unknown_retry to authorize another attempt")
    else if setup.files.isEmpty then pure (.ok w.memory.report)
    else do
      match ← underMission (run_mission_async env.mission (reviewWorker setup env) orchestratorConfig []
        (reviewMission setup env.mission_id)) with
      | .error e => pure (.error (setup.errorText e))
      | .ok result =>
        if result.phase_results.any (fun p => !p.succeeded) then
          pure (.error ("review incomplete; inspect " ++ setup.state_dir ++ "/state.json for attempt evidence"))
        else
          match env.unchanged with
          | .error e => pure (.error e)
          | .ok false => pure (.error "repository changed during review; choose a new state directory for the current changes")
          | .ok true => do
            if env.identityUnchanged then
              let w ← get
              pure (.ok w.memory.report)
            else pure (.error "provider identity changed during review")

def run_review (setup : Setup) (env : Env) : Prog World (Except String ReviewReport) := do
  if setup.timeout_secs = 0 ∨ 1800 < setup.timeout_secs ∨ 3 < setup.max_retries then
    pure (.error "timeout must be 1..1800 seconds and retries 0..3")
  else if env.killedEarly then failure
  else
    match env.refused with
    | some e => pure (.error e)
    | none => do
      let w ← get
      match resume setup w.disk with
      | .error e => pure (.error e)
      | .ok s => do
        update (fun _ => s)
        proceed setup env

/-- One invocation after the other, each on the state file that the last one left. -/
def invocations (setup : Setup) (envs : List Env) (w : World) : World :=
  envs.foldl (fun w env => (exec (run_review setup env) w).2) w

/-- No state file, and nothing done. -/
def World.empty (setup : Setup) : World := ⟨none,.fresh setup,[],0⟩

end Daf.ReviewRun
