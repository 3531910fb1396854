import Daf.ProvisionPlan

/-!
Applying a plan: one change after the other against the providers, with the recorded state
saved after each, and the creates of a failed apply rolled back. The providers and the store
answer from outside; the calls that they got are kept in a trace.
-/
namespace Daf.ProvisionApply
open Daf.Json Daf.MissionPlan Daf.ProvisionPlan

structure ProviderResult where
  physical_id : String
  outputs : List (String × Value)

/-- A call of a provider, with what it answered. A create has the number of its call. -/
inductive Event where
  | create (call : Nat) (name provider : String) (result : Except DafError ProviderResult)
  | update (name provider physical_id : String) (result : Except DafError ProviderResult)
  | delete (name provider physical_id : String) (rollback : Bool) (result : Except DafError Unit)

/-- The registered providers, and how the providers and the store answer, call by call. -/
structure Env where
  registered : String → Bool
  validate : Nat → List String
  create : Nat → String → Except DafError ProviderResult
  update : Nat → Except DafError ProviderResult
  delete : Nat → Except DafError Unit
  save : Nat → Except DafError Unit

structure Exec where
  state : ProvisionState
  /-- The number of calls so far. -/
  tick : Nat
  trace : List Event

/-- A part of an apply: how it ends, and what it leaves. -/
abbrev Outcome (α : Type) := Except DafError α × Exec

structure ApplyOptions where
  dry_run : Bool
  auto_rollback : Bool
deriving DecidableEq,Repr

inductive ApplyStatus where
  | Succeeded
  | Failed (error : DafError)
  | Skipped
deriving DecidableEq,Repr

structure ApplyProgress where
  resource_name : String
  action : Action
  status : ApplyStatus
deriving DecidableEq,Repr

structure ApplyResult where
  progress : List ApplyProgress
  succeeded : Nat
  failed : Nat
  skipped : Nat
  rollback_attempted : Bool
  success : Bool
deriving DecidableEq,Repr

section
variable (env : Env)

/-! ### The calls -/

def callValidate (x : Exec) : List String × Exec := (env.validate x.tick,{ x with tick := x.tick + 1 })

def callCreate (x : Exec) (name provider : String) : Outcome ProviderResult :=
  let result := env.create x.tick provider
  (result,{ x with tick := x.tick + 1, trace := x.trace ++ [.create x.tick name provider result] })

def callUpdate (x : Exec) (name provider physical_id : String) : Outcome ProviderResult :=
  let result := env.update x.tick
  (result,{ x with tick := x.tick + 1, trace := x.trace ++ [.update name provider physical_id result] })

def callDelete (x : Exec) (name provider physical_id : String) (rollback : Bool) : Outcome Unit :=
  let result := env.delete x.tick
  (result,{ x with tick := x.tick + 1, trace := x.trace ++ [.delete name provider physical_id rollback result] })

/-- The serial is bumped before the state is written. -/
def save (x : Exec) : Outcome Unit := (env.save x.tick,{ x with tick := x.tick + 1, state := x.state.bump })

/-! ### One change -/

/-- The resource that is recorded for a created or replaced resource. -/
def createdResource (name provider : String) (config : Value) (result : ProviderResult) : Resource :=
  result.outputs.foldl (fun r output => r.set_output output.1 output.2)
    (((Resource.from_spec ((ResourceSpec.new .AgentPool name provider).with_config config)).transition .Created).set_physical_id
      result.physical_id)

def updatedResource (existing : Resource) (config : Value) (result : ProviderResult) : Resource :=
  let r := existing.transition .Created
  let r := { r with spec := { r.spec with config } }
  result.outputs.foldl (fun r output => r.set_output output.1 output.2) { r with outputs := ∅ }

/-- Create at the provider, record and save. -/
def createAndRecord (x : Exec) (name provider : String) (config : Value) : Outcome Unit :=
  match callCreate env x name provider with
  | (.error e,x) => (.error e,x)
  | (.ok result,x) => save env { x with state := x.state.upsert_resource (createdResource name provider config result) }

def applyCreate (x : Exec) (change : ResourceChange) (provider : String) : Outcome Unit :=
  let config := change.after.getD .null
  match callValidate env x with
  | ([],x) => createAndRecord env x change.resource_name provider config
  | (errors,x) =>
    (.error (.ConfigError ("validation failed for '" ++ change.resource_name ++ "': " ++ String.intercalate "; " errors)),x)

def applyUpdate (x : Exec) (change : ResourceChange) (provider : String) : Outcome Unit :=
  match x.state.get_resource change.resource_name with
  | none => (.error (.NotFound "resource" change.resource_name),x)
  | some existing =>
    match existing.physical_id with
    | none => (.error (.Internal ("resource '" ++ change.resource_name ++ "' has no physical_id")),x)
    | some physical_id =>
      let new_config := change.after.getD .null
      match callUpdate env x change.resource_name provider physical_id with
      | (.error e,x) => (.error e,x)
      | (.ok result,x) =>
        save env { x with state := { x.state with
          resources := x.state.resources.insert change.resource_name (updatedResource existing new_config result) } }

/-- Delete the recorded resource at the provider, when it has an id there. -/
def deleteExisting (x : Exec) (name provider : String) : Outcome Unit :=
  match x.state.get_resource name with
  | none => (.ok (),x)
  | some existing =>
    match existing.physical_id with
    | none => (.ok (),x)
    | some pid => callDelete env x name provider pid false

def applyDestroy (x : Exec) (change : ResourceChange) (provider : String) : Outcome Unit :=
  match deleteExisting env x change.resource_name provider with
  | (.error e,x) => (.error e,x)
  | (.ok (),x) => save env { x with state := x.state.remove_resource change.resource_name }

/-- The old resource goes first, whatever `create_before_destroy` says. -/
def applyReplace (x : Exec) (change : ResourceChange) (provider : String) : Outcome Unit :=
  match deleteExisting env x change.resource_name provider with
  | (.error e,x) => (.error e,x)
  | (.ok (),x) => createAndRecord env x change.resource_name provider (change.after.getD .null)

/-- The provider in the state or, for a resource that is not there, the agent pools. -/
def providerName (s : ProvisionState) (change : ResourceChange) : Option String :=
  match s.get_resource change.resource_name with
  | some existing => some existing.spec.provider
  | none => change.after.map (fun _ => "agent_pool")

def applyAction (x : Exec) (change : ResourceChange) (provider : String) : Outcome Unit :=
  match change.action with
  | .Create => applyCreate env x change provider
  | .Update => applyUpdate env x change provider
  | .Destroy => applyDestroy env x change provider
  | .Replace => applyReplace env x change provider
  | .NoOp => (.ok (),x)

def apply_single_change (options : ApplyOptions) (x : Exec) (change : ResourceChange) : Outcome ApplyProgress :=
  if options.dry_run then (.ok ⟨change.resource_name,change.action,.Skipped⟩,x)
  else
    match providerName x.state change with
    | none => (.error (.NotFound "provider" change.resource_name),x)
    | some provider =>
      if env.registered provider then
        match applyAction env x change provider with
        | (.error e,x) => (.error e,x)
        | (.ok (),x) => (.ok ⟨change.resource_name,change.action,.Succeeded⟩,x)
      else (.error (.NotFound "provider" provider),x)

/-! ### The whole plan -/

/-- The names of the plan, each without dependencies. -/
def build_dependency_map (plan : Plan) : AList (fun _ : String => List String) :=
  plan.changes.foldl (fun deps change => if change.resource_name ∈ deps then deps else deps.insert change.resource_name []) ∅

/-- The progress so far, the names that failed, and the rest. -/
structure Walk where
  progress : List ApplyProgress
  failed : List String
  exec : Exec

def applyNext (options : ApplyOptions) (dep_map : AList (fun _ : String => List String)) (w : Walk) (change : ResourceChange) : Walk :=
  if w.failed ≠ [] ∧ ((dep_map.lookup change.resource_name).getD []).any (· ∈ w.failed) then
    { w with progress := w.progress ++ [⟨change.resource_name,change.action,.Skipped⟩] }
  else
    match apply_single_change env options w.exec change with
    | (.ok entry,x) => { w with progress := w.progress ++ [entry], exec := x }
    | (.error e,x) =>
      { progress := w.progress ++ [⟨change.resource_name,change.action,.Failed e⟩], failed := w.failed ++ [change.resource_name], exec := x }

/-- Undo one completed create. -/
def rollbackEntry (x : Exec) (entry : ApplyProgress) : Exec :=
  if entry.status = .Succeeded ∧ entry.action = .Create then
    let forget (x : Exec) : Exec := (save env { x with state := x.state.remove_resource entry.resource_name }).2
    match x.state.get_resource entry.resource_name with
    | none => forget x
    | some resource =>
      match resource.physical_id with
      | none => forget x
      | some pid =>
        if env.registered resource.spec.provider then
          match callDelete env x entry.resource_name resource.spec.provider pid true with
          | (.error _,x) => x
          | (.ok (),x) => forget x
        else forget x
  else x

def rollback (progress : List ApplyProgress) (x : Exec) : Exec := progress.reverse.foldl (rollbackEntry env) x

def ApplyStatus.is_failed : ApplyStatus → Bool
  | .Failed _ => true
  | _ => false

/-- All changes, before any rollback. -/
def walk (options : ApplyOptions) (plan : Plan) (x : Exec) : Walk :=
  plan.mutating_changes.foldl (applyNext env options (build_dependency_map plan)) ⟨[],[],x⟩

def apply (options : ApplyOptions) (plan : Plan) (x : Exec) : ApplyResult × Exec :=
  if plan.mutating_changes = [] then (⟨[],0,0,0,false,true⟩,x)
  else
    let w := walk env options plan x
    let succeeded := w.progress.countP (·.status = .Succeeded)
    let failed := w.progress.countP (·.status.is_failed)
    let skipped := w.progress.countP (·.status = .Skipped)
    if 0 < failed ∧ options.auto_rollback ∧ options.dry_run = false then
      (⟨w.progress,succeeded,failed,skipped,true,failed = 0⟩,rollback env w.progress w.exec)
    else (⟨w.progress,succeeded,failed,skipped,false,failed = 0⟩,w.exec)

end
end Daf.ProvisionApply
