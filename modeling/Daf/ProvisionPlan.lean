import Daf.Json
import Daf.Kahn
import Daf.MissionPlan

/-!
Resources, their recorded state, and the plan that leads from one to the other: which
resources are created, updated, replaced and destroyed, in dependency order.
-/
namespace Daf.ProvisionPlan
open Daf.Json Daf.MissionPlan

/-! ### Resources -/

inductive ResourceType where
  | AgentPool
  | Channel
  | Pipeline
  | Workflow
  | Storage
  | Network
  | Custom (name : String)
deriving DecidableEq,Repr

structure LifecyclePolicy where
  create_before_destroy : Bool
  prevent_destroy : Bool
  /-- Config keys whose changes do not count. -/
  ignore_changes : List String
deriving DecidableEq,Repr

def LifecyclePolicy.default : LifecyclePolicy := ⟨false,false,[]⟩

structure ResourceSpec where
  type_ : ResourceType
  name : String
  provider : String
  config : Value
  depends_on : List String
  lifecycle : LifecyclePolicy

def ResourceSpec.new (type_ : ResourceType) (name provider : String) : ResourceSpec :=
  ⟨type_,name,provider,.object [],[],.default⟩

def ResourceSpec.with_config (spec : ResourceSpec) (config : Value) : ResourceSpec := { spec with config }

inductive ResourceState where
  | Planned
  | Creating
  | Created
  | Updating
  | Destroying
  | Destroyed
  | Error
deriving DecidableEq,Repr

structure Resource where
  spec : ResourceSpec
  state : ResourceState
  physical_id : Option String
  outputs : AList (fun _ : String => Value)

def Resource.from_spec (spec : ResourceSpec) : Resource := ⟨spec,.Planned,none,∅⟩

def Resource.transition (r : Resource) (new_state : ResourceState) : Resource := { r with state := new_state }
def Resource.set_physical_id (r : Resource) (id : String) : Resource := { r with physical_id := some id }
def Resource.set_output (r : Resource) (key : String) (value : Value) : Resource := { r with outputs := r.outputs.insert key value }
def Resource.name (r : Resource) : String := r.spec.name

structure ProvisionState where
  serial : UInt64
  resources : AList (fun _ : String => Resource)

def ProvisionState.new : ProvisionState := ⟨0,∅⟩

def ProvisionState.bump (s : ProvisionState) : ProvisionState := { s with serial := s.serial + 1 }
def ProvisionState.upsert_resource (s : ProvisionState) (r : Resource) : ProvisionState := { s with resources := s.resources.insert r.name r }
def ProvisionState.remove_resource (s : ProvisionState) (name : String) : ProvisionState := { s with resources := s.resources.erase name }
def ProvisionState.get_resource (s : ProvisionState) (name : String) : Option Resource := s.resources.lookup name

/-! ### Plans -/

inductive Action where
  | Create
  | Update
  | Destroy
  | Replace
  | NoOp
deriving DecidableEq,Repr

def Action.is_mutating (a : Action) : Bool := a ≠ .NoOp

structure ResourceChange where
  resource_name : String
  action : Action
  before : Option Value
  after : Option Value
  reason : String

structure PlanSummary where
  creates : Nat
  updates : Nat
  destroys : Nat
  replaces : Nat
  no_ops : Nat
deriving DecidableEq,Repr

structure Plan where
  changes : List ResourceChange
  warnings : List String
  summary : PlanSummary

def PlanSummary.count (s : PlanSummary) : Action → PlanSummary
  | .Create => { s with creates := s.creates + 1 }
  | .Update => { s with updates := s.updates + 1 }
  | .Destroy => { s with destroys := s.destroys + 1 }
  | .Replace => { s with replaces := s.replaces + 1 }
  | .NoOp => { s with no_ops := s.no_ops + 1 }

def Plan.from_changes (changes : List ResourceChange) (warnings : List String) : Plan :=
  ⟨changes,warnings,changes.foldl (fun s c => s.count c.action) ⟨0,0,0,0,0⟩⟩

def Plan.mutating_changes (plan : Plan) : List ResourceChange := plan.changes.filter (·.action.is_mutating)

/-- The order in which a hash map is walked: some permutation of its keys. -/
structure Iteration where
  order : List String → List String
  perm : ∀ keys, (order keys).Perm keys

/-- Leave one key out of both configs, when both are objects. -/
def ignoreKey (name : String) (configs : Value × Value × List String) (key : String) : Value × Value × List String :=
  match configs with
  | (.object old,.object new,warnings) =>
    (.object (old.filter (·.1 ≠ key)),.object (new.filter (·.1 ≠ key)),
      warnings ++ ["ignoring changes to '" ++ key ++ "' on resource '" ++ name ++ "'"])
  | _ => configs

/-- Both configs without the keys whose changes do not count, and the warnings about them. -/
def effective (spec : ResourceSpec) (existing : Resource) : Value × Value × List String :=
  spec.lifecycle.ignore_changes.foldl (ignoreKey spec.name) (existing.spec.config,spec.config,[])

/-- What happens to a desired resource. -/
def actionFor (existing : Option Resource) (spec : ResourceSpec) : Action :=
  match existing with
  | none => .Create
  | some existing =>
    if existing.spec.type_ ≠ spec.type_ ∨ existing.spec.provider ≠ spec.provider then .Replace
    else if (effective spec existing).1.eq (effective spec existing).2.1 = false then .Update
    else .NoOp

def changeFor (current : ProvisionState) (spec : ResourceSpec) : ResourceChange × List String :=
  match current.resources.lookup spec.name with
  | none => (⟨spec.name,.Create,none,some spec.config,"resource does not exist"⟩,[])
  | some existing =>
    let warnings := (effective spec existing).2.2
    match actionFor (some existing) spec with
    | .NoOp => (⟨spec.name,.NoOp,none,none,"no changes detected"⟩,warnings)
    | action => (⟨spec.name,action,some existing.spec.config,some spec.config,"configuration changed"⟩,warnings)

/-- The last spec of each name. -/
def specMap (desired : List ResourceSpec) : AList (fun _ : String => ResourceSpec) := desired.foldl (fun m spec => m.insert spec.name spec) ∅

/-- What happens to a recorded resource that is not desired. -/
def destroyFor (desired : List ResourceSpec) (name : String) (existing : Resource) : Option ResourceChange × List String :=
  if name ∈ specMap desired then (none,[])
  else if existing.spec.lifecycle.prevent_destroy then
    (none,["resource '" ++ name ++ "' is absent from config but has prevent_destroy=true, skipping"])
  else (some ⟨name,.Destroy,some existing.spec.config,none,"resource removed from config"⟩,[])

def changeMap (changes : List ResourceChange) : AList (fun _ : String => ResourceChange) :=
  changes.foldl (fun m c => m.insert c.resource_name c) ∅

/-- The dependencies between the changes that are not destroys. -/
def edges (names : List String) (desired : List ResourceSpec) : List (String × String) :=
  names.flatMap (fun name =>
    match (specMap desired).lookup name with
    | none => []
    | some spec => (spec.depends_on.filter (· ∈ names)).map (fun dep => (dep,name)))

def topological_sort (it : Iteration) (changes : List ResourceChange) (desired : List ResourceSpec) :
    Except DafError (List ResourceChange) :=
  let creates_updates := changes.filter (·.action ≠ .Destroy)
  let destroys := changes.filter (·.action = .Destroy)
  let names := creates_updates.map (·.resource_name)
  let graph := Kahn.build names (edges names desired)
  let queue := (it.order graph.in_degree.keys).filter (fun name => graph.in_degree.lookup name = some 0)
  let sorted_names := Kahn.sort graph queue
  if sorted_names.length ≠ creates_updates.length then .error (.ConfigError "circular dependency detected in resource graph")
  else .ok (sorted_names.filterMap (fun name => (changeMap changes).lookup name) ++ destroys.reverse)

/-- All changes before they are sorted, with the warnings. -/
def detect (it : Iteration) (current : ProvisionState) (desired : List ResourceSpec) : List ResourceChange × List String :=
  let wanted := desired.map (changeFor current)
  let unwanted := (it.order current.resources.keys).filterMap (fun name => (current.resources.lookup name).map (destroyFor desired name))
  (wanted.map Prod.fst ++ unwanted.filterMap Prod.fst,wanted.flatMap Prod.snd ++ unwanted.flatMap Prod.snd)

def plan (it : Iteration) (current : ProvisionState) (desired : List ResourceSpec) : Except DafError Plan :=
  match topological_sort it (detect it current desired).1 desired with
  | .error e => .error e
  | .ok sorted => .ok (Plan.from_changes sorted (detect it current desired).2)

end Daf.ProvisionPlan
