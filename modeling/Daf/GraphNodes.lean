import Daf.Json
import Mathlib.Data.Finset.Basic

/-!
The nodes and edges of an execution graph, the states that a node goes through
and the condition under which an edge lets its target run.
-/
namespace Daf.GraphNodes

/-- Time spans in nanoseconds. -/
abbrev Duration := Nat
/-- The longest span that a `Duration` of the source holds. -/
def Duration.MAX : Duration := 18446744073709551615 * 1000000000 + 999999999
def Duration.from_secs (secs : Nat) : Duration := secs * 1000000000

structure NodeId where
  uuid : BitVec 128
deriving DecidableEq,Repr

inductive NodeKind where
  | Task | Gate | Fork | Join | Checkpoint | Noop
deriving DecidableEq,Repr

inductive NodeState where
  | Pending | Ready | Running | Succeeded | Failed | Skipped | Cancelled
deriving DecidableEq,Repr

/-- No further transitions. -/
def NodeState.is_terminal : NodeState → Bool
  | .Succeeded => true
  | .Failed => true
  | .Skipped => true
  | .Cancelled => true
  | _ => false

def NodeState.is_success : NodeState → Bool
  | .Succeeded => true
  | _ => false

structure TaskSpec where
  task_type : String
  params : Json.Value
  timeout : Option Duration
  /-- Attempts after the first one. -/
  max_retries : Nat

structure Node where
  id : NodeId
  kind : NodeKind
  name : String
  state : NodeState
  task_spec : Option TaskSpec
  dependencies : Finset NodeId
  metadata : Json.Value
  estimated_duration : Option Duration
  actual_duration : Option Duration
  priority : Int

def Node.new (id : NodeId) (kind : NodeKind) (name : String) : Node where
  id
  kind
  name
  state := .Pending
  task_spec := none
  dependencies := ∅
  metadata := .null
  estimated_duration := none
  actual_duration := none
  priority := 0

inductive EdgeKind where
  | DependsOn | Triggers | Blocks | DataFlow | Conditional
deriving DecidableEq,Repr

inductive EdgeCondition where
  | Always | OnSuccess | OnFailure
  | OnOutput (key : String)
deriving DecidableEq,Repr

structure Edge where
  source : NodeId
  target : NodeId
  kind : EdgeKind
  condition : Option EdgeCondition
  weight : Int
deriving DecidableEq,Repr

def Edge.new (source target : NodeId) (kind : EdgeKind) : Edge := ⟨source,target,kind,none,0⟩

/-- The explicit condition, or the default of the kind. -/
def Edge.effective_condition (edge : Edge) : EdgeCondition :=
  edge.condition.getD (match edge.kind with
    | .DependsOn => .OnSuccess
    | .DataFlow => .OnSuccess
    | _ => .Always)

/-- A predecessor in this state lets the edge fire. An output predicate is never
    satisfied, since handlers have no output. -/
def satisfied (state : NodeState) (edge : Edge) : Bool :=
  match edge.effective_condition with
  | .Always => state.is_terminal
  | .OnSuccess => state.is_success
  | .OnFailure => state == .Failed
  | .OnOutput _ => false

/-- Only a terminal predecessor satisfies an edge. -/
theorem terminal_of_satisfied {state : NodeState} {edge : Edge} (holds : satisfied state edge = true) :
    state.is_terminal = true := by
  unfold satisfied at holds
  split at holds
  · exact holds
  · cases state <;> simp_all [NodeState.is_success,NodeState.is_terminal]
  · cases state <;> simp_all [NodeState.is_terminal]
  · cases holds

inductive GraphError where
  | InvalidConfiguration (reason : String)
  | UnsupportedOutputCondition
  | NodeNotFound (id : NodeId)
  | CycleDetected
  | GlobalTimeout (limit : Duration)
  | Cancelled
deriving DecidableEq,Repr

end Daf.GraphNodes
