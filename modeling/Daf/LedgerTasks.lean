import Daf.Json
import Daf.LedgerKeys
import Mathlib.Tactic.SplitIfs

/-!
What the durable ledger is asked to do and what its handlers give back: the checks of a request before
anything is looked up, the task with the outputs of its dependencies put in, and the checks of a result
before it is committed. How a value becomes text is left to `Serde`.
-/
namespace Daf.LedgerTasks
open Daf.Json Daf.UuidText

structure Duration where
  secs : Nat
  nanos : Nat
deriving DecidableEq,Repr

abbrev Fields := List (String × Value)

/-- Labels are in key order. -/
structure SdkTaskSpec where
  id : Uuid
  name : String
  description : String
  inputs : Value
  timeout : Duration
  required_capabilities : List String
  labels : List (String × String)
deriving DecidableEq

/-- A metric is a double, by its bits. -/
structure SdkTaskResult where
  task_id : Uuid
  success : Bool
  output : Value
  error : Option String
  duration : Duration
  metrics : List (String × UInt64)
  completed_at : Int
deriving DecidableEq

structure DurableEffect where
  key : String
  value : Value
deriving DecidableEq

structure DurableTaskOutput where
  output : Value
  effects : List DurableEffect

inductive DurableError where
  | Storage
  | Serialization
  | Conflict
  | EffectConflict (key : String)
  | Invalid (message : String)
  | Handler (message : String)
deriving DecidableEq,Repr

structure Binding (Text : Type) where
  principal : String
  request : Text

structure Record (Text : Type) where
  principal : String
  request : Text
  result : SdkTaskResult

/-- The serializer: the bytes that it writes for what the ledger stores or measures, and what it reads
back from them. -/
structure Serde (Text : Type) where
  len : Text → Nat
  value : Value → Text
  task : SdkTaskSpec → Text
  result : SdkTaskResult → Text
  binding : Binding Text → Text
  record : Record Text → Text
  readValue : Text → Option Value
  readBinding : Text → Option (Binding Text)
  readRecord : Text → Option (Record Text)

/-! ### Requests -/

def Duration.toValue (d : Duration) : Value := .object [("nanos",.number (.int d.nanos)),("secs",.number (.int d.secs))]

/-- The task as a value, its fields in key order. -/
def SdkTaskSpec.toValue (task : SdkTaskSpec) : Value :=
  .object [("description",.string task.description),("id",.string (toText task.id)),("inputs",task.inputs),
    ("labels",.object (task.labels.map (fun l => (l.1,.string l.2)))),("name",.string task.name),
    ("required_capabilities",.array (task.required_capabilities.map .string)),("timeout",task.timeout.toValue)]

def requestValue (task : SdkTaskSpec) (dependencies : List Uuid) : Value :=
  .array [task.toValue,.array (dependencies.map (fun id => .string (toText id)))]

section
variable {Text : Type} (serde : Serde Text)

def limit : Nat := 1048576

def request (task : SdkTaskSpec) (dependencies : List Uuid) : Text := serde.value (requestValue task dependencies)

/-- What is wrong with a request by itself. -/
def refusal (principal : String) (task : SdkTaskSpec) (dependencies : List Uuid) : Option DurableError :=
  if principal = "" ∨ principal.utf8ByteSize > 4096 ∨ dependencies.length > 128 then
    some (.Invalid "invalid principal or too many dependencies")
  else if serde.len (request serde task dependencies) > limit then some (.Invalid "request exceeds 1 MiB")
  else match task.inputs with
    | .object inputs => if inputs.any (·.1 = "dependency_results") then some (.Invalid "dependency_results is reserved") else none
    | _ => some (.Invalid "inputs must be an object")

/-- A field is put in its place in the key order, or takes the place of the one with its key. -/
def insertField (key : String) (value : Value) : Fields → Fields
  | [] => [(key,value)]
  | (k,v) :: rest =>
    if k = key then (key,value) :: rest
    else if key < k then (key,value) :: (k,v) :: rest
    else (k,v) :: insertField key value rest

/-- The task with the outputs of its dependencies among its inputs. -/
def resolve (task : SdkTaskSpec) (results : Fields) : SdkTaskSpec :=
  match task.inputs with
  | .object inputs => { task with inputs := .object (insertField "dependency_results" (.object results) inputs) }
  | _ => task

/-! ### Results -/

/-- A structure is read from an object with just its fields, or from an array of them. -/
def DurableEffect.ofValue : Value → Option DurableEffect
  | .object [("key",.string key),("value",value)] => some ⟨key,value⟩
  | .array [.string key,value] => some ⟨key,value⟩
  | _ => none

def DurableTaskOutput.ofValue : Value → Option DurableTaskOutput
  | .object [("effects",.array effects),("output",output)] => (effects.mapM DurableEffect.ofValue).map (⟨output,·⟩)
  | .array [output,.array effects] => (effects.mapM DurableEffect.ofValue).map (⟨output,·⟩)
  | _ => none

/-- The output of a successful result holds the output proper and the effects. -/
def prepared (result : SdkTaskResult) : Option (SdkTaskResult × List DurableEffect) :=
  if result.success then
    (DurableTaskOutput.ofValue result.output).map (fun prepared => ({ result with output := prepared.output },prepared.effects))
  else some (result,[])

/-- Each effect has a name of its own that is not among those declared. -/
def declarable : List String → List DurableEffect → Bool
  | _,[] => true
  | declared,effect :: effects =>
    effect.key ≠ "" && effect.key.utf8ByteSize ≤ 256 && !declared.contains effect.key && declarable (effect.key :: declared) effects

/-- What of a handler's result is committed for the task. -/
def accept (id : Uuid) (result : SdkTaskResult) : Except DurableError (SdkTaskResult × List DurableEffect) :=
  if result.task_id ≠ id then .error (.Invalid "handler returned a different task ID")
  else if serde.len (serde.result result) > limit then .error (.Invalid "result exceeds 1 MiB")
  else match prepared result with
    | none => .error .Serialization
    | some (result,effects) =>
      if effects.length > 128 then .error (.Invalid "more than 128 effects")
      else if declarable [] effects then .ok (result,effects)
      else .error (.Invalid "empty or duplicate effect key")

/-! ### What the checks leave -/

theorem toText_injective : Function.Injective toText := fun _ _ same => toChars_inj (String.ofList_injective same)

theorem toValue_injective : Function.Injective SdkTaskSpec.toValue := by
  intro a b same
  obtain ⟨id,name,description,inputs,⟨secs,nanos⟩,capabilities,labels⟩ := a
  obtain ⟨id',name',description',inputs',⟨secs',nanos'⟩,capabilities',labels'⟩ := b
  simp only [SdkTaskSpec.toValue,Duration.toValue,Value.object.injEq,List.cons.injEq,Prod.mk.injEq,Value.string.injEq,Value.array.injEq,
    Value.number.injEq,Number.int.injEq,true_and,and_true,Nat.cast_inj] at same
  obtain ⟨descriptions,ids,sameInputs,sameLabels,names,sameCapabilities,sameNanos,sameSecs⟩ := same
  have capable : capabilities = capabilities' := List.map_injective_iff.mpr (fun _ _ eq => Value.string.inj eq) sameCapabilities
  have label : labels = labels' := by
    refine List.map_injective_iff.mpr ?_ sameLabels
    rintro ⟨k,v⟩ ⟨l,w⟩ eq
    obtain ⟨keys,values⟩ := Prod.mk.inj eq
    exact Prod.ext keys (Value.string.inj values)
  rw [toText_injective ids,names,descriptions,sameInputs,sameSecs,sameNanos,capable,label]

/-- A request names its task and its dependencies. -/
theorem requestValue_inj {task other : SdkTaskSpec} {dependencies others : List Uuid}
    (same : requestValue task dependencies = requestValue other others) : task = other ∧ dependencies = others := by
  simp only [requestValue,Value.array.injEq,List.cons.injEq,and_true] at same
  exact ⟨toValue_injective same.1,List.map_injective_iff.mpr (fun _ _ eq => toText_injective (Value.string.inj eq)) same.2⟩

@[simp] theorem resolve_id (task : SdkTaskSpec) (results : Fields) : (resolve task results).id = task.id := by
  unfold resolve
  split <;> rfl

theorem declarable_nodup {declared : List String} {effects : List DurableEffect} (fine : declarable declared effects) :
    (effects.map DurableEffect.key).Nodup ∧ ∀ effect ∈ effects, effect.key ∉ declared := by
  induction effects generalizing declared with
  | nil => simp
  | cons effect effects ih =>
    simp only [declarable,Bool.and_eq_true,Bool.not_eq_true',List.contains_eq_mem,decide_eq_false_iff_not] at fine
    obtain ⟨distinct,later⟩ := ih fine.2
    constructor
    · refine List.nodup_cons.mpr ⟨?_,distinct⟩
      intro again
      obtain ⟨other,inside,same⟩ := List.mem_map.mp again
      exact later other inside (same ▸ List.mem_cons_self)
    · intro other inside
      rcases List.mem_cons.mp inside with rfl | inside
      · exact fine.1.2
      · exact fun listed => later other inside (List.mem_cons_of_mem _ listed)

theorem accept_ok {id : Uuid} {raw result : SdkTaskResult} {effects : List DurableEffect} (accepted : accept serde id raw = .ok (result,effects)) :
    raw.task_id = id ∧ prepared raw = some (result,effects) ∧ (effects.map DurableEffect.key).Nodup := by
  unfold accept at accepted
  split_ifs at accepted with other long
  rcases read : prepared raw with _ | ⟨result',effects'⟩
  · simp [read] at accepted
  · simp only [read] at accepted
    split_ifs at accepted with many fine
    obtain ⟨rfl,rfl⟩ := Prod.mk.inj (Except.ok.inj accepted)
    exact ⟨not_not.mp other,rfl,(declarable_nodup fine).1⟩

end
end Daf.LedgerTasks
