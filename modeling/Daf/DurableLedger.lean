import Daf.CrashLog
import Daf.LedgerTasks
import Daf.WriteOnce

/-!
The durable ledger. Each call goes one step at a time: a step reads the store, writes it once, flushes
it, waits for the lease or lets the handler run. Between two steps any other call can go on, a call can
be dropped, and the process can die and open the ledger again from what its disk has kept.
-/
namespace Daf.DurableLedger
open Daf.CrashLog Daf.LedgerKeys Daf.LedgerTasks Daf.UuidText Daf.WriteOnce

/-- A write of the ledger: a binding by itself, or the result of a task with its effects. -/
inductive Op (Text : Type) where
  | bind (id : Uuid) (binding : Binding Text)
  | commit (id : Uuid) (record : Record Text) (effects : List DurableEffect)

section
variable {Text : Type} (serde : Serde Text)

def Op.writes : Op Text → List (Key × Text)
  | .bind id binding => [(bindingKey id,serde.binding binding)]
  | .commit id record effects =>
    effects.map (fun effect => (effectKey record.principal effect.key,serde.value effect.value)) ++ [(resultKey id,serde.record record)]

def stored (log : List (Op Text)) (key : Key) : Option Text := get (Op.writes serde) log key

def lookup (log : List (Op Text)) (principal : String) (task_id : Uuid) : Except DurableError (Option SdkTaskResult) :=
  match stored serde log (resultKey task_id) with
  | none => .ok none
  | some text =>
    match serde.readRecord text with
    | none => .error .Serialization
    | some record => if record.principal ≠ principal then .error .Conflict else .ok (some record.result)

def readEffect (log : List (Op Text)) (principal key : String) : Except DurableError (Option Json.Value) :=
  match stored serde log (effectKey principal key) with
  | none => .ok none
  | some text =>
    match serde.readValue text with
    | none => .error .Serialization
    | some value => .ok (some value)

/-- Where a call stands: after its start, at a dependency, waiting for the lease, or holding it. -/
inductive Stage where
  | arrived
  | looking (seen : List Uuid) (results : Fields) (todo : List Uuid)
  | waiting (resolved : SdkTaskSpec)
  /-- It holds the lease from here on, until it ends. -/
  | leased (resolved : SdkTaskSpec)
  | replaying (result : SdkTaskResult)
  | unrecorded (resolved : SdkTaskSpec)
  | bound (resolved : SdkTaskSpec)
  | ready (resolved : SdkTaskSpec)
  | preparing (resolved : SdkTaskSpec)
  | committing (result : SdkTaskResult) (effects : List DurableEffect)
  | committed (result : SdkTaskResult)
  | ended (outcome : Except DurableError SdkTaskResult)
  | dropped

def Stage.holds : Stage → Bool
  | .arrived | .looking .. | .waiting _ | .ended _ | .dropped => false
  | _ => true

structure Call where
  principal : String
  task : SdkTaskSpec
  dependencies : List Uuid
  stage : Stage

def Call.request (c : Call) : Text := LedgerTasks.request serde c.task c.dependencies

/-- What a call meets at a step: nothing, an error of the storage, with the write done or not, or what
the handler gives back. -/
inductive Answer where
  | fine
  | fault (written : Bool)
  | reply (outcome : Except String SdkTaskResult)

def Answer.faulty : Answer → Bool
  | .fault _ => true
  | _ => false

/-- Nothing is done. -/
def Answer.refused : Answer → Bool
  | .fault written => !written
  | _ => false

/-- What is seen of the ledger from outside. -/
inductive Deed where
  | invoked (principal : String) (resolved : SdkTaskSpec)
  | returned (principal : String) (id : Uuid) (result : SdkTaskResult)
  | acknowledged (principal : String) (id : Uuid) (result : SdkTaskResult)
deriving DecidableEq

/-- One step of a call. -/
structure Turn (Text : Type) where
  next : Stage
  write : Option (Op Text)
  flush : Bool
  deed : Option Deed

def goOn (next : Stage) : Turn Text := ⟨next,none,false,none⟩
def fail (e : DurableError) : Turn Text := goOn (.ended (.error e))

/-- A write that the storage may refuse, or do and then fail. -/
def place (answer : Answer) (op : Op Text) (next : Stage) : Turn Text :=
  if answer.refused then fail .Storage
  else if answer.faulty then ⟨.ended (.error .Storage),some op,false,none⟩
  else ⟨next,some op,false,none⟩

/-- All written so far is flushed, or the storage fails. -/
def flushing (answer : Answer) (next : Stage) (deed : Option Deed) : Turn Text :=
  if answer.faulty then fail .Storage else ⟨next,none,true,deed⟩

/-- The next dependency is looked up. -/
def lookAt (c : Call) (log : List (Op Text)) (answer : Answer) (seen : List Uuid) (results : Fields) (id : Uuid) (todo : List Uuid) : Turn Text :=
  if id = c.task.id ∨ id ∈ seen then fail (.Invalid "duplicate or self dependency")
  else if answer.faulty then fail .Storage
  else match lookup serde log c.principal id with
    | .error e => fail e
    | .ok none => fail (.Invalid ("missing dependency " ++ toText id))
    | .ok (some result) =>
      if !result.success then fail (.Invalid ("failed dependency " ++ toText id))
      else
        let results := insertField (toText id) result.output results
        if serde.len (serde.value (.object results)) > limit then fail (.Invalid "dependency outputs exceed 1 MiB")
        else goOn (.looking (seen ++ [id]) results todo)

/-- The record of the task is looked for. -/
def findRecord (c : Call) (log : List (Op Text)) (answer : Answer) (resolved : SdkTaskSpec) [DecidableEq Text] : Turn Text :=
  if answer.faulty then fail .Storage
  else match stored serde log (resultKey c.task.id) with
    | none => goOn (.unrecorded resolved)
    | some text =>
      match serde.readRecord text with
      | none => fail .Serialization
      | some record =>
        if record.principal ≠ c.principal ∨ record.request ≠ c.request serde then fail .Conflict
        else goOn (.replaying record.result)

/-- The binding of the task is checked, or written when there is none. -/
def claim (c : Call) (log : List (Op Text)) (answer : Answer) (resolved : SdkTaskSpec) [DecidableEq Text] : Turn Text :=
  match stored serde log (bindingKey c.task.id) with
  | some text =>
    if answer.faulty then fail .Storage
    else match serde.readBinding text with
      | none => fail .Serialization
      | some binding =>
        if binding.principal ≠ c.principal ∨ binding.request ≠ c.request serde then fail .Conflict
        else goOn (.bound resolved)
  | none => place answer (.bind c.task.id ⟨c.principal,c.request serde⟩) (.bound resolved)

/-- The result and the effects are written in one transaction, if none of their keys is taken. -/
def transaction (c : Call) (log : List (Op Text)) (answer : Answer) (result : SdkTaskResult) (effects : List DurableEffect) : Turn Text :=
  if answer.refused then fail .Storage
  else if (stored serde log (resultKey c.task.id)).isSome then fail .Conflict
  else match effects.find? (fun effect => (stored serde log (effectKey c.principal effect.key)).isSome) with
    | some effect => fail (.EffectConflict effect.key)
    | none => place answer (.commit c.task.id ⟨c.principal,c.request serde,result⟩ effects) (.committed result)

/-- The next step of a call, unless it has to wait or has ended. -/
def react (c : Call) (log : List (Op Text)) (free : Bool) (answer : Answer) [DecidableEq Text] : Option (Turn Text) :=
  match c.stage with
  | .arrived =>
    match refusal serde c.principal c.task c.dependencies with
    | some e => some (fail e)
    | none => some (goOn (.looking [] [] c.dependencies))
  | .looking seen results (id :: todo) => some (lookAt serde c log answer seen results id todo)
  | .looking _ results [] =>
    let resolved := resolve c.task results
    if serde.len (serde.task resolved) > limit then some (fail (.Invalid "resolved task exceeds 1 MiB")) else some (goOn (.waiting resolved))
  | .waiting resolved => if free then some (goOn (.leased resolved)) else none
  | .leased resolved => some (findRecord serde c log answer resolved)
  -- what was committed before may not have been flushed
  | .replaying result => some (flushing answer (.ended (.ok result)) (some (.acknowledged c.principal c.task.id result)))
  | .unrecorded resolved => some (claim serde c log answer resolved)
  | .bound resolved => some (flushing answer (.ready resolved) none)
  | .ready resolved => some ⟨.preparing resolved,none,false,some (.invoked c.principal resolved)⟩
  | .preparing _ =>
    match answer with
    | .reply (.error message) => some (fail (.Handler message))
    | .reply (.ok raw) =>
      match accept serde c.task.id raw with
      | .error e => some ⟨.ended (.error e),none,false,some (.returned c.principal c.task.id raw)⟩
      | .ok (result,effects) => some ⟨.committing result effects,none,false,some (.returned c.principal c.task.id raw)⟩
    | _ => none
  | .committing result effects => some (transaction serde c log answer result effects)
  | .committed result => some (flushing answer (.ended (.ok result)) (some (.acknowledged c.principal c.task.id result)))
  | .ended _ | .dropped => none

/-! ### The ledger and its calls -/

structure World (Text : Type) where
  disk : Disk (Op Text)
  calls : List Call
  /-- The call that holds the lease. -/
  lease : Option Nat
  /-- What was done so far, over all crashes. -/
  history : List Deed

def World.empty : World Text := ⟨Disk.empty,[],none,[]⟩

def Turn.on (turn : Turn Text) (disk : Disk (Op Text)) : Disk (Op Text) :=
  match turn.write with
  | some op => disk.write op
  | none => if turn.flush then disk.flush else disk

/-- A call takes its turn. The lease goes with the stages that hold it. -/
def World.take (w : World Text) (n : Nat) (c : Call) (turn : Turn Text) : World Text :=
  { disk := turn.on w.disk
    calls := w.calls.set n { c with stage := turn.next }
    lease := if turn.next.holds then some n else if w.lease = some n then none else w.lease
    history := w.history ++ turn.deed.toList }

inductive Event where
  | begin (principal : String) (task : SdkTaskSpec) (dependencies : List Uuid)
  | turn (n : Nat) (answer : Answer)
  | cancel (n : Nat)
  | crash (keep : Nat)

variable [DecidableEq Text]

def World.step (w : World Text) : Event → World Text
  | .begin principal task dependencies => { w with calls := w.calls ++ [⟨principal,task,dependencies,.arrived⟩] }
  | .turn n answer =>
    match w.calls[n]? with
    | none => w
    | some c =>
      match react serde c w.disk.log w.lease.isNone answer with
      | none => w
      | some turn => w.take n c turn
  | .cancel n =>
    match w.calls[n]? with
    | none => w
    | some c => w.take n c (goOn .dropped)
  | .crash keep => ⟨w.disk.crash keep,[],none,w.history⟩

def World.run (w : World Text) (events : List Event) : World Text := events.foldl (World.step serde) w

/-! ### What a step can do -/

variable (c : Call) (log : List (Op Text)) (answer : Answer)

omit [DecidableEq Text] in
theorem place_cases (op : Op Text) (next : Stage) :
    (∃ after, place answer op next = goOn after) ∨ ∃ after, place answer op next = ⟨after,some op,false,none⟩ := by
  unfold place
  split_ifs
  · exact .inl ⟨_,rfl⟩
  · exact .inr ⟨_,rfl⟩
  · exact .inr ⟨_,rfl⟩

omit [DecidableEq Text] in
theorem lookAt_goOn (seen todo : List Uuid) (results : Fields) (id : Uuid) : ∃ next, lookAt serde c log answer seen results id todo = goOn next := by
  unfold lookAt
  split_ifs
  · exact ⟨_,rfl⟩
  · exact ⟨_,rfl⟩
  · rcases lookup serde log c.principal id with e | _ | result
    · exact ⟨_,rfl⟩
    · exact ⟨_,rfl⟩
    · simp only
      split_ifs <;> exact ⟨_,rfl⟩

theorem findRecord_goOn (resolved : SdkTaskSpec) : ∃ next, findRecord serde c log answer resolved = goOn next := by
  unfold findRecord
  split_ifs
  · exact ⟨_,rfl⟩
  · rcases stored serde log (resultKey c.task.id) with _ | text
    · exact ⟨_,rfl⟩
    · simp only
      rcases serde.readRecord text with _ | record
      · exact ⟨_,rfl⟩
      · simp only
        split_ifs <;> exact ⟨_,rfl⟩

theorem claim_cases (resolved : SdkTaskSpec) : (∃ next, claim serde c log answer resolved = goOn next) ∨
    claim serde c log answer resolved = place answer (.bind c.task.id ⟨c.principal,c.request serde⟩) (.bound resolved) := by
  unfold claim
  rcases stored serde log (bindingKey c.task.id) with _ | text
  · exact .inr rfl
  · left
    simp only
    split_ifs
    · exact ⟨_,rfl⟩
    · rcases serde.readBinding text with _ | binding
      · exact ⟨_,rfl⟩
      · simp only
        split_ifs <;> exact ⟨_,rfl⟩

omit [DecidableEq Text] in
theorem transaction_cases (result : SdkTaskResult) (effects : List DurableEffect) :
    (∃ next, transaction serde c log answer result effects = goOn next) ∨
      transaction serde c log answer result effects = place answer (.commit c.task.id ⟨c.principal,c.request serde,result⟩ effects) (.committed result) := by
  unfold transaction
  split_ifs
  · exact .inl ⟨_,rfl⟩
  · exact .inl ⟨_,rfl⟩
  · rcases effects.find? _ with _ | effect
    · exact .inr rfl
    · exact .inl ⟨_,rfl⟩

/-- A step writes nothing and reports what the handler answered, or writes the binding or the result of
the call's own task. -/
inductive Does (turn : Turn Text) : Prop where
  | reports (silent : turn.write = none)
      (returned : ∀ principal id raw, turn.deed = some (.returned principal id raw) → id = c.task.id ∧ answer = .reply (.ok raw))
  | binds (written : turn.write = some (.bind c.task.id ⟨c.principal,c.request serde⟩)) (silent : turn.deed = none)
  | commits (result : SdkTaskResult) (effects : List DurableEffect) (written : turn.write = some (.commit c.task.id ⟨c.principal,c.request serde,result⟩ effects))
      (silent : turn.deed = none)

omit [DecidableEq Text] in
theorem does_goOn (next : Stage) : Does serde c answer (goOn next) := .reports rfl (by simp [goOn])

variable {serde} {c log answer} in
theorem react_does {free : Bool} {turn : Turn Text} (turned : react serde c log free answer = some turn) : Does serde c answer turn := by
  unfold react at turned
  rcases stage : c.stage with _ | ⟨seen,results,_ | ⟨dependency,todo⟩⟩ | resolved | resolved | result | resolved | resolved | resolved | resolved |
    ⟨result,effects⟩ | result | outcome | _
  all_goals simp only [stage] at turned
  case arrived | looking.nil =>
    split at turned <;> (cases turned; exact does_goOn serde c answer _)
  case waiting =>
    split at turned
    · cases turned
      exact does_goOn serde c answer _
    · cases turned
  case looking.cons =>
    obtain ⟨next,same⟩ := lookAt_goOn serde c log answer seen todo results dependency
    rw [same] at turned
    cases turned
    exact does_goOn serde c answer _
  case leased =>
    obtain ⟨next,same⟩ := findRecord_goOn serde c log answer resolved
    rw [same] at turned
    cases turned
    exact does_goOn serde c answer _
  case unrecorded =>
    cases turned
    rcases claim_cases serde c log answer resolved with ⟨next,same⟩ | same
    · rw [same]
      exact does_goOn serde c answer _
    · rw [same]
      rcases place_cases answer (.bind c.task.id ⟨c.principal,c.request serde⟩) (.bound resolved) with ⟨next,same⟩ | ⟨after,same⟩
      · rw [same]
        exact does_goOn serde c answer _
      · rw [same]
        exact .binds rfl rfl
  case committing =>
    cases turned
    rcases transaction_cases serde c log answer result effects with ⟨next,same⟩ | same
    · rw [same]
      exact does_goOn serde c answer _
    · rw [same]
      rcases place_cases answer (.commit c.task.id ⟨c.principal,c.request serde,result⟩ effects) (.committed result) with
        ⟨next,same⟩ | ⟨after,same⟩
      · rw [same]
        exact does_goOn serde c answer _
      · rw [same]
        exact .commits result effects rfl rfl
  case replaying | committed | bound =>
    cases turned
    unfold flushing
    split_ifs
    · exact does_goOn serde c answer _
    · exact .reports rfl (by simp)
  case ready =>
    cases turned
    exact .reports rfl (by simp)
  case preparing =>
    rcases answer with _ | _ | message | raw
    · cases turned
    · cases turned
    · cases turned
      exact does_goOn serde c _ _
    · simp only at turned
      split at turned
      all_goals
        cases turned
        refine .reports rfl (fun principal id raw' same => ?_)
        cases same
        exact ⟨rfl,rfl⟩
  case ended => cases turned
  case dropped => cases turned

end
end Daf.DurableLedger
