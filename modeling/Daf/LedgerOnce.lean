import Daf.LedgerRuns

/-!
Each task is handed to its handler in one form only, and has one result. A call that finds the result on
record returns what it reads from the text of the record, and that is the acknowledged result when the
text is read back as it was written: a double need not be.
-/
namespace Daf.LedgerOnce
open Daf.CrashLog Daf.DurableLedger Daf.Json Daf.LedgerKeys Daf.LedgerRuns Daf.LedgerTasks Daf.UuidText Daf.WriteOnce

section
variable {Text : Type} (serde : Serde Text)

/-- Whoever asks, a task goes to its handler for one principal and with one resolved form. -/
def OneTask (history : List Deed) : Prop :=
  ∀ principal resolved principal' resolved', Deed.invoked principal resolved ∈ history → Deed.invoked principal' resolved' ∈ history →
    resolved.id = resolved'.id → principal = principal' ∧ resolved = resolved'

structure OneResult (w : World Text) : Prop where
  /-- After the acknowledgement no handler is invoked for the task. -/
  quiet : w.history.Pairwise Quiet
  same : ∀ principal principal' id result result', Deed.acknowledged principal id result ∈ w.history →
    Deed.acknowledged principal' id result' ∈ w.history → principal = principal' ∧ result = result'
  /-- The result and the effects that the handler declared with it can be read. -/
  lasting : ∀ principal id result, Deed.acknowledged principal id result ∈ w.history →
    lookup serde w.disk.log principal id = .ok (some result) ∧
      ∃ effects, Declared serde w.history principal id result effects ∧
        ∀ effect ∈ effects, readEffect serde w.disk.log principal effect.key = .ok (some effect.value)

/-- What is committed of the handler's result is read back as it was written. -/
def Legible (raw : SdkTaskResult) : Prop :=
  ∀ result effects, accept serde raw.task_id raw = .ok (result,effects) →
    (∀ principal request, serde.readRecord (serde.record ⟨principal,request,result⟩) = some ⟨principal,request,result⟩) ∧
      ∀ effect ∈ effects, serde.readValue (serde.value effect.value) = some effect.value

def Event.Legible : Event → Prop
  | .turn _ (.reply (.ok raw)) => LedgerOnce.Legible serde raw
  | _ => True

variable {serde} {w : World Text}

/-! ### One task, one result -/

theorem oneTask (faithful : Faithful serde) (inv : Inv serde w) : OneTask w.history := by
  intro principal resolved principal' resolved' done done' same
  obtain ⟨task,dependencies,id,survives⟩ := inv.invoked principal resolved done
  obtain ⟨task',dependencies',id',survives'⟩ := inv.invoked principal' resolved' done'
  obtain ⟨bind,found⟩ := survives.now
  obtain ⟨bind',found'⟩ := survives'.now
  have ids : task'.id = task.id := by rw [← id',← id,same]
  rw [ids] at bind'
  have bindings := bind_unique inv.once bind bind'
  have principals : principal = principal' := congrArg Binding.principal bindings
  obtain ⟨rfl,rfl⟩ := requestValue_inj (faithful.value_inj (congrArg Binding.request bindings))
  subst principals
  exact ⟨rfl,found.unique found'⟩

/-- What is committed is what some handler gave. -/
theorem committed_legible (inv : Inv serde w) (legible : ∀ principal id raw, Deed.returned principal id raw ∈ w.history → Legible serde raw)
    {id : Uuid} {record : Record Text} {effects : List DurableEffect} (inside : Op.commit id record effects ∈ w.disk.log) :
    serde.readRecord (serde.record record) = some record ∧ ∀ effect ∈ effects, serde.readValue (serde.value effect.value) = some effect.value := by
  obtain ⟨raw,returned,accepted⟩ := inv.declared id record effects inside
  obtain ⟨rfl,-⟩ := accept_ok serde accepted
  obtain ⟨results,values⟩ := legible _ _ _ returned record.result effects accepted
  exact ⟨results record.principal record.request,values⟩

theorem recorded_result (inv : Inv serde w) (legible : ∀ principal id raw, Deed.returned principal id raw ∈ w.history → Legible serde raw)
    {principal : String} {id : Uuid} {result : SdkTaskResult} (recorded : Recorded serde principal id result w.disk.log) :
    ∃ record effects, Op.commit id record effects ∈ w.disk.log ∧ record.principal = principal ∧ record.result = result := by
  obtain ⟨record,effects,inside,owner,as | ⟨read,found,as⟩⟩ := recorded
  · exact ⟨record,effects,inside,owner,as.symm⟩
  · have same := (committed_legible inv legible inside).1
    rw [found] at same
    cases same
    exact ⟨record,effects,inside,owner,as.symm⟩

theorem oneResult (inv : Inv serde w) (legible : ∀ principal id raw, Deed.returned principal id raw ∈ w.history → Legible serde raw) :
    OneResult serde w := by
  refine ⟨inv.quiet,?_,?_⟩
  · intro principal principal' id result result' done done'
    obtain ⟨record,effects,inside,rfl,rfl⟩ := recorded_result inv legible (inv.acknowledged principal id result done).now
    obtain ⟨record',effects',inside',rfl,rfl⟩ := recorded_result inv legible (inv.acknowledged principal' id result' done').now
    obtain ⟨rfl,-⟩ := commit_unique inv.once inside inside'
    exact ⟨rfl,rfl⟩
  · intro principal id result done
    obtain ⟨record,effects,inside,rfl,rfl⟩ := recorded_result inv legible (inv.acknowledged principal id result done).now
    obtain ⟨readable,values⟩ := committed_legible inv legible inside
    constructor
    · unfold lookup
      rw [stored_of_commit inv.once inside]
      simp [readable]
    · refine ⟨effects,inv.declared id record effects inside,fun effect member => ?_⟩
      have there : stored serde w.disk.log (effectKey record.principal effect.key) = some (serde.value effect.value) :=
        inv.once.get_of_writes inside (mem_writes_effect.mpr ⟨id,record,effects,rfl,rfl,effect,member,rfl,rfl⟩)
      unfold readEffect
      rw [there]
      simp [values effect member]

/-! ### Every answer of a handler is given to some step -/

variable [DecidableEq Text]

/-- Whatever a handler returned came with some step. -/
theorem returned_event {events : List Event} {principal : String} {id : Uuid} {raw : SdkTaskResult}
    (inside : Deed.returned principal id raw ∈ (w.run serde events).history) :
    Deed.returned principal id raw ∈ w.history ∨ ∃ n, Event.turn n (.reply (.ok raw)) ∈ events := by
  induction events generalizing w with
  | nil => exact .inl inside
  | cons event events ih =>
    rcases ih (w := w.step serde event) inside with before | ⟨n,later⟩
    · cases event with
      | begin => exact .inl before
      | crash => exact .inl before
      | cancel n =>
        simp only [World.step] at before
        split at before
        · exact .inl before
        · rcases mem_history before with old | new
          · exact .inl old
          · cases new
      | turn n answer =>
        simp only [World.step] at before
        split at before
        · exact .inl before
        · split at before
          · exact .inl before
          · next turn turned =>
            rcases mem_history before with old | new
            · exact .inl old
            · rcases react_does turned with ⟨-,returned⟩ | ⟨-,silent⟩ | ⟨_,_,-,silent⟩
              · obtain ⟨-,rfl⟩ := returned _ _ _ new
                exact .inr ⟨n,List.mem_cons_self⟩
              · rw [silent] at new
                cases new
              · rw [silent] at new
                cases new
    · exact .inr ⟨n,List.mem_cons_of_mem _ later⟩

/-- In every run a task is handed out in one form, and where the committed results and effects are read
back as they were written, it has one result that outlasts every crash. -/
theorem exactly_once (faithful : Faithful serde) (events : List Event) :
    OneTask (World.empty.run serde events).history ∧
      ((∀ event ∈ events, Event.Legible serde event) → OneResult serde (World.empty.run serde events)) := by
  have inv := run_inv faithful inv_empty events
  refine ⟨oneTask faithful inv,fun legible => oneResult inv ?_⟩
  intro principal id raw returned
  rcases returned_event returned with before | ⟨n,given⟩
  · cases before
  · exact legible _ given

end

/-! ### A ledger of which one double is read back as its neighbour -/

inductive Sheet where
  | value (value : Value)
  | task (task : SdkTaskSpec)
  | result (result : SdkTaskResult)
  | binding (principal : String) (request : Sheet)
  | record (principal : String) (request : Sheet) (result : SdkTaskResult)
deriving DecidableEq

/-- 1/11 is written as 0.09090909090909091, and the parser reads that as 0.09090909090909093. -/
def eleventh : UInt64 := 0x3fb745d1745d1746
def readDouble (bits : UInt64) : UInt64 := if bits = eleventh then 0x3fb745d1745d1747 else bits

def reread : Value → Value
  | .number (.float bits) => .number (.float (readDouble bits))
  | value => value

/-- Texts kept as what they say; none of them is long. -/
def sheets : Serde Sheet where
  len _ := 512
  value := .value
  task := .task
  result := .result
  binding b := .binding b.principal b.request
  record r := .record r.principal r.request r.result
  readValue
    | .value value => some (reread value)
    | _ => none
  readBinding
    | .binding principal request => some ⟨principal,request⟩
    | _ => none
  readRecord
    | .record principal request result => some ⟨principal,request,{ result with output := reread result.output }⟩
    | _ => none

theorem faithful_sheets : Faithful sheets where
  value_inj _ _ same := Sheet.value.inj same
  binding_reads _ := rfl
  record_reads record read found := by
    cases found
    exact ⟨rfl,rfl⟩

def errand : SdkTaskSpec := ⟨1,"prepare","first",.object [],⟨300,0⟩,[],[]⟩

def answering (output : Value) (effects : List Value) : SdkTaskResult :=
  ⟨1,true,.object [("effects",.array effects),("output",output)],none,⟨0,0⟩,[],0⟩

/-- One call of the errand, all the way, and a second one. -/
def twice (raw : SdkTaskResult) : List Event :=
  .begin "alice" errand [] :: List.replicate 7 (.turn 0 .fine) ++ .turn 0 (.reply (.ok raw)) :: .turn 0 .fine :: .turn 0 .fine ::
    .begin "alice" errand [] :: List.replicate 5 (.turn 1 .fine)

def note : Value := .object [("key",.string "receipt"),("value",.string "done")]

theorem legible_done : Legible sheets (answering (.string "done") [note]) := by
  intro result effects accepted
  have same : accept sheets 1 (answering (.string "done") [note]) =
      .ok (⟨1,true,.string "done",none,⟨0,0⟩,[],0⟩,[⟨"receipt",.string "done"⟩]) := by decide
  cases same.symm.trans accepted
  refine ⟨fun _ _ => rfl,fun effect inside => ?_⟩
  rw [List.mem_singleton.mp inside]
  rfl

theorem errand_done_once :
    OneTask (World.empty.run sheets (twice (answering (.string "done") [note]))).history ∧
      OneResult sheets (World.empty.run sheets (twice (answering (.string "done") [note]))) := by
  obtain ⟨one,result⟩ := exactly_once faithful_sheets (twice (answering (.string "done") [note]))
  refine ⟨one,result (fun event inside => ?_)⟩
  simp only [twice,List.replicate,List.cons_append,List.nil_append,List.mem_cons,List.not_mem_nil,or_false] at inside
  rcases inside with rfl | rfl | rfl | rfl | rfl | rfl | rfl | rfl | rfl | rfl | rfl | rfl | rfl | rfl | rfl | rfl | rfl
  all_goals first | trivial | exact legible_done

/-- The first call returns 1/11, the second one its neighbour. -/
theorem replay_differs : ¬ OneResult sheets (World.empty.run sheets (twice (answering (.number (.float eleventh)) []))) := by
  intro one
  have first : Deed.acknowledged "alice" 1 ⟨1,true,.number (.float eleventh),none,⟨0,0⟩,[],0⟩ ∈
      (World.empty.run sheets (twice (answering (.number (.float eleventh)) []))).history := by decide
  have second : Deed.acknowledged "alice" 1 ⟨1,true,.number (.float (readDouble eleventh)),none,⟨0,0⟩,[],0⟩ ∈
      (World.empty.run sheets (twice (answering (.number (.float eleventh)) []))).history := by decide
  exact absurd (one.same _ _ _ _ _ first second).2 (by decide)

end Daf.LedgerOnce
