import Daf.DurableLedger

/-!
What holds of the durable ledger whatever its calls, the handlers, the storage and the crashes do: no key
is written twice, and what a call relies on is still there when it comes to use it.
-/
namespace Daf.LedgerRuns
open Daf.CrashLog Daf.DurableLedger Daf.LedgerKeys Daf.LedgerTasks Daf.UuidText Daf.WriteOnce

section
variable {Text : Type} (serde : Serde Text)

/-- What the ledger relies on: texts of different values differ, and names and request bytes are read as
they were written. Nothing is said of the result of a record or the value of an effect. -/
structure Faithful : Prop where
  value_inj : Function.Injective serde.value
  binding_reads : ∀ binding, serde.readBinding (serde.binding binding) = some binding
  record_reads : ∀ record read, serde.readRecord (serde.record record) = some read → read.principal = record.principal ∧ read.request = record.request

/-! ### What is under a key -/

variable {serde} {op : Op Text} {log : List (Op Text)} {id : Uuid} {text : Text}

theorem mem_writes_result : (resultKey id,text) ∈ op.writes serde ↔ ∃ record effects, op = .commit id record effects ∧ text = serde.record record := by
  cases op with
  | bind other binding => simp [Op.writes]
  | commit other record effects =>
    constructor
    · intro written
      have last : resultKey id = resultKey other ∧ text = serde.record record := by simpa [Op.writes] using written
      exact ⟨record,effects,by rw [resultKey_inj last.1],last.2⟩
    · rintro ⟨record,effects,same,rfl⟩
      cases same
      simp [Op.writes]

theorem mem_writes_binding : (bindingKey id,text) ∈ op.writes serde ↔ ∃ binding, op = .bind id binding ∧ text = serde.binding binding := by
  cases op with
  | bind other binding =>
    constructor
    · intro written
      have only : bindingKey id = bindingKey other ∧ text = serde.binding binding := by simpa [Op.writes] using written
      exact ⟨binding,by rw [bindingKey_inj only.1],only.2⟩
    · rintro ⟨binding,same,rfl⟩
      cases same
      simp [Op.writes]
  | commit other record effects => simp [Op.writes]

theorem mem_writes_effect {principal name : String} : (effectKey principal name,text) ∈ op.writes serde ↔
    ∃ id record effects, op = .commit id record effects ∧ record.principal = principal ∧ ∃ effect ∈ effects, effect.key = name ∧
      text = serde.value effect.value := by
  cases op with
  | bind other binding => simp [Op.writes]
  | commit other record effects =>
    constructor
    · intro written
      have one : ∃ effect ∈ effects, (record.principal = principal ∧ effect.key = name) ∧ serde.value effect.value = text := by
        simpa [Op.writes] using written
      obtain ⟨effect,inside,⟨owner,named⟩,value⟩ := one
      exact ⟨other,record,effects,rfl,owner,effect,inside,named,value.symm⟩
    · rintro ⟨_,_,_,same,rfl,effect,inside,rfl,rfl⟩
      cases same
      exact List.mem_append_left _ (List.mem_map.mpr ⟨effect,inside,rfl⟩)

theorem result_stored (found : stored serde log (resultKey id) = some text) :
    ∃ record effects, Op.commit id record effects ∈ log ∧ text = serde.record record := by
  obtain ⟨op,inside,written⟩ := mem_entries.mp (mem_of_get found)
  obtain ⟨record,effects,rfl,same⟩ := Iff.mp mem_writes_result written
  exact ⟨record,effects,inside,same⟩

theorem binding_stored (found : stored serde log (bindingKey id) = some text) :
    ∃ binding, Op.bind id binding ∈ log ∧ text = serde.binding binding := by
  obtain ⟨op,inside,written⟩ := mem_entries.mp (mem_of_get found)
  obtain ⟨binding,rfl,same⟩ := Iff.mp mem_writes_binding written
  exact ⟨binding,inside,same⟩

theorem effect_stored {principal name : String} (found : stored serde log (effectKey principal name) = some text) :
    ∃ id record effects, Op.commit id record effects ∈ log ∧ record.principal = principal ∧
      ∃ effect ∈ effects, effect.key = name ∧ text = serde.value effect.value := by
  obtain ⟨op,inside,written⟩ := mem_entries.mp (mem_of_get found)
  obtain ⟨id,record,effects,rfl,rest⟩ := Iff.mp mem_writes_effect written
  exact ⟨id,record,effects,inside,rest⟩

variable {record record' : Record Text} {effects effects' : List DurableEffect}

theorem stored_of_commit (once : Once (Op.writes serde) log) (inside : Op.commit id record effects ∈ log) :
    stored serde log (resultKey id) = some (serde.record record) :=
  once.get_of_writes inside (Iff.mpr mem_writes_result ⟨record,effects,rfl,rfl⟩)

theorem commit_unique (once : Once (Op.writes serde) log) (inside : Op.commit id record effects ∈ log) (inside' : Op.commit id record' effects' ∈ log) :
    record = record' ∧ effects = effects' := by
  have same := once.writer inside inside' (Iff.mpr mem_writes_result ⟨record,effects,rfl,rfl⟩) (Iff.mpr mem_writes_result ⟨record',effects',rfl,rfl⟩)
  cases same
  exact ⟨rfl,rfl⟩

theorem bind_unique (once : Once (Op.writes serde) log) {binding binding' : Binding Text} (inside : Op.bind id binding ∈ log)
    (inside' : Op.bind id binding' ∈ log) : binding = binding' := by
  have same := once.writer inside inside' (Iff.mpr mem_writes_binding ⟨binding,rfl,rfl⟩) (Iff.mpr mem_writes_binding ⟨binding',rfl,rfl⟩)
  cases same
  rfl

/-! ### What the dependencies gave -/

theorem lookup_ok {principal : String} {result : SdkTaskResult} (found : lookup serde log principal id = .ok (some result)) :
    ∃ text record, stored serde log (resultKey id) = some text ∧ serde.readRecord text = some record ∧ record.principal = principal ∧
      result = record.result := by
  unfold lookup at found
  rcases there : stored serde log (resultKey id) with _ | text
  · simp [there] at found
  · simp only [there] at found
    rcases read : serde.readRecord text with _ | record
    · simp [read] at found
    · simp only [read] at found
      split_ifs at found with other
      exact ⟨text,record,rfl,read,not_not.mp other,(Option.some.inj (Except.ok.inj found)).symm⟩

theorem lookup_kept {more : List (Op Text)} (once : Once (Op.writes serde) (log ++ more)) {principal : String} {result : SdkTaskResult}
    (found : lookup serde log principal id = .ok (some result)) : lookup serde (log ++ more) principal id = .ok (some result) := by
  obtain ⟨text,record,there,-⟩ := lookup_ok found
  have later : stored serde (log ++ more) (resultKey id) = some text := once.kept there
  unfold lookup at found ⊢
  rw [later]
  rwa [there] at found

variable (serde) in
/-- The outputs of some dependencies, put together as the call does. -/
def collect (log : List (Op Text)) (principal : String) : List Uuid → Fields → Option Fields
  | [],results => some results
  | id :: ids,results =>
    match lookup serde log principal id with
    | .ok (some result) => collect log principal ids (insertField (toText id) result.output results)
    | _ => none

theorem collect_kept {more : List (Op Text)} (once : Once (Op.writes serde) (log ++ more)) {principal : String} {ids : List Uuid} {results all : Fields}
    (found : collect serde log principal ids results = some all) : collect serde (log ++ more) principal ids results = some all := by
  induction ids generalizing results with
  | nil => exact found
  | cons id ids ih =>
    unfold collect at found ⊢
    split at found
    · next result there =>
      rw [lookup_kept once there]
      exact ih found
    · cases found

theorem collect_snoc {principal : String} {ids : List Uuid} {results all : Fields} {result : SdkTaskResult}
    (found : collect serde log principal ids results = some all) (there : lookup serde log principal id = .ok (some result)) :
    collect serde log principal (ids ++ [id]) results = some (insertField (toText id) result.output all) := by
  induction ids generalizing results with
  | nil =>
    cases found
    simp [collect,there]
  | cons first ids ih =>
    rw [List.cons_append]
    unfold collect at found ⊢
    split at found
    · exact ih found
    · cases found

variable (serde) in
/-- The task as it is handed to the handler. -/
def Resolved (log : List (Op Text)) (principal : String) (task : SdkTaskSpec) (dependencies : List Uuid) (resolved : SdkTaskSpec) : Prop :=
  ∃ results, collect serde log principal dependencies [] = some results ∧ resolved = resolve task results

theorem Resolved.kept {more : List (Op Text)} (once : Once (Op.writes serde) (log ++ more)) {principal : String} {task resolved : SdkTaskSpec}
    {dependencies : List Uuid} (found : Resolved serde log principal task dependencies resolved) :
    Resolved serde (log ++ more) principal task dependencies resolved := by
  obtain ⟨results,all,same⟩ := found
  exact ⟨results,collect_kept once all,same⟩

theorem Resolved.unique {principal : String} {task resolved resolved' : SdkTaskSpec} {dependencies : List Uuid}
    (found : Resolved serde log principal task dependencies resolved) (found' : Resolved serde log principal task dependencies resolved') :
    resolved = resolved' := by
  obtain ⟨results,all,rfl⟩ := found
  obtain ⟨results',all',rfl⟩ := found'
  rw [Option.some.inj (all.symm.trans all')]

/-! ### The invariant -/

variable (serde) in
/-- The task is bound to the request, and its dependencies are there. -/
def Bound (principal : String) (task : SdkTaskSpec) (dependencies : List Uuid) (resolved : SdkTaskSpec) (log : List (Op Text)) : Prop :=
  Op.bind task.id ⟨principal,request serde task dependencies⟩ ∈ log ∧ Resolved serde log principal task dependencies resolved

variable (serde) in
/-- The result is the one on record for the task, or is read from that record. -/
def Recorded (principal : String) (id : Uuid) (result : SdkTaskResult) (log : List (Op Text)) : Prop :=
  ∃ record effects, Op.commit id record effects ∈ log ∧ record.principal = principal ∧
    (result = record.result ∨ ∃ read, serde.readRecord (serde.record record) = some read ∧ result = read.result)

variable (serde) in
/-- A handler gave this result and these effects for the task. -/
def Declared (history : List Deed) (principal : String) (id : Uuid) (result : SdkTaskResult) (effects : List DurableEffect) : Prop :=
  ∃ raw, Deed.returned principal id raw ∈ history ∧ accept serde id raw = .ok (result,effects)

variable (serde) in
def Fresh (log : List (Op Text)) (id : Uuid) : Prop := ∀ record effects, Op.commit id record effects ∉ log

variable (serde) in
/-- What a call relies on where it stands. -/
def Good (disk : Disk (Op Text)) (history : List Deed) (c : Call) : Stage → Prop
  | .looking seen results todo => c.dependencies = seen ++ todo ∧ collect serde disk.log c.principal seen [] = some results
  | .waiting resolved | .leased resolved => Resolved serde disk.log c.principal c.task c.dependencies resolved
  | .unrecorded resolved => Resolved serde disk.log c.principal c.task c.dependencies resolved ∧ Fresh disk.log c.task.id
  | .bound resolved => Bound serde c.principal c.task c.dependencies resolved disk.log ∧ Fresh disk.log c.task.id
  | .ready resolved => Survives (Bound serde c.principal c.task c.dependencies resolved) disk ∧ Fresh disk.log c.task.id
  | .committing result effects => Declared serde history c.principal c.task.id result effects
  | .replaying result | .committed result => Recorded serde c.principal c.task.id result disk.log
  | .arrived | .preparing _ | .ended _ | .dropped => True

/-- Nothing is invoked again for a task whose result has been acknowledged. -/
def Quiet (earlier later : Deed) : Prop :=
  ∀ principal principal' id result resolved, earlier = .acknowledged principal id result → later = .invoked principal' resolved → resolved.id ≠ id

variable (serde) in
structure Inv (w : World Text) : Prop where
  once : Once (Op.writes serde) w.disk.log
  lease : ∀ (n : Nat) (c : Call), w.calls[n]? = some c → c.stage.holds → w.lease = some n
  good : ∀ (n : Nat) (c : Call), w.calls[n]? = some c → Good serde w.disk w.history c c.stage
  declared : ∀ id record effects, Op.commit id record effects ∈ w.disk.log → Declared serde w.history record.principal id record.result effects
  invoked : ∀ principal resolved, Deed.invoked principal resolved ∈ w.history →
    ∃ task dependencies, resolved.id = task.id ∧ Survives (Bound serde principal task dependencies resolved) w.disk
  acknowledged : ∀ principal id result, Deed.acknowledged principal id result ∈ w.history → Survives (Recorded serde principal id result) w.disk
  quiet : w.history.Pairwise Quiet

/-! ### What stays as the log grows -/

theorem Bound.kept {principal : String} {task resolved : SdkTaskSpec} {dependencies : List Uuid} (once : Once (Op.writes serde) (log ++ [op]))
    (bound : Bound serde principal task dependencies resolved log) : Bound serde principal task dependencies resolved (log ++ [op]) :=
  ⟨List.mem_append_left _ bound.1,bound.2.kept once⟩

theorem Recorded.kept {principal : String} {result : SdkTaskResult} (recorded : Recorded serde principal id result log) :
    Recorded serde principal id result (log ++ [op]) := by
  obtain ⟨record,effects,inside,rest⟩ := recorded
  exact ⟨record,effects,List.mem_append_left _ inside,rest⟩

theorem Declared.later {history more : List Deed} {principal : String} {result : SdkTaskResult} (declared : Declared serde history principal id result effects) :
    Declared serde (history ++ more) principal id result effects := by
  obtain ⟨raw,inside,accepted⟩ := declared
  exact ⟨raw,List.mem_append_left _ inside,accepted⟩

theorem on_log (turn : Turn Text) (disk : Disk (Op Text)) : (turn.on disk).log = disk.log ++ turn.write.toList := by
  unfold Turn.on
  split
  · next op written => simp [written]
  · next unwritten => split <;> simp [unwritten]

variable {disk : Disk (Op Text)} {turn : Turn Text}

variable (serde) in
theorem survives_on {P : List (Op Text) → Prop} (grows : ∀ op log, Once (Op.writes serde) (log ++ [op]) → P log → P (log ++ [op]))
    (once : Once (Op.writes serde) (turn.on disk).log) (survives : Survives P disk) : Survives P (turn.on disk) := by
  unfold Turn.on at once ⊢
  split
  · next op written =>
    rw [written] at once
    exact survives.write (grows op _ once survives.now)
  · split
    · exact survives.flush
    · exact survives

theorem good_later {history more : List Deed} {c : Call} {stage : Stage} (good : Good serde disk history c stage) :
    Good serde disk (history ++ more) c stage := by
  cases stage
  case committing result effects => exact good.later
  all_goals exact good

/-- A write leaves alone what the calls without the lease rely on. -/
theorem good_on {history more : List Deed} {c : Call} {stage : Stage} (once : Once (Op.writes serde) (turn.on disk).log)
    (others : turn.write ≠ none → ¬ stage.holds) (good : Good serde disk history c stage) : Good serde (turn.on disk) (history ++ more) c stage := by
  rcases written : turn.write with _ | op
  · have same : (turn.on disk).log = disk.log := by rw [on_log,written]; simp
    cases stage
    case ready resolved => exact ⟨survives_on serde (fun _ _ once bound => bound.kept once) once good.1,by rw [same]; exact good.2⟩
    case committing result effects => exact good.later
    case arrived | preparing | ended | dropped => trivial
    all_goals simpa only [Good,same] using good
  · have free : ¬ stage.holds := others (by rw [written]; simp)
    have longer : (turn.on disk).log = disk.log ++ [op] := by rw [on_log,written]; rfl
    rw [longer] at once
    cases stage
    case looking seen results todo => exact ⟨good.1,by rw [longer]; exact collect_kept once good.2⟩
    case waiting resolved =>
      simp only [Good] at good ⊢
      rw [longer]
      exact good.kept once
    case arrived | ended | dropped => trivial
    all_goals exact absurd rfl free

/-! ### One step -/

variable (serde) in
/-- What a turn may do. -/
structure Allowed (w : World Text) (n : Nat) (c : Call) (turn : Turn Text) : Prop where
  once : Once (Op.writes serde) (w.disk.log ++ turn.write.toList)
  holder : turn.write ≠ none → c.stage.holds
  declared : ∀ id record effects, turn.write = some (.commit id record effects) → Declared serde w.history record.principal id record.result effects
  lease : turn.next.holds → w.lease = some n ∨ w.lease = none
  good : Good serde (turn.on w.disk) (w.history ++ turn.deed.toList) c turn.next
  invoked : ∀ principal resolved, turn.deed = some (.invoked principal resolved) →
    (∃ task dependencies, resolved.id = task.id ∧ Survives (Bound serde principal task dependencies resolved) (turn.on w.disk)) ∧
      ∀ principal' result, Deed.acknowledged principal' resolved.id result ∉ w.history
  acknowledged : ∀ principal id result, turn.deed = some (.acknowledged principal id result) → Survives (Recorded serde principal id result) (turn.on w.disk)

theorem mem_history {history : List Deed} {deed : Deed} {some : Option Deed} (inside : deed ∈ history ++ some.toList) :
    deed ∈ history ∨ some = .some deed := by
  rcases List.mem_append.mp inside with old | new
  · exact .inl old
  · exact .inr (Option.mem_toList.mp new)

theorem take_inv {w : World Text} {n : Nat} {c : Call} (inv : Inv serde w) (there : w.calls[n]? = some c) (allowed : Allowed serde w n c turn) :
    Inv serde (w.take n c turn) := by
  have once : Once (Op.writes serde) (turn.on w.disk).log := by rw [on_log]; exact allowed.once
  have keepsBound : ∀ {principal task dependencies resolved}, Survives (Bound serde principal task dependencies resolved) w.disk →
      Survives (Bound serde principal task dependencies resolved) (turn.on w.disk) :=
    survives_on serde (fun _ _ once bound => bound.kept once) once
  have keepsRecorded : ∀ {principal id result}, Survives (Recorded serde principal id result) w.disk →
      Survives (Recorded serde principal id result) (turn.on w.disk) :=
    survives_on serde (fun _ _ _ recorded => recorded.kept) once
  have inside : n < w.calls.length := (List.getElem?_eq_some_iff.mp there).1
  have exclusive : ∀ (m : Nat) (c' : Call), m ≠ n → w.calls[m]? = some c' → c.stage.holds → ¬ c'.stage.holds := by
    intro m c' other there' holds holds'
    exact other (Option.some.inj ((inv.lease m c' there' holds').symm.trans (inv.lease n c there holds)))
  refine ⟨once,?_,?_,?_,?_,?_,?_⟩
  · intro m c' there' holds
    show (if turn.next.holds then some n else if w.lease = some n then none else w.lease) = some m
    by_cases same : m = n
    · subst same
      have now : c' = { c with stage := turn.next } := by
        simpa [World.take,List.getElem?_set,inside] using there'.symm
      subst now
      rw [if_pos holds]
    · have before : w.calls[m]? = some c' := by
        simpa [World.take,List.getElem?_set_ne (Ne.symm same)] using there'
      have held := inv.lease m c' before holds
      by_cases next : turn.next.holds
      · rcases allowed.lease next with mine | free
        · exact absurd (Option.some.inj (held.symm.trans mine)) same
        · rw [held] at free
          cases free
      · have others : w.lease ≠ some n := fun mine => same (Option.some.inj (held.symm.trans mine))
        rw [if_neg next,if_neg others]
        exact held
  · intro m c' there'
    by_cases same : m = n
    · subst same
      have now : c' = { c with stage := turn.next } := by
        simpa [World.take,List.getElem?_set,inside] using there'.symm
      subst now
      exact allowed.good
    · have before : w.calls[m]? = some c' := by
        simpa [World.take,List.getElem?_set_ne (Ne.symm same)] using there'
      exact good_on once (fun written => exclusive m c' same before (allowed.holder written)) (inv.good m c' before)
  · intro id record effects committed
    have split : Op.commit id record effects ∈ w.disk.log ++ turn.write.toList := by rwa [← on_log]
    rcases List.mem_append.mp split with old | new
    · exact (inv.declared id record effects old).later
    · exact (allowed.declared id record effects (Option.mem_toList.mp new)).later
  · intro principal resolved done
    rcases mem_history done with old | new
    · obtain ⟨task,dependencies,same,bound⟩ := inv.invoked principal resolved old
      exact ⟨task,dependencies,same,keepsBound bound⟩
    · exact (allowed.invoked principal resolved new).1
  · intro principal id result done
    rcases mem_history done with old | new
    · exact keepsRecorded (inv.acknowledged principal id result old)
    · exact allowed.acknowledged principal id result new
  · refine List.pairwise_append.mpr ⟨inv.quiet,?_,?_⟩
    · cases turn.deed <;> simp
    · intro earlier before later after principal principal' id result resolved acked invoked same
      subst acked invoked same
      exact (allowed.invoked principal' resolved (Option.mem_toList.mp after)).2 principal result before

/-! ### Each step is allowed -/

section
variable {w : World Text} {n : Nat} {c : Call} (inv : Inv serde w) (there : w.calls[n]? = some c)
include inv

/-- A call that only goes on. -/
theorem allowed_goOn {next : Stage} (good : Good serde w.disk w.history c next) (lease : next.holds → w.lease = some n ∨ w.lease = none) :
    Allowed serde w n c (goOn next) where
  once := by simpa [goOn] using inv.once
  holder := by simp [goOn]
  declared := by simp [goOn]
  lease := lease
  good := by
    show Good serde w.disk (w.history ++ []) c next
    rwa [List.append_nil]
  invoked := by simp [goOn]
  acknowledged := by simp [goOn]

theorem allowed_fail (e : DurableError) : Allowed serde w n c (fail e) := allowed_goOn inv trivial (fun holds => by cases holds)

omit inv in
/-- A call that writes while it has the lease. -/
theorem allowed_write {op : Op Text} {next : Stage} (holds : c.stage.holds) (held : w.lease = some n)
    (once : Once (Op.writes serde) (w.disk.log ++ [op]))
    (declared : ∀ id record effects, op = .commit id record effects → Declared serde w.history record.principal id record.result effects)
    (good : Good serde (w.disk.write op) w.history c next) : Allowed serde w n c ⟨next,some op,false,none⟩ where
  once := once
  holder := fun _ => holds
  declared := fun id record effects same => declared id record effects (Option.some.inj same)
  lease := fun _ => .inl held
  good := by
    show Good serde (w.disk.write op) (w.history ++ []) c next
    rwa [List.append_nil]
  invoked := by simp
  acknowledged := by simp

theorem allowed_place {answer : Answer} {op : Op Text} {next : Stage} (holds : c.stage.holds) (held : w.lease = some n)
    (once : Once (Op.writes serde) (w.disk.log ++ [op]))
    (declared : ∀ id record effects, op = .commit id record effects → Declared serde w.history record.principal id record.result effects)
    (good : Good serde (w.disk.write op) w.history c next) : Allowed serde w n c (place answer op next) := by
  unfold place
  split_ifs
  · exact allowed_fail inv _
  · exact allowed_write holds held once declared trivial
  · exact allowed_write holds held once declared good

theorem allowed_flushing {answer : Answer} {next : Stage} {deed : Option Deed} (lease : next.holds → w.lease = some n)
    (good : Good serde w.disk.flush w.history c next) (silent : ∀ principal resolved, deed ≠ some (.invoked principal resolved))
    (acknowledged : ∀ principal id result, deed = some (.acknowledged principal id result) → Recorded serde principal id result w.disk.log) :
    Allowed serde w n c (flushing answer next deed) := by
  unfold flushing
  split_ifs
  · exact allowed_fail inv _
  · exact {
      once := by simpa using inv.once
      holder := by simp
      declared := by simp
      lease := fun holds => .inl (lease holds)
      good := good_later good
      invoked := fun principal resolved same => absurd same (silent principal resolved)
      acknowledged := fun principal id result same => survives_flush (acknowledged principal id result same) }

theorem fresh_of_none (absent : stored serde w.disk.log (resultKey id) = none) : Fresh w.disk.log id := by
  intro record effects inside
  rw [stored_of_commit inv.once inside] at absent
  cases absent

omit inv in
theorem not_written {key : Key} (absent : stored serde w.disk.log key = none) (old : Text) : (key,old) ∉ entries (Op.writes serde) w.disk.log :=
  get_eq_none.mp absent old

end

section
variable [DecidableEq Text] (faithful : Faithful serde) {w : World Text} {n : Nat} {c : Call} (inv : Inv serde w) {answer : Answer}
include inv

omit [DecidableEq Text] in
theorem allowed_lookAt {seen todo : List Uuid} {results : Fields} (good : Good serde w.disk w.history c (.looking seen results (id :: todo))) :
    Allowed serde w n c (lookAt serde c w.disk.log answer seen results id todo) := by
  unfold lookAt
  split_ifs
  · exact allowed_fail inv _
  · exact allowed_fail inv _
  · rcases found : lookup serde w.disk.log c.principal id with e | _ | result
    · exact allowed_fail inv _
    · exact allowed_fail inv _
    · simp only
      split_ifs
      · exact allowed_fail inv _
      · exact allowed_fail inv _
      · refine allowed_goOn inv ⟨?_,collect_snoc good.2 found⟩ (fun holds => by cases holds)
        rw [good.1,List.append_assoc]
        rfl

include faithful in
theorem allowed_findRecord {resolved : SdkTaskSpec} (held : w.lease = some n) (good : Resolved serde w.disk.log c.principal c.task c.dependencies resolved) :
    Allowed serde w n c (findRecord serde c w.disk.log answer resolved) := by
  unfold findRecord
  split_ifs
  · exact allowed_fail inv _
  · rcases found : stored serde w.disk.log (resultKey c.task.id) with _ | text
    · exact allowed_goOn inv ⟨good,fresh_of_none inv found⟩ (fun _ => .inl held)
    · obtain ⟨record,effects,inside,rfl⟩ := result_stored found
      simp only
      rcases read : serde.readRecord (serde.record record) with _ | record'
      · exact allowed_fail inv _
      · simp only
        split_ifs with other
        · exact allowed_fail inv _
        · have same := faithful.record_reads record record' read
          have owner : record'.principal = c.principal := not_not.mp (fun differ => other (.inl differ))
          exact allowed_goOn inv ⟨record,effects,inside,same.1.symm.trans owner,.inr ⟨record',read,rfl⟩⟩ (fun _ => .inl held)

include faithful in
theorem allowed_claim {resolved : SdkTaskSpec} (holds : c.stage.holds) (held : w.lease = some n)
    (good : Resolved serde w.disk.log c.principal c.task c.dependencies resolved) (fresh : Fresh w.disk.log c.task.id) :
    Allowed serde w n c (claim serde c w.disk.log answer resolved) := by
  unfold claim
  rcases found : stored serde w.disk.log (bindingKey c.task.id) with _ | text
  · have once : Once (Op.writes serde) (w.disk.log ++ [Op.bind c.task.id ⟨c.principal,c.request serde⟩]) := by
      refine inv.once.snoc (by simp [Op.writes]) ?_
      intro key text written old
      obtain ⟨rfl,-⟩ : key = bindingKey c.task.id ∧ text = serde.binding ⟨c.principal,c.request serde⟩ := by simpa [Op.writes] using written
      exact not_written found old
    refine allowed_place inv holds held once (fun _ _ _ same => by cases same) ⟨⟨?_,good.kept once⟩,?_⟩
    · exact List.mem_append_right _ (List.mem_singleton.mpr rfl)
    · intro record effects inside
      rcases List.mem_append.mp inside with old | new
      · exact fresh record effects old
      · cases List.mem_singleton.mp new
  · obtain ⟨binding,inside,rfl⟩ := binding_stored found
    simp only [faithful.binding_reads]
    split_ifs with failed other
    · exact allowed_fail inv _
    · exact allowed_fail inv _
    · have owner : binding.principal = c.principal := not_not.mp (fun differ => other (.inl differ))
      have asked : binding.request = c.request serde := not_not.mp (fun differ => other (.inr differ))
      have same : binding = ⟨c.principal,request serde c.task c.dependencies⟩ := by
        cases binding
        simp only at owner asked
        rw [owner,asked]
        rfl
      exact allowed_goOn inv ⟨⟨same ▸ inside,good⟩,fresh⟩ (fun _ => .inl held)

omit [DecidableEq Text] in
theorem allowed_transaction {result : SdkTaskResult} {effects : List DurableEffect} (holds : c.stage.holds) (held : w.lease = some n)
    (good : Declared serde w.history c.principal c.task.id result effects) :
    Allowed serde w n c (transaction serde c w.disk.log answer result effects) := by
  unfold transaction
  split_ifs with refused taken
  · exact allowed_fail inv _
  · exact allowed_fail inv _
  · rcases clash : effects.find? _ with _ | effect
    · obtain ⟨raw,returned,accepted⟩ := good
      have distinct := (accept_ok serde accepted).2.2
      have absent : stored serde w.disk.log (resultKey c.task.id) = none := by simpa using taken
      have untaken : ∀ effect ∈ effects, stored serde w.disk.log (effectKey c.principal effect.key) = none := by
        intro effect inside
        have := List.find?_eq_none.mp clash effect inside
        simpa using this
      have once : Once (Op.writes serde) (w.disk.log ++ [Op.commit c.task.id ⟨c.principal,c.request serde,result⟩ effects]) := by
        refine inv.once.snoc ?_ ?_
        · simp only [Op.writes,List.map_append,List.map_map,List.map_cons,List.map_nil]
          refine List.Nodup.append ?_ (List.nodup_singleton _) ?_
          · have keys : (Prod.fst ∘ fun effect : DurableEffect => (effectKey c.principal effect.key,serde.value effect.value)) =
                effectKey c.principal ∘ DurableEffect.key := rfl
            rw [keys,← List.map_map]
            exact distinct.map (fun _ _ same => (effectKey_inj same).2)
          · intro key left right
            obtain ⟨effect,-,rfl⟩ := List.mem_map.mp left
            simp at right
        · intro key text written old
          rcases List.mem_append.mp written with first | last
          · obtain ⟨effect,inside,same⟩ := List.mem_map.mp first
            cases same
            exact not_written (untaken effect inside) old
          · cases List.mem_singleton.mp last
            exact not_written absent old
      refine allowed_place inv holds held once (fun id record effects' same => ?_) ⟨_,effects,List.mem_append_right _ (List.mem_singleton.mpr rfl),rfl,.inl rfl⟩
      cases same
      exact ⟨raw,returned,accepted⟩
    · exact allowed_fail inv _

include faithful in
theorem react_allowed {turn : Turn Text} (there : w.calls[n]? = some c) (turned : react serde c w.disk.log w.lease.isNone answer = some turn) :
    Allowed serde w n c turn := by
  have good := inv.good n c there
  have lease := inv.lease n c there
  unfold react at turned
  rcases stage : c.stage with _ | ⟨seen,results,_ | ⟨id,todo⟩⟩ | resolved | resolved | result | resolved | resolved | resolved | resolved |
    ⟨result,effects⟩ | result | outcome | _
  all_goals
    rw [stage] at good lease
    simp only [stage] at turned
  case arrived =>
    split at turned <;> cases turned
    · exact allowed_fail inv _
    · exact allowed_goOn inv ⟨rfl,rfl⟩ (fun holds => by cases holds)
  case looking.nil =>
    split at turned <;> cases turned
    · exact allowed_fail inv _
    · refine allowed_goOn inv ⟨results,?_,rfl⟩ (fun holds => by cases holds)
      rw [good.1,List.append_nil]
      exact good.2
  case looking.cons =>
    cases turned
    exact allowed_lookAt inv good
  case waiting =>
    split at turned
    · next free =>
      cases turned
      exact allowed_goOn inv good (fun _ => .inr (Option.isNone_iff_eq_none.mp free))
    · cases turned
  case leased =>
    cases turned
    exact allowed_findRecord faithful inv (lease rfl) good
  case replaying =>
    cases turned
    refine allowed_flushing inv (fun holds => by cases holds) trivial (by simp) (fun principal id result same => ?_)
    cases same
    exact good
  case unrecorded =>
    cases turned
    exact allowed_claim faithful inv (by rw [stage]; rfl) (lease rfl) good.1 good.2
  case bound =>
    cases turned
    exact allowed_flushing inv (fun _ => lease rfl) ⟨survives_flush good.1,good.2⟩ (by simp) (by simp)
  case ready =>
    cases turned
    exact {
      once := by simpa using inv.once
      holder := by simp
      declared := by simp
      lease := fun _ => .inl (lease rfl)
      good := trivial
      invoked := by
        intro principal resolved' same
        cases same
        obtain ⟨results,-,same⟩ := good.1.now.2
        have id : resolved.id = c.task.id := by rw [same,resolve_id]
        refine ⟨⟨c.task,c.dependencies,id,good.1⟩,fun principal' result before => ?_⟩
        obtain ⟨record,effects,inside,-⟩ := (inv.acknowledged principal' resolved.id result before).now
        exact good.2 record effects (id ▸ inside)
      acknowledged := by simp }
  case preparing =>
    rcases answer with _ | _ | message | raw
    · cases turned
    · cases turned
    · cases turned
      exact allowed_fail inv _
    · simp only at turned
      split at turned
      · cases turned
        exact {
          once := by simpa using inv.once
          holder := by simp
          declared := by simp
          lease := fun holds => by cases holds
          good := trivial
          invoked := by simp
          acknowledged := by simp }
      · next result effects accepted =>
        cases turned
        exact {
          once := by simpa using inv.once
          holder := by simp
          declared := by simp
          lease := fun _ => .inl (lease rfl)
          good := ⟨raw,List.mem_append_right _ (List.mem_singleton.mpr rfl),accepted⟩
          invoked := by simp
          acknowledged := by simp }
  case committing =>
    cases turned
    exact allowed_transaction inv (by rw [stage]; rfl) (lease rfl) good
  case committed =>
    cases turned
    refine allowed_flushing inv (fun holds => by cases holds) trivial (by simp) (fun principal id result same => ?_)
    cases same
    exact good
  case ended => cases turned
  case dropped => cases turned

include faithful in
theorem step_inv (event : Event) : Inv serde (w.step serde event) := by
  cases event with
  | begin principal task dependencies =>
    have calls : ∀ (n : Nat) (c : Call), (w.calls ++ [⟨principal,task,dependencies,.arrived⟩])[n]? = some c →
        w.calls[n]? = some c ∨ c.stage = .arrived := by
      intro n c there
      rcases Nat.lt_or_ge n w.calls.length with old | new
      · rw [List.getElem?_append_left old] at there
        exact .inl there
      · rw [List.getElem?_append_right new] at there
        have last := List.mem_of_getElem? there
        rw [List.mem_singleton.mp last]
        exact .inr rfl
    refine ⟨inv.once,?_,?_,inv.declared,inv.invoked,inv.acknowledged,inv.quiet⟩
    · intro n c there holds
      rcases calls n c there with old | new
      · exact inv.lease n c old holds
      · rw [new] at holds
        cases holds
    · intro n c there
      rcases calls n c there with old | new
      · exact inv.good n c old
      · rw [new]
        trivial
  | turn n answer =>
    simp only [World.step]
    split
    · exact inv
    · next c there =>
      split
      · exact inv
      · next turn turned => exact take_inv inv there (react_allowed faithful inv there turned)
  | cancel n =>
    simp only [World.step]
    split
    · exact inv
    · next c there => exact take_inv inv there (allowed_goOn inv trivial (fun holds => by cases holds))
  | crash keep =>
    refine ⟨inv.once.take _,by simp [World.step],by simp [World.step],?_,?_,?_,inv.quiet⟩
    · intro id record effects inside
      exact inv.declared id record effects (List.mem_of_mem_take inside)
    · intro principal resolved done
      obtain ⟨task,dependencies,same,bound⟩ := inv.invoked principal resolved done
      exact ⟨task,dependencies,same,bound.crash keep⟩
    · intro principal id result done
      exact (inv.acknowledged principal id result done).crash keep

end

theorem inv_empty : Inv serde World.empty := by
  refine ⟨?_,by simp [World.empty],by simp [World.empty],by simp [World.empty,Disk.empty],by simp [World.empty],by simp [World.empty],
    by simp [World.empty]⟩
  exact List.nodup_nil

theorem run_inv [DecidableEq Text] (faithful : Faithful serde) {w : World Text} (inv : Inv serde w) (events : List Event) : Inv serde (w.run serde events) := by
  induction events generalizing w with
  | nil => exact inv
  | cons event events ih => exact ih (step_inv faithful inv event)

end
end Daf.LedgerRuns
