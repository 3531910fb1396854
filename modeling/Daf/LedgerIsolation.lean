import Daf.LedgerOnce

/-!
The effects of the durable ledger belong to the tasks on record, and its principals do not meet: what one
of them has stored is neither written nor read by the calls of another.
-/
namespace Daf.LedgerIsolation
open Daf.DurableLedger Daf.LedgerKeys Daf.LedgerOnce Daf.LedgerRuns Daf.LedgerTasks Daf.UuidText Daf.WriteOnce

/-- What a principal can tell of something on record: of what is not its own, only that it is there and
whether it can be read at all. -/
inductive Seen (α : Type) where
  | absent
  | unreadable
  | foreign
  | own (content : α)

section
variable {Text : Type} (serde : Serde Text)

def seenRecord (log : List (Op Text)) (principal : String) (id : Uuid) : Seen (Text × SdkTaskResult) :=
  match stored serde log (resultKey id) with
  | none => .absent
  | some text =>
    match serde.readRecord text with
    | none => .unreadable
    | some record => if record.principal ≠ principal then .foreign else .own (record.request,record.result)

def seenBinding (log : List (Op Text)) (principal : String) (id : Uuid) : Seen Text :=
  match stored serde log (bindingKey id) with
  | none => .absent
  | some text =>
    match serde.readBinding text with
    | none => .unreadable
    | some binding => if binding.principal ≠ principal then .foreign else .own binding.request

/-- Two stores that a principal cannot tell apart: of effects it can tell which of its own names are taken. -/
structure Alike (principal : String) (log log' : List (Op Text)) : Prop where
  records : ∀ id, seenRecord serde log principal id = seenRecord serde log' principal id
  bindings : ∀ id, seenBinding serde log principal id = seenBinding serde log' principal id
  effects : ∀ name, (stored serde log (effectKey principal name)).isSome = (stored serde log' (effectKey principal name)).isSome

variable {serde} {log log' : List (Op Text)} {principal : String} {id : Uuid}

theorem lookup_seen : lookup serde log principal id =
    match seenRecord serde log principal id with
    | .absent => .ok none
    | .unreadable => .error .Serialization
    | .foreign => .error .Conflict
    | .own content => .ok (some content.2) := by
  unfold lookup seenRecord
  rcases stored serde log (resultKey id) with _ | text
  · rfl
  · simp only
    rcases serde.readRecord text with _ | record
    · rfl
    · simp only
      split_ifs <;> rfl

variable (principal) in
theorem stored_seen : (stored serde log (resultKey id)).isSome =
    match seenRecord serde log principal id with
    | .absent => false
    | _ => true := by
  unfold seenRecord
  rcases stored serde log (resultKey id) with _ | text
  · rfl
  · simp only
    rcases serde.readRecord text with _ | record
    · rfl
    · simp only
      split_ifs <;> rfl

variable [DecidableEq Text] {c : Call} {answer : Answer} {resolved : SdkTaskSpec}

theorem findRecord_seen : findRecord serde c log answer resolved =
    if answer.faulty then fail .Storage
    else match seenRecord serde log c.principal c.task.id with
      | .absent => goOn (.unrecorded resolved)
      | .unreadable => fail .Serialization
      | .foreign => fail .Conflict
      | .own content => if content.1 ≠ c.request serde then fail .Conflict else goOn (.replaying content.2) := by
  unfold findRecord seenRecord
  rcases stored serde log (resultKey c.task.id) with _ | text
  · rfl
  · simp only
    rcases serde.readRecord text with _ | record
    · rfl
    · by_cases owner : record.principal = c.principal <;> simp [owner]

theorem claim_seen : claim serde c log answer resolved =
    match seenBinding serde log c.principal c.task.id with
    | .absent => place answer (.bind c.task.id ⟨c.principal,c.request serde⟩) (.bound resolved)
    | .unreadable => if answer.faulty then fail .Storage else fail .Serialization
    | .foreign => if answer.faulty then fail .Storage else fail .Conflict
    | .own request => if answer.faulty then fail .Storage else if request ≠ c.request serde then fail .Conflict else goOn (.bound resolved) := by
  unfold claim seenBinding
  rcases stored serde log (bindingKey c.task.id) with _ | text
  · rfl
  · simp only
    rcases serde.readBinding text with _ | binding
    · rfl
    · by_cases owner : binding.principal = c.principal <;> simp [owner]

/-- A call goes on in the same way in stores that its principal cannot tell apart. -/
theorem react_alike (alike : Alike serde c.principal log log') (free : Bool) : react serde c log free answer = react serde c log' free answer := by
  have lookups : ∀ id, lookup serde log c.principal id = lookup serde log' c.principal id := by
    intro id
    rw [lookup_seen,lookup_seen,alike.records]
  unfold react
  rcases stage : c.stage with _ | ⟨seen,results,_ | ⟨dependency,todo⟩⟩ | resolved | resolved | result | resolved | resolved | resolved | resolved |
    ⟨result,effects⟩ | result | outcome | _
  case looking.cons => simp only [lookAt,lookups]
  case leased => simp only [findRecord_seen,alike.records]
  case unrecorded => simp only [claim_seen,alike.bindings]
  case committing =>
    simp only [transaction,alike.effects]
    rw [stored_seen c.principal,alike.records,← stored_seen]
  all_goals rfl

/-! ### What is stored -/

variable (serde) in
structure Isolated (w : World Text) : Prop where
  /-- A stored effect was declared by one task, whose result is stored for the same principal. -/
  declared : ∀ principal name text, stored serde w.disk.log (effectKey principal name) = some text →
    ∃! id, ∃ record effects, Op.commit id record effects ∈ w.disk.log ∧ record.principal = principal ∧
      stored serde w.disk.log (resultKey id) = some (serde.record record) ∧ Declared serde w.history principal id record.result effects ∧
        ∃ effect ∈ effects, effect.key = name ∧ text = serde.value effect.value
  /-- With a result all its effects are stored, as they were declared. -/
  effects : ∀ id text, stored serde w.disk.log (resultKey id) = some text →
    ∃ record effects, text = serde.record record ∧ Declared serde w.history record.principal id record.result effects ∧
      ∀ effect ∈ effects, stored serde w.disk.log (effectKey record.principal effect.key) = some (serde.value effect.value)
  /-- Nothing stored is changed or removed, as long as the ledger does not crash. -/
  kept : ∀ events : List Event, (∀ event ∈ events, ∀ keep, event ≠ .crash keep) → ∀ key text, stored serde w.disk.log key = some text →
    stored serde (w.run serde events).disk.log key = some text
  /-- A step of one principal's call leaves the effects and the results of the others as they are. -/
  others : ∀ (n : Nat) (c : Call) answer, w.calls[n]? = some c → ∀ principal, principal ≠ c.principal →
    (∀ name, stored serde (w.step serde (.turn n answer)).disk.log (effectKey principal name) = stored serde w.disk.log (effectKey principal name)) ∧
      ∀ id record effects, record.principal = principal →
        (Op.commit id record effects ∈ (w.step serde (.turn n answer)).disk.log ↔ Op.commit id record effects ∈ w.disk.log)
  /-- A result is found by the principal that it was committed for. -/
  owned : ∀ principal id result, lookup serde w.disk.log principal id = .ok (some result) →
    ∃ record effects, Op.commit id record effects ∈ w.disk.log ∧ record.principal = principal

variable {w : World Text}

variable (serde w) in
/-- Between crashes the log only grows. -/
theorem step_log (event : Event) (alive : ∀ keep, event ≠ .crash keep) : ∃ more, (w.step serde event).disk.log = w.disk.log ++ more := by
  cases event with
  | begin => exact ⟨[],(List.append_nil _).symm⟩
  | crash keep => exact absurd rfl (alive keep)
  | cancel n =>
    simp only [World.step]
    split
    · exact ⟨[],(List.append_nil _).symm⟩
    · exact ⟨_,on_log _ _⟩
  | turn n answer =>
    simp only [World.step]
    split
    · exact ⟨[],(List.append_nil _).symm⟩
    · split
      · exact ⟨[],(List.append_nil _).symm⟩
      · exact ⟨_,on_log _ _⟩

variable (serde w) in
theorem run_log (events : List Event) (alive : ∀ event ∈ events, ∀ keep, event ≠ .crash keep) :
    ∃ more, (w.run serde events).disk.log = w.disk.log ++ more := by
  induction events generalizing w with
  | nil => exact ⟨[],(List.append_nil _).symm⟩
  | cons event events ih =>
    obtain ⟨more,first⟩ := step_log serde w event (alive event List.mem_cons_self)
    obtain ⟨after,later⟩ := ih (w.step serde event) (fun event inside => alive event (List.mem_cons_of_mem _ inside))
    exact ⟨more ++ after,by rw [← List.append_assoc,← first]; exact later⟩

/-- What a step writes under the keys of a principal, that principal's call writes. -/
theorem step_writes {n : Nat} {c : Call} (there : w.calls[n]? = some c) {op : Op Text} (inside : op ∈ (w.step serde (.turn n answer)).disk.log) :
    op ∈ w.disk.log ∨ op = .bind c.task.id ⟨c.principal,c.request serde⟩ ∨
      ∃ result effects, op = .commit c.task.id ⟨c.principal,c.request serde,result⟩ effects := by
  simp only [World.step,there] at inside
  split at inside
  · exact .inl inside
  · next turn turned =>
    have inside : op ∈ (turn.on w.disk).log := inside
    rw [on_log] at inside
    rcases List.mem_append.mp inside with old | new
    · exact .inl old
    · right
      have written : turn.write = some op := Option.mem_toList.mp new
      rcases react_does turned with ⟨silent,-⟩ | ⟨binds,-⟩ | ⟨result,effects,commits,-⟩
      · rw [silent] at written
        cases written
      · exact .inl (Option.some.inj (written.symm.trans binds))
      · exact .inr ⟨result,effects,Option.some.inj (written.symm.trans commits)⟩

theorem inv_isolated (faithful : Faithful serde) (inv : Inv serde w) : Isolated serde w where
  declared := by
    intro principal name text found
    obtain ⟨id,record,effects,inside,rfl,effect,member,rfl,rfl⟩ := effect_stored found
    refine ⟨id,⟨record,effects,inside,rfl,stored_of_commit inv.once inside,inv.declared id record effects inside,effect,member,rfl,rfl⟩,?_⟩
    rintro id' ⟨record',effects',inside',owner,-,-,effect',member',named,-⟩
    have same := inv.once.writer inside' inside (mem_writes_effect.mpr ⟨id',record',effects',rfl,owner,effect',member',named,rfl⟩)
      (mem_writes_effect.mpr ⟨id,record,effects,rfl,rfl,effect,member,rfl,rfl⟩)
    cases same
    rfl
  effects := by
    intro id text found
    obtain ⟨record,effects,inside,rfl⟩ := result_stored found
    refine ⟨record,effects,rfl,inv.declared id record effects inside,fun effect member => ?_⟩
    exact inv.once.get_of_writes inside (mem_writes_effect.mpr ⟨id,record,effects,rfl,rfl,effect,member,rfl,rfl⟩)
  kept := by
    intro events alive key text found
    obtain ⟨more,longer⟩ := run_log serde w events alive
    have once := (run_inv faithful inv events).once
    rw [longer] at once ⊢
    exact once.kept found
  others := by
    intro n c answer there principal other
    obtain ⟨more,longer⟩ := step_log serde w (.turn n answer) (by simp)
    have once := (step_inv faithful inv (.turn n answer)).once
    constructor
    · intro name
      cases found : stored serde w.disk.log (effectKey principal name) with
      | some text =>
        rw [longer] at once ⊢
        exact once.kept found
      | none =>
        refine get_eq_none.mpr (fun text written => ?_)
        obtain ⟨op,inside,writes⟩ := mem_entries.mp written
        obtain ⟨id,record,effects,rfl,owner,-⟩ := mem_writes_effect.mp writes
        rcases step_writes there inside with old | same | ⟨result,effects',same⟩
        · exact get_eq_none.mp found text (mem_entries.mpr ⟨_,old,writes⟩)
        · cases same
        · cases same
          exact other owner.symm
    · intro id record effects owner
      constructor
      · intro inside
        rcases step_writes there inside with old | same | ⟨result,effects',same⟩
        · exact old
        · cases same
        · cases same
          exact absurd owner.symm other
      · intro inside
        rw [longer]
        exact List.mem_append_left _ inside
  owned := by
    intro principal id result found
    obtain ⟨text,read,there,reads,rfl,-⟩ := lookup_ok found
    obtain ⟨record,effects,inside,rfl⟩ := result_stored there
    exact ⟨record,effects,inside,(faithful.record_reads record read reads).1.symm⟩

/-- In every state of the ledger its effects belong to the tasks on record, and no principal touches what
another has stored, nor goes on differently for what it is. All keys differ. -/
theorem isolation (faithful : Faithful serde) (events : List Event) :
    Isolated serde (World.empty.run serde events) ∧
      (∀ (c : Call) free answer log log', Alike serde c.principal log log' → react serde c log free answer = react serde c log' free answer) ∧
        Function.Injective Slot.key :=
  ⟨inv_isolated faithful (run_inv faithful inv_empty events),fun _ free _ _ _ alike => react_alike alike free,key_injective⟩

end

theorem isolation_sheets :
    Isolated sheets (World.empty.run sheets (twice (answering (.string "done") [note]))) ∧
      (∀ (c : Call) free answer log log', Alike sheets c.principal log log' → react sheets c log free answer = react sheets c log' free answer) ∧
        Function.Injective Slot.key :=
  isolation faithful_sheets (twice (answering (.string "done") [note]))

end Daf.LedgerIsolation
