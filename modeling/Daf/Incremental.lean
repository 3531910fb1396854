import Mathlib.Data.List.Basic

/-!
Incremental decoding of a stream. A decoder reads a buffer and answers an item,
an error or that it needs more input, and leaves what it did not consume
(`Step`). A reader appends each chunk that arrives to its buffer and decodes
until the decoder asks for more (`drain`, `feed`). When the answers of the
decoder do not change as the buffer grows (`Stable`), the items and the first
error of a stream do not depend on where it was cut (`feed_eq_drain`).
-/
namespace Daf.Incremental
set_option linter.unusedVariables false
universe u v w
variable {Byte : Type u} {Item : Type v} {Error : Type w}

/-- The answer of one call of a decoder, and the buffer that the call leaves. -/
inductive Step (Byte : Type u) (Item : Type v) (Error : Type w) where
  | item (value : Item) (rest : List Byte)
  | error (reason : Error) (rest : List Byte)
  | more (rest : List Byte)

/-- A decoder of a stream; every item it answers consumes some of the buffer. -/
structure Decoder (Byte : Type u) (Item : Type v) (Error : Type w) where
  decode : List Byte → Step Byte Item Error
  consumes : ∀ buffer value rest, decode buffer = .item value rest → rest.length < buffer.length

/-- What a reader got from its input: the items in order, the error that ended
    the reading if there was one, and the buffer that is left. -/
@[ext] structure Outcome (Byte : Type u) (Item : Type v) (Error : Type w) where
  items : List Item
  error : Option Error
  rest : List Byte
deriving DecidableEq

/-- The outcome with an earlier item in front. -/
def Outcome.cons (value : Item) (out : Outcome Byte Item Error) : Outcome Byte Item Error :=
  { out with items := value :: out.items }
/-- The outcome with earlier items in front. -/
def Outcome.prepend (values : List Item) (out : Outcome Byte Item Error) : Outcome Byte Item Error :=
  { out with items := values ++ out.items }

@[simp] theorem prepend_nil (out : Outcome Byte Item Error) : out.prepend [] = out := rfl
@[simp] theorem prepend_cons (value : Item) (values : List Item) (out : Outcome Byte Item Error) :
    out.prepend (value :: values) = (out.prepend values).cons value := rfl

/-- Decode until the decoder asks for more input or fails. -/
def drain (d : Decoder Byte Item Error) (buffer : List Byte) : Outcome Byte Item Error :=
  match answer : d.decode buffer with
  | .item value rest => (drain d rest).cons value
  | .error reason rest => ⟨[],some reason,rest⟩
  | .more rest => ⟨[],none,rest⟩
termination_by buffer.length
decreasing_by exact d.consumes buffer value rest answer

theorem drain_item {d : Decoder Byte Item Error} {buffer rest : List Byte} {value : Item}
    (answer : d.decode buffer = .item value rest) : drain d buffer = (drain d rest).cons value := by
  rw [drain]; split <;> simp_all
theorem drain_error {d : Decoder Byte Item Error} {buffer rest : List Byte} {reason : Error}
    (answer : d.decode buffer = .error reason rest) : drain d buffer = ⟨[],some reason,rest⟩ := by
  rw [drain]; split <;> simp_all
theorem drain_more {d : Decoder Byte Item Error} {buffer rest : List Byte}
    (answer : d.decode buffer = .more rest) : drain d buffer = ⟨[],none,rest⟩ := by
  rw [drain]; split <;> simp_all

/-- Append one chunk after another to the buffer, draining it after each; an
    error ends the reading. -/
def feed (d : Decoder Byte Item Error) (buffer : List Byte) : List (List Byte) → Outcome Byte Item Error
  | [] => ⟨[],none,buffer⟩
  | chunk :: later =>
    let out := drain d (buffer ++ chunk)
    match out.error with
    | some _ => out
    | none => (feed d out.rest later).prepend out.items

/-- The answers of the decoder are final: an item or an error stays when bytes
    arrive behind it, and a call that asked for more leaves a buffer that is
    decoded as the one it was given. -/
structure Stable (d : Decoder Byte Item Error) : Prop where
  item : ∀ buffer value rest tail, d.decode buffer = .item value rest →
    d.decode (buffer ++ tail) = .item value (rest ++ tail)
  error : ∀ buffer reason rest tail, d.decode buffer = .error reason rest →
    d.decode (buffer ++ tail) = .error reason (rest ++ tail)
  more : ∀ buffer rest tail, d.decode buffer = .more rest → d.decode (buffer ++ tail) = d.decode (rest ++ tail)

/-- Two outcomes that agree on the items and on the error. -/
def Agree (left right : Outcome Byte Item Error) : Prop :=
  left.items = right.items ∧ left.error = right.error ∧ (left.error = none → left.rest = right.rest)

/-- Draining the longer buffer continues where draining the shorter one stopped. -/
theorem drain_append {d : Decoder Byte Item Error} (stable : Stable d) (buffer tail : List Byte) :
    (∀ reason, (drain d buffer).error = some reason → (drain d (buffer ++ tail)).items = (drain d buffer).items ∧
      (drain d (buffer ++ tail)).error = some reason) ∧
    ((drain d buffer).error = none →
      drain d (buffer ++ tail) = (drain d ((drain d buffer).rest ++ tail)).prepend (drain d buffer).items) := by
  -- The buffer shrinks with every item, so the induction is on its length.
  induction size : buffer.length using Nat.strongRecOn generalizing buffer with
  | _ n ih =>
    cases answer : d.decode buffer with
    | item value rest =>
      have shorter := d.consumes buffer value rest answer
      have later := ih rest.length (by omega) rest rfl
      rw [drain_item answer,drain_item (stable.item buffer value rest tail answer)]
      constructor
      · intro reason failed
        have same := later.1 reason failed
        exact ⟨by simp [Outcome.cons,same.1],same.2⟩
      · intro fine
        rw [later.2 fine]
        rfl
    | error reason rest =>
      rw [drain_error answer,drain_error (stable.error buffer reason rest tail answer)]
      simp
    | more rest =>
      have same := stable.more buffer rest tail answer
      rw [drain_more answer]
      refine ⟨by simp,fun _ => ?_⟩
      simp only [prepend_nil]
      cases onward : d.decode (rest ++ tail) with
      | item value left => rw [drain_item onward,drain_item (same.trans onward)]
      | error reason left => rw [drain_error onward,drain_error (same.trans onward)]
      | more left => rw [drain_more onward,drain_more (same.trans onward)]

/-- A reader that got no error holds a buffer in which nothing can be decoded. -/
theorem drain_rest {d : Decoder Byte Item Error} (stable : Stable d) {buffer : List Byte}
    (fine : (drain d buffer).error = none) : d.decode (drain d buffer).rest = .more (drain d buffer).rest := by
  induction size : buffer.length using Nat.strongRecOn generalizing buffer with
  | _ n ih =>
    cases answer : d.decode buffer with
    | item value rest =>
      have shorter := d.consumes buffer value rest answer
      rw [drain_item answer] at fine ⊢
      exact ih rest.length (by omega) fine rfl
    | error reason rest => rw [drain_error answer] at fine; cases fine
    | more rest =>
      rw [drain_more answer]
      have same := stable.more buffer rest [] answer
      simp only [List.append_nil] at same
      exact same.symm.trans answer

/-- However the stream is cut, the reader gets the items and the error of the
    whole stream, and the same buffer when there is no error. -/
theorem feed_eq_drain {d : Decoder Byte Item Error} (stable : Stable d) (chunks : List (List Byte))
    (buffer : List Byte) (drained : d.decode buffer = .more buffer) :
    Agree (feed d buffer chunks) (drain d (buffer ++ chunks.flatten)) := by
  induction chunks generalizing buffer with
  | nil => simp [feed,Agree,drain_more drained]
  | cons chunk later ih =>
    obtain ⟨failing,fine⟩ := drain_append stable (buffer ++ chunk) later.flatten
    rw [List.flatten_cons,← List.append_assoc]
    cases failed : (drain d (buffer ++ chunk)).error with
    | some reason =>
      have same := failing reason failed
      simp only [feed,failed]
      exact ⟨same.1.symm,failed.trans same.2.symm,by simp [failed]⟩
    | none =>
      have rest := ih (drain d (buffer ++ chunk)).rest (drain_rest stable failed)
      rw [fine failed]
      simp only [feed,failed]
      exact ⟨by simp [Outcome.prepend,rest.1],rest.2.1,rest.2.2⟩

end Daf.Incremental
