import Daf.Runs
import Mathlib.Data.List.Sort
import Mathlib.Data.List.Nodup

/-!
Pipelines of log sinks: buffers and fan-outs over terminal sinks that accept or refuse each call. A call
is taken whole, and comes with the answers that the terminal sinks give during it.
-/
namespace Daf.LogSinks
open Daf.Runs
open scoped List

inductive LoggerError where
  | Io (message : String)
  | Serde (message : String)
  | Storage (message : String)
  | WriterClosed
  | Query (message : String)
  | Retention (message : String)
  | Other (message : String)
deriving DecidableEq,Repr

abbrev Outcome := Except LoggerError Unit

/-- A pipeline. A fan-out is given by the sinks that are added to it, one after another. -/
inductive Sink where
  | terminal
  | buffered (capacity : Nat) (downstream : Sink)
  | fan_out
  | add_sink (sinks sink : Sink)
deriving DecidableEq,Repr

structure Terminal (ε : Type) where
  delivered : List ε
  flushes : Nat

structure Buffered (ε σ : Type) where
  buffer : List ε
  /-- The entries whose `process` has returned `Ok`. -/
  accepted : List ε
  downstream : σ

def State (ε : Type) : Sink → Type
  | .terminal => Terminal ε
  | .buffered _ d => Buffered ε (State ε d)
  | .fan_out => Unit
  | .add_sink a b => State ε a × State ε b

/-- What a terminal sink answers during one call. -/
structure Answer (ε : Type) where
  process : ε → Outcome
  flush : Outcome

def Answers (ε : Type) : Sink → Type
  | .terminal => Answer ε
  | .buffered _ d => Answers ε d
  | .fan_out => Unit
  | .add_sink a b => Answers ε a × Answers ε b

section
variable {ε σ : Type}

def State.new (ε : Type) : (sink : Sink) → State ε sink
  | .terminal => (⟨[],0⟩ : Terminal ε)
  | .buffered _ d => (⟨[],[],State.new ε d⟩ : Buffered ε (State ε d))
  | .fan_out => ()
  | .add_sink a b => (State.new ε a,State.new ε b)

/-- Entries are handed on until the first error; the rest of the batch is gone. -/
def drain (process : σ → ε → Outcome × σ) : σ → List ε → Outcome × σ
  | s,[] => (.ok (),s)
  | s,entry :: entries =>
    match process s entry with
    | (.ok (),s) => drain process s entries
    | (.error e,s) => (.error e,s)

/-- The first error of two outcomes. -/
def firstError : Outcome → Outcome → Outcome
  | .error e,_ => .error e
  | .ok (),outcome => outcome

def process : (sink : Sink) → Answers ε sink → State ε sink → ε → Outcome × State ε sink
  | .terminal,(answer : Answer ε),(s : Terminal ε),entry =>
    match answer.process entry with
    | .ok () => (.ok (),({ s with delivered := s.delivered ++ [entry] } : Terminal ε))
    | .error e => (.error e,s)
  | .buffered capacity d,answers,(s : Buffered ε (State ε d)),entry =>
    let buffer := s.buffer ++ [entry]
    if capacity ≤ buffer.length then
      match drain (process d answers) s.downstream buffer with
      | (.ok (),downstream) => (.ok (),(⟨[],s.accepted ++ [entry],downstream⟩ : Buffered ε (State ε d)))
      | (.error e,downstream) => (.error e,(⟨[],s.accepted,downstream⟩ : Buffered ε (State ε d)))
    else (.ok (),(⟨buffer,s.accepted ++ [entry],s.downstream⟩ : Buffered ε (State ε d)))
  | .fan_out,_,_,_ => (.ok (),())
  | .add_sink a b,answers,s,entry =>
    let first := process a answers.1 s.1 entry
    let second := process b answers.2 s.2 entry
    (firstError first.1 second.1,(first.2,second.2))

def flush : (sink : Sink) → Answers ε sink → State ε sink → Outcome × State ε sink
  | .terminal,(answer : Answer ε),(s : Terminal ε) => (answer.flush,({ s with flushes := s.flushes + 1 } : Terminal ε))
  | .buffered _ d,answers,(s : Buffered ε (State ε d)) =>
    match drain (process d answers) s.downstream s.buffer with
    | (.error e,downstream) => (.error e,({ s with buffer := [],downstream } : Buffered ε (State ε d)))
    | (.ok (),downstream) =>
      let flushed := flush d answers downstream
      (flushed.1,({ s with buffer := [],downstream := flushed.2 } : Buffered ε (State ε d)))
  | .fan_out,_,_ => (.ok (),())
  | .add_sink a b,answers,s =>
    match flush a answers.1 s.1 with
    | (.error e,first) => (.error e,(first,s.2))
    | (.ok (),first) =>
      let second := flush b answers.2 s.2
      (second.1,(first,second.2))

end

/-! ### Calls one after another -/

/-- An entry, with the number of the call that brings it. -/
structure Logged (α : Type) where
  serial : Nat
  entry : α
deriving DecidableEq,Repr

section
variable {α : Type} {sink : Sink}

structure World (α : Type) (sink : Sink) where
  state : State (Logged α) sink
  serial : Nat

inductive Event (α : Type) (sink : Sink) where
  | process (entry : α) (answers : Answers (Logged α) sink)
  | flush (answers : Answers (Logged α) sink)

def World.new (α : Type) (sink : Sink) : World α sink := ⟨State.new (Logged α) sink,0⟩

def World.step (w : World α sink) : Event α sink → World α sink
  | .process entry answers => ⟨(LogSinks.process sink answers w.state ⟨w.serial,entry⟩).2,w.serial + 1⟩
  | .flush answers => { w with state := (LogSinks.flush sink answers w.state).2 }

def run (events : List (Event α sink)) : World α sink := Runs.run World.step (World.new α sink) events

/-- A flush at this point returns `Ok`. -/
def Flushes (w : World α sink) (answers : Answers (Logged α) sink) : Prop := (LogSinks.flush sink answers w.state).1 = .ok ()

end

/-! ### What the pipeline promises -/

section
variable {ε : Type}

/-- Every terminal sink of the pipeline has been delivered such entries. -/
def EachTerminal (P : List ε → Prop) : (sink : Sink) → State ε sink → Prop
  | .terminal,(s : Terminal ε) => P s.delivered
  | .buffered _ d,(s : Buffered ε (State ε d)) => EachTerminal P d s.downstream
  | .fan_out,_ => True
  | .add_sink a b,s => EachTerminal P a s.1 ∧ EachTerminal P b s.2

/-- What each buffer had accepted by `s` has by `t` been delivered to every terminal sink below it, in the
order of acceptance. -/
def Received : (sink : Sink) → State ε sink → State ε sink → Prop
  | .terminal,_,_ => True
  | .buffered _ d,(s : Buffered ε (State ε d)),(t : Buffered ε (State ε d)) =>
    EachTerminal (fun delivered => s.accepted <+ delivered) d t.downstream ∧ Received d s.downstream t.downstream
  | .fan_out,_,_ => True
  | .add_sink a b,s,t => Received a s.1 t.1 ∧ Received b s.2 t.2

/-- Every branch of every fan-out is flushed, whatever the flush of another branch returns. -/
def FlushesAll : (sink : Sink) → Answers ε sink → State ε sink → Prop
  | .terminal,_,_ => True
  | .buffered _ d,answers,(s : Buffered ε (State ε d)) => FlushesAll d answers (drain (process d answers) s.downstream s.buffer).2
  | .fan_out,_,_ => True
  | .add_sink a b,answers,s =>
    (flush (.add_sink a b) answers s).2 = ((flush a answers.1 s.1).2,(flush b answers.2 s.2).2) ∧
      FlushesAll a answers.1 s.1 ∧ FlushesAll b answers.2 s.2

/-- No terminal sink refuses an entry of this kind. -/
def Accepts (P : ε → Prop) : (sink : Sink) → Answers ε sink → Prop
  | .terminal,(answer : Answer ε) => ∀ entry, P entry → answer.process entry = .ok ()
  | .buffered _ d,answers => Accepts P d answers
  | .fan_out,_ => True
  | .add_sink a b,answers => Accepts P a answers.1 ∧ Accepts P b answers.2

/-- No terminal sink fails to flush. -/
def FlushOk : (sink : Sink) → Answers ε sink → Prop
  | .terminal,(answer : Answer ε) => answer.flush = .ok ()
  | .buffered _ d,answers => FlushOk d answers
  | .fan_out,_ => True
  | .add_sink a b,answers => FlushOk a answers.1 ∧ FlushOk b answers.2

/-- A terminal sink fails to flush only where no other branch of a fan-out comes after it. -/
def LastFails : (sink : Sink) → Answers ε sink → Prop
  | .terminal,_ => True
  | .buffered _ d,answers => LastFails d answers
  | .fan_out,_ => True
  | .add_sink a b,answers => FlushOk a answers.1 ∧ LastFails b answers.2

end

section
variable {α : Type} {sink : Sink}

/-- An entry is refused only in the call that brings it, and a flush fails only at a last branch. -/
def Fair (w : World α sink) : Event α sink → Prop
  | .process _ answers => Accepts (fun x => x.serial ≠ w.serial) sink answers
  | .flush answers => Accepts (fun _ => True) sink answers ∧ LastFails sink answers

end

/-! ### A batch is handed on -/

section
variable {ε σ : Type} {process : σ → ε → Outcome × σ}

theorem drain_taken {s t : σ} {entry : ε} (taken : process s entry = (.ok (),t)) (entries : List ε) :
    drain process s (entry :: entries) = drain process t entries := by
  simp [drain,taken]

theorem drain_refused {s t : σ} {entry : ε} {e : LoggerError} (refused : process s entry = (.error e,t)) (entries : List ε) :
    drain process s (entry :: entries) = (.error e,t) := by
  simp [drain,refused]

theorem drain_append (s : σ) (entries more : List ε) (ok : (drain process s entries).1 = .ok ()) :
    drain process s (entries ++ more) = drain process (drain process s entries).2 more := by
  induction entries generalizing s with
  | nil => rfl
  | cons entry entries ih =>
    rcases taken : process s entry with ⟨e | ⟨⟩,t⟩
    · rw [drain_refused taken] at ok
      cases ok
    · rw [drain_taken taken] at ok
      rw [List.cons_append,drain_taken taken,drain_taken taken]
      exact ih t ok

theorem drain_one (s : σ) (entry : ε) : drain process s [entry] = process s entry := by
  rcases taken : process s entry with ⟨e | ⟨⟩,t⟩
  · exact drain_refused taken []
  · exact drain_taken taken []

/-- What each entry of a batch does to the state, the batch does. -/
theorem drain_keeps {I : σ → Prop} {P : ε → Prop} (one : ∀ s entry, I s → P entry → I (process s entry).2) {s : σ} {entries : List ε}
    (before : I s) (all : ∀ entry ∈ entries, P entry) : I (drain process s entries).2 := by
  induction entries generalizing s with
  | nil => exact before
  | cons entry entries ih =>
    have next := one s entry before (all entry (by simp))
    rcases taken : process s entry with ⟨e | ⟨⟩,t⟩
    · rw [taken] at next
      rwa [drain_refused taken]
    · rw [taken] at next
      rw [drain_taken taken]
      exact ih next (fun x inside => all x (List.mem_cons_of_mem _ inside))

/-- A batch of entries that are all taken. -/
theorem drain_ok {I : σ → Prop} {P : ε → Prop} {R : σ → σ → Prop} {H : σ → ε → Prop} (refl : ∀ s, R s s) (trans : ∀ s t u, R s t → R t u → R s u)
    (mono : ∀ s t x, R s t → H s x → H t x)
    (one : ∀ s entry, I s → P entry → (process s entry).1 = .ok () ∧ I (process s entry).2 ∧ R s (process s entry).2 ∧ H (process s entry).2 entry)
    {s : σ} {entries : List ε} (before : I s) (all : ∀ entry ∈ entries, P entry) :
    (drain process s entries).1 = .ok () ∧ I (drain process s entries).2 ∧ R s (drain process s entries).2 ∧
      ∀ entry ∈ entries, H (drain process s entries).2 entry := by
  induction entries generalizing s with
  | nil => exact ⟨rfl,before,refl s,by simp⟩
  | cons entry entries ih =>
    have next := one s entry before (all entry (by simp))
    rcases taken : process s entry with ⟨e | ⟨⟩,t⟩
    · rw [taken] at next
      cases next.1
    · rw [taken] at next
      rw [drain_taken taken]
      obtain ⟨-,here,first,has⟩ := next
      obtain ⟨ok,after,rest,others⟩ := ih here (fun x inside => all x (List.mem_cons_of_mem _ inside))
      refine ⟨ok,after,trans _ _ _ first rest,fun x inside => ?_⟩
      rcases List.mem_cons.mp inside with rfl | more
      · exact mono _ _ _ rest has
      · exact others x more

end

/-! ### Nothing that is accepted is lost -/

section
variable {ε : Type}

/-- Every entry that waits in a buffer is of this kind. -/
def InBuffers (P : ε → Prop) : (sink : Sink) → State ε sink → Prop
  | .terminal,_ => True
  | .buffered _ d,(s : Buffered ε (State ε d)) => (∀ entry ∈ s.buffer, P entry) ∧ InBuffers P d s.downstream
  | .fan_out,_ => True
  | .add_sink a b,s => InBuffers P a s.1 ∧ InBuffers P b s.2

/-- The entry is delivered to every terminal sink, or on its way there. -/
def Has (entry : ε) : (sink : Sink) → State ε sink → Prop
  | .terminal,(s : Terminal ε) => entry ∈ s.delivered
  | .buffered _ d,(s : Buffered ε (State ε d)) => entry ∈ s.buffer ∨ Has entry d s.downstream
  | .fan_out,_ => True
  | .add_sink a b,s => Has entry a s.1 ∧ Has entry b s.2

/-- What a buffer has accepted waits in it or is below it. -/
def Kept : (sink : Sink) → State ε sink → Prop
  | .terminal,_ => True
  | .buffered _ d,(s : Buffered ε (State ε d)) => (∀ entry ∈ s.accepted, entry ∈ s.buffer ∨ Has entry d s.downstream) ∧ Kept d s.downstream
  | .fan_out,_ => True
  | .add_sink a b,s => Kept a s.1 ∧ Kept b s.2

def Delivered (entry : ε) : (sink : Sink) → State ε sink → Prop := EachTerminal (entry ∈ ·)

/-- A step that loses nothing. -/
structure Keeps (sink : Sink) (s t : State ε sink) : Prop where
  has : ∀ entry, Has entry sink s → Has entry sink t
  kept : Kept sink s → Kept sink t

theorem Keeps.refl {sink : Sink} (s : State ε sink) : Keeps sink s s := ⟨fun _ => id,id⟩

theorem Keeps.trans {sink : Sink} {s t u : State ε sink} (first : Keeps sink s t) (second : Keeps sink t u) : Keeps sink s u :=
  ⟨fun x has => second.has x (first.has x has),fun kept => second.kept (first.kept kept)⟩

theorem Keeps.both {a b : Sink} {s t : State ε a} {s' t' : State ε b} (first : Keeps a s t) (second : Keeps b s' t') :
    Keeps (.add_sink a b) ((s,s') : State ε a × State ε b) ((t,t') : State ε a × State ε b) :=
  ⟨fun x has => ⟨first.has x has.1,second.has x has.2⟩,fun kept => ⟨first.kept kept.1,second.kept kept.2⟩⟩

variable {P : ε → Prop}

theorem process_waits {capacity : Nat} (d : Sink) (answers : Answers ε d) (s : Buffered ε (State ε d)) {entry : ε}
    (waits : ¬ capacity ≤ (s.buffer ++ [entry]).length) :
    process (.buffered capacity d) answers s entry = (.ok (),(⟨s.buffer ++ [entry],s.accepted ++ [entry],s.downstream⟩ : Buffered ε (State ε d))) :=
  if_neg waits

theorem process_full {capacity : Nat} (d : Sink) (answers : Answers ε d) (s : Buffered ε (State ε d)) {entry : ε}
    (full : capacity ≤ (s.buffer ++ [entry]).length) {outcome : Outcome} {t : State ε d}
    (drained : drain (process d answers) s.downstream (s.buffer ++ [entry]) = (outcome,t)) :
    process (.buffered capacity d) answers s entry =
      (outcome,(⟨[],if outcome = .ok () then s.accepted ++ [entry] else s.accepted,t⟩ : Buffered ε (State ε d))) := by
  refine (if_pos full).trans ?_
  rw [drained]
  rcases outcome with e | ⟨⟩
  · simp only [reduceCtorEq,if_false]
    rfl
  · simp only [if_true]
    rfl

theorem process_inBuffers (sink : Sink) (answers : Answers ε sink) (s : State ε sink) (entry : ε) (before : InBuffers P sink s) (kind : P entry) :
    InBuffers P sink (process sink answers s entry).2 := by
  induction sink generalizing entry with
  | terminal => trivial
  | buffered capacity d ih =>
    have all : ∀ x ∈ Buffered.buffer s ++ [entry], P x := by
      intro x inside
      rcases List.mem_append.mp inside with old | new
      · exact before.1 x old
      · rw [List.mem_singleton.mp new]
        exact kind
    by_cases full : capacity ≤ (Buffered.buffer s ++ [entry]).length
    · have below := drain_keeps (I := InBuffers P d) (P := P) (fun t x here kind => ih answers t x here kind) before.2 all
      rw [process_full d answers s full rfl]
      exact ⟨by simp,below⟩
    · rw [process_waits d answers s full]
      exact ⟨all,before.2⟩
  | fan_out => trivial
  | add_sink a b iha ihb => exact ⟨iha answers.1 s.1 entry before.1 kind,ihb answers.2 s.2 entry before.2 kind⟩

theorem firstError_ok {first second : Outcome} : firstError first second = .ok () ↔ first = .ok () ∧ second = .ok () := by
  rcases first with e | ⟨⟩ <;> simp [firstError]

/-- All buffered entries are taken below, so that only the new one can be refused. -/
theorem buffer_drains (d : Sink) (answers : Answers ε d) (s : Buffered ε (State ε d)) (entries : ∀ entry ∈ s.buffer, P entry)
    (below : InBuffers P d s.downstream)
    (one : ∀ s entry, InBuffers P d s → P entry →
      (process d answers s entry).1 = .ok () ∧ Keeps d s (process d answers s entry).2 ∧ Has entry d (process d answers s entry).2) :
    (drain (process d answers) s.downstream s.buffer).1 = .ok () ∧ InBuffers P d (drain (process d answers) s.downstream s.buffer).2 ∧
      Keeps d s.downstream (drain (process d answers) s.downstream s.buffer).2 ∧
        ∀ entry ∈ s.buffer, Has entry d (drain (process d answers) s.downstream s.buffer).2 := by
  refine drain_ok (I := InBuffers P d) (P := P) (R := Keeps d) (H := fun s entry => Has entry d s) Keeps.refl (fun _ _ _ => Keeps.trans)
    (fun _ _ x keeps => keeps.has x) (fun t entry here kind => ?_) below entries
  obtain ⟨ok,keeps,has⟩ := one t entry here kind
  exact ⟨ok,process_inBuffers d answers t entry here kind,keeps,has⟩

/-- Where no waiting entry is refused a call loses nothing that was accepted, and an entry that it returns
`Ok` for is on its way. -/
theorem process_spec (sink : Sink) (answers : Answers ε sink) (accepts : Accepts P sink answers) (s : State ε sink) (entry : ε)
    (before : InBuffers P sink s) :
    Keeps sink s (process sink answers s entry).2 ∧
      ((process sink answers s entry).1 = .ok () → Has entry sink (process sink answers s entry).2) ∧
        (P entry → (process sink answers s entry).1 = .ok ()) := by
  induction sink generalizing entry with
  | terminal =>
    have kind : P entry → Answer.process answers entry = .ok () := accepts entry
    simp only [process]
    rcases answer : Answer.process answers entry with e | ⟨⟩
    · rw [answer] at kind
      exact ⟨.refl s,fun ok => (by cases ok),fun own => (by cases kind own)⟩
    · have grows : ∀ x, x ∈ Terminal.delivered s → x ∈ Terminal.delivered s ++ [entry] := fun x => List.mem_append_left _
      exact ⟨⟨grows,id⟩,fun _ => List.mem_append_right _ (List.mem_singleton_self entry),fun _ => rfl⟩
  | buffered capacity d ih =>
    by_cases full : capacity ≤ (Buffered.buffer s ++ [entry]).length
    · obtain ⟨ok,inside,keeps,has⟩ := buffer_drains (P := P) d answers s before.1 before.2 (fun t x here kind => by
        obtain ⟨keeps,has,ok⟩ := ih answers accepts t x here
        exact ⟨ok kind,keeps,has (ok kind)⟩)
      obtain ⟨last,reaches,takes⟩ := ih answers accepts (drain (process d answers) (Buffered.downstream s) (Buffered.buffer s)).2 entry inside
      have whole := drain_append (Buffered.downstream s) (Buffered.buffer s) [entry] ok
      rw [drain_one] at whole
      rw [process_full d answers s full whole]
      have moved := keeps.trans last
      refine ⟨⟨fun x has_x => ?_,fun kept => ⟨fun x isAccepted => ?_,moved.kept kept.2⟩⟩,fun taken => .inr (reaches taken),takes⟩
      · rcases has_x with waits | under
        · exact .inr (last.has x (has x waits))
        · exact .inr (moved.has x under)
      · have old : x ∈ Buffered.accepted s → x ∈ ([] : List ε) ∨ Has x d (process d answers (drain (process d answers) (Buffered.downstream s)
            (Buffered.buffer s)).2 entry).2 := by
          intro inside
          rcases kept.1 x inside with waits | under
          · exact .inr (last.has x (has x waits))
          · exact .inr (moved.has x under)
        dsimp only at isAccepted
        split at isAccepted
        next taken =>
          rcases List.mem_append.mp isAccepted with before | new
          · exact old before
          · rw [List.mem_singleton.mp new]
            exact .inr (reaches taken)
        next => exact old isAccepted
    · rw [process_waits d answers s full]
      have grows : ∀ x, x ∈ Buffered.buffer s → x ∈ Buffered.buffer s ++ [entry] := fun x => List.mem_append_left _
      have new : entry ∈ Buffered.buffer s ++ [entry] := List.mem_append_right _ (List.mem_singleton_self entry)
      refine ⟨⟨fun x has => has.imp (grows x) id,fun kept => ⟨fun x isAccepted => ?_,kept.2⟩⟩,fun _ => .inl new,fun _ => rfl⟩
      rcases List.mem_append.mp isAccepted with before | last
      · exact (kept.1 x before).imp (grows x) id
      · rw [List.mem_singleton.mp last]
        exact .inl new
  | fan_out => exact ⟨.refl s,fun _ => trivial,fun _ => rfl⟩
  | add_sink a b iha ihb =>
    obtain ⟨first,firstHas,firstOk⟩ := iha answers.1 accepts.1 s.1 entry before.1
    obtain ⟨second,secondHas,secondOk⟩ := ihb answers.2 accepts.2 s.2 entry before.2
    refine ⟨first.both second,fun ok => ?_,fun kind => ?_⟩
    · obtain ⟨okFirst,okSecond⟩ := firstError_ok.mp ok
      exact ⟨firstHas okFirst,secondHas okSecond⟩
    · exact firstError_ok.mpr ⟨firstOk kind,secondOk kind⟩

/-! ### A flush empties the buffers -/

theorem InBuffers.mono {Q : ε → Prop} (weaker : ∀ entry, P entry → Q entry) (sink : Sink) (s : State ε sink) (before : InBuffers P sink s) :
    InBuffers Q sink s := by
  induction sink with
  | terminal => trivial
  | buffered capacity d ih => exact ⟨fun x waits => weaker x (before.1 x waits),ih _ before.2⟩
  | fan_out => trivial
  | add_sink a b iha ihb => exact ⟨iha _ before.1,ihb _ before.2⟩

theorem inBuffers_any (sink : Sink) (s : State ε sink) : InBuffers (fun _ => True) sink s := by
  induction sink with
  | terminal => trivial
  | buffered capacity d ih => exact ⟨fun _ _ => trivial,ih _⟩
  | fan_out => trivial
  | add_sink a b iha ihb => exact ⟨iha _,ihb _⟩

theorem flush_both {a b : Sink} (answers : Answers ε (.add_sink a b)) (s : State ε (.add_sink a b)) :
    flush (.add_sink a b) answers s =
      match flush a answers.1 s.1 with
      | (.error e,first) => (.error e,(first,s.2))
      | (.ok (),first) => ((flush b answers.2 s.2).1,(first,(flush b answers.2 s.2).2)) := rfl

theorem flush_inBuffers (sink : Sink) (answers : Answers ε sink) (s : State ε sink) (before : InBuffers P sink s) :
    InBuffers P sink (flush sink answers s).2 := by
  induction sink with
  | terminal => trivial
  | buffered capacity d ih =>
    have below := drain_keeps (I := InBuffers P d) (P := P) (fun t x here kind => process_inBuffers d answers t x here kind) before.2 before.1
    simp only [flush]
    rcases drained : drain (process d answers) (Buffered.downstream s) (Buffered.buffer s) with ⟨e | ⟨⟩,t⟩
    · rw [drained] at below
      exact ⟨by simp,below⟩
    · rw [drained] at below
      exact ⟨by simp,ih answers t below⟩
  | fan_out => trivial
  | add_sink a b iha ihb =>
    have first := iha answers.1 s.1 before.1
    rw [flush_both]
    rcases flushed : flush a answers.1 s.1 with ⟨e | ⟨⟩,t⟩
    · rw [flushed] at first
      exact ⟨first,before.2⟩
    · rw [flushed] at first
      exact ⟨first,ihb answers.2 s.2 before.2⟩

/-- Every entry is taken, so the buffer drains. -/
theorem drains {d : Sink} {answers : Answers ε d} (accepts : Accepts (fun _ => True) d answers) (s : Buffered ε (State ε d)) :
    (drain (process d answers) s.downstream s.buffer).1 = .ok () ∧ Keeps d s.downstream (drain (process d answers) s.downstream s.buffer).2 ∧
      ∀ entry ∈ s.buffer, Has entry d (drain (process d answers) s.downstream s.buffer).2 := by
  obtain ⟨ok,-,keeps,has⟩ := buffer_drains (P := fun _ => True) d answers s (fun _ _ => trivial) (inBuffers_any d _) (fun t x here _ => by
    obtain ⟨keeps,has,ok⟩ := process_spec d answers accepts t x here
    exact ⟨ok trivial,keeps,has (ok trivial)⟩)
  exact ⟨ok,keeps,has⟩

theorem flush_buffered {capacity : Nat} (d : Sink) (answers : Answers ε d) (s : Buffered ε (State ε d))
    (ok : (drain (process d answers) s.downstream s.buffer).1 = .ok ()) :
    flush (.buffered capacity d) answers s = ((flush d answers (drain (process d answers) s.downstream s.buffer).2).1,
      ({ s with buffer := [],downstream := (flush d answers (drain (process d answers) s.downstream s.buffer).2).2 } : Buffered ε (State ε d))) := by
  simp only [flush]
  rcases drained : drain (process d answers) s.downstream s.buffer with ⟨e | ⟨⟩,t⟩
  · rw [drained] at ok
    cases ok
  · rfl

theorem FlushOk.lastFails {sink : Sink} {answers : Answers ε sink} (ok : FlushOk sink answers) : LastFails sink answers := by
  induction sink with
  | terminal => trivial
  | buffered capacity d ih => exact ih ok
  | fan_out => trivial
  | add_sink a b iha ihb => exact ⟨ok.1,ihb ok.2⟩

theorem flush_spec (sink : Sink) (answers : Answers ε sink) (accepts : Accepts (fun _ => True) sink answers) (s : State ε sink) :
    Keeps sink s (flush sink answers s).2 ∧ ((flush sink answers s).1 = .ok () → InBuffers (fun _ => False) sink (flush sink answers s).2) ∧
      (FlushOk sink answers → (flush sink answers s).1 = .ok ()) ∧ (LastFails sink answers → FlushesAll sink answers s) := by
  induction sink with
  | terminal => exact ⟨⟨fun _ => id,id⟩,fun _ => trivial,id,fun _ => trivial⟩
  | buffered capacity d ih =>
    obtain ⟨ok,moved,has⟩ := drains (d := d) accepts s
    obtain ⟨keeps,empties,oks,all⟩ := ih answers accepts (drain (process d answers) (Buffered.downstream s) (Buffered.buffer s)).2
    rw [flush_buffered d answers s ok]
    have whole := moved.trans keeps
    have below : ∀ x, x ∈ Buffered.buffer s ∨ Has x d (Buffered.downstream s) →
        Has x d (flush d answers (drain (process d answers) (Buffered.downstream s) (Buffered.buffer s)).2).2 := by
      rintro x (waits | under)
      · exact keeps.has x (has x waits)
      · exact whole.has x under
    refine ⟨⟨fun x before => .inr (below x before),?_⟩,fun flushed => ⟨by simp,empties flushed⟩,oks,all⟩
    exact fun kept => ⟨fun x isAccepted => .inr (below x (kept.1 x isAccepted)),whole.kept kept.2⟩
  | fan_out => exact ⟨.refl s,fun _ => trivial,fun _ => rfl,fun _ => trivial⟩
  | add_sink a b iha ihb =>
    obtain ⟨keeps,empties,oks,all⟩ := iha answers.1 accepts.1 s.1
    obtain ⟨keeps',empties',oks',all'⟩ := ihb answers.2 accepts.2 s.2
    simp only [flush_both,FlushesAll]
    rcases flushed : flush a answers.1 s.1 with ⟨e | ⟨⟩,t⟩
    · rw [flushed] at keeps oks
      refine ⟨keeps.both (.refl s.2),fun ok => (by cases ok),fun ok => (by cases oks ok.1),fun last => (by cases oks last.1)⟩
    · rw [flushed] at keeps empties
      refine ⟨keeps.both keeps',fun ok => ⟨empties rfl,empties' ok⟩,fun ok => oks' ok.2,fun last => ⟨rfl,?_,all' last.2⟩⟩
      exact all last.1.lastFails

end

/-! ### Entries arrive in order -/

section
variable {α : Type}

def Rising (entries : List (Logged α)) : Prop := entries.Pairwise (fun a b => a.serial < b.serial)

/-- Entries are in the order of their calls in each buffer and each terminal sink, and so on the way from
the one to the other; then come these. -/
def Ordered : (sink : Sink) → State (Logged α) sink → List (Logged α) → Prop
  | .terminal,(s : Terminal (Logged α)),queue => Rising (s.delivered ++ queue)
  | .buffered _ d,(s : Buffered (Logged α) (State (Logged α) d)),queue => Rising (s.accepted ++ queue) ∧ Ordered d s.downstream (s.buffer ++ queue)
  | .fan_out,_,_ => True
  | .add_sink a b,s,queue => Ordered a s.1 queue ∧ Ordered b s.2 queue

theorem Ordered.fewer {sink : Sink} {s : State (Logged α) sink} {queue fewer : List (Logged α)} (sub : fewer <+ queue) (ordered : Ordered sink s queue) :
    Ordered sink s fewer := by
  induction sink generalizing queue fewer with
  | terminal => exact ordered.sublist (sub.append_left _)
  | buffered capacity d ih => exact ⟨ordered.1.sublist (sub.append_left _),ih (sub.append_left _) ordered.2⟩
  | fan_out => trivial
  | add_sink a b iha ihb => exact ⟨iha sub ordered.1,ihb sub ordered.2⟩

theorem drain_ordered {d : Sink} {answers : Answers (Logged α) d}
    (one : ∀ s entry queue, Ordered d s (entry :: queue) → Ordered d (process d answers s entry).2 queue) {s : State (Logged α) d}
    {entries queue : List (Logged α)} (ordered : Ordered d s (entries ++ queue)) : Ordered d (drain (process d answers) s entries).2 queue := by
  induction entries generalizing s with
  | nil => exact ordered
  | cons entry entries ih =>
    have next := one s entry (entries ++ queue) ordered
    rcases taken : process d answers s entry with ⟨e | ⟨⟩,t⟩
    · rw [taken] at next
      rw [drain_refused taken]
      exact next.fewer (List.sublist_append_right entries queue)
    · rw [taken] at next
      rw [drain_taken taken]
      exact ih next

theorem process_ordered (sink : Sink) (answers : Answers (Logged α) sink) (s : State (Logged α) sink) (entry : Logged α) (queue : List (Logged α))
    (ordered : Ordered sink s (entry :: queue)) : Ordered sink (process sink answers s entry).2 queue := by
  induction sink generalizing entry queue with
  | terminal =>
    simp only [process]
    rcases Answer.process answers entry with e | ⟨⟩
    · exact ordered.fewer (List.sublist_cons_self entry queue)
    · show Rising (Terminal.delivered s ++ [entry] ++ queue)
      rw [List.append_assoc]
      exact ordered
  | buffered capacity d ih =>
    obtain ⟨accepts,below⟩ := ordered
    have joined : Ordered d (Buffered.downstream s) (Buffered.buffer s ++ [entry] ++ queue) := by
      rw [List.append_assoc]
      exact below
    have taken : Rising (Buffered.accepted s ++ [entry] ++ queue) := by
      rw [List.append_assoc]
      exact accepts
    by_cases full : capacity ≤ (Buffered.buffer s ++ [entry]).length
    · have drained := drain_ordered (fun t x queue => ih answers t x queue) joined
      rw [process_full d answers s full rfl]
      refine ⟨?_,drained⟩
      dsimp only
      split
      · exact taken
      · exact accepts.sublist ((List.sublist_cons_self entry queue).append_left _)
    · rw [process_waits d answers s full]
      exact ⟨taken,joined⟩
  | fan_out => trivial
  | add_sink a b iha ihb => exact ⟨iha answers.1 s.1 entry queue ordered.1,ihb answers.2 s.2 entry queue ordered.2⟩

theorem flush_ordered (sink : Sink) (answers : Answers (Logged α) sink) (s : State (Logged α) sink) (queue : List (Logged α))
    (ordered : Ordered sink s queue) : Ordered sink (flush sink answers s).2 queue := by
  induction sink with
  | terminal => exact ordered
  | buffered capacity d ih =>
    have below := drain_ordered (fun t x queue => process_ordered d answers t x queue) ordered.2
    simp only [flush]
    rcases drained : drain (process d answers) (Buffered.downstream s) (Buffered.buffer s) with ⟨e | ⟨⟩,t⟩
    · rw [drained] at below
      exact ⟨ordered.1,below⟩
    · rw [drained] at below
      exact ⟨ordered.1,ih answers t below⟩
  | fan_out => trivial
  | add_sink a b iha ihb =>
    have first := iha answers.1 s.1 ordered.1
    rw [flush_both]
    rcases flushed : flush a answers.1 s.1 with ⟨e | ⟨⟩,t⟩
    · rw [flushed] at first
      exact ⟨first,ordered.2⟩
    · rw [flushed] at first
      exact ⟨first,ihb answers.2 s.2 ordered.2⟩

end

/-! ### What is delivered stays delivered -/

section
variable {ε : Type}

/-- Each terminal sink has been delivered at `t` what it had at `s`, and then more. -/
def Grows : (sink : Sink) → State ε sink → State ε sink → Prop
  | .terminal,(s : Terminal ε),(t : Terminal ε) => s.delivered <+: t.delivered
  | .buffered _ d,(s : Buffered ε (State ε d)),(t : Buffered ε (State ε d)) => Grows d s.downstream t.downstream
  | .fan_out,_,_ => True
  | .add_sink a b,s,t => Grows a s.1 t.1 ∧ Grows b s.2 t.2

theorem Grows.refl {sink : Sink} (s : State ε sink) : Grows sink s s := by
  induction sink with
  | terminal => exact List.prefix_rfl
  | buffered capacity d ih => exact ih _
  | fan_out => trivial
  | add_sink a b iha ihb => exact ⟨iha _,ihb _⟩

theorem Grows.trans {sink : Sink} {s t u : State ε sink} (first : Grows sink s t) (second : Grows sink t u) : Grows sink s u := by
  induction sink with
  | terminal => exact List.IsPrefix.trans first second
  | buffered capacity d ih => exact ih first second
  | fan_out => trivial
  | add_sink a b iha ihb => exact ⟨iha first.1 second.1,ihb first.2 second.2⟩

theorem drain_grows {d : Sink} {answers : Answers ε d} (one : ∀ s entry, Grows d s (process d answers s entry).2) (s : State ε d) (entries : List ε) :
    Grows d s (drain (process d answers) s entries).2 :=
  drain_keeps (I := Grows d s) (P := fun _ => True) (fun t x here _ => here.trans (one t x)) (.refl s) (fun _ _ => trivial)

theorem process_grows (sink : Sink) (answers : Answers ε sink) (s : State ε sink) (entry : ε) : Grows sink s (process sink answers s entry).2 := by
  induction sink generalizing entry with
  | terminal =>
    simp only [process]
    rcases Answer.process answers entry with e | ⟨⟩
    · exact .refl s
    · exact List.prefix_append _ _
  | buffered capacity d ih =>
    by_cases full : capacity ≤ (Buffered.buffer s ++ [entry]).length
    · rw [process_full d answers s full rfl]
      exact drain_grows (ih answers) _ _
    · rw [process_waits d answers s full]
      exact Grows.refl (Buffered.downstream s)
  | fan_out => trivial
  | add_sink a b iha ihb => exact ⟨iha answers.1 s.1 entry,ihb answers.2 s.2 entry⟩

theorem flush_grows (sink : Sink) (answers : Answers ε sink) (s : State ε sink) : Grows sink s (flush sink answers s).2 := by
  induction sink with
  | terminal => exact List.prefix_rfl
  | buffered capacity d ih =>
    have below := drain_grows (process_grows d answers) (Buffered.downstream s) (Buffered.buffer s)
    simp only [flush]
    rcases drained : drain (process d answers) (Buffered.downstream s) (Buffered.buffer s) with ⟨e | ⟨⟩,t⟩
    · rw [drained] at below
      exact below
    · rw [drained] at below
      exact below.trans (ih answers t)
  | fan_out => trivial
  | add_sink a b iha ihb =>
    have first := iha answers.1 s.1
    rw [flush_both]
    rcases flushed : flush a answers.1 s.1 with ⟨e | ⟨⟩,t⟩
    · rw [flushed] at first
      exact ⟨first,.refl s.2⟩
    · rw [flushed] at first
      exact ⟨first,ihb answers.2 s.2⟩

theorem Grows.delivered {sink : Sink} {s t : State ε sink} (grows : Grows sink s t) {entry : ε} (before : Delivered entry sink s) : Delivered entry sink t := by
  induction sink with
  | terminal => exact List.IsPrefix.subset grows before
  | buffered capacity d ih => exact ih grows before
  | fan_out => trivial
  | add_sink a b iha ihb => exact ⟨iha grows.1 before.1,ihb grows.2 before.2⟩

/-- With empty buffers nothing is on its way. -/
theorem arrived {sink : Sink} {s : State ε sink} (empty : InBuffers (fun _ => False) sink s) {entry : ε} (has : Has entry sink s) :
    Delivered entry sink s := by
  induction sink with
  | terminal => exact has
  | buffered capacity d ih =>
    rcases has with waits | below
    · exact (empty.1 entry waits).elim
    · exact ih empty.2 below
  | fan_out => trivial
  | add_sink a b iha ihb => exact ⟨iha empty.1 has.1,ihb empty.2 has.2⟩

end

/-! ### Runs -/

section
variable {α : Type} {sink : Sink}

theorem rising_sublist {accepted delivered : List (Logged α)} (rising : Rising accepted) (rising' : Rising delivered)
    (all : ∀ entry ∈ accepted, entry ∈ delivered) : accepted <+ delivered := by
  have distinct : accepted.Nodup := rising.imp (fun less same => by
    rw [same] at less
    exact Nat.lt_irrefl _ less)
  have antisymm : Std.Antisymm (fun a b : Logged α => a.serial < b.serial) := ⟨fun a b less more => absurd more (Nat.lt_asymm less)⟩
  exact List.sublist_of_subperm_of_pairwise (List.subperm_of_subset distinct all) rising rising'

theorem received_below {d : Sink} {s : State (Logged α) d} {accepted queue : List (Logged α)} (rising : Rising accepted)
    (all : ∀ entry ∈ accepted, Delivered entry d s) (ordered : Ordered d s queue) : EachTerminal (fun delivered => accepted <+ delivered) d s := by
  induction d generalizing queue with
  | terminal => exact rising_sublist rising (ordered.sublist (List.sublist_append_left _ _)) all
  | buffered capacity d ih => exact ih all ordered.2
  | fan_out => trivial
  | add_sink a b iha ihb => exact ⟨iha (fun x inside => (all x inside).1) ordered.1,ihb (fun x inside => (all x inside).2) ordered.2⟩

theorem received {s t : State (Logged α) sink} {queue queue' : List (Logged α)} (kept : Kept sink s) (empty : InBuffers (fun _ => False) sink s)
    (grows : Grows sink s t) (ordered : Ordered sink s queue) (ordered' : Ordered sink t queue') : Received sink s t := by
  induction sink generalizing queue queue' with
  | terminal => trivial
  | buffered capacity d ih =>
    refine ⟨received_below (ordered.1.sublist (List.sublist_append_left _ _)) (fun x isAccepted => ?_) ordered'.2,ih kept.2 empty.2 grows ordered.2 ordered'.2⟩
    rcases kept.1 x isAccepted with waits | below
    · exact (empty.1 x waits).elim
    · exact Grows.delivered grows (arrived empty.2 below)
  | fan_out => trivial
  | add_sink a b iha ihb =>
    exact ⟨iha kept.1 empty.1 grows.1 ordered.1 ordered'.1,ihb kept.2 empty.2 grows.2 ordered.2 ordered'.2⟩

theorem delivered_once {s : State (Logged α) sink} {queue : List (Logged α)} (ordered : Ordered sink s queue) :
    EachTerminal (fun delivered => (delivered.map Logged.serial).Nodup) sink s := by
  induction sink generalizing queue with
  | terminal =>
    have rising : Rising (Terminal.delivered s) := ordered.sublist (List.sublist_append_left _ _)
    exact List.pairwise_map.mpr (rising.imp Nat.ne_of_lt)
  | buffered capacity d ih => exact ih ordered.2
  | fan_out => trivial
  | add_sink a b iha ihb => exact ⟨iha ordered.1,ihb ordered.2⟩

structure Inv (w : World α sink) : Prop where
  ordered : ∀ queue, Rising queue → (∀ x ∈ queue, w.serial ≤ x.serial) → Ordered sink w.state queue
  inside : InBuffers (fun x => x.serial < w.serial) sink w.state
  kept : Kept sink w.state

theorem inv_new : Inv (World.new α sink) := by
  refine ⟨fun queue rising _ => ?_,?_,?_⟩
  · show Ordered sink (State.new (Logged α) sink) queue
    clear * - rising
    induction sink with
    | terminal => exact rising
    | buffered capacity d ih => exact ⟨rising,ih⟩
    | fan_out => trivial
    | add_sink a b iha ihb => exact ⟨iha,ihb⟩
  · show InBuffers _ sink (State.new (Logged α) sink)
    induction sink with
    | terminal => trivial
    | buffered capacity d ih => exact ⟨by simp [State.new],ih⟩
    | fan_out => trivial
    | add_sink a b iha ihb => exact ⟨iha,ihb⟩
  · show Kept sink (State.new (Logged α) sink)
    induction sink with
    | terminal => trivial
    | buffered capacity d ih => exact ⟨by simp [State.new],ih⟩
    | fan_out => trivial
    | add_sink a b iha ihb => exact ⟨iha,ihb⟩

theorem inv_step (w : World α sink) (event : Event α sink) (inv : Inv w) (fair : Fair w event) : Inv (w.step event) := by
  cases event with
  | process entry answers =>
    have fresh := inv.inside.mono (Q := fun x : Logged α => x.serial ≠ w.serial) (fun _ => Nat.ne_of_lt)
    obtain ⟨keeps,-⟩ := process_spec sink answers fair w.state ⟨w.serial,entry⟩ fresh
    refine ⟨fun queue rising later => ?_,?_,keeps.kept inv.kept⟩
    · refine process_ordered sink answers w.state _ queue (inv.ordered _ (List.pairwise_cons.mpr ⟨later,rising⟩) ?_)
      intro x inside
      rcases List.mem_cons.mp inside with rfl | more
      · exact Nat.le_refl _
      · exact Nat.le_of_succ_le (later x more)
    · exact process_inBuffers (P := fun x : Logged α => x.serial < w.serial + 1) sink answers w.state _
        (inv.inside.mono (fun _ => Nat.lt_succ_of_lt)) (Nat.lt_succ_self _)
  | flush answers =>
    obtain ⟨keeps,-⟩ := flush_spec sink answers fair.1 w.state
    exact ⟨fun queue rising later => flush_ordered sink answers w.state queue (inv.ordered queue rising later),
      flush_inBuffers sink answers w.state inv.inside,keeps.kept inv.kept⟩

theorem grows_step (w : World α sink) (event : Event α sink) : Grows sink w.state (w.step event).state := by
  cases event with
  | process entry answers => exact process_grows sink answers w.state _
  | flush answers => exact flush_grows sink answers w.state

theorem grows_run (w : World α sink) (events : List (Event α sink)) : Grows sink w.state (Runs.run World.step w events).state :=
  Runs.invariant (I := fun v : World α sink => Grows sink w.state v.state) (fun v event grows => grows.trans (grows_step v event)) (.refl _) events

end

/-- A batch of two, and one terminal sink. -/
def batch : Sink := .buffered 2 .terminal

def accepting : Answers (Logged String) batch := (⟨fun _ => .ok (),.ok ()⟩ : Answer (Logged String))

/-- Refuses the entry of the first call. -/
def refusing : Answers (Logged String) batch := (⟨fun x => if x.serial = 0 then .error .WriterClosed else .ok (),.ok ()⟩ : Answer (Logged String))

/-- A fan-out to two terminal sinks. -/
def branches : Sink := .add_sink (.add_sink .fan_out .terminal) .terminal

/-- The first of the two fails to flush. -/
def failing : Answers (Logged String) branches :=
  (((),(⟨fun _ => .ok (),.error .WriterClosed⟩ : Answer (Logged String))),(⟨fun _ => .ok (),.ok ()⟩ : Answer (Logged String)))

end Daf.LogSinks
