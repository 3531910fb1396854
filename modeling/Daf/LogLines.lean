import Daf.LogKeys
import Daf.TextLines

/-!
The log in files of one JSON text a line. A write may fail after any part of its line has reached the file, and the next write goes on behind
it.
-/
namespace Daf.LogLines
open Daf.LogEntries (LogEntry Bytes)
open Daf.LogSinks (LoggerError)
open Daf.Runs Daf.TextLines
open scoped List

/-- The JSON of entries, written and read. -/
structure Serde where
  to_string : LogEntry → Except String Bytes
  from_str : Bytes → Option LogEntry

def newline : UInt8 := 10

/-- A JSON text is written on one line. -/
def Serde.OneLine (serde : Serde) : Prop := ∀ entry text, serde.to_string entry = .ok text → newline ∉ text

/-- The entry is read back as it was written. -/
def Serde.Restores (serde : Serde) (entry : LogEntry) : Prop := ∀ text, serde.to_string entry = .ok text → serde.from_str text = some entry

structure RotationPolicy where
  max_size_bytes : UInt64
  /-- In nanoseconds. -/
  max_age : Int

/-- 100 MiB and 24 hours. -/
def RotationPolicy.default : RotationPolicy := ⟨100 * 1024 * 1024,24 * 3600 * 1000000000⟩

/-- The active file. Paths are known by when they were made, as each holds a new UUID. -/
structure FileState where
  current_path : Nat
  current_size : UInt64
  opened_at : Int
  closed : Bool

/-- The writer with the files on disk. -/
structure FileWriter where
  policy : RotationPolicy
  state : FileState
  /-- How many paths were made. -/
  paths : Nat
  files : Nat → Bytes

def FileWriter.new (policy : RotationPolicy) (now : Int) : FileWriter := ⟨policy,⟨0,0,now,false⟩,1,fun _ => []⟩

def FileWriter.needs_rotation (w : FileWriter) (now : Int) : Bool :=
  if w.state.closed then false
  else decide (w.policy.max_size_bytes ≤ w.state.current_size ∨ w.policy.max_age ≤ now - w.state.opened_at)

def FileWriter.new_path (w : FileWriter) (now : Int) : FileWriter :=
  { w with
    state := { w.state with current_path := w.paths, current_size := 0, opened_at := now }
    paths := w.paths + 1 }

/-- The writer when a write has chosen its file; the clock is read twice. -/
def FileWriter.ready (w : FileWriter) (now opened : Int) : FileWriter := if w.needs_rotation now then w.new_path opened else w

def FileWriter.append (w : FileWriter) (bytes : Bytes) : FileWriter :=
  { w with files := Function.update w.files w.state.current_path (w.files w.state.current_path ++ bytes) }

/-- What the file system does with a write. -/
inductive Fate where
  | done
  | open_failed (message : String)
  /-- No more than this many bytes reach the file. -/
  | write_failed (bytes : Nat) (message : String)
  | sync_failed (message : String)

/-- What of the line reaches the file. -/
def Fate.reaches (line : Bytes) : Fate → Bytes
  | .done => line
  | .open_failed _ => []
  | .write_failed bytes _ => line.take bytes
  | .sync_failed _ => line

section
variable (serde : Serde)

def FileWriter.write_entry (w : FileWriter) (entry : LogEntry) (now opened : Int) (fate : Fate) : Except LoggerError Unit × FileWriter :=
  match serde.to_string entry with
  | .error e => (.error (.Serde e),w)
  | .ok text =>
    let line := text ++ [newline]
    if w.state.closed then (.error .WriterClosed,w)
    else
      let w := w.ready now opened
      match fate with
      | .open_failed e => (.error (.Io e),w)
      | .write_failed bytes e => (.error (.Io e),w.append (line.take bytes))
      | .sync_failed e => (.error (.Io e),w.append line)
      | .done => (.ok (),{ w.append line with state.current_size := w.state.current_size + UInt64.ofNat line.length })

def FileWriter.flush (w : FileWriter) : Except LoggerError Unit × FileWriter := (.ok (),w)

def FileWriter.rotate (w : FileWriter) (opened : Int) : Except LoggerError Unit × FileWriter :=
  if w.state.closed then (.error .WriterClosed,w) else (.ok (),w.new_path opened)

def FileWriter.close (w : FileWriter) : Except LoggerError Unit × FileWriter := (.ok (),{ w with state.closed := true })

/-! ### Calls one after another -/

inductive Call where
  | write_entry (entry : LogEntry) (now opened : Int) (fate : Fate)
  | flush
  | rotate (opened : Int)
  | close

def FileWriter.call (w : FileWriter) : Call → Except LoggerError Unit × FileWriter
  | .write_entry entry now opened fate => w.write_entry serde entry now opened fate
  | .flush => w.flush
  | .rotate opened => w.rotate opened
  | .close => w.close

/-- The writer with the entries whose write returned `Ok`, each with its file. -/
structure World where
  writer : FileWriter
  acked : List (Nat × LogEntry)

/-- The entry that a call acknowledges, with the file that it went to. -/
def acks (w : FileWriter) (call : Call) : List (Nat × LogEntry) :=
  match call,(w.call serde call).1 with
  | .write_entry entry now opened _,.ok () => [((w.ready now opened).state.current_path,entry)]
  | _,_ => []

def World.step (w : World) (call : Call) : World := ⟨(w.writer.call serde call).2,w.acked ++ acks serde w.writer call⟩

def World.new (policy : RotationPolicy) (now : Int) : World := ⟨FileWriter.new policy now,[]⟩

/-- The entries that the complete lines of a file are read as. -/
def parsed (file : Bytes) : List LogEntry := (lines newline file).filterMap serde.from_str

/-- The entries that were acknowledged in a file, in the order of the calls. -/
def World.ackedIn (w : World) (path : Nat) : List LogEntry := w.acked.filterMap fun ack => if ack.1 = path then some ack.2 else none

/-- A write that reaches its file finds it empty or at the end of a line, and its entry in no other file. -/
def Meets (w : World) : Call → Prop
  | .write_entry entry now opened fate => w.writer.state.closed = false → ∀ text, serde.to_string entry = .ok text →
    fate.reaches (text ++ [newline]) ≠ [] →
    Whole newline (w.writer.files (w.writer.ready now opened).state.current_path) ∧
    ∀ other ≠ (w.writer.ready now opened).state.current_path, entry ∉ parsed serde (w.writer.files other)
  | .flush => True
  | .rotate _ => True
  | .close => True

def Call.Restores : Call → Prop
  | .write_entry entry _ _ _ => serde.Restores entry
  | .flush => True
  | .rotate _ => True
  | .close => True

end

/-! ### What a call can do -/

section
variable {serde : Serde} {w : FileWriter} {entry : LogEntry} {now opened : Int} {fate : Fate} {call : Call} {text : Bytes}

/-- A write that appends to the file it has chosen. -/
structure Appends (serde : Serde) (w : FileWriter) (entry : LogEntry) (now opened : Int) (fate : Fate) (text : Bytes) : Prop where
  wrote : serde.to_string entry = .ok text
  here : w.state.closed = false
  some : fate.reaches (text ++ [newline]) ≠ []
  files : (w.write_entry serde entry now opened fate).2.files = Function.update w.files (w.ready now opened).state.current_path
    (w.files (w.ready now opened).state.current_path ++ fate.reaches (text ++ [newline]))
  acked : acks serde w (.write_entry entry now opened fate) = [((w.ready now opened).state.current_path,entry)] ∧ fate = .done ∨
    acks serde w (.write_entry entry now opened fate) = []

@[simp] theorem ready_files : (w.ready now opened).files = w.files := by
  unfold FileWriter.ready
  split_ifs <;> rfl

@[simp] theorem ready_policy : (w.ready now opened).policy = w.policy := by
  unfold FileWriter.ready
  split_ifs <;> rfl

@[simp] theorem ready_closed : (w.ready now opened).state.closed = w.state.closed := by
  unfold FileWriter.ready
  split_ifs <;> rfl

theorem append_nothing : (w.append []).files = w.files := by
  unfold FileWriter.append
  simp

theorem write_cases (serde : Serde) (w : FileWriter) (entry : LogEntry) (now opened : Int) (fate : Fate) :
    ((w.write_entry serde entry now opened fate).2.files = w.files ∧ acks serde w (.write_entry entry now opened fate) = []) ∨
    ∃ text, Appends serde w entry now opened fate text := by
  cases wrote : serde.to_string entry with
  | error e => exact .inl ⟨by simp [FileWriter.write_entry,wrote],by simp [acks,FileWriter.call,FileWriter.write_entry,wrote]⟩
  | ok text =>
    by_cases closed : w.state.closed = true
    · exact .inl ⟨by simp [FileWriter.write_entry,wrote,closed],by simp [acks,FileWriter.call,FileWriter.write_entry,wrote,closed]⟩
    · have here : w.state.closed = false := by simpa using closed
      by_cases none : fate.reaches (text ++ [newline]) = []
      · left
        cases fate with
        | done => exact absurd none (by simp [Fate.reaches])
        | sync_failed e => exact absurd none (by simp [Fate.reaches])
        | open_failed e => exact ⟨by simp [FileWriter.write_entry,wrote,here],by simp [acks,FileWriter.call,FileWriter.write_entry,wrote,here]⟩
        | write_failed bytes e =>
          have nothing : (text ++ [newline]).take bytes = [] := none
          exact ⟨by simp [FileWriter.write_entry,wrote,here,nothing,append_nothing],by simp [acks,FileWriter.call,FileWriter.write_entry,wrote,here]⟩
      · right
        refine ⟨text,wrote,here,none,?_,?_⟩
        · cases fate with
          | open_failed e => exact absurd rfl none
          | _ => simp [FileWriter.write_entry,wrote,here,FileWriter.append,Fate.reaches]
        · cases fate with
          | done => exact .inl ⟨by simp [acks,FileWriter.call,FileWriter.write_entry,wrote,here],rfl⟩
          | _ => exact .inr (by simp [acks,FileWriter.call,FileWriter.write_entry,wrote,here])

theorem call_policy : (w.call serde call).2.policy = w.policy := by
  cases call with
  | write_entry entry now opened fate =>
    simp only [FileWriter.call,FileWriter.write_entry]
    cases serde.to_string entry with
    | error e => rfl
    | ok text =>
      split_ifs
      · rfl
      · cases fate <;> simp [FileWriter.append]
  | rotate opened =>
    simp only [FileWriter.call,FileWriter.rotate]
    split_ifs <;> rfl
  | flush => rfl
  | close => rfl

theorem call_closed (closed : w.state.closed = true) : (w.call serde call).2.state.closed = true := by
  cases call with
  | write_entry entry now opened fate =>
    simp only [FileWriter.call,FileWriter.write_entry]
    cases serde.to_string entry with
    | error e => exact closed
    | ok text =>
      dsimp only
      rw [if_pos closed]
      exact closed
  | rotate opened =>
    simp only [FileWriter.call,FileWriter.rotate]
    rw [if_pos closed]
    exact closed
  | flush => exact closed
  | close => rfl

/-- The files change only by a write, and only the one that it has chosen, which is below the limit. -/
theorem call_below (limit : 0 < w.policy.max_size_bytes) {path : Nat} (changed : (w.call serde call).2.files path ≠ w.files path) :
    ∃ entry now opened fate, call = .write_entry entry now opened fate ∧ path = (w.ready now opened).state.current_path ∧
      (w.ready now opened).state.current_size < w.policy.max_size_bytes := by
  cases call with
  | write_entry entry now opened fate =>
    refine ⟨entry,now,opened,fate,rfl,?_⟩
    rcases write_cases serde w entry now opened fate with ⟨same,-⟩ | ⟨text,appends⟩
    · exact absurd (congrFun same path) changed
    · constructor
      · by_contra other
        apply changed
        show (w.write_entry serde entry now opened fate).2.files path = _
        rw [appends.files,Function.update_of_ne other]
      · have chosen : w.needs_rotation now = decide (w.policy.max_size_bytes ≤ w.state.current_size ∨ w.policy.max_age ≤ now - w.state.opened_at) := by
          simp [FileWriter.needs_rotation,appends.here]
        unfold FileWriter.ready
        rw [chosen]
        split_ifs with full
        · exact limit
        · rw [decide_eq_true_eq,not_or] at full
          exact UInt64.not_le.mp full.1
  | rotate opened =>
    simp only [FileWriter.call,FileWriter.rotate] at changed
    split_ifs at changed <;> exact absurd rfl changed
  | flush => exact absurd rfl changed
  | close => exact absurd rfl changed

/-! ### What the lines of the files are -/

theorem parsed_append (whole : Whole newline text) (more : Bytes) : parsed serde (text ++ more) = parsed serde text ++ parsed serde more := by
  rw [parsed,lines_append whole,List.filterMap_append]
  rfl

/-- What reaches a file of a line adds its entry, or none. -/
theorem Appends.parsed (appends : Appends serde w entry now opened fate text) (one_line : serde.OneLine) (restored : serde.Restores entry) :
    parsed serde (fate.reaches (text ++ [newline])) = [entry] ∨ parsed serde (fate.reaches (text ++ [newline])) = [] ∧ fate ≠ .done := by
  have free := one_line entry text appends.wrote
  have all : LogLines.parsed serde (text ++ [newline]) = [entry] := by
    rw [LogLines.parsed,lines_line free,List.filterMap_cons_some (restored text appends.wrote)]
    rfl
  cases fate with
  | done => exact .inl all
  | sync_failed e => exact .inl all
  | open_failed e => exact absurd rfl appends.some
  | write_failed bytes e =>
    rcases lines_take free bytes with whole | none
    · left
      rw [LogLines.parsed,Fate.reaches,whole,List.filterMap_cons_some (restored text appends.wrote)]
      rfl
    · right
      refine ⟨?_,by simp⟩
      rw [LogLines.parsed,Fate.reaches,none]
      rfl

/-- The acknowledged entries stand in their files in order, and nowhere else. -/
structure Sound (serde : Serde) (w : World) : Prop where
  sub : ∀ path, w.ackedIn path <+ parsed serde (w.writer.files path)
  alone : ∀ path entry, (path,entry) ∈ w.acked → ∀ other ≠ path, entry ∉ parsed serde (w.writer.files other)

theorem Sound.new (policy : RotationPolicy) (now : Int) : Sound serde (World.new policy now) where
  sub path := List.nil_sublist _
  alone path entry acked := by cases acked

theorem mem_ackedIn {w : World} {path : Nat} {entry : LogEntry} : entry ∈ w.ackedIn path ↔ (path,entry) ∈ w.acked := by
  rw [World.ackedIn,List.mem_filterMap]
  constructor
  · rintro ⟨⟨other,e⟩,inside,chosen⟩
    split_ifs at chosen with here
    cases chosen
    exact here ▸ inside
  · intro inside
    exact ⟨_,inside,if_pos rfl⟩

/-- Only the entry of the call can be acknowledged. -/
theorem Appends.acked_only (appends : Appends serde w entry now opened fate text) {path : Nat} {other : LogEntry}
    (acked : (path,other) ∈ acks serde w (.write_entry entry now opened fate)) :
    path = (w.ready now opened).state.current_path ∧ other = entry := by
  rcases appends.acked with ⟨one,-⟩ | none
  · rw [one] at acked
    simpa using acked
  · rw [none] at acked
    cases acked

/-- Only the entry of the call can reach the file. -/
theorem Appends.reached_only (appends : Appends serde w entry now opened fate text) (one_line : serde.OneLine) (restored : serde.Restores entry)
    {other : LogEntry} (added : other ∈ LogLines.parsed serde (fate.reaches (text ++ [newline]))) : other = entry := by
  rcases appends.parsed one_line restored with one | ⟨none,-⟩
  · rw [one] at added
    exact List.mem_singleton.mp added
  · rw [none] at added
    cases added

/-- A call that writes nothing and acknowledges nothing. -/
theorem Sound.quiet {w : World} (sound : Sound serde w) (files : (w.writer.call serde call).2.files = w.writer.files)
    (acked : acks serde w.writer call = []) : Sound serde (w.step serde call) := by
  have same : (w.step serde call).acked = w.acked := by simp [World.step,acked]
  constructor
  · intro path
    rw [World.ackedIn,same,World.step,files]
    exact sound.sub path
  · intro path entry inside other apart
    rw [same] at inside
    rw [World.step,files]
    exact sound.alone path entry inside other apart

theorem Sound.step {w : World} (sound : Sound serde w) (one_line : serde.OneLine) (restored : call.Restores serde) (meets : Meets serde w call) :
    Sound serde (w.step serde call) := by
  cases call with
  | flush => exact sound.quiet rfl rfl
  | close => exact sound.quiet rfl rfl
  | rotate opened =>
    apply sound.quiet
    · simp only [FileWriter.call,FileWriter.rotate]
      split_ifs <;> rfl
    · rfl
  | write_entry entry now opened fate =>
    rcases write_cases serde w.writer entry now opened fate with ⟨files,acked⟩ | ⟨text,appends⟩
    · exact sound.quiet files acked
    obtain ⟨whole,new⟩ := meets appends.here text appends.wrote appends.some
    have files : (w.step serde (.write_entry entry now opened fate)).writer.files = _ := appends.files
    have acked : (w.step serde (.write_entry entry now opened fate)).acked = w.acked ++ acks serde w.writer (.write_entry entry now opened fate) := rfl
    have same_or_acked := appends.acked
    have read := appends.parsed one_line restored
    have last : ∀ path' entry', (path',entry') ∈ acks serde w.writer (.write_entry entry now opened fate) →
        path' = (w.writer.ready now opened).state.current_path ∧ entry' = entry := fun _ _ => appends.acked_only
    have reached_only : ∀ entry' ∈ parsed serde (fate.reaches (text ++ [newline])), entry' = entry := fun _ => appends.reached_only one_line restored
    generalize (w.writer.ready now opened).state.current_path = path at *
    have grown : parsed serde (_ ++ fate.reaches (text ++ [newline])) = _ := parsed_append whole (fate.reaches (text ++ [newline]))
    constructor
    · intro path'
      rw [files,World.ackedIn,acked,List.filterMap_append]
      by_cases here : path' = path
      · subst here
        rw [Function.update_self,grown]
        apply (sound.sub path').append
        rcases same_or_acked with ⟨one,done⟩ | none
        · rw [one,read.resolve_right fun other => other.2 done]
          simp
        · rw [none]
          exact List.nil_sublist _
      · rw [Function.update_of_ne here]
        have none : (acks serde w.writer (.write_entry entry now opened fate)).filterMap (fun ack => if ack.1 = path' then some ack.2 else none) = [] := by
          rcases same_or_acked with ⟨one,-⟩ | none
          · rw [one]
            simp [Ne.symm here]
          · rw [none]
            rfl
        rw [none,List.append_nil]
        exact sound.sub path'
    · intro path' entry' inside other apart found
      rw [acked] at inside
      rw [files] at found
      rcases List.mem_append.mp inside with before | new_ack
      · by_cases here : other = path
        · subst here
          rw [Function.update_self,grown] at found
          rcases List.mem_append.mp found with old | added
          · exact sound.alone path' entry' before other apart old
          · have same : entry' = entry := reached_only entry' added
            subst same
            exact new path' (Ne.symm apart) ((sound.sub path').subset (mem_ackedIn.mpr before))
        · rw [Function.update_of_ne here] at found
          exact sound.alone path' entry' before other apart found
      · obtain ⟨rfl,rfl⟩ := last path' entry' new_ack
        rw [Function.update_of_ne apart] at found
        exact new other apart found

end

/-! ### Runs -/

section
open Daf.LogKeys (note noteText)

def firstNote : LogEntry := note 1 0

/-- All its characters are single bytes. -/
def noteLine : Bytes := (noteText 1 0).map fun c => UInt8.ofNat c.toNat

def noteSerde : Serde where
  to_string entry := if entry = firstNote then .ok noteLine else .error "key must be a string"
  from_str text := if text = noteLine then some firstNote else none

theorem noteSerde_wrote {entry : LogEntry} {text : Bytes} (wrote : noteSerde.to_string entry = .ok text) : entry = firstNote ∧ text = noteLine := by
  unfold noteSerde at wrote
  dsimp only at wrote
  split_ifs at wrote with here
  cases wrote
  exact ⟨here,rfl⟩

theorem noteSerde_one_line : noteSerde.OneLine := by
  intro entry text wrote
  rw [(noteSerde_wrote wrote).2]
  unfold noteLine noteText LogKeys.noteRest
  -- The parts of the text are literals, which are compared as lists of characters.
  rw [String.toList_append,String.toList_append,String.toList_ofList,String.toList_ofList,String.toList_ofList,String.toList_ofList,String.toList_ofList]
  decide

theorem noteSerde_restores : noteSerde.Restores firstNote := by
  intro text wrote
  rw [(noteSerde_wrote wrote).2]
  unfold noteSerde
  dsimp only
  rw [if_pos rfl]

/-- A write of which one byte reaches the file, and the same write again. -/
def tornWrites : List Call := [.write_entry firstNote 0 0 (.write_failed 1 "no space left on device"),.write_entry firstNote 0 0 .done]

end
end Daf.LogLines
