import Mathlib.Data.List.TakeWhile
import Mathlib.Logic.Function.Basic
import Daf.Interleaving
import Daf.ProvisionPlan

/-!
The file that keeps the provisioned state between runs. Each run has a store of its own; the stores share
the state file, the temporary file that is renamed over it, and the lock file beside it, and a run may stop
between any two of its steps.
-/
namespace Daf.StateStore
open Daf.Json Daf.Runs Daf.Interleaving
open Daf.MissionPlan (DafError)
open Daf.ProvisionPlan (ProvisionState Resource)

/-! ### Paths -/

structure FilePath where
  parent : String
  file_name : String
deriving DecidableEq,Repr

/-- The name up to its last dot, and all of it where that dot is its first character. -/
def file_stem (name : List Char) : List Char :=
  match name.reverse.dropWhile (· ≠ '.') with
  | [] | [_] => name
  | _ :: before => before.reverse

def FilePath.with_extension (path : FilePath) (extension : String) : FilePath :=
  ⟨path.parent,String.ofList (file_stem path.file_name.toList ++ '.' :: extension.toList)⟩

def FilePath.display (path : FilePath) : String := path.parent ++ "/" ++ path.file_name

theorem file_stem_split (name : List Char) : file_stem name = name ∨ ∃ own, '.' ∉ own ∧ file_stem name ++ '.' :: own = name := by
  have parts := List.takeWhile_append_dropWhile (p := (· ≠ '.')) (l := name.reverse)
  cases found : name.reverse.dropWhile (· ≠ '.') with
  | nil => exact .inl (by simp only [file_stem,found])
  | cons dot before =>
    cases before with
    | nil => exact .inl (by simp only [file_stem,found])
    | cons c before =>
      have isDot : dot = '.' := by
        have head := List.head?_dropWhile_not (· ≠ '.') name.reverse
        rw [found] at head
        simpa using head
      refine .inr ⟨(name.reverse.takeWhile (· ≠ '.')).reverse,fun inside => ?_,?_⟩
      · have plain := List.mem_takeWhile_imp (List.mem_reverse.mp inside)
        simp at plain
      · have whole := congrArg List.reverse parts
        rw [List.reverse_reverse,found,isDot,List.reverse_append,List.reverse_cons,List.append_assoc,List.singleton_append] at whole
        simpa only [file_stem,found] using whole

theorem with_extension_inj {path : FilePath} {a b : String} (same : path.with_extension a = path.with_extension b) : a = b := by
  have names := congrArg (fun p => p.file_name.toList) same
  simp only [FilePath.with_extension,String.toList_ofList] at names
  have ends := List.append_cancel_left names
  exact String.toList_injective (List.cons_injective ends)

/-- An extension with a dot in it is never the one that a path has. -/
theorem with_extension_ne (path : FilePath) {extension : String} (dotted : '.' ∈ extension.toList) : path.with_extension extension ≠ path := by
  intro same
  have names := congrArg (fun p => p.file_name.toList) same
  simp only [FilePath.with_extension,String.toList_ofList] at names
  rcases file_stem_split path.file_name.toList with whole | ⟨own,plain,split⟩
  · have sizes := congrArg List.length names
    rw [whole] at sizes
    simp at sizes
  · have ends := List.append_cancel_left (names.trans split.symm)
    exact plain (List.cons_injective ends ▸ dotted)

/-! ### The stored state -/

/-- The whole of the state: what the plan reads of it, and the rest. -/
structure StoredState extends ProvisionState where
  version : UInt32
  outputs : AList (fun _ : String => Value)
  last_modified : Int

def STATE_VERSION : UInt32 := 1

def StoredState.new (now : Int) : StoredState := { ProvisionState.new with version := STATE_VERSION, outputs := ∅, last_modified := now }

def StoredState.bump (state : StoredState) (now : Int) : StoredState := { state with toProvisionState := state.toProvisionState.bump, last_modified := now }

/-- The serializer: the text of a state, and the state that it reads in a text. -/
structure Serde (Byte : Type) where
  to_string_pretty : StoredState → Option (List Byte)
  from_str : List Byte → Option StoredState

/-- The state is read back from its own text. -/
def Serde.Restores {Byte : Type} (serde : Serde Byte) (state : StoredState) : Prop :=
  ∃ text, serde.to_string_pretty state = some text ∧ serde.from_str text = some state

/-! ### Files and runs -/

abbrev Files (Byte : Type) := FilePath → Option (List Byte)

/-- What a run has done, as far as other runs can tell. -/
inductive Record where
  | locked (run : Nat)
  | loaded (run : Nat) (result : Except DafError StoredState)
  | saved (run : Nat) (state : StoredState)
  | unlocked (run : Nat)

structure Disk (Byte : Type) where
  files : Files Byte
  log : List Record

structure FileStateStore where
  path : FilePath
  lock_path : FilePath
  locked : Bool
deriving DecidableEq,Repr

def FileStateStore.new (path : FilePath) : FileStateStore := ⟨path,path.with_extension "tfstate.lock",false⟩

/-- Where a run is: the next step of the method that it is in, or between two methods. -/
inductive Phase (Byte : Type) where
  | check_flag
  | create_lock
  | set_flag
  | check_file
  | read_file
  | loaded (state : StoredState)
  | open_tmp (state : StoredState) (text : List Byte)
  | write_tmp (state : StoredState) (text : List Byte) (written : Nat)
  | rename_tmp (state : StoredState)
  | check_held
  | remove_lock
  | clear_flag
  | refused (error : DafError)
  | finished

structure Run (Byte : Type) where
  store : FileStateStore
  phase : Phase Byte

inductive Operation where
  | modify (resources : AList (fun _ : String => Resource)) (outputs : AList (fun _ : String => Value))
  | save
  | unlock

/-- What is outside of a step: the clock, how much one write takes, and what the run does next. -/
structure Choice where
  now : Int
  bytes : Nat
  operation : Operation

section
variable {Byte : Type}

def Run.at (run : Run Byte) (phase : Phase Byte) : Run Byte := { run with phase }

def Disk.record (disk : Disk Byte) (record : Record) : Disk Byte := { disk with log := disk.log ++ [record] }

def Disk.write (disk : Disk Byte) (path : FilePath) (data : List Byte) : Disk Byte := { disk with files := Function.update disk.files path (some data) }

def Disk.remove (disk : Disk Byte) (path : FilePath) : Disk Byte := { disk with files := Function.update disk.files path none }

/-- The bytes of a file after some are written at an offset. -/
def writeAt (data : List Byte) (offset : Nat) (chunk : List Byte) : List Byte := data.take offset ++ chunk ++ data.drop (offset + chunk.length)

/-- What `load` makes of the text of the file. -/
def parse (serde : Serde Byte) (path : FilePath) (data : List Byte) : Except DafError StoredState :=
  match serde.from_str data with
  | none => .error (.SerializationError ("failed to parse state file " ++ path.display))
  | some state =>
    if state.version > STATE_VERSION then
      .error (.ConfigError ("state file version " ++ toString state.version ++ " is newer than supported version " ++ toString STATE_VERSION))
    else .ok state

/-- The run has loaded a state; without one it gives the lock back. -/
def returnLoad (n : Nat) (disk : Disk Byte) (run : Run Byte) (result : Except DafError StoredState) : Disk Byte × Run Byte :=
  (disk.record (.loaded n result),run.at (match result with | .ok state => .loaded state | .error _ => .check_held))

def tmp_path (path : FilePath) : FilePath := path.with_extension "tfstate.tmp"

def act (serde : Serde Byte) (n : Nat) (disk : Disk Byte) (run : Run Byte) (choice : Choice) : Disk Byte × Run Byte :=
  match run.phase with
  | .check_flag => (disk,run.at (if run.store.locked then .refused (.Internal "state is already locked by this process") else .create_lock))
  | .create_lock =>
    match disk.files run.store.lock_path with
    | some _ => (disk,run.at (.refused (.Internal ("failed to acquire state lock " ++ run.store.lock_path.display))))
    | none => ((disk.write run.store.lock_path []).record (.locked n),run.at .set_flag)
  | .set_flag => (disk,{ store := { run.store with locked := true }, phase := .check_file })
  | .check_file =>
    match disk.files run.store.path with
    | none => returnLoad n disk run (.ok (.new choice.now))
    | some _ => (disk,run.at .read_file)
  | .read_file =>
    match disk.files run.store.path with
    | none => returnLoad n disk run (.error (.Internal ("failed to read state file " ++ run.store.path.display)))
    | some data => returnLoad n disk run (parse serde run.store.path data)
  | .loaded state =>
    match choice.operation with
    | .modify resources outputs => (disk,run.at (.loaded { state with resources, outputs }))
    | .save =>
      match serde.to_string_pretty (state.bump choice.now) with
      | none => (disk,run.at (.loaded (state.bump choice.now)))
      | some text => (disk,run.at (.open_tmp (state.bump choice.now) text))
    | .unlock => (disk,run.at .check_held)
  | .open_tmp state text => (disk.write (tmp_path run.store.path) [],run.at (.write_tmp state text 0))
  | .write_tmp state text written =>
    if written < text.length then
      let chunk := (text.drop written).take (choice.bytes + 1)
      (disk.write (tmp_path run.store.path) (writeAt ((disk.files (tmp_path run.store.path)).getD []) written chunk),
        run.at (.write_tmp state text (written + chunk.length)))
    else (disk,run.at (.rename_tmp state))
  | .rename_tmp state =>
    match disk.files (tmp_path run.store.path) with
    | none => (disk,run.at (.loaded state))
    | some data => (((disk.remove (tmp_path run.store.path)).write run.store.path data).record (.saved n state),run.at (.loaded state))
  | .check_held => (disk,run.at (if run.store.locked then .remove_lock else .finished))
  | .remove_lock =>
    match disk.files run.store.lock_path with
    | none => (disk,run.at .finished)
    | some _ => ((disk.remove run.store.lock_path).record (.unlocked n),run.at .clear_flag)
  | .clear_flag => (disk,{ store := { run.store with locked := false }, phase := .finished })
  | .refused error => (disk,run.at (.refused error))
  | .finished => (disk,run.at .finished)

/-- Any number of runs over one state file. -/
def runs (serde : Serde Byte) (path : FilePath) (files : Files Byte) : System (Disk Byte) (Run Byte) Unit Choice :=
  ⟨⟨files,[]⟩,fun _ => ⟨.new path,.check_flag⟩,act serde⟩

/-! ### What is kept -/

/-- Whether the lock is the run's: from the creation of the lock file to its removal. -/
def Phase.holds : Phase Byte → Bool
  | .check_flag | .create_lock | .clear_flag | .refused _ | .finished => false
  | _ => true

def holder (log : List Record) : Option Nat :=
  log.foldl (fun held record => match record with | .locked n => some n | .unlocked _ => none | _ => held) none

/-- The states that were saved, in the order in which their saves completed. -/
def saves (log : List Record) : List StoredState := log.filterMap fun record => match record with | .saved _ state => some state | _ => none

def Exclusive (w : World (Disk Byte) (Run Byte)) : Prop :=
  ∀ (n m : Nat) (a b : Run Byte), w.calls[n]? = some a → w.calls[m]? = some b → a.phase.holds → b.phase.holds → n = m

/-- Every load returns the state of the last save before it, and a fresh one where there is none. -/
def LoadsCurrent (log : List Record) : Prop :=
  ∀ before n result later, log = before ++ .loaded n result :: later → ∃ now, result = .ok ((saves before).getLast?.getD (.new now))

/-- The serials of completed saves, as they are stored, count the saves. -/
def Numbered (log : List Record) : Prop := (saves log).map (·.serial) = (List.range (saves log).length).map fun i => UInt64.ofNat (i + 1)

/-- The serials of completed saves are 1, 2, 3, and so on. -/
def Sequential (log : List Record) : Prop := (saves log).map (·.serial.toNat) = List.range' 1 (saves log).length

/-- A state that is about to be saved is read back from its own text. -/
def Restored (serde : Serde Byte) (_ : Nat) (_ : Disk Byte) (run : Run Byte) (choice : Choice) : Prop :=
  match run.phase,choice.operation with
  | .loaded state,.save => serde.Restores (state.bump choice.now)
  | _,_ => True

/-! ### Logs -/

theorem saves_append (log : List Record) (record : Record) :
    saves (log ++ [record]) = saves log ++ (match record with | .saved _ state => [state] | _ => []) := by
  cases record <;> simp [saves]

theorem holder_append (log : List Record) (record : Record) :
    holder (log ++ [record]) = match record with | .locked n => some n | .unlocked _ => none | _ => holder log := by
  simp [holder]

theorem LoadsCurrent.append {log : List Record} {record : Record} (loads : LoadsCurrent log)
    (new : ∀ n result, record = .loaded n result → ∃ now, result = .ok ((saves log).getLast?.getD (.new now))) : LoadsCurrent (log ++ [record]) := by
  intro before n result later split
  rcases List.eq_nil_or_concat later with rfl | ⟨rest,last,rfl⟩
  · obtain ⟨whole,same⟩ := List.append_inj' split rfl
    subst whole
    exact new n result (List.cons.inj same).1
  · rw [List.concat_eq_append,← List.cons_append,← List.append_assoc] at split
    exact loads before n result rest (List.append_inj' split rfl).1

theorem Numbered.append {log : List Record} {record : Record} (numbered : Numbered log)
    (new : ∀ n state, record = .saved n state → state.serial = UInt64.ofNat ((saves log).length + 1)) : Numbered (log ++ [record]) := by
  unfold Numbered at *
  rw [saves_append]
  cases record with
  | saved n state =>
    have serial := new n state rfl
    simp only [List.map_append,List.length_append,List.map_cons,List.map_nil,List.length_singleton,List.range_succ,numbered,serial]
  | locked | loaded | unlocked => simpa using numbered

theorem Numbered.last {log : List Record} (numbered : Numbered log) {state : StoredState} (last : (saves log).getLast? = some state) :
    state.serial = UInt64.ofNat (saves log).length := by
  have lasts := congrArg List.getLast? numbered
  rw [List.getLast?_map,List.getLast?_map,last,List.getLast?_range] at lasts
  have some_saved : (saves log).length ≠ 0 := by
    intro none_saved
    simp [List.length_eq_zero_iff.mp none_saved] at last
  simp only [some_saved,↓reduceIte,Option.map_some,Option.some.injEq] at lasts
  rw [lasts,Nat.sub_add_cancel (by omega)]

/-- Below 2^64 the stored serials are the numbers themselves. -/
theorem Numbered.sequential {log : List Record} (numbered : Numbered log) (small : (saves log).length < 2^64) : Sequential log := by
  have numbers := congrArg (List.map UInt64.toNat) numbered
  rw [List.map_map,List.map_map] at numbers
  show (saves log).map _ = _
  rw [List.range'_eq_map_range]
  refine Eq.trans numbers (List.map_congr_left fun i inside => ?_)
  have below := List.mem_range.mp inside
  show (UInt64.ofNat (i + 1)).toNat = 1 + i
  rw [UInt64.toNat_ofNat',Nat.mod_eq_of_lt (by omega),Nat.add_comm]

/-! ### What one step keeps -/

def lock_path (path : FilePath) : FilePath := path.with_extension "tfstate.lock"

theorem lock_ne_path (path : FilePath) : lock_path path ≠ path := with_extension_ne path (by decide)

theorem tmp_ne_path (path : FilePath) : tmp_path path ≠ path := with_extension_ne path (by decide)

theorem tmp_ne_lock (path : FilePath) : tmp_path path ≠ lock_path path := fun same => absurd (with_extension_inj same) (by decide)

/-- The file holds the text of the last state that was saved. -/
def Current (serde : Serde Byte) (data : Option (List Byte)) : Option StoredState → Prop
  | none => data = none
  | some state => ∃ text, data = some text ∧ serde.from_str text = some state ∧ state.version = STATE_VERSION

structure Sound (serde : Serde Byte) (path : FilePath) (disk : Disk Byte) : Prop where
  lock : (disk.files (lock_path path)).isSome ↔ (holder disk.log).isSome
  current : Current serde (disk.files path) (saves disk.log).getLast?
  loads : LoadsCurrent disk.log
  numbered : Numbered disk.log

/-- A state that counts so many saves. -/
structure Counts (count : Nat) (state : StoredState) : Prop where
  version : state.version = STATE_VERSION
  serial : state.serial = UInt64.ofNat count

/-- What the run that has the lock knows of the files. -/
def Inside (serde : Serde Byte) (path : FilePath) (disk : Disk Byte) : Phase Byte → Prop
  | .read_file => disk.files path ≠ none
  | .loaded state => Counts (saves disk.log).length state
  | .open_tmp state text => Counts ((saves disk.log).length + 1) state ∧ serde.from_str text = some state
  | .write_tmp state text written =>
    Counts ((saves disk.log).length + 1) state ∧ serde.from_str text = some state ∧ disk.files (tmp_path path) = some (text.take written)
  | .rename_tmp state =>
    Counts ((saves disk.log).length + 1) state ∧ ∃ text, serde.from_str text = some state ∧ disk.files (tmp_path path) = some text
  | _ => True

/-- Whether the flag of the store is set, where the run has the lock. -/
def Phase.flagged : Phase Byte → Bool
  | .set_flag => false
  | phase => phase.holds

structure Placed (serde : Serde Byte) (path : FilePath) (n : Nat) (disk : Disk Byte) (run : Run Byte) : Prop where
  at_path : run.store.path = path
  at_lock : run.store.lock_path = lock_path path
  flag : run.phase.flagged → run.store.locked
  mine : holder disk.log = some n ↔ run.phase.holds
  inside : Inside serde path disk run.phase

def Known (serde : Serde Byte) (path : FilePath) (n : Nat) (disk : Disk Byte) : Option (Run Byte) → Prop
  | none => holder disk.log ≠ some n
  | some run => Placed serde path n disk run

variable {serde : Serde Byte} {path : FilePath} {disk : Disk Byte} {run : Run Byte} {n : Nat}

theorem Counts.bump {count : Nat} {state : StoredState} (counts : Counts count state) (now : Int) : Counts (count + 1) (state.bump now) where
  version := counts.version
  serial := by
    show state.serial + 1 = _
    rw [counts.serial,UInt64.ofNat_add]
    rfl

/-- A record of the log that is neither a lock, an unlock nor a save leaves what is known. -/
theorem Sound.loaded (sound : Sound serde path disk) {result : Except DafError StoredState} {now : Int}
    (right : result = .ok ((saves disk.log).getLast?.getD (.new now))) : Sound serde path (disk.record (.loaded n result)) where
  lock := by
    rw [Disk.record,holder_append]
    exact sound.lock
  current := by
    rw [Disk.record,saves_append,List.append_nil]
    exact sound.current
  loads := sound.loads.append fun m other same => ⟨now,(Record.loaded.inj same).2 ▸ right⟩
  numbered := sound.numbered.append fun m state same => by cases same

/-- What is loaded counts the saves so far. -/
theorem Sound.counts (sound : Sound serde path disk) (now : Int) : Counts (saves disk.log).length ((saves disk.log).getLast?.getD (.new now)) := by
  have current := sound.current
  cases last : (saves disk.log).getLast? with
  | none =>
    rw [List.getLast?_eq_none_iff] at last
    rw [last]
    exact ⟨rfl,rfl⟩
  | some state =>
    rw [last] at current
    obtain ⟨text,-,-,version⟩ := current
    exact ⟨version,sound.numbered.last last⟩

theorem Sound.parses (sound : Sound serde path disk) {data : List Byte} (there : disk.files path = some data) :
    parse serde path data = .ok ((saves disk.log).getLast?.getD (.new 0)) := by
  have current := sound.current
  cases last : (saves disk.log).getLast? with
  | none =>
    rw [last] at current
    rw [there] at current
    cases current
  | some state =>
    rw [last] at current
    obtain ⟨text,same,reads,version⟩ := current
    cases there.symm.trans same
    simp [parse,reads,version]

theorem Placed.move (placed : Placed serde path n disk run) {phase : Phase Byte} (flag : phase.flagged → run.phase.flagged)
    (holds : phase.holds = run.phase.holds) (inside : Inside serde path disk phase) : Placed serde path n disk (run.at phase) where
  at_path := placed.at_path
  at_lock := placed.at_lock
  flag := fun flagged => placed.flag (flag flagged)
  mine := holds ▸ placed.mine
  inside := inside

/-- The run that has the lock loads the last state that was saved. -/
theorem load_keeps (sound : Sound serde path disk) (placed : Placed serde path n disk run) (flagged : run.phase.flagged) (holds : run.phase.holds)
    {result : Except DafError StoredState} (now : Int) (right : result = .ok ((saves disk.log).getLast?.getD (.new now))) :
    Sound serde path (returnLoad n disk run result).1 ∧ Placed serde path n (returnLoad n disk run result).1 (returnLoad n disk run result).2 := by
  refine ⟨sound.loaded right,?_⟩
  subst right
  refine { at_path := placed.at_path, at_lock := placed.at_lock, flag := fun _ => placed.flag flagged, mine := ?_, inside := ?_ }
  · show holder (disk.log ++ [_]) = some n ↔ _
    rw [holder_append]
    exact iff_of_true (placed.mine.mpr holds) rfl
  · show Counts (saves (disk.log ++ [_])).length _
    rw [saves_append,List.append_nil]
    exact sound.counts now

/-- The lock file comes and goes beside the file of the state. -/
theorem Sound.current_beside (sound : Sound serde path disk) (lock : Option (List Byte)) {event : Record} (silent : saves [event] = []) :
    Current serde (Function.update disk.files (lock_path path) lock path) (saves (disk.log ++ [event])).getLast? := by
  have same : saves (disk.log ++ [event]) = saves disk.log := by
    rw [saves,List.filterMap_append]
    exact (congrArg (saves disk.log ++ ·) silent).trans (List.append_nil _)
  rw [Function.update_of_ne (lock_ne_path path).symm,same]
  exact sound.current

theorem lock_keeps (sound : Sound serde path disk) (at_path : run.store.path = path) (at_lock : run.store.lock_path = lock_path path) :
    Sound serde path ((disk.write (lock_path path) []).record (.locked n)) ∧
      Placed serde path n ((disk.write (lock_path path) []).record (.locked n)) (run.at .set_flag) := by
  refine ⟨{ lock := ?_, current := ?_, loads := ?_, numbered := ?_ },{ at_path, at_lock, flag := nofun, mine := ?_, inside := trivial }⟩
  · simp [Disk.record,Disk.write,holder_append]
  · exact sound.current_beside (some []) rfl
  · exact sound.loads.append fun m result same => by cases same
  · exact sound.numbered.append fun m state same => by cases same
  · show holder (disk.log ++ [_]) = some n ↔ _
    rw [holder_append]
    exact iff_of_true rfl rfl

theorem unlock_keeps (sound : Sound serde path disk) (placed : Placed serde path n disk run) :
    Sound serde path ((disk.remove (lock_path path)).record (.unlocked n)) ∧
      Placed serde path n ((disk.remove (lock_path path)).record (.unlocked n)) (run.at .clear_flag) := by
  refine ⟨{ lock := ?_, current := ?_, loads := ?_, numbered := ?_ },
    { at_path := placed.at_path, at_lock := placed.at_lock, flag := nofun, mine := ?_, inside := trivial }⟩
  · simp [Disk.record,Disk.remove,holder_append]
  · exact sound.current_beside none rfl
  · exact sound.loads.append fun m result same => by cases same
  · exact sound.numbered.append fun m state same => by cases same
  · show holder (disk.log ++ [_]) = some n ↔ _
    rw [holder_append]
    exact iff_of_false nofun nofun

/-- What is written to the temporary file is not seen elsewhere. -/
theorem Sound.tmp (sound : Sound serde path disk) (data : List Byte) : Sound serde path (disk.write (tmp_path path) data) where
  lock := by
    show (Function.update disk.files (tmp_path path) (some data) (lock_path path)).isSome ↔ (holder disk.log).isSome
    rw [Function.update_of_ne (tmp_ne_lock path).symm]
    exact sound.lock
  current := by
    show Current serde (Function.update disk.files (tmp_path path) (some data) path) (saves disk.log).getLast?
    rw [Function.update_of_ne (tmp_ne_path path).symm]
    exact sound.current
  loads := sound.loads
  numbered := sound.numbered

theorem rename_keeps (sound : Sound serde path disk) (placed : Placed serde path n disk run) (flagged : run.phase.flagged) (holds : run.phase.holds)
    {state : StoredState} {text : List Byte} (counts : Counts ((saves disk.log).length + 1) state) (reads : serde.from_str text = some state) :
    Sound serde path (((disk.remove (tmp_path path)).write path text).record (.saved n state)) ∧
      Placed serde path n (((disk.remove (tmp_path path)).write path text).record (.saved n state)) (run.at (.loaded state)) := by
  refine ⟨{ lock := ?_, current := ?_, loads := ?_, numbered := ?_ },
    { at_path := placed.at_path, at_lock := placed.at_lock, flag := fun _ => placed.flag flagged, mine := ?_, inside := ?_ }⟩
  · show (Function.update (Function.update disk.files (tmp_path path) none) path (some text) (lock_path path)).isSome ↔
      (holder (disk.log ++ [Record.saved n state])).isSome
    rw [Function.update_of_ne (lock_ne_path path),Function.update_of_ne (tmp_ne_lock path).symm,holder_append]
    exact sound.lock
  · show Current serde (Function.update (Function.update disk.files (tmp_path path) none) path (some text) path)
      (saves (disk.log ++ [Record.saved n state])).getLast?
    rw [Function.update_self,saves_append,List.getLast?_append]
    exact ⟨text,rfl,reads,counts.version⟩
  · exact sound.loads.append fun m result same => by cases same
  · exact sound.numbered.append fun m other same => (Record.saved.inj same).2 ▸ counts.serial
  · show holder (disk.log ++ [_]) = some n ↔ _
    rw [holder_append]
    exact iff_of_true (placed.mine.mpr holds) rfl
  · show Counts (saves (disk.log ++ [_])).length state
    rw [saves_append,List.length_append]
    exact counts

theorem take_writeAt {text : List Byte} {written bytes : Nat} (more : written < text.length) :
    writeAt (text.take written) written ((text.drop written).take (bytes + 1)) =
      text.take (written + ((text.drop written).take (bytes + 1)).length) := by
  have whole : (text.take written).length = written := by
    rw [List.length_take]
    omega
  have nothing : (text.take written).drop (written + ((text.drop written).take (bytes + 1)).length) = [] := List.drop_eq_nil_of_le (by omega)
  have split : text.take (written + ((text.drop written).take (bytes + 1)).length) =
      text.take written ++ (text.drop written).take ((text.drop written).take (bytes + 1)).length := List.take_add
  rw [writeAt,List.take_of_length_le (Nat.le_of_eq whole),nothing,List.append_nil,split,List.length_take,List.append_cancel_left_eq,
    List.take_eq_take_iff]
  simp

/-- The run that has the lock writes to its temporary file. -/
theorem Placed.write_tmp (placed : Placed serde path n disk run) (flagged : run.phase.flagged) (holds : run.phase.holds) {state : StoredState}
    {text data : List Byte} {written : Nat} (counts : Counts ((saves disk.log).length + 1) state) (reads : serde.from_str text = some state)
    (partly : data = text.take written) : Placed serde path n (disk.write (tmp_path path) data) (run.at (.write_tmp state text written)) where
  at_path := placed.at_path
  at_lock := placed.at_lock
  flag := fun _ => placed.flag flagged
  mine := iff_of_true (placed.mine.mpr holds) rfl
  inside := by
    refine ⟨counts,reads,?_⟩
    show Function.update disk.files _ _ _ = _
    rw [Function.update_self,partly]

theorem own_keeps (sound : Sound serde path disk) (placed : Placed serde path n disk run) (choice : Choice) (restored : Restored serde n disk run choice) :
    Sound serde path (act serde n disk run choice).1 ∧ Placed serde path n (act serde n disk run choice).1 (act serde n disk run choice).2 := by
  have at_path := placed.at_path
  have at_lock := placed.at_lock
  have mine := placed.mine
  have inside := placed.inside
  cases phase : run.phase with
  | check_flag =>
    simp only [act,phase]
    refine ⟨sound,?_⟩
    split <;> exact placed.move nofun (by rw [phase]; rfl) trivial
  | create_lock =>
    simp only [act,phase]
    cases there : disk.files run.store.lock_path with
    | some data => exact ⟨sound,placed.move nofun (by rw [phase]; rfl) trivial⟩
    | none =>
      rw [at_lock]
      exact lock_keeps sound at_path at_lock
  | set_flag =>
    simp only [act,phase]
    refine ⟨sound,{ at_path, at_lock, flag := fun _ => rfl, mine := ?_, inside := trivial }⟩
    rw [phase] at mine
    exact mine
  | check_file =>
    have flagged : run.phase.flagged := by rw [phase]; rfl
    have holds : run.phase.holds := by rw [phase]; rfl
    simp only [act,phase]
    rw [at_path]
    cases there : disk.files path with
    | none =>
      have unsaved : (saves disk.log).getLast? = none := by
        have current := sound.current
        cases last : (saves disk.log).getLast? with
        | none => rfl
        | some state =>
          rw [last,there] at current
          obtain ⟨text,impossible,-⟩ := current
          cases impossible
      exact load_keeps sound placed flagged holds choice.now (by rw [unsaved]; rfl)
    | some data => exact ⟨sound,placed.move (fun _ => flagged) (by rw [phase]; rfl) (by rw [Inside,there]; nofun)⟩
  | read_file =>
    have flagged : run.phase.flagged := by rw [phase]; rfl
    have holds : run.phase.holds := by rw [phase]; rfl
    rw [phase] at inside
    simp only [act,phase]
    rw [at_path]
    cases there : disk.files path with
    | none => exact absurd there inside
    | some data => exact load_keeps sound placed flagged holds 0 (sound.parses there)
  | loaded state =>
    have flagged : run.phase.flagged := by rw [phase]; rfl
    rw [phase] at inside
    simp only [act,phase]
    cases next : choice.operation with
    | modify resources outputs => exact ⟨sound,placed.move (fun _ => flagged) (by rw [phase]; rfl) ⟨inside.version,inside.serial⟩⟩
    | save =>
      simp only [Restored,phase,next] at restored
      obtain ⟨text,writes,reads⟩ := restored
      simp only [writes]
      exact ⟨sound,placed.move (fun _ => flagged) (by rw [phase]; rfl) ⟨inside.bump choice.now,reads⟩⟩
    | unlock => exact ⟨sound,placed.move (fun _ => flagged) (by rw [phase]; rfl) trivial⟩
  | open_tmp state text =>
    rw [phase] at inside
    obtain ⟨counts,reads⟩ := inside
    simp only [act,phase]
    rw [at_path]
    exact ⟨sound.tmp [],placed.write_tmp (by rw [phase]; rfl) (by rw [phase]; rfl) counts reads List.take_zero.symm⟩
  | write_tmp state text written =>
    rw [phase] at inside
    obtain ⟨counts,reads,partly⟩ := inside
    simp only [act,phase]
    rw [at_path]
    split
    case isTrue more =>
      refine ⟨sound.tmp _,placed.write_tmp (by rw [phase]; rfl) (by rw [phase]; rfl) counts reads ?_⟩
      rw [partly,Option.getD_some,take_writeAt more]
    case isFalse whole =>
      refine ⟨sound,placed.move (fun _ => by rw [phase]; rfl) (by rw [phase]; rfl) ⟨counts,text,reads,?_⟩⟩
      rw [partly,List.take_of_length_le (by omega)]
  | rename_tmp state =>
    rw [phase] at inside
    obtain ⟨counts,text,reads,there⟩ := inside
    simp only [act,phase]
    rw [at_path,there]
    exact rename_keeps sound placed (by rw [phase]; rfl) (by rw [phase]; rfl) counts reads
  | check_held =>
    have held : run.store.locked := placed.flag (by rw [phase]; rfl)
    simp only [act,phase,held,↓reduceIte]
    exact ⟨sound,placed.move (fun _ => by rw [phase]; rfl) (by rw [phase]; rfl) trivial⟩
  | remove_lock =>
    have there : (disk.files (lock_path path)).isSome := by
      rw [sound.lock,mine.mpr (by rw [phase]; rfl)]
      rfl
    obtain ⟨data,there⟩ := Option.isSome_iff_exists.mp there
    simp only [act,phase]
    rw [at_lock,there]
    exact unlock_keeps sound placed
  | clear_flag =>
    simp only [act,phase]
    refine ⟨sound,{ at_path, at_lock, flag := nofun, mine := ?_, inside := trivial }⟩
    rw [phase] at mine
    exact mine
  | refused error =>
    simp only [act,phase]
    exact ⟨sound,placed.move nofun (by rw [phase]) trivial⟩
  | finished =>
    simp only [act,phase]
    exact ⟨sound,placed.move nofun (by rw [phase]) trivial⟩

theorem act_holder (serde : Serde Byte) (n : Nat) (disk : Disk Byte) (run : Run Byte) (choice : Choice) :
    holder (act serde n disk run choice).1.log = holder disk.log ∨ holder (act serde n disk run choice).1.log = some n ∨
      holder (act serde n disk run choice).1.log = none := by
  have recorded : ∀ (other : Disk Byte) (record : Record), other.log = disk.log →
      (∀ m, record = .locked m → m = n) → holder (other.record record).log = holder disk.log ∨ holder (other.record record).log = some n ∨
        holder (other.record record).log = none := by
    intro other record same locker
    rw [Disk.record,holder_append,same]
    cases record with
    | locked m => exact .inr (.inl (congrArg some (locker m rfl)))
    | unlocked m => exact .inr (.inr rfl)
    | loaded | saved => exact .inl rfl
  unfold act
  repeat' split
  all_goals first
    | exact .inl rfl
    | exact recorded _ _ rfl fun m same => (Record.locked.inj same).symm
    | exact recorded _ _ rfl nofun

theorem act_idle (serde : Serde Byte) (n : Nat) (disk : Disk Byte) (run : Run Byte) (choice : Choice) (idle : run.phase.holds = false) :
    (act serde n disk run choice).1 = disk ∨ disk.files run.store.lock_path = none := by
  cases phase : run.phase with
  | create_lock =>
    simp only [act,phase]
    cases there : disk.files run.store.lock_path with
    | none => exact .inr rfl
    | some data => exact .inl rfl
  | check_flag | clear_flag | refused | finished => simp [act,phase]
  | _ =>
    rw [phase] at idle
    cases idle

/-- A run changes what is shared only while nobody else has the lock. -/
theorem act_foreign (sound : Sound serde path disk) (placed : Placed serde path n disk run) (choice : Choice) {m : Nat} (other : n ≠ m) :
    (act serde n disk run choice).1 = disk ∨ holder disk.log ≠ some m ∧ holder (act serde n disk run choice).1.log ≠ some m := by
  have free : holder disk.log ≠ some m → holder (act serde n disk run choice).1.log ≠ some m := by
    intro before after
    rcases act_holder serde n disk run choice with same | mine | nobody
    · exact before (same ▸ after)
    · exact other (Option.some.inj (mine.symm.trans after))
    · exact nomatch nobody.symm.trans after
  cases holds : run.phase.holds with
  | true =>
    have mine := placed.mine.mpr holds
    have before : holder disk.log ≠ some m := fun theirs => other (Option.some.inj (mine.symm.trans theirs))
    exact .inr ⟨before,free before⟩
  | false =>
    rcases act_idle serde n disk run choice holds with same | absent
    · exact .inl same
    · have nobody : holder disk.log = none := by
        have lock := sound.lock
        rw [← placed.at_lock,absent] at lock
        simpa using lock
      have before : holder disk.log ≠ some m := fun theirs => nomatch nobody.symm.trans theirs
      exact .inr ⟨before,free before⟩

/-- What is known of a run that does not have the lock does not depend on the files. -/
theorem Known.carry {other : Disk Byte} {found : Option (Run Byte)} (known : Known serde path n disk found) (before : holder disk.log ≠ some n)
    (after : holder other.log ≠ some n) : Known serde path n other found := by
  cases found with
  | none => exact after
  | some run =>
    have idle : ¬ run.phase.holds := fun holds => before (known.mine.mpr holds)
    refine ⟨known.at_path,known.at_lock,known.flag,iff_of_false after idle,?_⟩
    cases phase : run.phase with
    | check_flag | create_lock | clear_flag | refused | finished => trivial
    | _ => exact absurd (by rw [phase]; rfl) idle

theorem rule (serde : Serde Byte) (path : FilePath) (files : Files Byte) (fresh : files path = none ∧ files (lock_path path) = none) :
    Rule (runs serde path files) (Restored serde) (Sound serde path) (Known serde path) where
  initial := by
    refine ⟨{ lock := ?_, current := fresh.1, loads := ?_, numbered := rfl },fun n => nofun⟩
    · show (files (lock_path path)).isSome ↔ _
      rw [fresh.2]
      exact iff_of_false nofun nofun
    · intro before n result later split
      exact absurd (congrArg List.length split) (by simp [runs])
  enters n disk _ _ known := ⟨rfl,rfl,nofun,iff_of_false known nofun,trivial⟩
  shared n disk run choice sound placed restored := (own_keeps sound placed choice restored).1
  own n disk run choice sound placed restored := (own_keeps sound placed choice restored).2
  other n m disk run found choice other sound placed known _ := by
    rcases act_foreign sound placed choice other with same | ⟨before,after⟩
    · exact same.symm ▸ known
    · exact known.carry before after

/-! ### Whole runs -/

theorem no_lost_update (serde : Serde Byte) (path : FilePath) (files : Files Byte) (fresh : files path = none ∧ files (path.with_extension "tfstate.lock") = none)
    (events : List (Event Unit Choice)) (restored : Every (runs serde path files).step (Meets (Restored serde)) (runs serde path files).start events) :
    Exclusive ((runs serde path files).run events) ∧ LoadsCurrent ((runs serde path files).run events).shared.log ∧
      Numbered ((runs serde path files).run events).shared.log ∧
      ((saves ((runs serde path files).run events).shared.log).length < 2^64 → Sequential ((runs serde path files).run events).shared.log) := by
  have holds := (rule serde path files fresh).run restored
  refine ⟨fun n m a b first second firstHolds secondHolds => ?_,holds.shared.loads,holds.shared.numbered,holds.shared.numbered.sequential⟩
  have mine := (holds.call first).mine.mpr firstHolds
  have theirs := (holds.call second).mine.mpr secondHolds
  exact Option.some.inj (mine.symm.trans theirs)

end

/-! ### A run that saves -/

def head : List Char := "\x7b\n  \"version\": 1,\n  \"serial\": ".toList

def tail : List Char := ",\n  \"resources\": \x7b\x7d,\n  \"outputs\": \x7b\x7d,\n  \"last_modified\": \"1970-01-01T00:00:00Z\"\n\x7d".toList

/-- The text of a state without resources and outputs. -/
def blankText (serial : UInt64) : List Char := head ++ (Nat.toDigits 10 serial.toNat ++ tail)

def blank (serial : UInt64) : StoredState := { StoredState.new 0 with serial }

/-- The serializer on states without resources and outputs, last changed at the start of time. -/
def plain : Serde Char where
  to_string_pretty state :=
    if state.resources.keys = [] ∧ state.outputs.keys = [] ∧ state.version = STATE_VERSION ∧ state.last_modified = 0 then some (blankText state.serial)
    else none
  from_str text :=
    let serial := UInt64.ofNat (Nat.ofDigitChars 10 ((text.drop head.length).takeWhile Char.isDigit) 0)
    if text = blankText serial then some (blank serial) else none

theorem plain_writes (serial : UInt64) : plain.to_string_pretty (blank serial) = some (blankText serial) := by
  simp [plain,blank,StoredState.new,ProvisionState.new]

theorem plain_restores (serial : UInt64) : plain.Restores (blank serial) := by
  refine ⟨blankText serial,plain_writes serial,?_⟩
  have digits : ((blankText serial).drop head.length).takeWhile Char.isDigit = Nat.toDigits 10 serial.toNat := by
    rw [blankText,List.drop_left,List.takeWhile_append_of_pos fun c inside => Nat.isDigit_of_mem_toDigits (by decide) (by decide) inside]
    have stops : tail.takeWhile Char.isDigit = [] := by
      unfold tail
      rw [String.toList_ofList]
      rfl
    rw [stops,List.append_nil]
  simp only [plain,digits,Nat.ofDigitChars_ten_toDigits,UInt64.ofNat_toNat,↓reduceIte]

def save (bytes : Nat) : List Choice := [⟨0,0,.save⟩,⟨0,0,.unlock⟩,⟨0,bytes,.unlock⟩,⟨0,0,.unlock⟩,⟨0,0,.unlock⟩]

/-- The first run after its lock and load, and what it does for a number of saves. -/
def saveTimes : Nat → UInt64 → List Choice
  | 0,_ => []
  | k+1,serial => save (blankText (serial + 1)).length ++ saveTimes k (serial + 1)

/-- It checks the flag, creates the lock file, sets the flag and finds no state file. -/
def opening : List Choice := List.replicate 4 ⟨0,0,.save⟩

def events (k : Nat) : List (Event Unit Choice) := .call () :: (opening ++ saveTimes k 0).map (.act 0)

def statePath : FilePath := ⟨"work","daf.tfstate"⟩

abbrev system : System (Disk Char) (Run Char) Unit Choice := runs plain statePath fun _ => none

def store : FileStateStore := { FileStateStore.new statePath with locked := true }

/-- The world of one run. -/
def solo (disk : Disk Char) (phase : Phase Char) : World (Disk Char) (Run Char) := ⟨disk,[⟨store,phase⟩]⟩

theorem blank_bump (serial : UInt64) : (blank serial).bump 0 = blank (serial + 1) := by
  simp [blank,StoredState.bump,ProvisionState.bump,StoredState.new,ProvisionState.new]

theorem solo_step (disk : Disk Char) (phase : Phase Char) (choice : Choice) :
    system.step (solo disk phase) (.act 0 choice) = ⟨(act plain 0 disk ⟨store,phase⟩ choice).1,[(act plain 0 disk ⟨store,phase⟩ choice).2]⟩ := rfl

theorem solo_meets {disk : Disk Char} {phase : Phase Char} {choice : Choice} (restored : Restored plain 0 disk ⟨store,phase⟩ choice) :
    Meets (Restored plain) (solo disk phase) (.act 0 choice : Event Unit Choice) := fun _ there => Option.some.inj there ▸ restored

/-- The disk once the text of a state has been written and renamed. -/
def saved (disk : Disk Char) (serial : UInt64) : Disk Char :=
  let written := (disk.write (tmp_path statePath) []).write (tmp_path statePath) (blankText serial)
  ((written.remove (tmp_path statePath)).write statePath (blankText serial)).record (.saved 0 (blank serial))

theorem save_run (serial : UInt64) (disk : Disk Char) :
    Runs.run system.step (solo disk (.loaded (blank serial))) ((save (blankText (serial + 1)).length).map (.act 0)) =
        solo (saved disk (serial + 1)) (.loaded (blank (serial + 1))) ∧
      Every system.step (Meets (Restored plain)) (solo disk (.loaded (blank serial))) ((save (blankText (serial + 1)).length).map (.act 0)) := by
  have more : 0 < (blankText (serial + 1)).length := by
    have part : 0 < head.length := by
      unfold head
      rw [String.toList_ofList]
      exact Nat.succ_pos _
    rw [blankText,List.length_append]
    omega
  have writes := plain_writes (serial + 1)
  have restores : plain.Restores ((blank serial).bump 0) := blank_bump serial ▸ plain_restores (serial + 1)
  unfold saved
  generalize blankText (serial + 1) = text at more writes
  have begins : system.step (solo disk (.loaded (blank serial))) (.act 0 ⟨0,0,.save⟩) = solo disk (.open_tmp (blank (serial + 1)) text) := by
    rw [solo_step]
    simp only [act,blank_bump,writes]
    rfl
  have opens : system.step (solo disk (.open_tmp (blank (serial + 1)) text)) (.act 0 ⟨0,0,.unlock⟩) =
      solo (disk.write (tmp_path statePath) []) (.write_tmp (blank (serial + 1)) text 0) := rfl
  have fills : system.step (solo (disk.write (tmp_path statePath) []) (.write_tmp (blank (serial + 1)) text 0)) (.act 0 ⟨0,text.length,.unlock⟩) =
      solo ((disk.write (tmp_path statePath) []).write (tmp_path statePath) text) (.write_tmp (blank (serial + 1)) text text.length) := by
    rw [solo_step]
    simp only [act,more,↓reduceIte,List.drop_zero,List.take_of_length_le (Nat.le_succ _),Nat.zero_add]
    simp only [Disk.write,store,FileStateStore.new,Function.update_self,Option.getD_some,writeAt,List.take_zero,List.nil_append,List.drop_nil,List.append_nil]
    rfl
  have closes (other : Disk Char) : system.step (solo other (.write_tmp (blank (serial + 1)) text text.length)) (.act 0 ⟨0,0,.unlock⟩) =
      solo other (.rename_tmp (blank (serial + 1))) := by
    rw [solo_step]
    simp only [act,Nat.lt_irrefl,↓reduceIte]
    rfl
  have renames (other : Disk Char) (there : other.files (tmp_path statePath) = some text) :
      system.step (solo other (.rename_tmp (blank (serial + 1)))) (.act 0 ⟨0,0,.unlock⟩) =
        solo (((other.remove (tmp_path statePath)).write statePath text).record (.saved 0 (blank (serial + 1)))) (.loaded (blank (serial + 1))) := by
    rw [solo_step]
    simp only [act,store,FileStateStore.new,there]
    rfl
  have there : ((disk.write (tmp_path statePath) []).write (tmp_path statePath) text).files (tmp_path statePath) = some text := by
    simp [Disk.write]
  simp only [save,List.map_cons,List.map_nil,Runs.run,List.foldl_cons,List.foldl_nil,Every]
  rw [begins,opens,fills,closes,renames _ there]
  exact ⟨rfl,solo_meets restores,solo_meets trivial,solo_meets trivial,solo_meets trivial,solo_meets trivial,trivial⟩

theorem saveTimes_run (k : Nat) (serial : UInt64) (disk : Disk Char) :
    (saves (Runs.run system.step (solo disk (.loaded (blank serial))) ((saveTimes k serial).map (.act 0))).shared.log).length = (saves disk.log).length + k ∧
      Every system.step (Meets (Restored plain)) (solo disk (.loaded (blank serial))) ((saveTimes k serial).map (.act 0)) := by
  induction k generalizing serial disk with
  | zero => exact ⟨rfl,trivial⟩
  | succ k ih =>
    obtain ⟨first,every⟩ := save_run serial disk
    obtain ⟨count,rest⟩ := ih (serial + 1) (saved disk (serial + 1))
    have one : (saves (saved disk (serial + 1)).log).length = (saves disk.log).length + 1 := by
      show (saves (disk.log ++ [_])).length = _
      rw [saves_append,List.length_append]
      rfl
    rw [saveTimes,List.map_append,Runs.run_append,Runs.every_append,first]
    exact ⟨by omega,every,rest⟩

/-- The disk once the first run has the lock and found no state. -/
def opened : Disk Char := ((Disk.write ⟨fun _ => none,[]⟩ (lock_path statePath) []).record (.locked 0)).record (.loaded 0 (.ok (blank 0)))

theorem opening_run : Runs.run system.step system.start (.call () :: opening.map (.act 0)) = solo opened (.loaded (blank 0)) ∧
    Every system.step (Meets (Restored plain)) system.start (.call () :: opening.map (.act 0)) :=
  ⟨rfl,trivial,fun _ there => Option.some.inj there ▸ trivial,fun _ there => Option.some.inj there ▸ trivial,fun _ there => Option.some.inj there ▸ trivial,
    fun _ there => Option.some.inj there ▸ trivial,trivial⟩

theorem events_run (k : Nat) : (saves (system.run (events k)).shared.log).length = k ∧ Every system.step (Meets (Restored plain)) system.start (events k) := by
  obtain ⟨begins,first⟩ := opening_run
  obtain ⟨count,rest⟩ := saveTimes_run k 0 opened
  have parts : events k = (.call () :: opening.map (.act 0)) ++ (saveTimes k 0).map (.act 0) := by
    rw [events,List.map_append]
    rfl
  rw [System.run,parts,Runs.run_append,Runs.every_append,begins]
  exact ⟨by rw [count]; exact Nat.zero_add k,first,rest⟩

/-- Two saves of one run. -/
theorem two_saves : (saves (system.run (events 2)).shared.log).length = 2 ∧ Exclusive (system.run (events 2)) ∧
    LoadsCurrent (system.run (events 2)).shared.log ∧ Sequential (system.run (events 2)).shared.log := by
  obtain ⟨k,two⟩ : ∃ k, k = 2 := ⟨2,rfl⟩
  rw [← two]
  obtain ⟨count,restored⟩ := events_run k
  obtain ⟨exclusive,loads,-,sequential⟩ := no_lost_update plain statePath (fun _ => none) ⟨rfl,rfl⟩ (events k) restored
  have few : (saves (system.run (events k)).shared.log).length < 2^64 := by omega
  exact ⟨count,exclusive,loads,sequential few⟩

/-- After 2^64 saves the serial is 0 again. -/
theorem serial_wraps : ¬ ∀ (serde : Serde Char) (path : FilePath) (files : Files Char) (events : List (Event Unit Choice)),
    files path = none ∧ files (path.with_extension "tfstate.lock") = none →
      Every (runs serde path files).step (Meets (Restored serde)) (runs serde path files).start events →
        Sequential ((runs serde path files).run events).shared.log := by
  intro claim
  obtain ⟨k,many⟩ : ∃ k, k = 2^64 := ⟨_,rfl⟩
  obtain ⟨count,restored⟩ := events_run k
  have sequential : Sequential (system.run (events k)).shared.log := claim plain statePath (fun _ => none) (events k) ⟨rfl,rfl⟩ restored
  have last : k ∈ (saves (system.run (events k)).shared.log).map (·.serial.toNat) := by
    rw [sequential,count]
    exact List.mem_range'_1.mpr ⟨by omega,by omega⟩
  obtain ⟨state,-,serial⟩ := List.mem_map.mp last
  have below := state.serial.toNat_lt
  omega

end Daf.StateStore
