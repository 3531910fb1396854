import Daf.Runs
import Mathlib.Logic.Function.Basic
import Mathlib.Data.List.Basic

/-!
A writer that appends to log files, and retention sweeps that move old log files into the archive
directory. The two know each other only by file names: a step of the writer comes between any two steps
of a sweep.
-/
namespace Daf.LogArchive
open Daf.Runs

structure RetentionPolicy where
  max_age : Option Int
  max_size_bytes : Option Nat
  max_entries : Option Nat
  archive_after : Option Int
deriving DecidableEq,Repr

def RetentionPolicy.keep_forever : RetentionPolicy := ⟨none,none,none,none⟩

def RetentionPolicy.with_archive_after (policy : RetentionPolicy) (age : Int) : RetentionPolicy := { policy with archive_after := some age }

def RetentionPolicy.is_expired (policy : RetentionPolicy) (now timestamp : Int) : Bool :=
  match policy.max_age with
  | some max_age => now - timestamp > max_age
  | none => false

def RetentionPolicy.should_archive (policy : RetentionPolicy) (now timestamp : Int) : Bool :=
  match policy.archive_after with
  | some archive_after => now - timestamp > archive_after
  | none => false

structure RotationPolicy where
  max_size_bytes : Nat
  max_age : Int
deriving DecidableEq,Repr

structure FileWriter where
  prefixText : String
  policy : RotationPolicy
deriving DecidableEq,Repr

/-- The name of a new log file, from the time and a UUID in text. -/
def make_path (writer : FileWriter) (ts uuid : String) : String := writer.prefixText ++ "_" ++ ts ++ "_" ++ uuid ++ ".ndjson"

/-- A line of a file, and the call of `write_entry` that brought it, if it was one of this run. -/
structure Line where
  serial : Option Nat
  text : String
deriving DecidableEq,Repr

structure File where
  lines : List Line
  modified : Int
deriving DecidableEq,Repr

def File.len (file : File) : Nat := (file.lines.map (·.text.utf8ByteSize)).sum

/-- A name in the log directory or in the archive directory. -/
inductive Place where
  | log (name : String)
  | archive (name : String)
deriving DecidableEq,Repr

abbrev Files := Place → Option File

structure FileState where
  current_path : String
  current_size : Nat
  opened_at : Int
  closed : Bool
deriving DecidableEq,Repr

/-- A write that holds the lock of the writer's operations: it has chosen its path, or opened the file
there. An open file goes along when it is renamed, and has no place any more when another one replaces it. -/
inductive Operation where
  | picked (path : String) (serial : Nat) (line : String)
  | opened (handle : Option Place) (serial : Nat) (line : String)
deriving DecidableEq,Repr

def Operation.serial : Operation → Nat
  | .picked _ serial _ => serial
  | .opened _ serial _ => serial

structure FileInfo where
  path : String
  size : Nat
  modified : Int
deriving DecidableEq,Repr

structure RetentionStats where
  files_scanned : Nat
  files_deleted : Nat
  files_archived : Nat
  bytes_reclaimed : Nat
  /-- The files that could not be moved or deleted. -/
  errors : List String
deriving DecidableEq,Repr

structure Sweep where
  /-- Whether the directory is still being read. -/
  scanning : Bool
  file_infos : List FileInfo
  total_size : Nat
  cumulative_deleted : Nat
  stats : RetentionStats
deriving DecidableEq,Repr

structure World where
  files : Files
  state : FileState
  operation : Option Operation
  sweeps : List Sweep
  /-- How many calls of `write_entry` have begun. -/
  serial : Nat
  /-- The calls that have returned `Ok`. -/
  acknowledged : List Nat

def archiveName (name : String) : String := name ++ ".archived"

/-- The extension of the name is `ndjson`. -/
def isNdjson (name : String) : Bool := name.endsWith ".ndjson" && name != ".ndjson"

section
variable (writer : FileWriter) (policy : RetentionPolicy)

def needs_rotation (state : FileState) (now : Int) : Bool :=
  !state.closed && (writer.policy.max_size_bytes ≤ state.current_size || writer.policy.max_age ≤ now - state.opened_at)

/-- `write_entry` takes its lock and chooses a path, a new one if the log rotates. A call that finds the
lock taken waits. -/
def pick (w : World) (line : String) (now : Int) (ts uuid : String) : World :=
  match w.operation with
  | some _ => w
  | none =>
    if w.state.closed then { w with serial := w.serial + 1 }
    else
      let state :=
        if needs_rotation writer w.state now then { w.state with current_path := make_path writer ts uuid,current_size := 0,opened_at := now } else w.state
      { w with state,operation := some (.picked state.current_path w.serial (line ++ "\n")),serial := w.serial + 1 }

/-- The file is opened, and made if there is none. -/
def openFile (w : World) (now : Int) : World :=
  match w.operation with
  | some (.picked path serial line) =>
    { w with
      files := if (w.files (.log path)).isSome then w.files else Function.update w.files (.log path) (some ⟨[],now⟩)
      operation := some (.opened (some (.log path)) serial line) }
  | _ => w

/-- The line is written and synced, and `write_entry` returns `Ok`. -/
def append (w : World) (now : Int) : World :=
  match w.operation with
  | some (.opened handle serial line) =>
    { w with
      files :=
        match handle with
        | none => w.files
        | some place => Function.update w.files place ((w.files place).map fun file => ⟨file.lines ++ [⟨some serial,line⟩],now⟩)
      state := { w.state with current_size := w.state.current_size + line.utf8ByteSize }
      operation := none
      acknowledged := w.acknowledged ++ [serial] }
  | _ => w

def rotate (w : World) (now : Int) (ts uuid : String) : World :=
  match w.operation with
  | some _ => w
  | none => if w.state.closed then w else { w with state := { w.state with current_path := make_path writer ts uuid,current_size := 0,opened_at := now } }

def close (w : World) : World :=
  match w.operation with
  | some _ => w
  | none => { w with state := { w.state with closed := true } }

/-- An open file follows its name; the one that had the new name has none now. -/
def moveHandle (source target : Place) : Operation → Operation
  | .picked path serial line => .picked path serial line
  | .opened handle serial line =>
    .opened (if handle = some source then some target else if handle = some target then none else handle) serial line

/-- Renaming replaces what had the new name. -/
def rename (w : World) (source target : Place) : Option World :=
  match w.files source with
  | none => none
  | some file =>
    some { w with files := Function.update (Function.update w.files target (some file)) source none,operation := w.operation.map (moveHandle source target) }

def remove (w : World) (place : Place) : Option World :=
  match w.files place with
  | none => none
  | some _ =>
    some { w with files := Function.update w.files place none,operation := w.operation.map fun
      | .opened handle serial line => .opened (if handle = some place then none else handle) serial line
      | .picked path serial line => .picked path serial line }

def beginSweep (w : World) : World := { w with sweeps := w.sweeps ++ [⟨true,[],0,0,⟨0,0,0,0,[]⟩⟩] }

/-- The next entry of the directory is looked at. -/
def scan (w : World) (n : Nat) (name : String) : World :=
  match w.sweeps[n]?,w.files (.log name) with
  | some sweep,some file =>
    if sweep.scanning && isNdjson name then
      { w with sweeps := w.sweeps.set n { sweep with
        file_infos := sweep.file_infos ++ [⟨name,file.len,file.modified⟩]
        stats := { sweep.stats with files_scanned := sweep.stats.files_scanned + 1 } } }
    else w
  | _,_ => w

/-- The files are sorted, the oldest first. -/
def sort (w : World) (n : Nat) : World :=
  match w.sweeps[n]? with
  | some sweep =>
    if sweep.scanning then
      { w with sweeps := w.sweeps.set n { sweep with
        scanning := false
        file_infos := sweep.file_infos.mergeSort (fun a b => decide (a.modified ≤ b.modified))
        total_size := (sweep.file_infos.map FileInfo.size).sum } }
    else w
  | none => w

/-- The outcome of deleting a file, in the sweep's statistics. -/
def delete (w : World) (sweep : Sweep) (info : FileInfo) : World × Sweep :=
  match remove w (.log info.path) with
  | none => (w,{ sweep with stats := { sweep.stats with errors := sweep.stats.errors ++ ["delete " ++ info.path] } })
  | some w =>
    (w,{ sweep with
      cumulative_deleted := sweep.cumulative_deleted + info.size
      stats := { sweep.stats with files_deleted := sweep.stats.files_deleted + 1,bytes_reclaimed := sweep.stats.bytes_reclaimed + info.size } })

def archive (w : World) (sweep : Sweep) (info : FileInfo) : World × Sweep :=
  match rename w (.log info.path) (.archive (archiveName info.path)) with
  | none => (w,{ sweep with stats := { sweep.stats with errors := sweep.stats.errors ++ ["archive " ++ info.path] } })
  | some w => (w,{ sweep with stats := { sweep.stats with files_archived := sweep.stats.files_archived + 1 } })

/-- What a sweep does with one file. -/
def treat (w : World) (sweep : Sweep) (info : FileInfo) (now : Int) : World × Sweep :=
  if policy.is_expired now info.modified then delete w sweep info
  else if policy.max_size_bytes.any (fun max_size => sweep.total_size - sweep.cumulative_deleted > max_size) then delete w sweep info
  else if policy.should_archive now info.modified then archive w sweep info
  else (w,sweep)

/-- A sweep goes on to its next file. -/
def next (w : World) (n : Nat) (now : Int) : World :=
  match w.sweeps[n]? with
  | none => w
  | some sweep =>
    match sweep.scanning,sweep.file_infos with
    | false,info :: rest =>
      let treated := treat policy w { sweep with file_infos := rest } info now
      { treated.1 with sweeps := treated.1.sweeps.set n treated.2 }
    | _,_ => w

inductive Event where
  | write (line : String) (now : Int) (ts uuid : String)
  | open_file (now : Int)
  | append (now : Int)
  | rotate (now : Int) (ts uuid : String)
  | close
  | sweep
  | scan (n : Nat) (name : String)
  | sort (n : Nat)
  | next (n : Nat) (now : Int)
deriving DecidableEq,Repr

def World.step (w : World) : Event → World
  | .write line now ts uuid => pick writer w line now ts uuid
  | .open_file now => openFile w now
  | .append now => append w now
  | .rotate now ts uuid => rotate writer w now ts uuid
  | .close => close w
  | .sweep => beginSweep w
  | .scan n name => scan w n name
  | .sort n => sort w n
  | .next n now => next policy w n now

end

/-- A file that was there before. -/
def oldFile (lines : List String) (modified : Int) : File := ⟨lines.map (⟨none,·⟩),modified⟩

/-- A writer that is opened on directories with these files. -/
def World.new (writer : FileWriter) (files : Place → Option (List String × Int)) (now : Int) (ts uuid : String) : World :=
  ⟨fun place => (files place).map fun file => oldFile file.1 file.2,⟨make_path writer ts uuid,0,now,false⟩,none,[],0,[]⟩

/-! ### Where the entries are -/

/-- The entry of this call is a line of the file at this place. -/
def Has (w : World) (n : Nat) (place : Place) : Prop := ∃ file, w.files place = some file ∧ ∃ line ∈ file.lines, line.serial = some n

/-- The entry is a line of exactly one file. -/
def Stored (w : World) (n : Nat) : Prop := ∃ place, Has w n place ∧ ∀ other, Has w n other → other = place

/-- A policy that sets nothing but `archive_after`. -/
def archiving (age : Int) : RetentionPolicy := RetentionPolicy.keep_forever.with_archive_after age

section
variable (writer : FileWriter) (age : Int)

abbrev step (w : World) (event : Event) : World := w.step writer (archiving age) event

/-- After the step every acknowledged entry is a line of exactly one file. -/
def Sound (w : World) (event : Event) : Prop := ∀ n ∈ (step writer age w event).acknowledged, Stored (step writer age w event) n

/-- A sweep archives a file only where the archive has no acknowledged entry under its name, and a line is
written to a file that no other one has replaced. -/
def Fair (w : World) : Event → Prop
  | .append _ => ∀ serial line, w.operation ≠ some (.opened none serial line)
  | .next n now => ∀ sweep info rest, w.sweeps[n]? = some sweep → sweep.scanning = false → sweep.file_infos = info :: rest →
      (archiving age).should_archive now info.modified → (w.files (.log info.path)).isSome →
        ∀ m ∈ w.acknowledged, ¬ Has w m (.archive (archiveName info.path))
  | _ => True

end

structure Inv (w : World) : Prop where
  once : ∀ n place other, Has w n place → Has w n other → place = other
  stored : ∀ n ∈ w.acknowledged, ∃ place, Has w n place
  written : ∀ n place, Has w n place → n ∈ w.acknowledged
  below : ∀ n ∈ w.acknowledged, n < w.serial
  pending : ∀ operation, w.operation = some operation → operation.serial < w.serial ∧ operation.serial ∉ w.acknowledged
  linked : ∀ place serial line, w.operation = some (.opened (some place) serial line) → (w.files place).isSome

section
variable {w v : World}

theorem Inv.all_stored (inv : Inv w) {n : Nat} (inside : n ∈ w.acknowledged) : Stored w n := by
  obtain ⟨place,here⟩ := inv.stored n inside
  exact ⟨place,here,fun other there => inv.once n other place there here⟩

/-- The same entries in the same files. -/
theorem Inv.frame (inv : Inv w) (has : ∀ n place, Has v n place ↔ Has w n place) (same : v.acknowledged = w.acknowledged) (later : w.serial ≤ v.serial)
    (pending : ∀ operation, v.operation = some operation → operation.serial < v.serial ∧ operation.serial ∉ w.acknowledged)
    (linked : ∀ place serial line, v.operation = some (.opened (some place) serial line) → (v.files place).isSome) : Inv v where
  once n place other here there := inv.once n place other ((has n place).mp here) ((has n other).mp there)
  stored n inside := by
    obtain ⟨place,here⟩ := inv.stored n (same ▸ inside)
    exact ⟨place,(has n place).mpr here⟩
  written n place here := same ▸ inv.written n place ((has n place).mp here)
  below n inside := Nat.lt_of_lt_of_le (inv.below n (same ▸ inside)) later
  pending := same ▸ pending
  linked := linked

/-- A step of a sweep that moves no file. -/
theorem Inv.sweeps (inv : Inv w) (sweeps : List Sweep) : Inv { w with sweeps } :=
  inv.frame (fun _ _ => Iff.rfl) rfl (Nat.le_refl _) inv.pending inv.linked

theorem inv_pick (inv : Inv w) (writer : FileWriter) (line : String) (now : Int) (ts uuid : String) : Inv (pick writer w line now ts uuid) := by
  unfold pick
  cases taken : w.operation with
  | some operation => exact inv
  | none =>
    dsimp only
    have fresh : w.serial ∉ w.acknowledged := fun inside => Nat.lt_irrefl _ (inv.below _ inside)
    split
    · exact inv.frame (fun _ _ => Iff.rfl) rfl (Nat.le_succ _) (by simp) (by simp)
    · refine inv.frame (fun _ _ => Iff.rfl) rfl (Nat.le_succ _) ?_ (by simp)
      rintro operation same
      cases same
      exact ⟨Nat.lt_succ_self _,fresh⟩

theorem inv_openFile (inv : Inv w) (now : Int) : Inv (openFile w now) := by
  unfold openFile
  split
  next path serial line taken =>
    have pending := inv.pending _ taken
    by_cases there : (w.files (.log path)).isSome
    · rw [if_pos there]
      refine inv.frame (fun _ _ => Iff.rfl) rfl (Nat.le_refl _) (by rintro operation same; cases same; exact pending) ?_
      rintro place serial line same
      cases same
      exact there
    · rw [if_neg there]
      have none : w.files (.log path) = none := Option.not_isSome_iff_eq_none.mp there
      refine inv.frame (fun n place => ?_) rfl (Nat.le_refl _) (by rintro operation same; cases same; exact pending) ?_
      · unfold Has
        by_cases same : place = .log path
        · subst same
          simp [none]
        · simp [Function.update_of_ne same]
      · rintro place serial line same
        cases same
        simp
  next => exact inv

theorem inv_rotate (inv : Inv w) (writer : FileWriter) (now : Int) (ts uuid : String) : Inv (rotate writer w now ts uuid) := by
  unfold rotate
  split
  · exact inv
  · split
    · exact inv
    · exact inv.frame (fun _ _ => Iff.rfl) rfl (Nat.le_refl _) inv.pending inv.linked

theorem inv_close (inv : Inv w) : Inv (close w) := by
  unfold close
  split
  · exact inv
  · exact inv.frame (fun _ _ => Iff.rfl) rfl (Nat.le_refl _) inv.pending inv.linked

theorem inv_scan (inv : Inv w) (n : Nat) (name : String) : Inv (scan w n name) := by
  unfold scan
  split
  · split
    · exact inv.sweeps _
    · exact inv
  · exact inv

theorem inv_sort (inv : Inv w) (n : Nat) : Inv (sort w n) := by
  unfold sort
  split
  · split
    · exact inv.sweeps _
    · exact inv
  · exact inv

/-! ### A line is written -/

theorem has_append {place : Place} {serial : Nat} {line : String} (opened : w.operation = some (.opened (some place) serial line))
    (there : (w.files place).isSome) (now : Int) (n : Nat) (other : Place) :
    Has (append w now) n other ↔ Has w n other ∨ n = serial ∧ other = place := by
  obtain ⟨file,found⟩ := Option.isSome_iff_exists.mp there
  have files : (append w now).files = Function.update w.files place (some ⟨file.lines ++ [⟨some serial,line⟩],now⟩) := by
    simp [append,opened,found]
  unfold Has
  rw [files]
  by_cases same : other = place
  · subst same
    rw [Function.update_self,found]
    constructor
    · rintro ⟨after,same,last,inside,named⟩
      cases same
      rcases List.mem_append.mp inside with old | new
      · exact .inl ⟨file,rfl,last,old,named⟩
      · cases List.mem_singleton.mp new
        exact .inr ⟨(Option.some.inj named).symm,rfl⟩
    · rintro (⟨before,same,last,inside,named⟩ | ⟨rfl,-⟩)
      · cases same
        exact ⟨_,rfl,last,List.mem_append_left _ inside,named⟩
      · exact ⟨_,rfl,_,List.mem_append_right _ (List.mem_singleton_self _),rfl⟩
  · rw [Function.update_of_ne same]
    simp [same]

theorem acknowledged_append {handle : Option Place} {serial : Nat} {line : String} (opened : w.operation = some (.opened handle serial line)) (now : Int) :
    (append w now).acknowledged = w.acknowledged ++ [serial] ∧ (append w now).operation = none ∧ (append w now).serial = w.serial := by
  simp [append,opened]

theorem inv_append (inv : Inv w) (now : Int) (linked : ∀ serial line, w.operation ≠ some (.opened none serial line)) : Inv (append w now) := by
  rcases taken : w.operation with _ | ⟨path,serial,line⟩ | ⟨handle,serial,line⟩
  · have same : append w now = w := by simp [append,taken]
    rw [same]
    exact inv
  · have same : append w now = w := by simp [append,taken]
    rw [same]
    exact inv
  · cases handle with
    | none => exact absurd taken (linked serial line)
    | some place =>
      obtain ⟨acknowledged,closed,counted⟩ := acknowledged_append taken now
      have has := has_append taken (inv.linked place serial line taken) now
      obtain ⟨small,fresh⟩ := inv.pending _ taken
      have absent : ∀ p, ¬ Has w serial p := fun p here => fresh (inv.written serial p here)
      refine ⟨fun n p q here there => ?_,fun n inside => ?_,fun n p here => ?_,fun n inside => ?_,by simp [closed],by simp [closed]⟩
      · rcases (has n p).mp here with old | ⟨rfl,rfl⟩ <;> rcases (has n q).mp there with old' | ⟨same,rfl⟩
        · exact inv.once n p q old old'
        · subst same
          exact absurd old (absent p)
        · exact absurd old' (absent q)
        · rfl
      · rw [acknowledged] at inside
        rcases List.mem_append.mp inside with old | new
        · obtain ⟨p,here⟩ := inv.stored n old
          exact ⟨p,(has n p).mpr (.inl here)⟩
        · exact ⟨place,(has n place).mpr (.inr ⟨List.mem_singleton.mp new,rfl⟩)⟩
      · rw [acknowledged]
        rcases (has n p).mp here with old | ⟨rfl,-⟩
        · exact List.mem_append_left _ (inv.written n p old)
        · exact List.mem_append_right _ (List.mem_singleton_self _)
      · rw [acknowledged] at inside
        rw [counted]
        rcases List.mem_append.mp inside with old | new
        · exact inv.below n old
        · rw [List.mem_singleton.mp new]
          exact small

/-! ### A file is archived -/

theorem rename_some {source target : Place} {file : File} (found : w.files source = some file) :
    rename w source target = some { w with
      files := Function.update (Function.update w.files target (some file)) source none
      operation := w.operation.map (moveHandle source target) } := by
  simp [rename,found]

theorem has_rename {source target : Place} (differ : target ≠ source) (renamed : rename w source target = some v) (n : Nat) (place : Place) :
    Has v n place ↔ place = target ∧ Has w n source ∨ place ≠ target ∧ place ≠ source ∧ Has w n place := by
  cases found : w.files source with
  | none => simp [rename,found] at renamed
  | some file =>
    rw [rename_some found] at renamed
    cases renamed
    unfold Has
    dsimp only
    by_cases atSource : place = source
    · subst atSource
      simp [Ne.symm differ]
    · rw [Function.update_of_ne atSource]
      by_cases atTarget : place = target
      · subst atTarget
        simp [found]
      · simp [atTarget,atSource]

theorem serial_moveHandle (source target : Place) (operation : Operation) : (moveHandle source target operation).serial = operation.serial := by
  cases operation <;> rfl

theorem inv_rename (inv : Inv w) {source target : Place} (differ : target ≠ source) (renamed : rename w source target = some v)
    (free : ∀ m ∈ w.acknowledged, ¬ Has w m target) : Inv v := by
  have has := has_rename differ renamed
  have same : v.acknowledged = w.acknowledged ∧ v.serial = w.serial ∧ v.operation = w.operation.map (moveHandle source target) := by
    cases found : w.files source with
    | none => simp [rename,found] at renamed
    | some file =>
      rw [rename_some found] at renamed
      cases renamed
      exact ⟨rfl,rfl,rfl⟩
  obtain ⟨acknowledged,serial,operation⟩ := same
  refine ⟨fun n p q here there => ?_,fun n inside => ?_,fun n p here => ?_,fun n inside => ?_,fun op taken => ?_,fun place m line taken => ?_⟩
  · rcases (has n p).mp here with ⟨rfl,old⟩ | ⟨-,out,old⟩ <;> rcases (has n q).mp there with ⟨rfl,old'⟩ | ⟨-,out',old'⟩
    · rfl
    · exact absurd (inv.once n _ _ old' old) out'
    · exact absurd (inv.once n _ _ old old') out
    · exact inv.once n p q old old'
  · rw [acknowledged] at inside
    obtain ⟨p,here⟩ := inv.stored n inside
    by_cases atSource : p = source
    · exact ⟨target,(has n target).mpr (.inl ⟨rfl,atSource ▸ here⟩)⟩
    · have out : p ≠ target := by
        rintro rfl
        exact free n inside here
      exact ⟨p,(has n p).mpr (.inr ⟨out,atSource,here⟩)⟩
  · rw [acknowledged]
    rcases (has n p).mp here with ⟨-,old⟩ | ⟨-,-,old⟩
    · exact inv.written n _ old
    · exact inv.written n _ old
  · rw [acknowledged] at inside
    rw [serial]
    exact inv.below n inside
  · rw [operation] at taken
    obtain ⟨before,was,rfl⟩ := Option.map_eq_some_iff.mp taken
    rw [serial_moveHandle,acknowledged,serial]
    exact inv.pending before was
  · rw [operation] at taken
    obtain ⟨before,was,moved⟩ := Option.map_eq_some_iff.mp taken
    cases found : w.files source with
    | none => simp [rename,found] at renamed
    | some file =>
      rw [rename_some found] at renamed
      cases renamed
      cases before with
      | picked => cases moved
      | opened handle serial line =>
        simp only [moveHandle,Operation.opened.injEq] at moved
        obtain ⟨at_place,-,-⟩ := moved
        split at at_place
        next =>
          cases at_place
          simp [Function.update_of_ne differ]
        next notSource =>
          split at at_place
          next => cases at_place
          next notTarget =>
            subst at_place
            have off : place ≠ source := fun same => notSource (by rw [same])
            have off' : place ≠ target := fun same => notTarget (by rw [same])
            have there := inv.linked place serial line was
            simpa [Function.update_of_ne off,Function.update_of_ne off'] using there

/-- An acknowledged entry of the file that is replaced is lost. -/
theorem rename_loses (inv : Inv w) {source target : Place} (differ : target ≠ source) (renamed : rename w source target = some v) {m : Nat}
    (there : Has w m target) : ¬ Stored v m := by
  rintro ⟨place,here,-⟩
  rcases (has_rename differ renamed m place).mp here with ⟨-,old⟩ | ⟨out,-,old⟩
  · exact differ (inv.once m _ _ there old)
  · exact out (inv.once m _ _ old there)

theorem rename_finds {source : Place} (target : Place) (there : (w.files source).isSome) : ∃ v, rename w source target = some v := by
  obtain ⟨file,found⟩ := Option.isSome_iff_exists.mp there
  exact ⟨_,rename_some found⟩

theorem rename_acknowledged {source target : Place} (renamed : rename w source target = some v) : v.acknowledged = w.acknowledged := by
  cases found : w.files source with
  | none => simp [rename,found] at renamed
  | some file =>
    rw [rename_some found] at renamed
    cases renamed
    rfl

/-- With this policy a sweep archives a file or leaves it. -/
theorem treat_archiving (age : Int) (sweep : Sweep) (info : FileInfo) (now : Int) : treat (archiving age) w sweep info now =
    if (archiving age).should_archive now info.modified then archive w sweep info else (w,sweep) := by
  simp [treat,archiving,RetentionPolicy.keep_forever,RetentionPolicy.with_archive_after,RetentionPolicy.is_expired]

theorem next_archives {age : Int} {n : Nat} {now : Int} {sweep : Sweep} {info : FileInfo} {rest : List FileInfo} (found : w.sweeps[n]? = some sweep)
    (idle : sweep.scanning = false) (files : sweep.file_infos = info :: rest) (old : (archiving age).should_archive now info.modified)
    (renamed : rename w (.log info.path) (.archive (archiveName info.path)) = some v) : ∃ sweeps, next (archiving age) w n now = { v with sweeps } := by
  unfold next
  simp only [found,idle,files]
  rw [treat_archiving,if_pos old]
  unfold archive
  rw [renamed]
  exact ⟨_,rfl⟩

/-- What a step of a sweep does: nothing to the files, or it archives the next one. -/
theorem next_does (age : Int) (n : Nat) (now : Int) :
    (∃ sweeps, next (archiving age) w n now = { w with sweeps }) ∨
      ∃ sweep info rest v sweeps, w.sweeps[n]? = some sweep ∧ sweep.scanning = false ∧ sweep.file_infos = info :: rest ∧
        (archiving age).should_archive now info.modified ∧ rename w (.log info.path) (.archive (archiveName info.path)) = some v ∧
          next (archiving age) w n now = { v with sweeps } := by
  unfold next
  cases found : w.sweeps[n]? with
  | none => exact .inl ⟨w.sweeps,rfl⟩
  | some sweep =>
    dsimp only
    split
    next info rest idle files =>
      rw [treat_archiving]
      by_cases old : (archiving age).should_archive now info.modified
      · rw [if_pos old]
        unfold archive
        cases renamed : rename w (.log info.path) (.archive (archiveName info.path)) with
        | none => exact .inl ⟨_,rfl⟩
        | some v => exact .inr ⟨sweep,info,rest,v,_,rfl,idle,files,old,renamed,rfl⟩
      · rw [if_neg old]
        exact .inl ⟨_,rfl⟩
    next => exact .inl ⟨w.sweeps,rfl⟩

theorem archive_ne_log (name : String) : Place.archive (archiveName name) ≠ .log name := by simp

theorem inv_next (inv : Inv w) {age : Int} {n : Nat} {now : Int} (fair : Fair age w (.next n now)) : Inv (next (archiving age) w n now) := by
  rcases next_does (w := w) age n now with ⟨sweeps,same⟩ | ⟨sweep,info,rest,v,sweeps,found,idle,files,old,renamed,same⟩
  · rw [same]
    exact inv.sweeps sweeps
  · rw [same]
    have there : (w.files (.log info.path)).isSome := by
      by_contra absent
      have none : w.files (.log info.path) = none := Option.not_isSome_iff_eq_none.mp absent
      simp [rename,none] at renamed
    exact (inv_rename inv (archive_ne_log _) renamed (fair sweep info rest found idle files old there)).sweeps sweeps

/-! ### Runs -/

variable {writer : FileWriter} {age : Int}

theorem inv_step (inv : Inv w) (event : Event) (fair : Fair age w event) : Inv (step writer age w event) := by
  cases event with
  | write line now ts uuid => exact inv_pick inv writer line now ts uuid
  | open_file now => exact inv_openFile inv now
  | append now => exact inv_append inv now fair
  | rotate now ts uuid => exact inv_rotate inv writer now ts uuid
  | close => exact inv_close inv
  | sweep => exact inv.sweeps _
  | scan n name => exact inv_scan inv n name
  | sort n => exact inv_sort inv n
  | next n now => exact inv_next inv fair

theorem fair_of_sound (inv : Inv w) (event : Event) (sound : Sound writer age w event) : Fair age w event := by
  cases event with
  | append now =>
    intro serial line taken
    obtain ⟨acknowledged,-⟩ := acknowledged_append taken now
    have files : (append w now).files = w.files := by simp [append,taken]
    obtain ⟨place,here,-⟩ := sound serial (by
      show serial ∈ (append w now).acknowledged
      rw [acknowledged]
      exact List.mem_append_right _ (List.mem_singleton_self _))
    have before : Has w serial place := by
      change ∃ file, (append w now).files place = some file ∧ _ at here
      rw [files] at here
      exact here
    exact (inv.pending _ taken).2 (inv.written serial place before)
  | next n now =>
    intro sweep info rest found idle files old there m inside target
    obtain ⟨v,renamed⟩ := rename_finds (.archive (archiveName info.path)) there
    obtain ⟨sweeps,same⟩ := next_archives found idle files old renamed
    have kept := sound m (by
      show m ∈ (next (archiving age) w n now).acknowledged
      rw [same]
      exact rename_acknowledged renamed ▸ inside)
    change Stored (next (archiving age) w n now) m at kept
    rw [same] at kept
    exact rename_loses inv (archive_ne_log _) renamed target kept
  | write | open_file | rotate | close | sweep | scan | sort => trivial

theorem sound_iff_fair (inv : Inv w) (event : Event) : Sound writer age w event ↔ Fair age w event :=
  ⟨fair_of_sound inv event,fun fair _ inside => (inv_step inv event fair).all_stored inside⟩

end

theorem inv_new (writer : FileWriter) (files : Place → Option (List String × Int)) (now : Int) (ts uuid : String) :
    Inv (World.new writer files now ts uuid) := by
  have none : ∀ n place, ¬ Has (World.new writer files now ts uuid) n place := by
    rintro n place ⟨file,found,line,inside,named⟩
    obtain ⟨old,-,rfl⟩ := Option.map_eq_some_iff.mp found
    obtain ⟨text,-,rfl⟩ := List.mem_map.mp inside
    cases named
  exact ⟨fun n place _ here => absurd here (none n place),by simp [World.new],fun n place here => absurd here (none n place),by simp [World.new],
    by simp [World.new],by simp [World.new]⟩

/-- Every acknowledged entry is always a line of exactly one file in just the runs where no sweep archives
a file over acknowledged entries and no line is written to a file that was replaced. -/
theorem archiving_keeps (writer : FileWriter) (age : Int) (files : Place → Option (List String × Int)) (now : Int) (ts uuid : String)
    (events : List Event) : Every (step writer age) (Sound writer age) (World.new writer files now ts uuid) events ↔
      Every (step writer age) (Fair age) (World.new writer files now ts uuid) events :=
  every_congr (I := Inv) (fun _ event inv => sound_iff_fair inv event)
    (fun _ event inv sound => inv_step inv event ((sound_iff_fair inv event).mp sound)) (inv_new writer files now ts uuid)

def daily : FileWriter := ⟨"daf",⟨1000,86400⟩⟩

def emptyDirs : World := World.new daily (fun _ => none) 0 "20240101T000000Z" "018cc251-f400-7000-8000-000000000000"

def dailyName : String := "daf_20240101T000000Z_018cc251-f400-7000-8000-000000000000.ndjson"

/-- A log file is written to after it was archived, and grows old again. -/
def rearchived : List Event :=
  [.write "1" 0 "" "",.open_file 0,.append 0,.sweep,.scan 0 dailyName,.sort 0,.next 0 20,
    .write "2" 20 "" "",.open_file 20,.append 20,.sweep,.scan 1 dailyName,.sort 1]

/-- The second sweep replaces the file that the first one archived, and the first entry is lost. -/
theorem archived_twice : ¬ Every (step daily 10) (Sound daily 10) emptyDirs (rearchived ++ [.next 1 40]) := by
  intro every
  obtain ⟨first,sound,-⟩ := every_append.mp every
  have inv := first.invariant (I := Inv) (fun _ event inv sound => inv_step inv event (fair_of_sound inv event sound)) (inv_new _ _ _ _ _)
  have target : Has (Runs.run (step daily 10) emptyDirs rearchived) 0 (.archive (archiveName dailyName)) :=
    ⟨⟨[⟨some 0,"1\n"⟩],0⟩,by decide +kernel,⟨some 0,"1\n"⟩,List.mem_singleton_self _,rfl⟩
  exact fair_of_sound inv _ sound ⟨false,[⟨dailyName,2,20⟩],2,0,⟨1,0,0,0,[]⟩⟩ ⟨dailyName,2,20⟩ [] (by decide +kernel) rfl rfl (by decide)
    (by decide +kernel) 0 (by decide +kernel) target

end Daf.LogArchive
