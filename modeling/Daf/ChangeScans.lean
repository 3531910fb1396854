import Daf.Runs
import Mathlib.Data.List.AList
import Mathlib.Data.List.Sort
import Mathlib.Data.List.TakeWhile

/-!
The scans that detect changed manifest files by their checksums, over file systems that change between them and
in which a listed file may be unreadable; and a view of the files that follows the reported changes.
-/
namespace Daf.ChangeScans
open Daf.Runs

section
variable {Path Content Hash ε : Type} [DecidableEq Path] [DecidableEq Hash]

inductive ManifestChange (Path : Type) where
  | Added (path : Path)
  | Modified (path : Path)
  | Removed (path : Path)
deriving DecidableEq,Repr

def ManifestChange.path : ManifestChange Path → Path
  | .Added path => path
  | .Modified path => path
  | .Removed path => path

structure ChangeDetector (Path Hash : Type) where
  checksums : AList fun _ : Path => Hash

def ChangeDetector.new : ChangeDetector Path Hash := ⟨∅⟩

/-- What reading each file gives. -/
abbrev Files (Path Content ε : Type) := Path → Except ε Content

variable (hash : Content → Hash)

def hash_file (files : Files Path Content ε) (path : Path) : Except ε Hash := (files path).map hash

/-- The change of a file that has this hash now. -/
def change_of (checksums : AList fun _ : Path => Hash) (path : Path) (now : Hash) : Option (ManifestChange Path) :=
  match checksums.lookup path with
  | none => some (.Added path)
  | some prev => if prev ≠ now then some (.Modified path) else none

/-- The loop over the listed files. It ends at the first one that cannot be read, with the checksums that it has by then. -/
def scan (files : Files Path Content ε) : List Path → AList (fun _ : Path => Hash) → List (ManifestChange Path) →
    Except ε (List (ManifestChange Path)) × AList fun _ : Path => Hash
  | [],checksums,changes => (.ok changes,checksums)
  | path :: rest,checksums,changes =>
    match hash_file hash files path with
    | .error e => (.error e,checksums)
    | .ok now =>
      match change_of checksums path now with
      | some change => scan files rest (checksums.insert path now) (changes ++ [change])
      | none => scan files rest checksums changes

/-- The paths of the map in the order in which it is iterated. -/
def keys (order : Path → Nat) (checksums : AList fun _ : Path => Hash) : List Path := checksums.keys.insertionSort fun a b => order a ≤ order b

def ChangeDetector.detect_changes (order : Path → Nat) (files : Files Path Content ε) (current_files : List Path) (detector : ChangeDetector Path Hash) :
    Except ε (List (ManifestChange Path)) × ChangeDetector Path Hash :=
  match scan hash files current_files detector.checksums [] with
  | (.error e,checksums) => (.error e,⟨checksums⟩)
  | (.ok changes,checksums) =>
    let removed := (keys order checksums).filter fun path => path ∉ current_files
    (.ok (changes ++ removed.map .Removed),⟨removed.foldl (fun checksums path => checksums.erase path) checksums⟩)

/-! ### One scan -/

/-- The listed files with their hashes. -/
def listing (files : Files Path Content ε) (current_files : List Path) (path : Path) : Option Hash :=
  if path ∈ current_files then (hash_file hash files path).toOption else none

/-- The change from one hash of a file to another, if there is one. -/
def due (path : Path) : Option Hash → Option Hash → Option (ManifestChange Path)
  | none,none => none
  | none,some _ => some (.Added path)
  | some _,none => some (.Removed path)
  | some before,some after => if before = after then none else some (.Modified path)

omit [DecidableEq Path] in
theorem due_self (path : Path) (held : Option Hash) : due path held held = none := by
  cases held <;> simp [due]

omit [DecidableEq Path] in
theorem due_path {path : Path} {before after : Option Hash} {change : ManifestChange Path} (changed : due path before after = some change) :
    change.path = path := by
  rcases before with _ | before <;> rcases after with _ | after
  · exact absurd changed.symm (Option.some_ne_none change)
  · rw [← Option.some.inj changed]
    rfl
  · rw [← Option.some.inj changed]
    rfl
  · by_cases same : before = after
    · simp [due,same] at changed
    · have modified : change = .Modified path := by simpa [due,same,eq_comm] using changed
      rw [modified]
      rfl

omit [DecidableEq Path] in
theorem due_none {path : Path} {before : Option Hash} {change : ManifestChange Path} :
    due path before none = some change ↔ before ≠ none ∧ .Removed path = change := by
  cases before <;> simp [due]

theorem change_of_due (checksums : AList fun _ : Path => Hash) (path : Path) (now : Hash) :
    change_of checksums path now = due path (checksums.lookup path) (some now) := by
  unfold change_of
  cases checksums.lookup path with
  | none => rfl
  | some prev => by_cases same : prev = now <;> simp [due,same]

variable {hash} {files : Files Path Content ε}

/-- The checksums after one file of the loop. -/
def checked (checksums : AList fun _ : Path => Hash) (path : Path) (now : Hash) : AList fun _ : Path => Hash :=
  match change_of checksums path now with
  | some _ => checksums.insert path now
  | none => checksums

theorem lookup_checked (checksums : AList fun _ : Path => Hash) (path : Path) (now : Hash) (other : Path) :
    (checked checksums path now).lookup other = if other = path then some now else checksums.lookup other := by
  unfold checked
  by_cases same : other = path
  · subst same
    rw [if_pos rfl]
    cases change : change_of checksums other now with
    | some change => exact AList.lookup_insert checksums
    | none =>
      show checksums.lookup other = some now
      unfold change_of at change
      cases held : checksums.lookup other with
      | none => simp [held] at change
      | some prev => simpa [held] using change
  · rw [if_neg same]
    cases change_of checksums path now with
    | some change => exact AList.lookup_insert_ne same
    | none => rfl

theorem scan_cons {path : Path} {now : Hash} (read : hash_file hash files path = .ok now) (rest : List Path) (checksums : AList fun _ : Path => Hash)
    (changes : List (ManifestChange Path)) :
    scan hash files (path :: rest) checksums changes =
      scan hash files rest (checked checksums path now) (changes ++ (change_of checksums path now).toList) := by
  rw [scan,read]
  dsimp only
  unfold checked
  cases change_of checksums path now with
  | some change => rfl
  | none =>
    show scan hash files rest checksums changes = scan hash files rest checksums (changes ++ [])
    rw [List.append_nil]

/-- Where every file can be read, the scan has their hashes over what it had, and the changes that are due. -/
theorem scan_ok (current_files : List Path) (checksums : AList fun _ : Path => Hash) (changes : List (ManifestChange Path))
    (readable : ∀ path ∈ current_files, ∃ now, hash_file hash files path = .ok now) :
    ∃ more, (scan hash files current_files checksums changes).1 = .ok (changes ++ more) ∧
      (∀ path, (scan hash files current_files checksums changes).2.lookup path =
        if path ∈ current_files then (hash_file hash files path).toOption else checksums.lookup path) ∧
      ∀ change, change ∈ more ↔ change.path ∈ current_files ∧
        due change.path (checksums.lookup change.path) (hash_file hash files change.path).toOption = some change := by
  induction current_files generalizing checksums changes with
  | nil => exact ⟨[],congrArg Except.ok (List.append_nil changes).symm,fun _ => (if_neg List.not_mem_nil).symm,by simp⟩
  | cons path rest ih =>
    obtain ⟨now,read⟩ := readable path List.mem_cons_self
    obtain ⟨more,out,lookup,reported⟩ := ih (checked checksums path now) (changes ++ (change_of checksums path now).toList)
      fun later member => readable later (List.mem_cons_of_mem path member)
    have own : (hash_file hash files path).toOption = some now := by rw [read]; rfl
    rw [scan_cons read]
    refine ⟨(change_of checksums path now).toList ++ more,by rw [out,List.append_assoc],fun other => ?_,fun change => ?_⟩
    · rw [lookup,lookup_checked]
      by_cases same : other = path
      · subst same
        simp [own]
      · simp [same]
    · rw [List.mem_append,reported,Option.mem_toList,lookup_checked,change_of_due]
      by_cases same : change.path = path
      · rw [same,if_pos rfl,own,due_self]
        constructor
        · rintro (changed | ⟨-,changed⟩)
          · exact ⟨List.mem_cons_self,changed⟩
          · exact absurd changed.symm (Option.some_ne_none change)
        · rintro ⟨-,changed⟩
          exact .inl changed
      · rw [if_neg same,List.mem_cons]
        constructor
        · rintro (changed | ⟨listed,changed⟩)
          · exact absurd (due_path changed) same
          · exact ⟨.inr listed,changed⟩
        · rintro ⟨listed,changed⟩
          exact .inr ⟨listed.resolve_left same,changed⟩

/-- A scan goes on where the first files can be read, and ends at one that cannot. -/
theorem scan_append (before rest : List Path) (checksums : AList fun _ : Path => Hash) (changes : List (ManifestChange Path))
    (readable : ∀ path ∈ before, ∃ now, hash_file hash files path = .ok now) :
    ∃ more, scan hash files (before ++ rest) checksums changes = scan hash files rest (scan hash files before checksums changes).2 more := by
  induction before generalizing checksums changes with
  | nil => exact ⟨changes,rfl⟩
  | cons path before ih =>
    obtain ⟨now,read⟩ := readable path List.mem_cons_self
    rw [List.cons_append,scan_cons read,scan_cons read]
    exact ih _ _ fun later member => readable later (List.mem_cons_of_mem path member)

theorem scan_error {bad : Path} {e : ε} (unread : hash_file hash files bad = .error e) {before : List Path} (after : List Path)
    (checksums : AList fun _ : Path => Hash) (readable : ∀ path ∈ before, ∃ now, hash_file hash files path = .ok now) :
    scan hash files (before ++ bad :: after) checksums [] = (.error e,(scan hash files before checksums []).2) := by
  obtain ⟨more,split⟩ := scan_append before (bad :: after) checksums [] readable
  rw [split,scan,unread]

omit [DecidableEq Hash] in
theorem lookup_erased (removed : List Path) (checksums : AList fun _ : Path => Hash) (path : Path) :
    (removed.foldl (fun checksums path => checksums.erase path) checksums).lookup path = if path ∈ removed then none else checksums.lookup path := by
  induction removed generalizing checksums with
  | nil => simp
  | cons first removed ih =>
    rw [List.foldl_cons,ih]
    by_cases same : path = first
    · subst same
      simp [AList.lookup_erase]
    · simp [same,AList.lookup_erase_ne same]

/-- A call whose files can all be read leaves the hashes of the listed files, and reports what is due. -/
theorem detect_ok (order : Path → Nat) (current_files : List Path) (detector : ChangeDetector Path Hash)
    (readable : ∀ path ∈ current_files, ∃ now, hash_file hash files path = .ok now) :
    ∃ changes, (detector.detect_changes hash order files current_files).1 = .ok changes ∧
      (∀ path, (detector.detect_changes hash order files current_files).2.checksums.lookup path = listing hash files current_files path) ∧
      ∀ change, change ∈ changes ↔
        due change.path (detector.checksums.lookup change.path) (listing hash files current_files change.path) = some change := by
  obtain ⟨more,out,lookup,reported⟩ := scan_ok current_files detector.checksums [] readable
  unfold ChangeDetector.detect_changes
  rcases whole : scan hash files current_files detector.checksums [] with ⟨outcome,checksums⟩
  rw [whole] at out lookup
  dsimp only at out lookup ⊢
  rw [out]
  have removed : ∀ path, path ∈ (keys order checksums).filter (fun path => path ∉ current_files) ↔
      path ∉ current_files ∧ detector.checksums.lookup path ≠ none := by
    intro path
    rw [List.mem_filter,keys,List.mem_insertionSort,decide_eq_true_eq,← AList.mem_keys,← AList.lookup_isSome,Option.isSome_iff_ne_none,lookup]
    by_cases listed : path ∈ current_files <;> simp [listed]
  refine ⟨_,rfl,fun path => ?_,fun change => ?_⟩
  · rw [lookup_erased,lookup,listing]
    by_cases listed : path ∈ current_files
    · rw [if_neg fun gone => ((removed path).mp gone).1 listed,if_pos listed,if_pos listed]
    · rw [if_neg listed,if_neg listed]
      by_cases held : detector.checksums.lookup path = none
      · rw [held,ite_self]
      · rw [if_pos ((removed path).mpr ⟨listed,held⟩)]
  · rw [List.nil_append,List.mem_append,reported,List.mem_map,listing]
    by_cases listed : change.path ∈ current_files
    · rw [if_pos listed]
      constructor
      · rintro (⟨-,changed⟩ | ⟨path,gone,rfl⟩)
        · exact changed
        · exact absurd listed ((removed path).mp gone).1
      · intro changed
        exact .inl ⟨listed,changed⟩
    · rw [if_neg listed,due_none]
      constructor
      · rintro (⟨there,-⟩ | ⟨path,gone,rfl⟩)
        · exact absurd there listed
        · exact ⟨((removed path).mp gone).2,rfl⟩
      · rintro ⟨held,same⟩
        exact .inr ⟨change.path,(removed change.path).mpr ⟨listed,held⟩,same⟩

end

/-! ### Sequences of calls -/

section
variable {Path Content Hash ε : Type} [DecidableEq Path] [DecidableEq Hash] (hash : Content → Hash)

/-- A call: the files at its time, the listed ones, and the order in which the map of checksums is iterated. -/
structure Call (Path Content ε : Type) where
  files : Files Path Content ε
  current_files : List Path
  order : Path → Nat

/-- The detector, and the hashes of the files as its reported changes have them. -/
structure Watch (Path Hash : Type) where
  detector : ChangeDetector Path Hash
  view : Path → Option Hash

def Watch.new : Watch Path Hash := ⟨.new,fun _ => none⟩

/-- What a reported change says of its file. -/
def told (files : Files Path Content ε) : ManifestChange Path → Option Hash
  | .Added path => (hash_file hash files path).toOption
  | .Modified path => (hash_file hash files path).toOption
  | .Removed _ => none

def applied (files : Files Path Content ε) (view : Path → Option Hash) (change : ManifestChange Path) : Path → Option Hash :=
  Function.update view change.path (told hash files change)

def Watch.detect (w : Watch Path Hash) (call : Call Path Content ε) : Except ε (List (ManifestChange Path)) × ChangeDetector Path Hash :=
  w.detector.detect_changes hash call.order call.files call.current_files

/-- The changes of a call that succeeds are applied. -/
def step (w : Watch Path Hash) (call : Call Path Content ε) : Watch Path Hash :=
  match w.detect hash call with
  | (.ok changes,detector) => ⟨detector,changes.foldl (applied hash call.files) w.view⟩
  | (.error _,detector) => ⟨detector,w.view⟩

/-- A call that succeeds reports what is due to the view, which then is what is listed; one that fails leaves the checksums as they are. -/
structure Sound (w : Watch Path Hash) (call : Call Path Content ε) : Prop where
  success : ∀ changes, (w.detect hash call).1 = .ok changes →
    (step hash w call).view = listing hash call.files call.current_files ∧
      ∀ change, change ∈ changes ↔ due change.path (w.view change.path) (listing hash call.files call.current_files change.path) = some change
  failure : ∀ e, (w.detect hash call).1 = .error e → (w.detect hash call).2.checksums.lookup = w.detector.checksums.lookup

def readable (files : Files Path Content ε) (path : Path) : Bool := (hash_file hash files path).isOk

/-- No file that is new or changed is listed before the first unreadable one. -/
def Unchanged (w : Watch Path Hash) (call : Call Path Content ε) : Prop :=
  (∃ path ∈ call.current_files, readable hash call.files path = false) →
    ∀ path ∈ call.current_files.takeWhile (readable hash call.files),
      w.detector.checksums.lookup path = (hash_file hash call.files path).toOption

variable {hash}

omit [DecidableEq Path] [DecidableEq Hash] in
theorem readable_iff {files : Files Path Content ε} {path : Path} : readable hash files path = true ↔ ∃ now, hash_file hash files path = .ok now := by
  unfold readable
  cases hash_file hash files path <;> simp [Except.isOk,Except.toBool]

omit [DecidableEq Hash] in
theorem view_applied {files : Files Path Content ε} {path : Path} {value : Option Hash} (changes : List (ManifestChange Path)) {view : Path → Option Hash}
    (same : ∀ change ∈ changes, change.path = path → told hash files change = value)
    (there : view path = value ∨ ∃ change ∈ changes, change.path = path) : changes.foldl (applied hash files) view path = value := by
  induction changes generalizing view with
  | nil => exact there.resolve_right (by simp)
  | cons first changes ih =>
    refine ih (fun change member => same change (List.mem_cons_of_mem first member)) ?_
    by_cases own : first.path = path
    · left
      subst own
      rw [applied,Function.update_self]
      exact same first List.mem_cons_self rfl
    · rcases there with held | ⟨change,member,own'⟩
      · left
        rw [applied,Function.update_of_ne (Ne.symm own)]
        exact held
      · rcases List.mem_cons.mp member with rfl | later
        · exact absurd own' own
        · exact .inr ⟨change,later,own'⟩

omit [DecidableEq Path] in
theorem due_eq_none {path : Path} {before after : Option Hash} : due path before after = none ↔ before = after := by
  cases before <;> cases after <;> simp [due]

theorem told_due {files : Files Path Content ε} {current_files : List Path} {before : Option Hash} {change : ManifestChange Path}
    (changed : due change.path before (listing hash files current_files change.path) = some change) :
    told hash files change = listing hash files current_files change.path := by
  cases listed : listing hash files current_files change.path with
  | none =>
    rw [listed,due_none] at changed
    rw [← changed.2]
    rfl
  | some now =>
    have read : (hash_file hash files change.path).toOption = some now := by
      unfold listing at listed
      split_ifs at listed
      exact listed
    cases change with
    | Added path => exact read
    | Modified path => exact read
    | Removed path =>
      rw [listed] at changed
      cases before with
      | none => exact absurd changed (by simp [due])
      | some before => by_cases same : before = now <;> simp [due,same] at changed

/-- The view holds what the detector last told. -/
def Follows (w : Watch Path Hash) : Prop := w.view = w.detector.checksums.lookup

/-- A call whose files can all be read is sound, and the view keeps following the detector. -/
theorem step_ok {w : Watch Path Hash} (follows : Follows w) {call : Call Path Content ε} (all : ∀ path ∈ call.current_files, readable hash call.files path = true) :
    Sound hash w call ∧ Follows (step hash w call) := by
  obtain ⟨changes,out,lookup,reported⟩ := detect_ok call.order call.current_files w.detector fun path listed => readable_iff.mp (all path listed)
  have view : changes.foldl (applied hash call.files) w.view = listing hash call.files call.current_files := by
    funext path
    refine view_applied changes (fun change member own => ?_) ?_
    · subst own
      exact told_due ((reported change).mp member)
    · cases changed : due path (w.detector.checksums.lookup path) (listing hash call.files call.current_files path) with
      | none =>
        rw [follows]
        exact .inl (due_eq_none.mp changed)
      | some change =>
        have own := due_path changed
        subst own
        exact .inr ⟨change,(reported change).mpr changed,rfl⟩
  have detect : w.detect hash call = (.ok changes,(w.detect hash call).2) := Prod.ext out rfl
  have after : step hash w call = ⟨(w.detect hash call).2,listing hash call.files call.current_files⟩ := by
    unfold step
    rw [detect,← view]
  refine ⟨⟨fun changes' out' => ?_,fun e out' => ?_⟩,?_⟩
  · rw [after]
    have same := Except.ok.inj (out.symm.trans out')
    subst same
    refine ⟨rfl,fun change => ?_⟩
    rw [reported,follows]
  · exact absurd (out.symm.trans out') (by simp)
  · rw [after]
    funext path
    exact (lookup path).symm

variable (hash) in
/-- A call with an unreadable file fails, and has the hashes of the files before the first of them. -/
theorem detect_error (w : Watch Path Hash) {call : Call Path Content ε} (some_unread : ∃ path ∈ call.current_files, readable hash call.files path = false) :
    ∃ e, (w.detect hash call).1 = .error e ∧ ∀ path, (w.detect hash call).2.checksums.lookup path =
      if path ∈ call.current_files.takeWhile (readable hash call.files) then (hash_file hash call.files path).toOption
      else w.detector.checksums.lookup path := by
  have whole := List.takeWhile_append_dropWhile (p := readable hash call.files) (l := call.current_files)
  cases rest : call.current_files.dropWhile (readable hash call.files) with
  | nil =>
    obtain ⟨path,listed,unread⟩ := some_unread
    exact absurd (unread.symm.trans (List.dropWhile_eq_nil_iff.mp rest path listed)) Bool.false_ne_true
  | cons bad after =>
    have some_left : call.current_files.dropWhile (readable hash call.files) ≠ [] := by simp [rest]
    have unread : ¬ readable hash call.files bad = true := by
      have first := List.head_dropWhile_not (readable hash call.files) some_left
      simp only [rest,List.head_cons] at first
      simp [first]
    have known : ∀ path ∈ call.current_files.takeWhile (readable hash call.files), ∃ now, hash_file hash call.files path = .ok now :=
      fun path member => readable_iff.mp (List.mem_takeWhile_imp member)
    cases outcome : hash_file hash call.files bad with
    | ok now => exact absurd (readable_iff.mpr ⟨now,outcome⟩) unread
    | error e =>
      obtain ⟨-,-,lookup,-⟩ := scan_ok (call.current_files.takeWhile (readable hash call.files)) w.detector.checksums [] known
      have detect : w.detect hash call =
          (.error e,⟨(scan hash call.files (call.current_files.takeWhile (readable hash call.files)) w.detector.checksums []).2⟩) := by
        have ends := scan_error outcome after w.detector.checksums known
        rw [← rest,whole] at ends
        unfold Watch.detect ChangeDetector.detect_changes
        rw [ends]
      rw [detect]
      exact ⟨e,rfl,lookup⟩

theorem step_error {w : Watch Path Hash} {call : Call Path Content ε} (some_unread : ∃ path ∈ call.current_files, readable hash call.files path = false) :
    (Sound hash w call ↔ Unchanged hash w call) ∧ (Follows w → Sound hash w call → Follows (step hash w call)) := by
  obtain ⟨e,out,lookup⟩ := detect_error hash w some_unread
  have failed : step hash w call = ⟨(w.detect hash call).2,w.view⟩ := by
    have detect : w.detect hash call = (.error e,(w.detect hash call).2) := Prod.ext out rfl
    unfold step
    rw [detect]
  refine ⟨⟨fun sound _ path member => ?_,fun unchanged => ⟨fun changes out' => ?_,fun e' out' => ?_⟩⟩,fun follows sound => ?_⟩
  · have same := lookup path
    rw [if_pos member] at same
    exact (congrFun (sound.failure e out) path).symm.trans same
  · exact absurd (out.symm.trans out') (by simp)
  · funext path
    rw [lookup]
    split_ifs with member
    · exact (unchanged some_unread path member).symm
    · rfl
  · rw [failed]
    exact follows.trans (sound.failure e out).symm

/-- A sequence of calls loses no change exactly when none of its calls fails after a new or changed file. -/
theorem changes_kept (calls : List (Call Path Content ε)) :
    Every (step hash) (Sound hash) .new calls ↔ Every (step hash) (Unchanged hash) (.new : Watch Path Hash) calls := by
  have fresh : Follows (.new : Watch Path Hash) := by
    funext path
    show none = AList.lookup path (∅ : AList fun _ : Path => Hash)
    rw [AList.lookup_empty]
  refine every_congr (I := Follows) ?_ ?_ fresh
  · intro w call follows
    by_cases some_unread : ∃ path ∈ call.current_files, readable hash call.files path = false
    · exact (step_error some_unread).1
    · have all : ∀ path ∈ call.current_files, readable hash call.files path = true := by simpa using some_unread
      exact iff_of_true (step_ok follows all).1 fun unread => absurd unread some_unread
  · intro w call follows sound
    by_cases some_unread : ∃ path ∈ call.current_files, readable hash call.files path = false
    · exact (step_error some_unread).2 follows sound
    · exact (step_ok follows (by simpa using some_unread)).2

end

/-! ### A change that is lost -/

def disk (content : String) (unreadable : Bool) : Files String String String
  | "a.json" => .ok content
  | _ => if unreadable then .error "Permission denied" else .ok ""

def call (content : String) (unreadable : Bool) : Call String String String := ⟨disk content unreadable,["a.json","b.json"],String.length⟩

def scans : List (Call String String String) := [call "v1" false,call "v2" true,call "v2" false]

/-- The first file changes when the second one cannot be read, which no later call reports. -/
theorem change_lost : ¬ Every (step id) (Sound id) (.new : Watch String String) scans ∧
    (run (step id) (.new : Watch String String) scans).view "a.json" = some "v1" ∧ listing id (disk "v2" false) ["a.json","b.json"] "a.json" = some "v2" := by
  have stale : (run (step id) (.new : Watch String String) scans).view "a.json" = some "v1" := by decide
  have fresh : listing id (disk "v2" false) ["a.json","b.json"] "a.json" = some "v2" := by decide
  refine ⟨fun sound => ?_,stale,fresh⟩
  have last := congrFun (sound.2.2.1.success [] (by decide)).1 "a.json"
  exact absurd (stale.symm.trans (last.trans fresh)) (by decide)

end Daf.ChangeScans
