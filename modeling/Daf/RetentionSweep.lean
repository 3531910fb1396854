import Daf.LogArchive
import Mathlib.Algebra.Ring.Nat
import Mathlib.Algebra.BigOperators.Group.List.Basic

/-!
A retention sweep over a log directory that nobody else touches, with the sizes and the numbers of entries of
the files: what it deletes, archives and leaves, and which limits are met afterwards.
-/
namespace Daf.RetentionSweep
open Daf.LogArchive (RetentionPolicy RetentionStats isNdjson)

/-- An entry of the log directory; the size is a u64. -/
structure LogFile where
  name : String
  is_file : Bool
  size : Nat
  entries : Nat
  modified : Int
deriving DecidableEq,Repr

inductive Fate where
  | kept | archived | deleted
deriving DecidableEq,Repr

/-- How far the sweep has come. The two sums of sizes are u64s. -/
structure Progress where
  cumulative_deleted : Nat
  stats : RetentionStats
  fates : List (LogFile × Fate)
deriving DecidableEq,Repr

def Progress.delete (p : Progress) (file : LogFile) : Progress where
  cumulative_deleted := (p.cumulative_deleted + file.size) % 2^64
  stats := { p.stats with files_deleted := p.stats.files_deleted + 1,bytes_reclaimed := (p.stats.bytes_reclaimed + file.size) % 2^64 }
  fates := p.fates ++ [(file,.deleted)]

def Progress.archive (p : Progress) (file : LogFile) : Progress :=
  { p with stats := { p.stats with files_archived := p.stats.files_archived + 1 },fates := p.fates ++ [(file,.archived)] }

def Progress.leave (p : Progress) (file : LogFile) : Progress := { p with fates := p.fates ++ [(file,.kept)] }

/-- The log files, the oldest first. -/
def scan (directory : List LogFile) : List LogFile :=
  (directory.filter fun file => file.is_file && isNdjson file.name).mergeSort fun a b => decide (a.modified ≤ b.modified)

def sizes (files : List LogFile) : Nat := (files.map LogFile.size).sum

def entryCount (files : List LogFile) : Nat := (files.map LogFile.entries).sum

section
variable (policy : RetentionPolicy) (expiry_check archive_check : LogFile → Int)

/-- The file has expired when it is looked at. -/
def Expired (file : LogFile) : Prop := policy.is_expired (expiry_check file) file.modified = true

/-- The file is old enough for the archive when it is looked at. -/
def Old (file : LogFile) : Prop := policy.should_archive (archive_check file) file.modified = true

instance (file : LogFile) : Decidable (Expired policy expiry_check file) := inferInstanceAs (Decidable (_ = true))
instance (file : LogFile) : Decidable (Old policy archive_check file) := inferInstanceAs (Decidable (_ = true))

/-- What the sweep does with one file, by what the clock says at its two checks. -/
def treat (total_size : Nat) (p : Progress) (file : LogFile) : Progress :=
  if policy.is_expired (expiry_check file) file.modified then p.delete file
  else if policy.max_size_bytes.any (fun max_size => (total_size + 2^64 - p.cumulative_deleted) % 2^64 > max_size) then p.delete file
  else if policy.should_archive (archive_check file) file.modified then p.archive file
  else p.leave file

/-- The sweep, if no operation on a file fails. -/
def sweep (directory : List LogFile) : Progress :=
  let file_infos := scan directory
  let total_size := sizes file_infos % 2^64
  file_infos.foldl (treat policy expiry_check archive_check total_size) ⟨0,⟨file_infos.length,0,0,0,[]⟩,[]⟩

/-- The files with this fate, in the order of the sweep. -/
def Progress.having (p : Progress) (fate : Fate) : List LogFile := (p.fates.filter fun judged => judged.2 = fate).map Prod.fst

/-- These files are more than the limits on sizes and entries allow. -/
def Exceeds (files : List LogFile) : Prop := (∃ max ∈ policy.max_size_bytes, max < sizes files) ∨ ∃ max ∈ policy.max_entries, max < entryCount files

/-- What a sweep is to do. A deleted file is one of the shortest prefix whose deletion is needed if it and the
files behind it are still too many. -/
structure Enforces (directory : List LogFile) (swept : Progress) : Prop where
  all : swept.fates.map Prod.fst = scan directory
  age : ∀ file ∈ swept.having .kept, ¬ Expired policy expiry_check file
  size : ∀ max ∈ policy.max_size_bytes, sizes (swept.having .kept ++ swept.having .archived) ≤ max
  count : ∀ max ∈ policy.max_entries, entryCount (swept.having .kept ++ swept.having .archived) ≤ max
  archive : ∀ file ∈ swept.having .kept, ¬ Old policy archive_check file
  needed : ∀ before file later, swept.fates = before ++ (file,.deleted) :: later →
    Expired policy expiry_check file ∨ Exceeds policy (file :: later.map Prod.fst)
  files_deleted : swept.stats.files_deleted = (swept.having .deleted).length
  files_archived : swept.stats.files_archived = (swept.having .archived).length
  bytes_reclaimed : swept.stats.bytes_reclaimed = sizes (swept.having .deleted)

/-- The files from some point on are more than the limit on the size allows. -/
def Oversize (files : List LogFile) : Prop := ∃ max ∈ policy.max_size_bytes, max < sizes files

instance (files : List LogFile) : Decidable (Oversize policy files) :=
  match set : policy.max_size_bytes with
  | none => isFalse fun ⟨_,member,_⟩ => by simp [set] at member
  | some max => decidable_of_iff (max < sizes files) (by simp [Oversize,set])

/-- The files, the oldest first, that are neither expired nor deleted for the limit on the size. -/
def spared : List LogFile → List LogFile
  | [] => []
  | file :: later => if Expired policy expiry_check file ∨ Oversize policy (file :: later) then spared later else file :: spared later

/-! ### The loop -/

/-- The fate of each file by the files from it on. -/
def judge : List LogFile → List (LogFile × Fate)
  | [] => []
  | file :: later =>
    (file,if Expired policy expiry_check file ∨ Oversize policy (file :: later) then .deleted else if Old policy archive_check file then .archived else .kept)
      :: judge later

/-- What is left of the total is that of the files to come, or within the limit. -/
structure Accounts (total : Nat) (files : List LogFile) (p : Progress) : Prop where
  covers : p.cumulative_deleted + sizes files ≤ total
  exact : ∀ max ∈ policy.max_size_bytes, total ≤ p.cumulative_deleted + max ∨ total = p.cumulative_deleted + sizes files

variable {policy expiry_check archive_check} {total : Nat} {file : LogFile} {files : List LogFile} {p : Progress}

@[simp] theorem sizes_nil : sizes [] = 0 := rfl
@[simp] theorem sizes_cons (file : LogFile) (files : List LogFile) : sizes (file :: files) = file.size + sizes files := by simp [sizes]

/-- The test on the size asks whether the files from this one on are too large. -/
theorem any_iff_oversize (fits : total < 2^64) (accounts : Accounts policy total files p) :
    policy.max_size_bytes.any (fun max_size => (total + 2^64 - p.cumulative_deleted) % 2^64 > max_size) = true ↔ Oversize policy files := by
  have covered := accounts.covers
  have rest : (total + 2^64 - p.cumulative_deleted) % 2^64 = total - p.cumulative_deleted := by omega
  rw [rest,Oversize,Option.any_eq_true]
  refine exists_congr fun max => and_congr_right fun member => ?_
  rw [decide_eq_true_iff]
  rcases accounts.exact max member with within | same <;> omega

theorem Accounts.delete (fits : total < 2^64) (accounts : Accounts policy total (file :: files) p) : Accounts policy total files (p.delete file) := by
  have covered := accounts.covers
  rw [sizes_cons] at covered
  have whole : (p.delete file).cumulative_deleted = p.cumulative_deleted + file.size := Nat.mod_eq_of_lt (by omega)
  refine ⟨by rw [whole]; omega,fun max member => ?_⟩
  rw [whole]
  rcases accounts.exact max member with within | same
  · exact .inl (by omega)
  · rw [sizes_cons] at same
    exact .inr (by omega)

/-- A file that is not deleted leaves the total within the limit. -/
theorem Accounts.stay {q : Progress} (same : q.cumulative_deleted = p.cumulative_deleted) (accounts : Accounts policy total (file :: files) p)
    (small : ¬ Oversize policy (file :: files)) : Accounts policy total files q := by
  have covered := accounts.covers
  rw [sizes_cons] at covered
  refine ⟨by rw [same]; omega,fun max member => .inl ?_⟩
  rw [same]
  rcases accounts.exact max member with within | whole
  · exact within
  · have limit : sizes (file :: files) ≤ max := Nat.le_of_not_lt fun more => small ⟨max,member,more⟩
    omega

theorem treat_judges (fits : total < 2^64) (files : List LogFile) (p : Progress) (accounts : Accounts policy total files p) :
    (files.foldl (treat policy expiry_check archive_check total) p).fates = p.fates ++ judge policy expiry_check archive_check files := by
  induction files generalizing p with
  | nil => simp [judge]
  | cons file later ih =>
    rw [List.foldl_cons,judge]
    by_cases gone : Expired policy expiry_check file ∨ Oversize policy (file :: later)
    · have step : treat policy expiry_check archive_check total p file = p.delete file := by
        unfold treat
        by_cases expired : policy.is_expired (expiry_check file) file.modified = true
        · rw [if_pos expired]
        · rw [if_neg expired,if_pos ((any_iff_oversize fits accounts).mpr (gone.resolve_left expired))]
      rw [step,if_pos gone,ih _ (accounts.delete fits)]
      simp [Progress.delete]
    · obtain ⟨fresh,small⟩ := not_or.mp gone
      have unexpired : ¬ policy.is_expired (expiry_check file) file.modified = true := fresh
      have fitting := fun any => small ((any_iff_oversize fits accounts).mp any)
      rw [if_neg gone]
      by_cases old : Old policy archive_check file
      · have step : treat policy expiry_check archive_check total p file = p.archive file := by
          rw [treat,if_neg unexpired,if_neg fitting]
          exact if_pos old
        have same : (p.archive file).cumulative_deleted = p.cumulative_deleted := rfl
        rw [step,if_pos old,ih _ (accounts.stay same small)]
        simp [Progress.archive]
      · have step : treat policy expiry_check archive_check total p file = p.leave file := by
          rw [treat,if_neg unexpired,if_neg fitting]
          exact if_neg old
        have same : (p.leave file).cumulative_deleted = p.cumulative_deleted := rfl
        rw [step,if_neg old,ih _ (accounts.stay same small)]
        simp [Progress.leave]

/-- What was done, in the statistics; the sum of the sizes as far as a u64 holds it. -/
structure Recorded (p : Progress) : Prop where
  deleted : p.stats.files_deleted = (p.having .deleted).length
  archived : p.stats.files_archived = (p.having .archived).length
  reclaimed : p.stats.bytes_reclaimed = sizes (p.having .deleted) % 2^64

theorem treat_recorded (recorded : Recorded p) (file : LogFile) : Recorded (treat policy expiry_check archive_check total p file) := by
  obtain ⟨deleted,archived,reclaimed⟩ := recorded
  have gone : Recorded (p.delete file) := by
    refine ⟨?_,?_,?_⟩
    · simpa [Progress.delete,Progress.having] using deleted
    · simpa [Progress.delete,Progress.having] using archived
    · simp only [Progress.delete,Progress.having,sizes,List.filter_append,List.map_append,List.sum_append] at reclaimed ⊢
      simp [reclaimed]
  unfold treat
  split
  · exact gone
  · split
    · exact gone
    · split
      · refine ⟨?_,?_,?_⟩
        · simpa [Progress.archive,Progress.having] using deleted
        · simpa [Progress.archive,Progress.having] using archived
        · simpa [Progress.archive,Progress.having] using reclaimed
      · refine ⟨?_,?_,?_⟩
        · simpa [Progress.leave,Progress.having] using deleted
        · simpa [Progress.leave,Progress.having] using archived
        · simpa [Progress.leave,Progress.having] using reclaimed

theorem sweep_recorded (directory : List LogFile) : Recorded (sweep policy expiry_check archive_check directory) := by
  have run : ∀ (files : List LogFile) (total : Nat) (p : Progress), Recorded p →
      Recorded (files.foldl (treat policy expiry_check archive_check total) p) := by
    intro files total
    induction files with
    | nil => exact fun p recorded => recorded
    | cons file files ih => exact fun p recorded => ih _ (treat_recorded recorded file)
  exact run _ _ _ ⟨rfl,rfl,rfl⟩

/-! ### What is left -/

/-- The files of a list of verdicts with this fate. -/
def withFate (fate : Fate) (judged : List (LogFile × Fate)) : List LogFile := (judged.filter fun file => file.2 = fate).map Prod.fst

theorem judge_files (files : List LogFile) : (judge policy expiry_check archive_check files).map Prod.fst = files := by
  induction files with
  | nil => rfl
  | cons file later ih => rw [judge,List.map_cons,ih]

/-- What is kept or archived is what is spared. -/
theorem sum_spared (measure : LogFile → Nat) (files : List LogFile) :
    ((withFate .kept (judge policy expiry_check archive_check files) ++ withFate .archived (judge policy expiry_check archive_check files)).map measure).sum =
      ((spared policy expiry_check files).map measure).sum := by
  induction files with
  | nil => rfl
  | cons file later ih =>
    simp only [withFate,List.map_append,List.sum_append] at ih ⊢
    rw [judge,spared]
    by_cases gone : Expired policy expiry_check file ∨ Oversize policy (file :: later)
    · simp only [if_pos gone]
      simpa using ih
    · simp only [if_neg gone]
      by_cases old : Old policy archive_check file
      · simp only [if_pos old]
        simp at ih ⊢
        omega
      · simp only [if_neg old]
        simp at ih ⊢
        omega

theorem sizes_spared_le (files : List LogFile) : sizes (spared policy expiry_check files) ≤ sizes files := by
  induction files with
  | nil => exact Nat.le_refl _
  | cons file later ih =>
    rw [spared]
    split
    · rw [sizes_cons]
      omega
    · rw [sizes_cons,sizes_cons]
      omega

/-- The limit on the size is met. -/
theorem spared_fits {max : Nat} (set : max ∈ policy.max_size_bytes) (files : List LogFile) : sizes (spared policy expiry_check files) ≤ max := by
  induction files with
  | nil => exact Nat.zero_le _
  | cons file later ih =>
    rw [spared]
    split
    case isTrue => exact ih
    case isFalse stays =>
      have whole : sizes (file :: later) ≤ max := Nat.le_of_not_lt fun more => stays (.inr ⟨max,set,more⟩)
      have less : sizes (spared policy expiry_check later) ≤ sizes later := sizes_spared_le later
      rw [sizes_cons] at whole ⊢
      omega

theorem mem_withFate {fate : Fate} {judged : List (LogFile × Fate)} : file ∈ withFate fate judged ↔ (file,fate) ∈ judged := by
  simp [withFate]

theorem mem_kept {files : List LogFile} (kept : (file,.kept) ∈ judge policy expiry_check archive_check files) :
    ¬ Expired policy expiry_check file ∧ ¬ Old policy archive_check file := by
  induction files with
  | nil => cases kept
  | cons first later ih =>
    rw [judge] at kept
    rcases List.mem_cons.mp kept with here | behind
    · obtain ⟨rfl,fate⟩ := Prod.mk.inj here
      by_cases gone : Expired policy expiry_check file ∨ Oversize policy (file :: later)
      · rw [if_pos gone] at fate
        cases fate
      · rw [if_neg gone] at fate
        refine ⟨fun expired => gone (.inl expired),fun old => ?_⟩
        rw [if_pos old] at fate
        cases fate
    · exact ih behind

theorem withFate_sizes_le (fate : Fate) (judged : List (LogFile × Fate)) : sizes (withFate fate judged) ≤ sizes (judged.map Prod.fst) := by
  induction judged with
  | nil => exact Nat.le_refl _
  | cons first judged ih =>
    have rest : sizes (withFate fate (first :: judged)) = (if first.2 = fate then first.1.size else 0) + sizes (withFate fate judged) := by
      by_cases same : first.2 = fate <;> simp [withFate,same]
    rw [rest,List.map_cons,sizes_cons]
    split <;> omega

theorem judge_deleted {files : List LogFile} {before later : List (LogFile × Fate)}
    (split : judge policy expiry_check archive_check files = before ++ (file,.deleted) :: later) :
    Expired policy expiry_check file ∨ Oversize policy (file :: later.map Prod.fst) := by
  induction files generalizing before with
  | nil => simp [judge] at split
  | cons first rest ih =>
    cases before with
    | nil =>
      rw [judge,List.nil_append,List.cons.injEq,Prod.mk.injEq] at split
      obtain ⟨⟨rfl,fate⟩,rfl⟩ := split
      rw [judge_files]
      by_contra stays
      rw [if_neg stays] at fate
      revert fate
      split <;> exact fun same => by cases same
    | cons b before =>
      rw [judge,List.cons_append,List.cons.injEq] at split
      exact ih split.2

/-- The limits on age, size and archiving are enforced, and that on the number of entries exactly if what the
others spare is within it. -/
theorem enforces_iff (directory : List LogFile) (fits : sizes (scan directory) < 2^64) :
    Enforces policy expiry_check archive_check directory (sweep policy expiry_check archive_check directory) ↔
      ∀ max ∈ policy.max_entries, entryCount (spared policy expiry_check (scan directory)) ≤ max := by
  have fates : (sweep policy expiry_check archive_check directory).fates = judge policy expiry_check archive_check (scan directory) := by
    have whole : sizes (scan directory) % 2^64 = sizes (scan directory) := Nat.mod_eq_of_lt fits
    rw [sweep]
    simp only [whole]
    exact treat_judges fits _ _ ⟨Nat.le_of_eq (Nat.zero_add _),fun max _ => .inr (Nat.zero_add _).symm⟩
  have having : ∀ fate, (sweep policy expiry_check archive_check directory).having fate = withFate fate (judge policy expiry_check archive_check (scan directory)) :=
    fun fate => by rw [Progress.having,fates]; rfl
  have counted : entryCount (withFate .kept (judge policy expiry_check archive_check (scan directory)) ++
      withFate .archived (judge policy expiry_check archive_check (scan directory))) = entryCount (spared policy expiry_check (scan directory)) := sum_spared _ _
  have recorded : Recorded (sweep policy expiry_check archive_check directory) := sweep_recorded directory
  obtain ⟨deleted,archived,reclaimed⟩ := recorded
  constructor
  · intro enforces max set
    have within := enforces.count max set
    rwa [having,having,counted] at within
  · intro within
    refine ⟨by rw [fates,judge_files],?_,?_,?_,?_,?_,deleted,archived,?_⟩
    · intro file kept
      rw [having] at kept
      exact (mem_kept (Iff.mp mem_withFate kept)).1
    · intro max set
      have sized : sizes (withFate .kept (judge policy expiry_check archive_check (scan directory)) ++
        withFate .archived (judge policy expiry_check archive_check (scan directory))) = sizes (spared policy expiry_check (scan directory)) := sum_spared _ _
      rw [having,having,sized]
      exact spared_fits set _
    · intro max set
      rw [having,having,counted]
      exact within max set
    · intro file kept
      rw [having] at kept
      exact (mem_kept (Iff.mp mem_withFate kept)).2
    · intro before file later split
      rw [fates] at split
      exact (judge_deleted split).imp id .inl
    · have bound := withFate_sizes_le .deleted (judge policy expiry_check archive_check (scan directory))
      rw [judge_files] at bound
      rw [reclaimed,having]
      exact Nat.mod_eq_of_lt (by omega)

end

/-- Two files with an entry each. -/
def two (first second : Int) : List LogFile := [⟨"a.ndjson",true,14,1,first⟩,⟨"b.ndjson",true,14,1,second⟩]

theorem scan_two : scan (two 6 7) = two 6 7 := by
  have logs : (two 6 7).filter (fun file => file.is_file && isNdjson file.name) = two 6 7 := by decide +kernel
  rw [scan,logs]
  exact List.mergeSort_of_pairwise (by decide)

/-- Two entries are left where no more than one is allowed. -/
theorem entries_unlimited : ¬ Enforces ⟨none,none,some 1,none⟩ (fun _ => 9) (fun _ => 9) (two 6 7) (sweep ⟨none,none,some 1,none⟩ (fun _ => 9) (fun _ => 9) (two 6 7)) := by
  intro enforces
  have within := enforces.count 1 rfl
  rw [sweep,scan_two] at within
  revert within
  decide

/-- Limits on the age and on the size, with two files of which the older one is too much. -/
theorem two_files_enforced : Enforces ⟨some 5,some 20,none,none⟩ (fun _ => 9) (fun _ => 9) (two 6 7) (sweep ⟨some 5,some 20,none,none⟩ (fun _ => 9) (fun _ => 9) (two 6 7)) :=
  (enforces_iff _ (by rw [scan_two]; decide)).mpr fun max set => by cases set

end Daf.RetentionSweep
