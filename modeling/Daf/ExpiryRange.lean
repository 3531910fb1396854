import Daf.Memories

/-!
Calls of a memory manager that nothing runs beside, where dates have a range: adding the time to live of a
memory to its creation panics when the sum is out of the range. A compaction goes through the first memories
that the store lists, and no further than their limit.
-/
namespace Daf.ExpiryRange
open Daf.UuidText Daf.Memories

/-- The first date and the last one. -/
structure Dates where
  min : Int
  max : Int

/-- The readings of the clock, which does not go back before the first of them. -/
structure Clock where
  read : Nat → Int
  forward : ∀ n, read 0 ≤ read n

/-- A clock that stands still. -/
def stopped (now : Int) : Clock := ⟨fun _ => now,fun _ => le_rfl⟩

/-- How a compaction ends, with what it leaves in the store. -/
inductive Outcome (F : Type) where
  | returned (s : Store F)
  | failed (s : Store F)
  | panicked (s : Store F)

section
variable {F : Type}

/-- The sum that is checked for an expiry is no date. -/
def Overflows (dates : Dates) (m : Memory F) : Prop := ∃ ttl ∈ m.ttl, ¬ (dates.min ≤ m.created_at + ttl ∧ m.created_at + ttl ≤ dates.max)

/-- `is_expired`, with `none` for a panic. -/
def checked_expired (dates : Dates) (now : Int) (m : Memory F) : Option Bool :=
  match m.ttl with
  | some ttl => if dates.min ≤ m.created_at + ttl ∧ m.created_at + ttl ≤ dates.max then some (now > m.created_at + ttl) else none
  | none => some false

/-- An update whose error is only noted. -/
def write (s : Store F) (m : Memory F) : Store F := (s.update m).getD s

variable [LinearOrder F] (doubles : Doubles F) (config : ManagerConfig F) (dates : Dates)

def MemoryManager.get (now : Int) (s : Store F) (id : Uuid) : Option (Option (Memory F) × Store F) :=
  match s.retrieve id with
  | none => some (none,s)
  | some m =>
    match checked_expired dates now m with
    | none => none
    | some true => some (none,s)
    | some false => some (some (accessed config now m),write s (accessed config now m))

/-- The candidates that a query admits; the clock is read for each of them. -/
def admitted (q : RecallQuery F) (clock : Clock) : Nat → List (Memory F) → Option (List (Memory F))
  | _,[] => some []
  | n,m :: candidates =>
    match checked_expired dates (clock.read n) m with
    | none => none
    | some _ => (admitted q clock (n+1) candidates).map fun found => if q.admits (clock.read n) m then m :: found else found

def candidates (s : Store F) (key : Uuid → Nat) (q : RecallQuery F) : List (Memory F) :=
  match q.content_search with
  | some search => s.list_by key unlimited fun m => doubles.contains_text search m.content
  | none => s.list_all key unlimited

/-- What is found is written back as it is after an access. -/
def MemoryManager.recall (key : Uuid → Nat) (now : Int) (clock : Clock) (s : Store F) (q : RecallQuery F) : Option (RecallResult F × Store F) :=
  (admitted dates q clock 0 (candidates doubles s key q)).map fun filtered =>
    let found := ((filtered.mergeSort (q.rank doubles now)).take q.result_limit).map (accessed config now)
    (⟨found,filtered.length⟩,found.foldl write s)

/-- One memory after the other; the store may fail to delete one. -/
def sweep (clock : Clock) (fails : Uuid → Bool) : Nat → List (Memory F) → Store F → Outcome F
  | _,[],s => .returned s
  | n,m :: listed,s =>
    match checked_expired dates (clock.read n) m with
    | none => .panicked s
    | some true => if fails m.id then .failed s else sweep clock fails (n+1) listed (s.remove m.id)
    | some false =>
      let decayed : Memory F := { m with importance := doubles.compute_decay config.decay_half_life_hours (clock.read (n+1)) m }
      sweep clock fails (n+3) listed (write s { decayed with tier := check_demotion doubles config (clock.read (n+2)) decayed })

/-- How many memories a compaction lists. -/
def limit : Nat := 100000

def MemoryManager.compact (key : Uuid → Nat) (clock : Clock) (fails : Uuid → Bool) (s : Store F) : Outcome F :=
  sweep doubles config dates clock fails 0 (s.list_all key limit) s

end

/-! ### Panics -/

section
variable {F : Type} {dates : Dates} {m : Memory F} {now : Int}

theorem checked_none : checked_expired dates now m = none ↔ Overflows dates m := by
  rw [checked_expired,Overflows]
  cases m.ttl with
  | none => simp
  | some ttl => simp

theorem not_overflows {expired : Bool} (checked : checked_expired dates now m = some expired) : ¬ Overflows dates m :=
  fun beyond => nomatch (Iff.mpr checked_none beyond).symm.trans checked

theorem checked_some {expired : Bool} (checked : checked_expired dates now m = some expired) : m.is_expired now = expired := by
  rw [checked_expired] at checked
  rw [Memory.is_expired]
  cases ttl : m.ttl with
  | none => simpa [ttl] using checked
  | some t =>
    rw [ttl] at checked
    simp only at checked
    split_ifs at checked
    exact Option.some.inj checked

theorem checked_within (within : ¬ Overflows dates m) : checked_expired dates now m = some (m.is_expired now) := by
  cases checked : checked_expired dates now m with
  | none => exact absurd (Iff.mp checked_none checked) within
  | some expired => rw [checked_some checked]

variable {config : ManagerConfig F} {s : Store F} {id : Uuid}

theorem get_panics : MemoryManager.get config dates now s id = none ↔ ∃ m, s.retrieve id = some m ∧ Overflows dates m := by
  rw [MemoryManager.get]
  cases found : s.retrieve id with
  | none => simp
  | some m =>
    simp only [Option.some.injEq,exists_eq_left']
    cases checked : checked_expired dates now m with
    | none => exact ⟨fun _ => Iff.mp checked_none checked,fun _ => rfl⟩
    | some expired =>
      have here : ¬ Overflows dates m := not_overflows checked
      cases expired <;> simp [here]

theorem write_ne {s : Store F} {m : Memory F} (other : id ≠ m.id) : (write s m).retrieve id = s.retrieve id := by
  rw [write,Store.update]
  split_ifs
  · exact retrieve_insert_ne other
  · rfl

theorem write_self {m' : Memory F} (stored : s.retrieve m.id = some m) (same : m'.id = m.id) : (write s m').retrieve m.id = some m' := by
  rw [write,update_stored stored same,Option.getD_some,← same]
  exact retrieve_insert_self s m'

variable [LinearOrder F] {doubles : Doubles F} {clock : Clock} {fails : Uuid → Bool} {s' : Store F} {key : Uuid → Nat}
  {listed : List (Memory F)} {n : Nat} {q : RecallQuery F}

theorem admitted_panics : admitted dates q clock n listed = none ↔ ∃ m ∈ listed, Overflows dates m := by
  induction listed generalizing n with
  | nil => simp [admitted]
  | cons m listed ih =>
    rw [admitted]
    cases checked : checked_expired dates (clock.read n) m with
    | none => exact ⟨fun _ => ⟨m,List.mem_cons_self,Iff.mp checked_none checked⟩,fun _ => rfl⟩
    | some expired =>
      have here : ¬ Overflows dates m := not_overflows checked
      simpa [here] using ih

/-- A recall panics exactly where the sum of some candidate is no date. -/
theorem recall_panics : MemoryManager.recall doubles config dates key now clock s q = none ↔ ∃ m ∈ candidates doubles s key q, Overflows dates m := by
  rw [MemoryManager.recall,Option.map_eq_none_iff,admitted_panics]

theorem sweep_overflow (beyond : Overflows dates m) (s : Store F) : sweep doubles config dates clock fails n (m :: listed) s = .panicked s := by
  rw [sweep,Iff.mpr checked_none beyond]

/-- The first memory: deleted unless the store fails, or written as it is after the decay. -/
theorem sweep_first (within : ¬ Overflows dates m) (s : Store F) :
    m.is_expired (clock.read n) = true ∧ sweep doubles config dates clock fails n (m :: listed) s =
        (if fails m.id then .failed s else sweep doubles config dates clock fails (n+1) listed (s.remove m.id)) ∨
      m.is_expired (clock.read n) = false ∧ ∃ kept, kept.id = m.id ∧ (∀ now, clock = stopped now → kept = compacted doubles config now m) ∧
        sweep doubles config dates clock fails n (m :: listed) s = sweep doubles config dates clock fails (n+3) listed (write s kept) := by
  rw [sweep,checked_within within]
  cases m.is_expired (clock.read n) with
  | true => exact .inl ⟨rfl,rfl⟩
  | false =>
    refine .inr ⟨rfl,_,?_,?_,rfl⟩
    · rfl
    · rintro now rfl
      rfl

theorem sweep_total (within : ∀ m ∈ listed, ¬ Overflows dates m) (s left : Store F) : sweep doubles config dates clock fails n listed s ≠ .panicked left := by
  induction listed generalizing n s with
  | nil => exact nofun
  | cons m listed ih =>
    obtain ⟨here,later⟩ := List.forall_mem_cons.mp within
    obtain ⟨-,next⟩ | ⟨-,_,-,-,next⟩ := sweep_first here s
    · rw [next]
      split
      · exact nofun
      · exact ih later _
    · exact next ▸ ih later _

/-- Where the store never fails, an overflow is reached. -/
theorem sweep_panics (overflow : ∃ m ∈ listed, Overflows dates m) (s : Store F) :
    ∃ left, sweep doubles config dates clock (fun _ => false) n listed s = .panicked left := by
  induction listed generalizing n s with
  | nil => simp at overflow
  | cons m listed ih =>
    by_cases here : Overflows dates m
    · exact ⟨s,sweep_overflow here s⟩
    · have later : ∃ m ∈ listed, Overflows dates m := by
        obtain ⟨other,member,beyond⟩ := overflow
        rcases List.mem_cons.mp member with rfl | member
        · exact absurd beyond here
        · exact ⟨other,member,beyond⟩
      obtain ⟨-,next⟩ | ⟨-,_,-,-,next⟩ := sweep_first here s
      · exact next ▸ ih later _
      · exact next ▸ ih later _

/-! ### What a compaction leaves -/

/-- The first memory of a compaction that returns: deleted, or written as it is after the decay. -/
theorem sweep_cons {first : Memory F} (swept : sweep doubles config dates clock fails n (first :: listed) s = .returned s') :
    first.is_expired (clock.read n) = true ∧ sweep doubles config dates clock fails (n+1) listed (s.remove first.id) = .returned s' ∨
      first.is_expired (clock.read n) = false ∧ ∃ kept, kept.id = first.id ∧ (∀ now, clock = stopped now → kept = compacted doubles config now first) ∧
        sweep doubles config dates clock fails (n+3) listed (write s kept) = .returned s' := by
  by_cases beyond : Overflows dates first
  · exact nomatch (sweep_overflow beyond s).symm.trans swept
  · obtain ⟨expired,next⟩ | ⟨lives,kept,same,decayed,next⟩ := sweep_first beyond s
    · rw [next] at swept
      split at swept
      · exact nomatch swept
      · exact .inl ⟨expired,swept⟩
    · exact .inr ⟨lives,kept,same,decayed,next.symm.trans swept⟩

/-- Memories that are not listed stay as they are. -/
theorem sweep_others (other : ∀ m ∈ listed, id ≠ m.id) (swept : sweep doubles config dates clock fails n listed s = .returned s') :
    s'.retrieve id = s.retrieve id := by
  induction listed generalizing n s with
  | nil =>
    obtain rfl := Outcome.returned.inj swept
    rfl
  | cons first listed ih =>
    obtain ⟨here,later⟩ := List.forall_mem_cons.mp other
    obtain ⟨-,swept⟩ | ⟨-,kept,same,-,swept⟩ := sweep_cons swept
    · exact (ih later swept).trans (retrieve_remove_ne here)
    · exact (ih later swept).trans (write_ne (same ▸ here))

/-- A listed memory that was expired at the start is deleted. -/
theorem sweep_expired (distinct : (listed.map Memory.id).Nodup) (member : m ∈ listed) (expired : m.is_expired (clock.read 0) = true)
    (swept : sweep doubles config dates clock fails n listed s = .returned s') : s'.retrieve m.id = none := by
  induction listed generalizing n s with
  | nil => exact nomatch member
  | cons first listed ih =>
    obtain ⟨fresh,distinct⟩ := List.nodup_cons.mp distinct
    rcases List.mem_cons.mp member with rfl | later
    · have others : ∀ other ∈ listed, m.id ≠ other.id := fun other inside same => fresh (same ▸ List.mem_map_of_mem inside)
      have still := expired_later (clock.forward n) expired
      obtain ⟨-,swept⟩ | ⟨kept,-⟩ := sweep_cons swept
      · exact (sweep_others others swept).trans (retrieve_remove_self s m.id)
      · exact absurd still (by simp [kept])
    · obtain ⟨-,swept⟩ | ⟨-,_,-,-,swept⟩ := sweep_cons swept
      · exact ih distinct later swept
      · exact ih distinct later swept

/-- A listed memory that has not expired is decayed, and demoted if that is due. -/
theorem sweep_kept (distinct : (listed.map Memory.id).Nodup) (member : m ∈ listed) (stored : s.retrieve m.id = some m) (lives : m.is_expired now = false)
    (swept : sweep doubles config dates (stopped now) fails n listed s = .returned s') : s'.retrieve m.id = some (compacted doubles config now m) := by
  induction listed generalizing n s with
  | nil => exact nomatch member
  | cons first listed ih =>
    obtain ⟨fresh,distinct⟩ := List.nodup_cons.mp distinct
    rcases List.mem_cons.mp member with rfl | later
    · have others : ∀ other ∈ listed, m.id ≠ other.id := fun other inside same => fresh (same ▸ List.mem_map_of_mem inside)
      obtain ⟨expired,-⟩ | ⟨-,kept,same,decayed,swept⟩ := sweep_cons swept
      · exact absurd (lives.symm.trans expired) Bool.false_ne_true
      · rw [sweep_others others swept,write_self stored same,decayed now rfl]
    · have differs : m.id ≠ first.id := fun same => fresh (same ▸ List.mem_map_of_mem later)
      obtain ⟨-,swept⟩ | ⟨-,kept,same,-,swept⟩ := sweep_cons swept
      · exact ih distinct later ((retrieve_remove_ne differs).trans stored) swept
      · exact ih distinct later ((write_ne (same ▸ differs)).trans stored) swept

theorem sweep_returns (within : ∀ m ∈ listed, ¬ Overflows dates m) (s : Store F) :
    ∃ s', sweep doubles config dates clock (fun _ => false) n listed s = .returned s' := by
  induction listed generalizing n s with
  | nil => exact ⟨s,rfl⟩
  | cons m listed ih =>
    obtain ⟨here,later⟩ := List.forall_mem_cons.mp within
    obtain ⟨-,next⟩ | ⟨-,_,-,-,next⟩ := sweep_first here s
    · exact next ▸ ih later _
    · exact next ▸ ih later _

end

section
variable {F : Type} [LinearOrder F] (doubles : Doubles F) (config : ManagerConfig F) (dates : Dates) (key : Uuid → Nat) (s : Store F)

/-- No call panics, whatever the clock says and whether or not the store fails. -/
structure Total : Prop where
  gets : ∀ now id, MemoryManager.get config dates now s id ≠ none
  recalls : ∀ now clock q, MemoryManager.recall doubles config dates key now clock s q ≠ none
  compacts : ∀ clock fails left, MemoryManager.compact doubles config dates key clock fails s ≠ .panicked left

/-- A compaction that returns leaves none of the memories that were expired at its start. -/
def Complete (start : Int) : Prop := ∀ clock fails s', clock.read 0 = start → MemoryManager.compact doubles config dates key clock fails s = .returned s' →
  ∀ m ∈ s.memories, m.is_expired start = true → s'.retrieve m.id = none

/-- The memories that are expired are among those that a compaction lists. -/
def Listed (start : Int) : Prop := ∀ m ∈ s.memories, m.is_expired start = true → m ∈ s.list_all key limit

variable {doubles config dates key s}

theorem total_of_within (within : ∀ m ∈ s.memories, ¬ Overflows dates m) : Total doubles config dates key s := by
  refine ⟨fun now id panics => ?_,fun now clock q panics => ?_,fun clock fails left => ?_⟩
  · obtain ⟨m,found,beyond⟩ := get_panics.mp panics
    exact within m (retrieve_mem found) beyond
  · obtain ⟨m,candidate,beyond⟩ := recall_panics.mp panics
    refine within m ?_ beyond
    rw [candidates] at candidate
    split at candidate
    · exact mem_list_by candidate
    · exact mem_list_all candidate
  · exact sweep_total (fun m listed => within m (mem_list_all listed)) s left

theorem complete_of_listed {start : Int} (listed : Listed key s start) : Complete doubles config dates key s start := by
  rintro clock fails s' rfl swept m stored expired
  exact sweep_expired (list_all_distinct s key limit) (listed m stored expired) expired swept

/-- What is not listed is left, in a compaction that returns. -/
theorem listed_of_complete {start : Int} (within : ∀ m ∈ s.list_all key limit, ¬ Overflows dates m)
    (complete : Complete doubles config dates key s start) : Listed key s start := by
  intro m stored expired
  by_contra unlisted
  obtain ⟨s',swept⟩ : ∃ s', MemoryManager.compact doubles config dates key (stopped start) (fun _ => false) s = .returned s' := sweep_returns within s
  have gone := complete (stopped start) _ s' rfl swept m stored expired
  have others : ∀ other ∈ s.list_all key limit, m.id ≠ other.id := by
    intro other listed same
    have twin := List.inj_on_of_nodup_map s.distinct stored (mem_list_all listed) same
    exact unlisted (twin ▸ listed)
  rw [sweep_others others swept,retrieve_of_mem stored] at gone
  exact nomatch gone

end

/-- The dates of chrono, in nanoseconds. -/
def chrono : Dates := ⟨-8334601228800 * 10^9,8210266876799 * 10^9 + 999999999⟩

/-- A memory that is to live as long as a duration can be. -/
def lasting : Memory Nat := ⟨1,.Semantic,.Warm,.null,0,0,0,50,[],none,none,some ((2^63 - 1) * 10^6)⟩

def plain : Doubles Nat := ⟨fun _ => 0,fun _ _ _ => 0,fun _ _ m => m.importance,fun _ _ => false,fun _ _ => true⟩

end Daf.ExpiryRange
