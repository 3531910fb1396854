import Daf.Json
import Daf.UuidText
import Mathlib.Data.List.Nodup
import Mathlib.Order.Defs.LinearOrder

/-!
Memories, the store that holds them by their ids, and the rules of their lifecycle: when a memory expires,
which tier it is in, and which memories a recall finds. Times are in nanoseconds. Scores are the numbers of
any linear order; what is computed from them in floating point is a parameter (`Doubles`).
-/
namespace Daf.Memories
open Daf.Json Daf.UuidText

inductive MemoryTier where
  | Hot | Warm | Cold
deriving DecidableEq,Repr

inductive MemoryKind where
  | Episodic | Semantic | Procedural | Working
deriving DecidableEq,Repr

structure Memory (F : Type) where
  id : Uuid
  kind : MemoryKind
  tier : MemoryTier
  content : Value
  created_at : Int
  last_accessed : Int
  access_count : Nat
  importance : F
  tags : List String
  source_agent : Option Uuid
  source_conversation : Option Uuid
  /-- Counted from the creation; `none` is for ever. -/
  ttl : Option Int
deriving DecidableEq

section
variable {F : Type}

/-- Bump the count of accesses, which is a 64-bit number. -/
def Memory.record_access (now : Int) (m : Memory F) : Memory F :=
  { m with access_count := (m.access_count + 1) % 2^64, last_accessed := now }

def Memory.is_expired (now : Int) (m : Memory F) : Bool :=
  match m.ttl with
  | some ttl => now > m.created_at + ttl
  | none => false

theorem expired_later {m : Memory F} {now later : Int} (time : now ≤ later) (expired : m.is_expired now = true) : m.is_expired later = true := by
  unfold Memory.is_expired at expired ⊢
  cases ttl : m.ttl with
  | none => simp [ttl] at expired
  | some ttl' =>
    simp only [ttl,decide_eq_true_eq] at expired ⊢
    omega

/-! ### The store -/

/-- What is stored, one memory an id. -/
structure Store (F : Type) where
  memories : List (Memory F)
  distinct : (memories.map Memory.id).Nodup

def Store.retrieve (s : Store F) (id : Uuid) : Option (Memory F) := s.memories.find? fun m => m.id = id

def Store.contains_key (s : Store F) (id : Uuid) : Bool := (s.retrieve id).isSome

theorem distinct_replace (m : Memory F) (memories : List (Memory F)) :
    (memories.map fun old => if old.id = m.id then m else old).map Memory.id = memories.map Memory.id := by
  rw [List.map_map]
  refine List.map_congr_left fun old _ => ?_
  by_cases same : old.id = m.id <;> simp [same]

theorem retrieve_none {s : Store F} {id : Uuid} : s.retrieve id = none ↔ id ∉ s.memories.map Memory.id := by
  simp [Store.retrieve,List.find?_eq_none]

theorem contains_key_iff {s : Store F} {id : Uuid} : s.contains_key id = true ↔ s.retrieve id ≠ none := by
  rw [Store.contains_key,Option.isSome_iff_ne_none]

/-- Write a memory under its id, over the one that is there. -/
def Store.insert (s : Store F) (m : Memory F) : Store F :=
  if absent : s.retrieve m.id = none then
    ⟨s.memories ++ [m],by
      rw [List.map_append,List.map_cons,List.map_nil]
      exact List.nodup_append.mpr ⟨s.distinct,List.nodup_singleton _,fun a old b new => by
        rw [List.mem_singleton.mp new]
        rintro rfl
        exact retrieve_none.mp absent old⟩⟩
  else ⟨s.memories.map fun old => if old.id = m.id then m else old,by rw [distinct_replace]; exact s.distinct⟩

def Store.remove (s : Store F) (id : Uuid) : Store F :=
  ⟨s.memories.filter fun m => m.id ≠ id,s.distinct.sublist (List.filter_sublist.map _)⟩

/-- Write a memory that is stored; `none` is the error that it is not. -/
def Store.update (s : Store F) (m : Memory F) : Option (Store F) := if s.contains_key m.id then some (s.insert m) else none

theorem retrieve_id {s : Store F} {id : Uuid} {m : Memory F} (found : s.retrieve id = some m) : m.id = id := by
  simpa using List.find?_some found

theorem retrieve_mem {s : Store F} {id : Uuid} {m : Memory F} (found : s.retrieve id = some m) : m ∈ s.memories :=
  List.mem_of_find?_eq_some found

theorem retrieve_of_mem {s : Store F} {m : Memory F} (stored : m ∈ s.memories) : s.retrieve m.id = some m := by
  cases found : s.retrieve m.id with
  | none => exact absurd (List.mem_map_of_mem stored) (retrieve_none.mp found)
  | some other =>
    have same := List.inj_on_of_nodup_map s.distinct (retrieve_mem found) stored (retrieve_id found)
    rw [same]

/-- A store is what it answers: two lookups agree when the same memories are stored. -/
theorem retrieve_eq_some {s : Store F} {id : Uuid} {m : Memory F} : s.retrieve id = some m ↔ m ∈ s.memories ∧ m.id = id :=
  ⟨fun found => ⟨retrieve_mem found,retrieve_id found⟩,fun stored => stored.2 ▸ retrieve_of_mem stored.1⟩

theorem mem_insert {s : Store F} {m other : Memory F} : other ∈ (s.insert m).memories ↔ other = m ∨ other ∈ s.memories ∧ other.id ≠ m.id := by
  unfold Store.insert
  split_ifs with absent
  · rw [List.mem_append,List.mem_singleton,or_comm]
    refine or_congr_right (iff_self_and.mpr fun stored same => ?_)
    exact retrieve_none.mp absent (same ▸ List.mem_map_of_mem stored)
  · rw [List.mem_map]
    constructor
    · rintro ⟨old,stored,rfl⟩
      by_cases same : old.id = m.id
      · simp [same]
      · rw [if_neg same]
        exact .inr ⟨stored,same⟩
    · rintro (rfl | ⟨stored,differs⟩)
      · obtain ⟨old,found⟩ := Option.ne_none_iff_exists'.mp absent
        exact ⟨old,retrieve_mem found,by rw [if_pos (retrieve_id found)]⟩
      · exact ⟨other,stored,by rw [if_neg differs]⟩

theorem mem_remove {s : Store F} {id : Uuid} {m : Memory F} : m ∈ (s.remove id).memories ↔ m ∈ s.memories ∧ m.id ≠ id := by
  simp [Store.remove]

@[simp] theorem retrieve_insert_self (s : Store F) (m : Memory F) : (s.insert m).retrieve m.id = some m :=
  retrieve_eq_some.mpr ⟨mem_insert.mpr (.inl rfl),rfl⟩

theorem retrieve_insert_ne {s : Store F} {m : Memory F} {id : Uuid} (other : id ≠ m.id) : (s.insert m).retrieve id = s.retrieve id := by
  ext found
  rw [retrieve_eq_some,retrieve_eq_some,mem_insert]
  constructor
  · rintro ⟨rfl | ⟨stored,-⟩,same⟩
    · exact absurd same.symm other
    · exact ⟨stored,same⟩
  · rintro ⟨stored,rfl⟩
    exact ⟨.inr ⟨stored,other⟩,rfl⟩

@[simp] theorem retrieve_remove_self (s : Store F) (id : Uuid) : (s.remove id).retrieve id = none := by
  rw [retrieve_none]
  rintro stored
  obtain ⟨m,member,rfl⟩ := List.mem_map.mp stored
  exact (mem_remove.mp member).2 rfl

theorem retrieve_remove_ne {s : Store F} {id other : Uuid} (differs : other ≠ id) : (s.remove id).retrieve other = s.retrieve other := by
  ext found
  rw [retrieve_eq_some,retrieve_eq_some,mem_remove]
  constructor
  · rintro ⟨⟨stored,-⟩,same⟩
    exact ⟨stored,same⟩
  · rintro ⟨stored,rfl⟩
    exact ⟨⟨stored,differs⟩,rfl⟩

theorem update_stored {s : Store F} {m m' : Memory F} (stored : s.retrieve m.id = some m) (id : m'.id = m.id) : s.update m' = some (s.insert m') := by
  have there : s.contains_key m'.id = true := by
    rw [contains_key_iff,id,stored]
    exact Option.some_ne_none m
  exact if_pos there

/-- The memories in the order in which the store is iterated: by a key of their ids. -/
def Store.iter (s : Store F) (key : Uuid → Nat) : List (Memory F) := s.memories.mergeSort fun a b => key a.id ≤ key b.id

def Store.list_all (s : Store F) (key : Uuid → Nat) (limit : Nat) : List (Memory F) := (s.iter key).take limit

/-- The memories that satisfy a condition of the store's own, such as a text or a tag. -/
def Store.list_by (s : Store F) (key : Uuid → Nat) (limit : Nat) (holds : Memory F → Bool) : List (Memory F) := ((s.iter key).filter holds).take limit

theorem mem_iter {s : Store F} {key : Uuid → Nat} {m : Memory F} : m ∈ s.iter key ↔ m ∈ s.memories := List.mem_mergeSort

theorem iter_distinct (s : Store F) (key : Uuid → Nat) : ((s.iter key).map Memory.id).Nodup :=
  ((List.mergeSort_perm s.memories _).map Memory.id).nodup_iff.mpr s.distinct

theorem mem_list_all {s : Store F} {key : Uuid → Nat} {limit : Nat} {m : Memory F} (listed : m ∈ s.list_all key limit) : m ∈ s.memories :=
  Iff.mp mem_iter (List.mem_of_mem_take listed)

theorem list_all_distinct (s : Store F) (key : Uuid → Nat) (limit : Nat) : ((s.list_all key limit).map Memory.id).Nodup :=
  (iter_distinct s key).sublist ((List.take_sublist _ _).map _)

theorem mem_list_by {s : Store F} {key : Uuid → Nat} {limit : Nat} {holds : Memory F → Bool} {m : Memory F}
    (listed : m ∈ s.list_by key limit holds) : m ∈ s.memories :=
  Iff.mp mem_iter (List.mem_of_mem_filter (List.mem_of_mem_take listed))

theorem list_by_distinct (s : Store F) (key : Uuid → Nat) (limit : Nat) (holds : Memory F → Bool) : ((s.list_by key limit holds).map Memory.id).Nodup :=
  (iter_distinct s key).sublist (((List.take_sublist _ _).trans List.filter_sublist).map _)

end

/-! ### The lifecycle of a memory -/

structure ManagerConfig (F : Type) where
  promote_to_hot_threshold : Nat
  promote_to_warm_threshold : Nat
  demote_from_hot_hours : F
  demote_from_warm_hours : F
  hot_importance_threshold : F
  decay_half_life_hours : F

/-- What is computed in floating point: the hours of a time span, the score of a memory under weights for recency, frequency
    and importance, its decayed importance, and whether that is a change worth reporting; and whether its content has a text in it. -/
structure Doubles (F : Type) where
  hours : Int → F
  relevance_score : F × F × F → Int → Memory F → F
  compute_decay : F → Int → Memory F → F
  decays : F → F → Bool
  contains_text : String → Value → Bool

section
variable {F : Type} [LinearOrder F] (doubles : Doubles F) (config : ManagerConfig F)

def assign_initial_tier (m : Memory F) : MemoryTier :=
  if m.kind = .Working then .Hot else
  if config.hot_importance_threshold ≤ m.importance then .Hot else .Warm

omit [LinearOrder F] in
def check_promotion (m : Memory F) : MemoryTier :=
  match m.tier with
  | .Cold => if config.promote_to_warm_threshold ≤ m.access_count then .Warm else .Cold
  | .Warm => if config.promote_to_hot_threshold ≤ m.access_count then .Hot else .Warm
  | .Hot => .Hot

def check_demotion (now : Int) (m : Memory F) : MemoryTier :=
  let hours_since_access := doubles.hours (now - m.last_accessed)
  match m.tier with
  | .Hot => if config.demote_from_hot_hours < hours_since_access then .Warm else .Hot
  | .Warm => if config.demote_from_warm_hours < hours_since_access then .Cold else .Warm
  | .Cold => .Cold

/-- A memory that was read: its access recorded, and promoted if that is due. -/
def accessed (now : Int) (m : Memory F) : Memory F :=
  { m.record_access now with tier := check_promotion config (m.record_access now) }

/-- A memory that a compaction keeps: decayed, and demoted if that is due. -/
def compacted (now : Int) (m : Memory F) : Memory F :=
  let decayed : Memory F := { m with importance := doubles.compute_decay config.decay_half_life_hours now m }
  { decayed with tier := check_demotion doubles config now decayed }

/-! ### Recall -/

inductive RecallStrategy where
  | MostRecent | MostAccessed | MostImportant | MostRelevant
deriving DecidableEq,Repr

structure RecallQuery (F : Type) where
  agent_filter : Option Uuid
  kind_filter : Option MemoryKind
  tier_filter : Option MemoryTier
  tag_filters : List String
  time_range : Option (Int × Int)
  importance_threshold : Option F
  content_search : Option String
  result_limit : Nat
  ranking_strategy : RecallStrategy
  relevance_weights : F × F × F
deriving DecidableEq

def RecallQuery.new {F : Type} [OfScientific F] : RecallQuery F := ⟨none,none,none,[],none,none,none,50,.MostRelevant,(0.4,0.2,0.4)⟩

structure RecallResult (F : Type) where
  memories : List (Memory F)
  total_matches : Nat
deriving DecidableEq

/-- The filters of a query. -/
def RecallQuery.admits (q : RecallQuery F) (now : Int) (m : Memory F) : Bool :=
  !m.is_expired now &&
  (q.agent_filter.all fun agent => m.source_agent = some agent) &&
  (q.kind_filter.all fun kind => m.kind = kind) &&
  (q.tier_filter.all fun tier => m.tier = tier) &&
  (q.tag_filters.all fun tag => m.tags.contains tag) &&
  (q.time_range.all fun range => range.1 ≤ m.created_at ∧ m.created_at ≤ range.2) &&
  (q.importance_threshold.all fun threshold => threshold ≤ m.importance)

/-- The ranking of a query, best first. -/
def RecallQuery.rank (q : RecallQuery F) (now : Int) (a b : Memory F) : Bool :=
  match q.ranking_strategy with
  | .MostRecent => b.last_accessed ≤ a.last_accessed
  | .MostAccessed => b.access_count ≤ a.access_count
  | .MostImportant => b.importance ≤ a.importance
  | .MostRelevant => doubles.relevance_score q.relevance_weights now b ≤ doubles.relevance_score q.relevance_weights now a

/-- `usize::MAX` -/
def unlimited : Nat := 2^64 - 1

def execute_recall (s : Store F) (key : Uuid → Nat) (now : Int) (q : RecallQuery F) : RecallResult F :=
  let candidates :=
    match q.content_search with
    | some search => s.list_by key unlimited fun m => doubles.contains_text search m.content
    | none => s.list_all key unlimited
  let filtered := candidates.filter (q.admits now)
  ⟨(filtered.mergeSort (q.rank doubles now)).take q.result_limit,filtered.length⟩

theorem recalled_stored {s : Store F} {key : Uuid → Nat} {now : Int} {q : RecallQuery F} {m : Memory F}
    (found : m ∈ (execute_recall doubles s key now q).memories) : m ∈ s.memories := by
  have candidate := List.mem_of_mem_filter (List.mem_mergeSort.mp (List.mem_of_mem_take found))
  split at candidate
  · exact mem_list_by candidate
  · exact mem_list_all candidate

theorem recalled_distinct (s : Store F) (key : Uuid → Nat) (now : Int) (q : RecallQuery F) :
    ((execute_recall doubles s key now q).memories.map Memory.id).Nodup := by
  refine List.Nodup.sublist ((List.take_sublist _ _).map _) (((List.mergeSort_perm _ _).map _).nodup_iff.mpr ?_)
  refine List.Nodup.sublist (List.filter_sublist.map _) ?_
  split
  · exact list_by_distinct s key _ _
  · exact list_all_distinct s key _

end
end Daf.Memories
