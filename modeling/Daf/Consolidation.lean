import Daf.Memories
import Daf.Runs
import Mathlib.Order.Lattice
import Mathlib.Order.MinMax

/-!
Consolidation of memories: episodes are distilled, similar memories are merged into the oldest of them, and those
that are used much are reinforced; a compaction deletes what has expired. What became of the memories that were
merged is followed over any number of runs.
-/
namespace Daf.Consolidation
open Daf.Json Daf.UuidText Daf.Memories Daf.Runs

structure ConsolidationConfig (F : Type) where
  lookback_hours : F
  similarity_threshold : F
  reinforce_boost : F
  reinforce_max : F

/-- The literals and the arithmetic of consolidation, in floating point, and the lower-case words of a content. -/
structure Scores (F : Type) extends Doubles F where
  distill_floor : F
  distilled : F → F
  add : F → F → F
  count : Nat → F
  average : List Nat → F
  zero : F
  one : F
  ratio : Nat → Nat → F
  words : Value → List String

structure ConsolidationReport where
  reviewed : Nat
  distilled : Nat
  merged : Nat
  reinforced : Nat
deriving DecidableEq,Repr

/-- A merge: the memory that was deleted, into which one it was merged, and the importance that this one has reached. -/
structure Merge (F : Type) where
  into : Uuid
  merged : Memory F
  reached : F
deriving DecidableEq

/-- A store, every merge in it so far, and the time of the last run on it. -/
structure Knowledge (F : Type) where
  store : Store F
  merges : List (Merge F) := []
  time : Int

/-- The batch that is being merged: the ids merged by it, and whether an update has failed. -/
structure Merging (F : Type) where
  store : Store F
  merges : List (Merge F)
  merged_ids : List Uuid := []
  halted : Bool := false

/-- What a run finds outside: the time, the order in which the store and the groups are iterated, and the id that is drawn
    for what is distilled from a memory. -/
structure Surroundings where
  now : Int
  key : Uuid → Nat
  kinds : MemoryKind → Nat
  draw : Uuid → Uuid

section
variable {F : Type}

def isProvenance (tag : String) : Bool := "distilled_from:".toList.isPrefixOf tag.toList

/-- The tags that say what a memory was distilled from. -/
def provenance (m : Memory F) : List String := m.tags.filter isProvenance

def saturating_add (a b : Nat) : Nat := min (a + b) (2^64 - 1)

def unionTags (tags more : List String) : List String := more.foldl (fun tags tag => if tags.contains tag then tags else tags ++ [tag]) tags

/-- The JSON object's value under a key. -/
def field (fields : List (String × Value)) (key : String) : Option Value := (fields.find? fun entry => entry.1 = key).map Prod.snd

def distill_content : Value → Value
  | .object fields =>
    match ["summary","learning","key_point","takeaway","conclusion"].findSome? (field fields),field fields "content" with
    | some summary,_ => summary
    | none,some (.string text) => .string text
    | none,_ => .object fields
  | content => content

section
variable [LinearOrder F] (scores : Scores F) (config : ConsolidationConfig F)

/-- The share of common words. -/
def content_similarity (a b : Value) : F :=
  let words_a := (scores.words a).dedup
  let words_b := (scores.words b).dedup
  if words_a = [] ∧ words_b = [] then scores.one else
  if words_a = [] ∨ words_b = [] then scores.zero else
  let intersection := (words_a.filter words_b.contains).length
  let union := words_a.length + words_b.length - intersection
  if union = 0 then scores.zero else scores.ratio intersection union

/-! ### Distilling -/

/-- What is distilled from an episode. -/
def distillate (now : Int) (id : Uuid) (m : Memory F) : Memory F where
  id
  kind := .Semantic
  tier := .Warm
  content := distill_content m.content
  created_at := m.created_at
  last_accessed := now
  access_count := 0
  importance := scores.distilled m.importance
  tags := m.tags ++ ["distilled_from:mem:" ++ toText m.id]
  source_agent := m.source_agent
  source_conversation := m.source_conversation
  ttl := m.ttl

def distillOne (out : Surroundings) (state : Store F × List Uuid) (m : Memory F) : Store F × List Uuid :=
  if m.kind ≠ .Episodic then state else
  if m.importance < scores.distill_floor then state else
  if state.1.list_by out.key 1 (fun old => old.tags.contains ("distilled_from:mem:" ++ toText m.id)) ≠ [] then state else
  (state.1.insert (distillate scores out.now (out.draw m.id) m),state.2 ++ [out.draw m.id])

def distill_batch (out : Surroundings) (s : Store F) (memories : List (Memory F)) : Store F × List Uuid :=
  memories.foldl (distillOne scores out) (s,[])

/-! ### Merging -/

/-- Memories of one owner, conversation and provenance whose contents are similar. -/
def alike (a b : Memory F) : Bool :=
  a.source_agent = b.source_agent && a.source_conversation = b.source_conversation && provenance a = provenance b &&
    config.similarity_threshold ≤ content_similarity scores a.content b.content

/-- The memory that another one is merged into, as it is in the store, if these two are merged. -/
def keeper (acc : Merging F) (i j : Memory F) : Option (Memory F) :=
  if acc.halted ∨ acc.merged_ids.contains j.id ∨ ¬ alike scores config i j then none else acc.store.retrieve i.id

/-- A memory that has taken up another one. -/
def absorb (kept merged : Memory F) : Memory F :=
  { kept with
    access_count := saturating_add kept.access_count merged.access_count
    importance := max kept.importance merged.importance
    tags := unionTags kept.tags merged.tags }

/-- Look at a pair: update the keeper and delete the other one. -/
def mergePair (i : Memory F) (acc : Merging F) (j : Memory F) : Merging F :=
  match keeper scores config acc i j with
  | none => acc
  | some kept =>
    match acc.store.update (absorb kept j) with
    | none => { acc with halted := true }
    | some store =>
      { acc with
        store := store.remove j.id
        merges := acc.merges ++ [⟨i.id,j,(absorb kept j).importance⟩]
        merged_ids := acc.merged_ids ++ [j.id] }

def mergeGroup (acc : Merging F) : List (Memory F) → Merging F
  | [] => acc
  | i :: rest => mergeGroup (if acc.merged_ids.contains i.id then acc else rest.foldl (mergePair scores config i) acc) rest

/-- The kinds in the order of the groups. -/
def kinds (out : Surroundings) : List MemoryKind :=
  [MemoryKind.Episodic,.Semantic,.Procedural,.Working].mergeSort fun a b => out.kinds a ≤ out.kinds b

/-- The memories of a kind, the oldest first. -/
def group (memories : List (Memory F)) (kind : MemoryKind) : List (Memory F) :=
  (memories.filter fun m => m.kind = kind).mergeSort fun a b => a.created_at < b.created_at ∨ a.created_at = b.created_at ∧ a.id ≤ b.id

def merge_similar_batch (out : Surroundings) (acc : Merging F) (memories : List (Memory F)) : Merging F :=
  (kinds out).foldl (fun acc kind => mergeGroup scores config acc (group memories kind)) acc

/-! ### Reinforcing -/

def boosted (m : Memory F) : Memory F := { m with importance := min (scores.add m.importance config.reinforce_boost) config.reinforce_max }

def reinforceOne (avg_access : F) (state : Store F × Nat) (m : Memory F) : Store F × Nat :=
  if avg_access < scores.count m.access_count ∧ 1 < m.access_count then
    match state.1.update (boosted scores config m) with
    | none => state
    | some s => (s,state.2 + 1)
  else state

def reinforce_batch (s : Store F) (memories : List (Memory F)) : Store F × Nat :=
  memories.foldl (reinforceOne scores config (scores.average (memories.map Memory.access_count))) (s,0)

/-! ### Runs -/

/-- The memories that a run reviews. -/
def recent (out : Surroundings) (s : Store F) : List (Memory F) :=
  (s.list_all out.key 100000).filter fun m => !m.is_expired out.now && (scores.hours (out.now - m.created_at) ≤ config.lookback_hours)

/-- Where merging starts: behind the distilling. -/
def mergeStart (out : Surroundings) (k : Knowledge F) : Merging F :=
  { store := (distill_batch scores out k.store (recent scores config out k.store)).1, merges := k.merges }

/-- A run; the report is missing when it has failed. -/
def consolidate (out : Surroundings) (k : Knowledge F) : Option ConsolidationReport × Knowledge F :=
  let reviewed := recent scores config out k.store
  let created := (distill_batch scores out k.store reviewed).2
  let merging := merge_similar_batch scores config out (mergeStart scores config out k) reviewed
  if merging.halted then (none,⟨merging.store,merging.merges,out.now⟩) else
  let survivors := reviewed.filterMap fun m => merging.store.retrieve m.id
  let reinforced := reinforce_batch scores config merging.store survivors
  (some ⟨reviewed.length,created.length,merging.merged_ids.length,reinforced.2⟩,⟨reinforced.1,merging.merges,out.now⟩)

variable (manager : ManagerConfig F)

def compactOne (now : Int) (s : Store F) (m : Memory F) : Store F :=
  if m.is_expired now then s.remove m.id else (s.update (compacted scores.toDoubles manager now m)).getD s

/-- A compaction that nothing runs beside. -/
def compact (out : Surroundings) (k : Knowledge F) : Knowledge F :=
  { k with store := (k.store.list_all out.key 100000).foldl (compactOne scores manager out.now) k.store, time := out.now }

inductive Event where
  | consolidate (out : Surroundings)
  | compact (out : Surroundings)

def Event.out : Event → Surroundings
  | .consolidate out => out
  | .compact out => out

def Knowledge.step (k : Knowledge F) : Event → Knowledge F
  | .consolidate out => (Consolidation.consolidate scores config out k).2
  | .compact out => Consolidation.compact scores manager out k

end

/-! ### What becomes of a merged memory -/

/-- The first of two memories expires no earlier than the second. -/
def outlives (k m : Memory F) : Bool :=
  match k.ttl,m.ttl with
  | none,_ => true
  | some _,none => false
  | some a,some b => m.created_at + b ≤ k.created_at + a

theorem outlives_iff {k m : Memory F} : outlives k m = true ↔ ∀ now, k.is_expired now = true → m.is_expired now = true := by
  unfold outlives Memory.is_expired
  cases k.ttl with
  | none => simp
  | some a =>
    cases m.ttl with
    | none =>
      simp only [Bool.false_eq_true,false_iff,decide_eq_true_eq]
      intro all
      exact all (k.created_at + a + 1) (by omega)
    | some b =>
      simp only [decide_eq_true_eq]
      constructor
      · intro later now expired
        omega
      · intro all
        by_contra sooner
        have gone := all (m.created_at + b) (by omega)
        omega

theorem mem_group {memories : List (Memory F)} {kind : MemoryKind} {m : Memory F} : m ∈ group memories kind ↔ m ∈ memories ∧ m.kind = kind := by
  rw [group,List.mem_mergeSort,List.mem_filter,decide_eq_true_eq]

theorem group_distinct {memories : List (Memory F)} (distinct : (memories.map Memory.id).Nodup) (kind : MemoryKind) :
    ((group memories kind).map Memory.id).Nodup :=
  ((List.mergeSort_perm _ _).map Memory.id).nodup_iff.mpr (distinct.sublist (List.filter_sublist.map _))

theorem retrieve_update_ne {s s' : Store F} {m : Memory F} {id : Uuid} (written : s.update m = some s') (other : id ≠ m.id) : s'.retrieve id = s.retrieve id := by
  unfold Store.update at written
  split at written
  · cases written
    exact retrieve_insert_ne other
  · cases written

/-- What is read again of distinct memories is distinct. -/
theorem survivors_distinct {memories : List (Memory F)} (distinct : (memories.map Memory.id).Nodup) (s : Store F) :
    ((memories.filterMap fun m => s.retrieve m.id).map Memory.id).Nodup := by
  induction memories with
  | nil => exact List.nodup_nil
  | cons m memories ih =>
    rw [List.map_cons,List.nodup_cons] at distinct
    cases read : s.retrieve m.id with
    | none =>
      simp only [List.filterMap_cons,read]
      exact ih distinct.2
    | some current =>
      simp only [List.filterMap_cons,read,List.map_cons,List.nodup_cons]
      refine ⟨fun again => ?_,ih distinct.2⟩
      obtain ⟨other,survives,same⟩ := List.mem_map.mp again
      obtain ⟨reviewed,member,found⟩ := List.mem_filterMap.mp survives
      have equal : reviewed.id = m.id := (retrieve_id found).symm.trans (same.trans (retrieve_id read))
      exact distinct.1 (equal ▸ List.mem_map_of_mem member)

theorem survivors_stored {memories : List (Memory F)} {s : Store F} {m : Memory F} (survives : m ∈ memories.filterMap fun m => s.retrieve m.id) :
    s.retrieve m.id = some m := by
  obtain ⟨reviewed,-,read⟩ := List.mem_filterMap.mp survives
  rw [retrieve_id read]
  exact read

/-- The accesses of all memories that were merged into one. -/
def gathered (merges : List (Merge F)) (id : Uuid) : Nat := ((merges.filter fun merge => merge.into = id).map fun merge => merge.merged.access_count).sum

theorem gathered_snoc (merges : List (Merge F)) (merge : Merge F) (id : Uuid) :
    gathered (merges ++ [merge]) id = gathered merges id + if merge.into = id then merge.merged.access_count else 0 := by
  by_cases same : merge.into = id <;> simp [gathered,List.filter_append,same]

theorem gathered_zero {merges : List (Merge F)} {id : Uuid} (none : ∀ merge ∈ merges, merge.into ≠ id) : gathered merges id = 0 := by
  have empty : merges.filter (fun merge => merge.into = id) = [] := List.filter_eq_nil_iff.mpr fun merge member => by simpa using none merge member
  rw [gathered,empty]
  rfl

theorem mem_unionTags {tags more : List String} {tag : String} : tag ∈ unionTags tags more ↔ tag ∈ tags ∨ tag ∈ more := by
  induction more generalizing tags with
  | nil => simp [unionTags]
  | cons first more ih =>
    have step : unionTags tags (first :: more) = unionTags (if tags.contains first then tags else tags ++ [first]) more := rfl
    rw [step,ih]
    by_cases there : first ∈ tags
    · simp only [List.contains_iff_mem,there,if_true,List.mem_cons]
      constructor
      · rintro (old | new)
        · exact .inl old
        · exact .inr (.inr new)
      · rintro (old | rfl | new)
        · exact .inl old
        · exact .inl there
        · exact .inr new
    · simp only [List.contains_iff_mem,there,if_false,List.mem_append,List.mem_cons,List.not_mem_nil,or_false,or_assoc]

/-- Tags whose provenance is there already add nothing to it. -/
theorem provenance_unionTags {tags more : List String} (known : ∀ tag ∈ more, isProvenance tag = true → tag ∈ tags) :
    (unionTags tags more).filter isProvenance = tags.filter isProvenance := by
  induction more generalizing tags with
  | nil => rfl
  | cons first more ih =>
    have step : unionTags tags (first :: more) = unionTags (if tags.contains first then tags else tags ++ [first]) more := rfl
    rw [step]
    by_cases there : first ∈ tags
    · rw [if_pos (List.contains_iff_mem.mpr there)]
      exact ih fun tag member => known tag (List.mem_cons_of_mem _ member)
    · have plain : isProvenance first = false := by
        by_contra provenance
        exact there (known first List.mem_cons_self (by simpa using provenance))
      rw [if_neg (mt List.contains_iff_mem.mp there),ih fun tag member is => List.mem_append_left _ (known tag (List.mem_cons_of_mem _ member) is)]
      simp [List.filter_append,plain]

section
variable [LinearOrder F]

/-- Merges that pass a memory on to another one: each keeper reaches at least the importance that the memory merged into it
    has then. Between two merges it may decay. -/
inductive Carried (merges : List (Merge F)) (m : Memory F) : Uuid → Prop
  | first {merge : Merge F} : merge ∈ merges → merge.merged = m → m.importance ≤ merge.reached → Carried merges m merge.into
  | further {merge : Merge F} : Carried merges m merge.merged.id → merge ∈ merges → merge.merged.importance ≤ merge.reached → Carried merges m merge.into

theorem Carried.more {merges : List (Merge F)} {m : Memory F} {id : Uuid} (carried : Carried merges m id) (merge : Merge F) : Carried (merges ++ [merge]) m id := by
  induction carried with
  | first member same reached => exact .first (List.mem_append_left _ member) same reached
  | further _ member reached ih => exact .further ih (List.mem_append_left _ member) reached

/-- What stands for a merged memory: it is of the same kind, owner and provenance, carries its tags and its accesses, lives
    as long, and was reached by the merges. -/
structure Heir (merges : List (Merge F)) (m k : Memory F) : Prop where
  kind : k.kind = m.kind
  source_agent : k.source_agent = m.source_agent
  source_conversation : k.source_conversation = m.source_conversation
  provenance : provenance k = provenance m
  tags : ∀ tag ∈ m.tags, tag ∈ k.tags
  outlives : outlives k m = true
  access_count : min m.access_count (2^64 - 1) ≤ k.access_count
  carried : Carried merges m k.id

/-- Every memory that was merged and has not expired has an heir in the store, and every memory has the accesses of all that
    were merged into it. -/
structure Kept (now : Int) (s : Store F) (merges : List (Merge F)) : Prop where
  heirs : ∀ merge ∈ merges, merge.merged.is_expired now = true ∨ ∃ k ∈ s.memories, Heir merges merge.merged k
  counts : ∀ k ∈ s.memories, min (gathered merges k.id) (2^64 - 1) ≤ k.access_count

variable {now after : Int} {s : Store F} {merges : List (Merge F)} {m m' k : Memory F}

theorem Kept.later (kept : Kept now s merges) (time : now ≤ after) : Kept after s merges :=
  ⟨fun merge member => (kept.heirs merge member).imp_left (expired_later time),kept.counts⟩

/-- A rewrite of a memory that leaves everything but its tier, its importance and its last access. -/
theorem Kept.rewrite (kept : Kept now s merges) (stored : s.retrieve m.id = some m)
    (same : m' = { m with tier := m'.tier, importance := m'.importance, last_accessed := m'.last_accessed }) : Kept now (s.insert m') merges := by
  have id : m'.id = m.id := by rw [same]
  refine ⟨fun merge member => (kept.heirs merge member).imp_right ?_,fun k there => ?_⟩
  · rintro ⟨k,there,heir⟩
    by_cases this_one : k.id = m.id
    · have known := retrieve_of_mem there
      rw [this_one,stored] at known
      cases known
      refine ⟨m',mem_insert.mpr (.inl rfl),?_⟩
      rw [same]
      exact ⟨heir.kind,heir.source_agent,heir.source_conversation,heir.provenance,heir.tags,heir.outlives,heir.access_count,id ▸ heir.carried⟩
    · exact ⟨k,mem_insert.mpr (.inr ⟨there,fun equal => this_one (equal.trans id)⟩),heir⟩
  · rcases mem_insert.mp there with rfl | ⟨old,-⟩
    · have before := kept.counts m (retrieve_mem stored)
      rw [same]
      exact before
    · exact kept.counts k old

/-- A new memory under an id that was not used. -/
theorem Kept.insert_new (kept : Kept now s merges) (absent : s.retrieve m.id = none) (unused : ∀ merge ∈ merges, merge.into ≠ m.id) :
    Kept now (s.insert m) merges := by
  refine ⟨fun merge member => (kept.heirs merge member).imp_right ?_,fun k there => ?_⟩
  · rintro ⟨k,there,heir⟩
    refine ⟨k,mem_insert.mpr (.inr ⟨there,fun equal => ?_⟩),heir⟩
    have found := retrieve_of_mem there
    rw [equal,absent] at found
    cases found
  · rcases mem_insert.mp there with rfl | ⟨old,-⟩
    · rw [gathered_zero unused]
      exact Nat.zero_le _
    · exact kept.counts k old

theorem Kept.remove_expired (kept : Kept now s merges) (stored : s.retrieve m.id = some m) (expired : m.is_expired now = true) :
    Kept now (s.remove m.id) merges := by
  refine ⟨fun merge member => ?_,fun k there => kept.counts k (mem_remove.mp there).1⟩
  rcases kept.heirs merge member with gone | ⟨k,there,heir⟩
  · exact .inl gone
  · by_cases this_one : k.id = m.id
    · have known := retrieve_of_mem there
      rw [this_one,stored] at known
      cases known
      exact .inl (outlives_iff.mp heir.outlives now expired)
    · exact .inr ⟨k,mem_remove.mpr ⟨there,this_one⟩,heir⟩

theorem provenance_absorb {kept j : Memory F} (from_same : provenance kept = provenance j) : provenance (absorb kept j) = provenance kept := by
  refine provenance_unionTags fun tag member is => ?_
  have known : tag ∈ provenance kept := from_same ▸ List.mem_filter.mpr ⟨member,is⟩
  exact (List.mem_filter.mp known).1

/-- The keeper of a merge is the heir of the memory that is merged into it. -/
theorem heir_merged {kept j : Memory F} (kind : kept.kind = j.kind) (source_agent : kept.source_agent = j.source_agent)
    (source_conversation : kept.source_conversation = j.source_conversation) (from_same : Consolidation.provenance kept = Consolidation.provenance j)
    (lasts : Consolidation.outlives kept j = true) :
    Heir (merges ++ [⟨kept.id,j,(absorb kept j).importance⟩]) j (absorb kept j) where
  kind := kind
  source_agent := source_agent
  source_conversation := source_conversation
  provenance := (provenance_absorb from_same).trans from_same
  tags tag member := mem_unionTags.mpr (.inr member)
  outlives := lasts
  access_count := by
    show min j.access_count _ ≤ saturating_add kept.access_count j.access_count
    unfold saturating_add
    omega
  carried := .first (List.mem_append_right _ (List.mem_singleton_self _)) rfl (le_max_right _ _)

/-- When an heir is merged itself, the keeper inherits from it. -/
theorem Heir.merged {kept j : Memory F} (heir : Heir merges m j) (next : Heir (merges ++ [⟨kept.id,j,(absorb kept j).importance⟩]) j (absorb kept j)) :
    Heir (merges ++ [⟨kept.id,j,(absorb kept j).importance⟩]) m (absorb kept j) where
  kind := next.kind.trans heir.kind
  source_agent := next.source_agent.trans heir.source_agent
  source_conversation := next.source_conversation.trans heir.source_conversation
  provenance := next.provenance.trans heir.provenance
  tags tag member := next.tags tag (heir.tags tag member)
  outlives := outlives_iff.mpr fun now expired => outlives_iff.mp heir.outlives now (outlives_iff.mp next.outlives now expired)
  access_count := by
    have first := heir.access_count
    have second := next.access_count
    omega
  carried := .further (heir.carried.more _) (List.mem_append_right _ (List.mem_singleton_self _)) (le_max_right _ _)

/-- An heir that another memory is merged into stays one. -/
theorem Heir.absorbs {kept j : Memory F} (heir : Heir merges m kept) (from_same : Consolidation.provenance kept = Consolidation.provenance j) :
    Heir (merges ++ [⟨kept.id,j,(absorb kept j).importance⟩]) m (absorb kept j) where
  kind := heir.kind
  source_agent := heir.source_agent
  source_conversation := heir.source_conversation
  provenance := (provenance_absorb from_same).trans heir.provenance
  tags tag member := mem_unionTags.mpr (.inl (heir.tags tag member))
  outlives := heir.outlives
  access_count := by
    have first := heir.access_count
    show _ ≤ saturating_add kept.access_count j.access_count
    unfold saturating_add
    omega
  carried := heir.carried.more _

/-- A merge that lasts: the keeper lives as long as the memory that is merged into it. -/
theorem Kept.merge {kept j : Memory F} (holds : Kept now s merges) (stored : s.retrieve kept.id = some kept) (current : s.retrieve j.id = some j)
    (differ : j.id ≠ kept.id) (kind : kept.kind = j.kind) (source_agent : kept.source_agent = j.source_agent)
    (source_conversation : kept.source_conversation = j.source_conversation) (from_same : Consolidation.provenance kept = Consolidation.provenance j)
    (lasts : Consolidation.outlives kept j = true) :
    Kept now ((s.insert (absorb kept j)).remove j.id) (merges ++ [⟨kept.id,j,(absorb kept j).importance⟩]) := by
  have there : absorb kept j ∈ ((s.insert (absorb kept j)).remove j.id).memories := mem_remove.mpr ⟨mem_insert.mpr (.inl rfl),fun equal => differ equal.symm⟩
  have direct : Heir (merges ++ [⟨kept.id,j,(absorb kept j).importance⟩]) j (absorb kept j) :=
    heir_merged kind source_agent source_conversation from_same lasts
  constructor
  · intro merge member
    rcases List.mem_append.mp member with old | new
    · refine (holds.heirs merge old).imp_right ?_
      rintro ⟨k,here,heir⟩
      by_cases merged : k.id = j.id
      · have known := retrieve_of_mem here
        rw [merged,current] at known
        cases known
        exact ⟨absorb kept j,there,heir.merged direct⟩
      · by_cases keeps : k.id = kept.id
        · have known := retrieve_of_mem here
          rw [keeps,stored] at known
          cases known
          exact ⟨absorb kept j,there,heir.absorbs from_same⟩
        · exact ⟨k,mem_remove.mpr ⟨mem_insert.mpr (.inr ⟨here,keeps⟩),merged⟩,
            { heir with carried := heir.carried.more _ }⟩
    · rw [List.mem_singleton.mp new]
      exact .inr ⟨absorb kept j,there,direct⟩
  · intro k stored'
    rw [gathered_snoc]
    rcases mem_insert.mp (mem_remove.mp stored').1 with rfl | ⟨old,other⟩
    · have before := holds.counts kept (retrieve_mem stored)
      show min (gathered merges kept.id + if kept.id = kept.id then j.access_count else 0) (2^64 - 1) ≤ saturating_add kept.access_count j.access_count
      rw [if_pos rfl]
      unfold saturating_add
      omega
    · rw [if_neg fun equal => other equal.symm]
      exact holds.counts k old

/-! ### A batch of merges -/

variable {scores : Scores F} {config : ConsolidationConfig F} {manager : ManagerConfig F} {i j g : Memory F} {acc : Merging F}

theorem keeper_some {kept : Memory F} (found : keeper scores config acc i j = some kept) :
    alike scores config i j = true ∧ j.id ∉ acc.merged_ids ∧ acc.store.retrieve i.id = some kept := by
  unfold keeper at found
  split at found
  · cases found
  · rename_i merges
    simp only [not_or,not_not] at merges
    exact ⟨merges.2.2,mt List.contains_iff_mem.mpr merges.2.1,found⟩

theorem mergePair_none (skips : keeper scores config acc i j = none) : mergePair scores config i acc j = acc := by
  simp only [mergePair,skips]

/-- A keeper that was read is written back: no merge fails. -/
theorem mergePair_some {kept : Memory F} (found : keeper scores config acc i j = some kept) :
    mergePair scores config i acc j =
      { acc with
        store := (acc.store.insert (absorb kept j)).remove j.id
        merges := acc.merges ++ [⟨kept.id,j,(absorb kept j).importance⟩]
        merged_ids := acc.merged_ids ++ [j.id] } := by
  have read := (keeper_some found).2.2
  have same : kept.id = i.id := retrieve_id read
  have there : acc.store.contains_key (absorb kept j).id = true := by
    rw [contains_key_iff]
    show acc.store.retrieve kept.id ≠ none
    rw [same,read]
    exact Option.some_ne_none kept
  have written : acc.store.update (absorb kept j) = some (acc.store.insert (absorb kept j)) := if_pos there
  simp only [mergePair,found,written,same]

/-- A snapshot that still says what is stored, unless the memory was merged. -/
def Current (acc : Merging F) (g : Memory F) : Prop := g.id ∈ acc.merged_ids ∨ acc.store.retrieve g.id = some g

/-- A pair touches two memories, of which it deletes the second. -/
theorem Current.pair (current : Current acc g) (other : g.id ≠ i.id) : Current (mergePair scores config i acc j) g := by
  cases found : keeper scores config acc i j with
  | none => rwa [mergePair_none found]
  | some kept =>
    rw [mergePair_some found]
    have kept_id : kept.id = i.id := retrieve_id (keeper_some found).2.2
    rcases current with merged | stored
    · exact .inl (List.mem_append_left _ merged)
    · by_cases this_one : g.id = j.id
      · exact .inl (List.mem_append_right _ (List.mem_singleton.mpr this_one))
      · refine .inr ?_
        show ((acc.store.insert (absorb kept j)).remove j.id).retrieve g.id = some g
        have apart : g.id ≠ (absorb kept j).id := fun equal => other (equal.trans kept_id)
        rw [retrieve_remove_ne this_one,retrieve_insert_ne apart,stored]

/-- What a keeper has of its own, whatever it takes up. -/
structure SameOrigin (a b : Memory F) : Prop where
  kind : a.kind = b.kind
  source_agent : a.source_agent = b.source_agent
  source_conversation : a.source_conversation = b.source_conversation
  provenance : Consolidation.provenance a = Consolidation.provenance b
  created_at : a.created_at = b.created_at
  ttl : a.ttl = b.ttl

/-- What lasts of a merge depends on its keeper: the older memory of the pair is to expire no earlier than the other one. -/
def PairLasts (scores : Scores F) (config : ConsolidationConfig F) (i : Memory F) (acc : Merging F) (j : Memory F) : Prop :=
  (keeper scores config acc i j).isSome = true → outlives i j = true

def GroupLasts (scores : Scores F) (config : ConsolidationConfig F) (acc : Merging F) : List (Memory F) → Prop
  | [] => True
  | i :: rest =>
    (i.id ∉ acc.merged_ids → Every (mergePair scores config i) (PairLasts scores config i) acc rest) ∧
      GroupLasts scores config (if acc.merged_ids.contains i.id then acc else rest.foldl (mergePair scores config i) acc) rest

/-- What a memory is merged with, one pair after the other. -/
structure Pairing (now : Int) (i : Memory F) (rest : List (Memory F)) (acc : Merging F) : Prop where
  own : ∀ kept, acc.store.retrieve i.id = some kept → SameOrigin kept i
  current : ∀ j ∈ rest, Current acc j
  kept : Kept now acc.store acc.merges

theorem Pairing.pair {rest : List (Memory F)} (pairing : Pairing now i (j :: rest) acc) (distinct : j.id ≠ i.id) (others : ∀ g ∈ rest, g.id ≠ i.id)
    (kind : j.kind = i.kind) (lasts : PairLasts scores config i acc j) : Pairing now i rest (mergePair scores config i acc j) := by
  cases found : keeper scores config acc i j with
  | none =>
    rw [mergePair_none found]
    exact ⟨pairing.own,fun g member => pairing.current g (List.mem_cons_of_mem _ member),pairing.kept⟩
  | some kept =>
    refine ⟨?_,fun g member => (pairing.current g (List.mem_cons_of_mem _ member)).pair (others g member),?_⟩
    all_goals
      have own := pairing.own kept (keeper_some found).2.2
      have kept_id : kept.id = i.id := retrieve_id (keeper_some found).2.2
      have similar := (keeper_some found).1
      simp only [alike,Bool.and_eq_true,decide_eq_true_eq] at similar
      obtain ⟨⟨⟨agent,conversation⟩,from_same⟩,-⟩ := similar
      rw [mergePair_some found]
    · intro new read
      have apart : i.id ≠ j.id := fun equal => distinct equal.symm
      have written : (acc.store.insert (absorb kept j)).retrieve i.id = some (absorb kept j) := by
        rw [← kept_id]
        exact retrieve_insert_self acc.store (absorb kept j)
      replace read : ((acc.store.insert (absorb kept j)).remove j.id).retrieve i.id = some new := read
      rw [retrieve_remove_ne apart,written] at read
      cases read
      refine ⟨own.kind,own.source_agent,own.source_conversation,?_,own.created_at,own.ttl⟩
      rw [← own.provenance]
      exact provenance_absorb (own.provenance.trans from_same)
    · have stored : acc.store.retrieve j.id = some j := by
        rcases pairing.current j List.mem_cons_self with merged | stored
        · exact absurd merged (keeper_some found).2.1
        · exact stored
      refine pairing.kept.merge ?_ stored ?_ (own.kind.trans kind.symm) (own.source_agent.trans agent) (own.source_conversation.trans conversation)
        (own.provenance.trans from_same) ?_
      · rw [kept_id]
        exact (keeper_some found).2.2
      · rwa [kept_id]
      · have first : outlives i j = true := lasts (by rw [found]; rfl)
        unfold outlives at first ⊢
        rw [own.ttl,own.created_at]
        exact first

/-- A memory is merged with those behind it in its group. -/
theorem Pairing.rest {rest : List (Memory F)} (pairing : Pairing now i rest acc) (others : ∀ g ∈ rest, g.id ≠ i.id) (kind : ∀ g ∈ rest, g.kind = i.kind)
    (lasts : Every (mergePair scores config i) (PairLasts scores config i) acc rest) : Pairing now i [] (rest.foldl (mergePair scores config i) acc) := by
  induction rest generalizing acc with
  | nil => exact pairing
  | cons j rest ih =>
    have others' : ∀ g ∈ rest, g.id ≠ i.id := fun g member => others g (List.mem_cons_of_mem _ member)
    have next := pairing.pair (others j List.mem_cons_self) others' (kind j List.mem_cons_self) lasts.1
    exact ih next others' (fun g member => kind g (List.mem_cons_of_mem _ member)) lasts.2

theorem Current.rest {rest : List (Memory F)} (current : Current acc g) (other : g.id ≠ i.id) : Current (rest.foldl (mergePair scores config i) acc) g := by
  induction rest generalizing acc with
  | nil => exact current
  | cons j rest ih => exact ih (current.pair other)

theorem Current.through {memories : List (Memory F)} (current : Current acc g) (others : ∀ m ∈ memories, g.id ≠ m.id) :
    Current (mergeGroup scores config acc memories) g := by
  induction memories generalizing acc with
  | nil => exact current
  | cons i rest ih =>
    refine ih ?_ fun m member => others m (List.mem_cons_of_mem _ member)
    split
    · exact current
    · exact current.rest (others i List.mem_cons_self)

/-- A group of distinct memories of one kind, as they are stored. -/
theorem kept_mergeGroup {memories : List (Memory F)} {kind : MemoryKind} (kept : Kept now acc.store acc.merges) (distinct : (memories.map Memory.id).Nodup)
    (same : ∀ m ∈ memories, m.kind = kind) (current : ∀ m ∈ memories, Current acc m) (lasts : GroupLasts scores config acc memories) :
    Kept now (mergeGroup scores config acc memories).store (mergeGroup scores config acc memories).merges := by
  induction memories generalizing acc with
  | nil => exact kept
  | cons i rest ih =>
    obtain ⟨here,later⟩ := lasts
    rw [List.map_cons,List.nodup_cons] at distinct
    have same' : ∀ m ∈ rest, m.kind = kind := fun m member => same m (List.mem_cons_of_mem _ member)
    have current' : ∀ m ∈ rest, Current acc m := fun m member => current m (List.mem_cons_of_mem _ member)
    by_cases merged : i.id ∈ acc.merged_ids
    · rw [mergeGroup,if_pos (List.contains_iff_mem.mpr merged)]
      rw [if_pos (List.contains_iff_mem.mpr merged)] at later
      exact ih kept distinct.2 same' current' later
    · rw [mergeGroup,if_neg (mt List.contains_iff_mem.mp merged)]
      rw [if_neg (mt List.contains_iff_mem.mp merged)] at later
      have others : ∀ g ∈ rest, g.id ≠ i.id := fun g member equal => distinct.1 (equal ▸ List.mem_map_of_mem member)
      have stored : acc.store.retrieve i.id = some i := (current i List.mem_cons_self).resolve_left merged
      have pairing : Pairing now i rest acc :=
        { own := fun kept read => by
            rw [stored] at read
            cases read
            exact ⟨rfl,rfl,rfl,rfl,rfl,rfl⟩
          current := current'
          kept := kept }
      have one_kind : ∀ g ∈ rest, g.kind = i.kind := fun g member => (same' g member).trans (same i List.mem_cons_self).symm
      exact ih (pairing.rest others one_kind (here merged)).kept distinct.2 same' (fun m member => (current' m member).rest (others m member)) later

/-- The condition on the merges of a whole batch. -/
def BatchLasts (scores : Scores F) (config : ConsolidationConfig F) (out : Surroundings) (acc : Merging F) (memories : List (Memory F)) : Prop :=
  Every (fun acc kind => mergeGroup scores config acc (group memories kind)) (fun acc kind => GroupLasts scores config acc (group memories kind)) acc (kinds out)

theorem kinds_distinct (out : Surroundings) : (kinds out).Nodup := (List.mergeSort_perm _ _).nodup_iff.mpr (by decide)

theorem kept_merge_similar_batch {out : Surroundings} {memories : List (Memory F)} (kept : Kept now acc.store acc.merges)
    (distinct : (memories.map Memory.id).Nodup) (current : ∀ m ∈ memories, Current acc m) (lasts : BatchLasts scores config out acc memories) :
    Kept now (merge_similar_batch scores config out acc memories).store (merge_similar_batch scores config out acc memories).merges := by
  unfold BatchLasts at lasts
  unfold merge_similar_batch
  have once := kinds_distinct out
  replace current : ∀ m ∈ memories, m.kind ∈ kinds out → Current acc m := fun m member _ => current m member
  generalize kinds out = order at lasts once current
  -- The groups of the kinds that are still to come are as they were: no memory is of two kinds.
  induction order generalizing acc with
  | nil => exact kept
  | cons kind order ih =>
    rw [List.nodup_cons] at once
    refine ih (kept_mergeGroup kept (group_distinct distinct kind) (fun m member => (mem_group.mp member).2) (fun m member => ?_) lasts.1) lasts.2 once.2
      fun m member later => (current m member (List.mem_cons_of_mem _ later)).through fun other among equal => ?_
    · obtain ⟨reviewed,rfl⟩ := mem_group.mp member
      exact current m reviewed List.mem_cons_self
    · obtain ⟨reviewed,rfl⟩ := mem_group.mp among
      rw [List.inj_on_of_nodup_map distinct member reviewed equal] at later
      exact once.1 later

/-! ### Whole runs -/

omit [LinearOrder F] in
/-- A pass over distinct memories as they are stored, each step of which touches its own memory, keeps what each step keeps. -/
theorem pass_keeps {τ : Type} {I : Store F → Prop} (store : τ → Store F) {visit : τ → Memory F → τ} {state : τ} {memories : List (Memory F)}
    (keeps : ∀ state m, (store state).retrieve m.id = some m → I (store state) → I (store (visit state m)))
    (apart : ∀ state m id, id ≠ m.id → (store (visit state m)).retrieve id = (store state).retrieve id)
    (distinct : (memories.map Memory.id).Nodup) (stored : ∀ m ∈ memories, (store state).retrieve m.id = some m) (holds : I (store state)) :
    I (store (memories.foldl visit state)) := by
  induction memories generalizing state with
  | nil => exact holds
  | cons first memories ih =>
    rw [List.map_cons,List.nodup_cons] at distinct
    refine ih distinct.2 (fun m member => ?_) (keeps state first (stored first List.mem_cons_self) holds)
    have other : m.id ≠ first.id := fun equal => distinct.1 (equal ▸ List.mem_map_of_mem member)
    rw [apart state first m.id other,stored m (List.mem_cons_of_mem _ member)]

theorem reinforce_keeps {I : Store F → Prop} {memories : List (Memory F)}
    (boost : ∀ s m, s.retrieve m.id = some m → I s → I (s.insert (boosted scores config m))) (distinct : (memories.map Memory.id).Nodup)
    (stored : ∀ m ∈ memories, s.retrieve m.id = some m) (holds : I s) : I (reinforce_batch scores config s memories).1 := by
  refine pass_keeps Prod.fst (fun state m stored holds => ?_) (fun state m id other => ?_) distinct stored holds
  · unfold reinforceOne
    split
    · have same_id : (boosted scores config m).id = m.id := rfl
      rw [update_stored stored same_id]
      exact boost state.1 m stored holds
    · exact holds
  · unfold reinforceOne
    split
    · cases written : state.1.update (boosted scores config m) with
      | none => rfl
      | some s => exact retrieve_update_ne written other
    · rfl

theorem compact_keeps {I : Store F → Prop} {out : Surroundings} {k : Knowledge F}
    (expire : ∀ s m, s.retrieve m.id = some m → m.is_expired out.now = true → I s → I (s.remove m.id))
    (age : ∀ s m, s.retrieve m.id = some m → I s → I (s.insert (compacted scores.toDoubles manager out.now m))) (holds : I k.store) :
    I (compact scores manager out k).store := by
  refine pass_keeps (fun s => s) (fun s m stored holds => ?_) (fun s m id other => ?_) (list_all_distinct k.store out.key 100000)
    (fun m listed => retrieve_of_mem (mem_list_all listed)) holds
  · unfold compactOne
    split
    · rename_i expired
      exact expire s m stored expired holds
    · have same_id : (compacted scores.toDoubles manager out.now m).id = m.id := rfl
      rw [update_stored stored same_id]
      exact age s m stored holds
  · unfold compactOne
    split
    · exact retrieve_remove_ne other
    · cases written : s.update (compacted scores.toDoubles manager out.now m) with
      | none => rfl
      | some s' => exact retrieve_update_ne written other

theorem kept_compact {out : Surroundings} {k : Knowledge F} (kept : Kept out.now k.store k.merges) :
    Kept out.now (compact scores manager out k).store (compact scores manager out k).merges :=
  compact_keeps (I := fun s => Kept out.now s k.merges) (fun _ _ stored expired kept => kept.remove_expired stored expired)
    (fun _ _ stored kept => kept.rewrite stored rfl) kept

theorem distillOne_cases (scores : Scores F) (out : Surroundings) (state : Store F × List Uuid) (m : Memory F) :
    distillOne scores out state m = state ∨
      distillOne scores out state m = (state.1.insert (distillate scores out.now (out.draw m.id) m),state.2 ++ [out.draw m.id]) := by
  unfold distillOne
  split_ifs
  · exact .inl rfl
  · exact .inl rfl
  · exact .inl rfl
  · exact .inr rfl

/-- Distilling adds memories, and touches none that is stored. -/
theorem kept_distill_batch (scores : Scores F) {out : Surroundings} {memories : List (Memory F)} (state : Store F × List Uuid) (kept : Kept now state.1 merges)
    (unused : ∀ m ∈ memories, state.1.retrieve (out.draw m.id) = none ∧ ∀ merge ∈ merges, merge.into ≠ out.draw m.id)
    (distinct : (memories.map fun m => out.draw m.id).Nodup) :
    Kept now (memories.foldl (distillOne scores out) state).1 merges ∧
      ∀ g, state.1.retrieve g.id = some g → (memories.foldl (distillOne scores out) state).1.retrieve g.id = some g := by
  induction memories generalizing state with
  | nil => exact ⟨kept,fun g stored => stored⟩
  | cons m memories ih =>
    rw [List.map_cons,List.nodup_cons] at distinct
    obtain ⟨absent,into⟩ := unused m List.mem_cons_self
    have unused' : ∀ m' ∈ memories, state.1.retrieve (out.draw m'.id) = none ∧ ∀ merge ∈ merges, merge.into ≠ out.draw m'.id :=
      fun m' member => unused m' (List.mem_cons_of_mem _ member)
    rw [List.foldl_cons]
    rcases distillOne_cases scores out state m with skips | creates
    · rw [skips]
      exact ih state kept unused' distinct.2
    · rw [creates]
      have still : ∀ m' ∈ memories, (state.1.insert (distillate scores out.now (out.draw m.id) m)).retrieve (out.draw m'.id) = none ∧
          ∀ merge ∈ merges, merge.into ≠ out.draw m'.id := by
        intro m' member
        have apart : out.draw m'.id ≠ (distillate scores out.now (out.draw m.id) m).id := fun equal =>
          distinct.1 (List.mem_map.mpr ⟨m',member,equal⟩)
        rw [retrieve_insert_ne apart]
        exact unused' m' member
      obtain ⟨kept',stored'⟩ := ih (state.1.insert (distillate scores out.now (out.draw m.id) m),state.2 ++ [out.draw m.id])
        (kept.insert_new absent into) still distinct.2
      refine ⟨kept',fun g stored => stored' g ?_⟩
      have apart : g.id ≠ (distillate scores out.now (out.draw m.id) m).id := by
        intro equal
        rw [equal] at stored
        cases absent.symm.trans stored
      rw [retrieve_insert_ne apart,stored]

/-- The ids that a run may draw for distilled memories are new and distinct. -/
def Fresh (scores : Scores F) (config : ConsolidationConfig F) (k : Knowledge F) : Event → Prop
  | .consolidate out =>
    (∀ m ∈ recent scores config out k.store, k.store.retrieve (out.draw m.id) = none ∧ ∀ merge ∈ k.merges, merge.into ≠ out.draw m.id) ∧
      ((recent scores config out k.store).map fun m => out.draw m.id).Nodup
  | .compact _ => True

/-- No run merges a memory into an older one that expires before it. -/
def Lasting (scores : Scores F) (config : ConsolidationConfig F) (k : Knowledge F) : Event → Prop
  | .consolidate out => BatchLasts scores config out (mergeStart scores config out k) (recent scores config out k.store)
  | .compact _ => True

theorem recent_stored {out : Surroundings} (reviewed : m ∈ recent scores config out s) : s.retrieve m.id = some m :=
  retrieve_of_mem (mem_list_all (List.mem_of_mem_filter reviewed))

theorem recent_distinct (scores : Scores F) (config : ConsolidationConfig F) (out : Surroundings) (s : Store F) :
    ((recent scores config out s).map Memory.id).Nodup :=
  (list_all_distinct s out.key 100000).sublist (List.filter_sublist.map _)

theorem consolidate_time (scores : Scores F) (config : ConsolidationConfig F) (out : Surroundings) (k : Knowledge F) :
    (consolidate scores config out k).2.time = out.now := by
  unfold consolidate
  dsimp only
  split <;> rfl

theorem consolidate_merges (scores : Scores F) (config : ConsolidationConfig F) (out : Surroundings) (k : Knowledge F) :
    (consolidate scores config out k).2.merges =
      (merge_similar_batch scores config out (mergeStart scores config out k) (recent scores config out k.store)).merges := by
  unfold consolidate
  dsimp only
  split <;> rfl

theorem consolidate_store (scores : Scores F) (config : ConsolidationConfig F) (out : Surroundings) (k : Knowledge F) :
    (consolidate scores config out k).2.store =
      let merging := merge_similar_batch scores config out (mergeStart scores config out k) (recent scores config out k.store)
      if merging.halted then merging.store else
      (reinforce_batch scores config merging.store ((recent scores config out k.store).filterMap fun m => merging.store.retrieve m.id)).1 := by
  unfold consolidate
  dsimp only
  split <;> rfl

/-- What distilling and merging have left is kept by the reinforcing behind them. -/
theorem consolidate_keeps {I : Store F → Prop} {out : Surroundings} {k : Knowledge F}
    (boost : ∀ s m, s.retrieve m.id = some m → I s → I (s.insert (boosted scores config m)))
    (merged : I (merge_similar_batch scores config out (mergeStart scores config out k) (recent scores config out k.store)).store) :
    I (consolidate scores config out k).2.store := by
  rw [consolidate_store]
  dsimp only
  split
  · exact merged
  · exact reinforce_keeps boost (survivors_distinct (recent_distinct scores config out k.store) _) (fun m survives => survivors_stored survives) merged

theorem kept_consolidate {out : Surroundings} {k : Knowledge F} (kept : Kept out.now k.store k.merges) (fresh : Fresh scores config k (.consolidate out))
    (lasting : Lasting scores config k (.consolidate out)) :
    Kept out.now (consolidate scores config out k).2.store (consolidate scores config out k).2.merges := by
  obtain ⟨distilled,stored⟩ := kept_distill_batch scores (k.store,[]) kept fresh.1 fresh.2
  have distinct := recent_distinct scores config out k.store
  rw [consolidate_merges]
  refine consolidate_keeps (I := fun s => Kept out.now s _) (fun s m stored kept => kept.rewrite stored rfl) ?_
  exact kept_merge_similar_batch distilled distinct (fun m reviewed => .inr (stored m (recent_stored reviewed))) lasting

/-- Every memory that a merge deleted is stood for by an unexpired one for as long as it would have lived itself, and every
    memory has the accesses of all that were merged into it. -/
def KeepsKnowledge (k : Knowledge F) : Prop :=
  (∀ merge ∈ k.merges, ∀ now, k.time ≤ now → merge.merged.is_expired now = false →
    ∃ heir ∈ k.store.memories, heir.is_expired now = false ∧ Heir k.merges merge.merged heir) ∧
  ∀ m ∈ k.store.memories, min (gathered k.merges m.id) (2^64 - 1) ≤ m.access_count

theorem Kept.knowledge {k : Knowledge F} (kept : Kept k.time k.store k.merges) : KeepsKnowledge k := by
  refine ⟨fun merge member now after unexpired => ?_,kept.counts⟩
  rcases kept.heirs merge member with expired | ⟨heir,stored,stands⟩
  · rw [expired_later after expired] at unexpired
    cases unexpired
  · refine ⟨heir,stored,?_,stands⟩
    cases expires : heir.is_expired now with
    | false => rfl
    | true =>
      rw [outlives_iff.mp stands.outlives now expires] at unexpired
      cases unexpired

/-- Any number of runs at increasing times, none of which merges a memory into one that expires before it, loses no knowledge. -/
theorem keeps_knowledge (scores : Scores F) (config : ConsolidationConfig F) (manager : ManagerConfig F) (store : Store F) (start : Int) (events : List Event)
    (increasing : Every (Knowledge.step scores config manager) (fun k event => k.time ≤ event.out.now) ⟨store,[],start⟩ events)
    (fresh : Every (Knowledge.step scores config manager) (Fresh scores config) ⟨store,[],start⟩ events)
    (lasting : Every (Knowledge.step scores config manager) (Lasting scores config) ⟨store,[],start⟩ events) :
    KeepsKnowledge (run (Knowledge.step scores config manager) ⟨store,[],start⟩ events) := by
  refine Kept.knowledge (((increasing.and fresh).and lasting).invariant (I := fun k => Kept k.time k.store k.merges) ?_ ?_)
  · rintro k event kept ⟨⟨time,fresh⟩,lasting⟩
    have before : Kept event.out.now k.store k.merges := kept.later time
    cases event with
    | consolidate out =>
      have time : (Knowledge.step scores config manager k (.consolidate out)).time = out.now := consolidate_time scores config out k
      rw [time]
      exact kept_consolidate before fresh lasting
    | compact out => exact kept_compact before
  · refine ⟨fun merge none => absurd none List.not_mem_nil,fun m stored => ?_⟩
    rw [gathered_zero fun merge none => absurd none List.not_mem_nil]
    exact Nat.zero_le _

end

/-! ### A keeper that expires -/

def plainScores : Scores Nat where
  hours span := span.toNat
  relevance_score _ _ m := m.importance
  compute_decay _ _ m := m.importance
  decays _ _ := false
  contains_text _ _ := true
  distill_floor := 40
  distilled importance := importance * 9 / 10
  add := (· + ·)
  count n := n
  average counts := counts.sum / counts.length
  zero := 0
  one := 100
  ratio a b := 100 * a / b
  words
    | .string text => [text]
    | _ => []

def plainConsolidation : ConsolidationConfig Nat := ⟨24,60,10,100⟩
def plainManager : ManagerConfig Nat := ⟨10,3,24,168,80,168⟩
def fact (ttl : Option Int) : Memory Nat := ⟨1,.Semantic,.Warm,.string "fact",0,0,2,50,["old"],none,none,ttl⟩
def again : Memory Nat := ⟨2,.Semantic,.Warm,.string "fact",1,1,3,60,["new"],none,none,none⟩
def two (ttl : Option Int) : Store Nat := ⟨[fact ttl,again],by show [(1 : Uuid),2].Nodup; decide⟩
def at_time (now : Int) : Surroundings := ⟨now,BitVec.toNat,fun _ => 0,fun id => id + 100⟩

def runs : List Event := [.consolidate (at_time 5),.compact (at_time 100)]

theorem kinds_two : kinds (at_time 5) = [.Episodic,.Semantic,.Procedural,.Working] := List.mergeSort_of_pairwise (by decide)

theorem group_two (ttl : Option Int) : group [fact ttl,again] .Semantic = [fact ttl,again] := List.mergeSort_of_pairwise (by simp [fact,again])

theorem recent_two {ttl : Option Int} (alive : (fact ttl).is_expired 5 = false) :
    recent plainScores plainConsolidation (at_time 5) (two ttl) = [fact ttl,again] := by
  have listed : (two ttl).list_all (at_time 5).key 100000 = [fact ttl,again] := by
    unfold Store.list_all Store.iter
    rw [List.mergeSort_of_pairwise (by simp [two,at_time,fact,again])]
    rfl
  have reviewed : (!(fact ttl).is_expired (at_time 5).now &&
    decide (plainScores.hours ((at_time 5).now - (fact ttl).created_at) ≤ plainConsolidation.lookback_hours)) = true := by
    show (!(fact ttl).is_expired 5 && true) = true
    rw [alive]
    rfl
  rw [recent,listed,List.filter_cons,if_pos reviewed]
  rfl

theorem others_two (ttl : Option Int) : group [fact ttl,again] .Episodic = [] ∧ group [fact ttl,again] .Procedural = [] ∧ group [fact ttl,again] .Working = [] := by
  simp [group,fact,again]

section
variable {ttl : Option Int} (alive : (fact ttl).is_expired 5 = false)
include alive

theorem start_two : mergeStart plainScores plainConsolidation (at_time 5) ⟨two ttl,[],0⟩ = ⟨two ttl,[],[],false⟩ := by
  rw [mergeStart,recent_two alive]
  rfl

theorem fresh_two : Fresh plainScores plainConsolidation ⟨two ttl,[],0⟩ (.consolidate (at_time 5)) := by
  show (∀ m ∈ recent plainScores plainConsolidation (at_time 5) (two ttl),_) ∧ _
  rw [recent_two alive]
  refine ⟨fun m reviewed => ⟨?_,fun merge none => absurd none List.not_mem_nil⟩,?_⟩
  · rcases List.mem_pair.mp reviewed with rfl | rfl <;> rfl
  · show [(101 : Uuid),102].Nodup
    decide

theorem lasting_two (lasts : outlives (fact ttl) again = true) : Lasting plainScores plainConsolidation ⟨two ttl,[],0⟩ (.consolidate (at_time 5)) := by
  show BatchLasts _ _ _ _ (recent plainScores plainConsolidation (at_time 5) (two ttl))
  rw [recent_two alive,start_two alive]
  simp only [BatchLasts,kinds_two,Every,others_two,group_two,mergeGroup,GroupLasts]
  exact ⟨trivial,⟨fun _ => ⟨fun _ => lasts,trivial⟩,fun _ => trivial,trivial⟩,trivial,trivial,trivial⟩

variable (found : keeper plainScores plainConsolidation ⟨two ttl,[],[],false⟩ (fact ttl) again = some (fact ttl))
include found

/-- The merge of the run, and what has become of the memories. -/
theorem step_two : Knowledge.step plainScores plainConsolidation plainManager ⟨two ttl,[],0⟩ (.consolidate (at_time 5)) =
    ⟨((two ttl).insert (absorb (fact ttl) again)).remove 2,[⟨1,again,60⟩],5⟩ := by
  have merging : merge_similar_batch plainScores plainConsolidation (at_time 5) ⟨two ttl,[],[],false⟩ [fact ttl,again] =
      ⟨((two ttl).insert (absorb (fact ttl) again)).remove 2,[⟨1,again,60⟩],[2],false⟩ := by
    simp only [merge_similar_batch,kinds_two,List.foldl,others_two,group_two,mergeGroup,List.contains_nil,Bool.false_eq_true,if_false]
    rw [mergePair_some found]
    rfl
  have read : ([fact ttl,again].filterMap fun m => (((two ttl).insert (absorb (fact ttl) again)).remove 2).retrieve m.id) = [absorb (fact ttl) again] := rfl
  have unused : reinforce_batch plainScores plainConsolidation (((two ttl).insert (absorb (fact ttl) again)).remove 2) [absorb (fact ttl) again] =
      (((two ttl).insert (absorb (fact ttl) again)).remove 2,0) := if_neg fun above => absurd above.1 (by show ¬ (2 + 3) / 1 < 5; decide)
  simp only [Knowledge.step,consolidate,recent_two alive,start_two alive,merging,read,unused]
  rfl

end

/-- The newer of two memories is merged into an older one that lives for ever. -/
theorem permanent_keeper :
    KeepsKnowledge (run (Knowledge.step plainScores plainConsolidation plainManager) ⟨two none,[],0⟩ runs) := by
  have alive : (fact none).is_expired 5 = false := rfl
  have found : keeper plainScores plainConsolidation ⟨two none,[],[],false⟩ (fact none) again = some (fact none) := by decide
  refine keeps_knowledge plainScores plainConsolidation plainManager (two none) 0 runs ⟨by decide,?_,trivial⟩ ⟨fresh_two alive,trivial,trivial⟩
    ⟨lasting_two alive rfl,trivial,trivial⟩
  rw [step_two alive found]
  decide

/-- The older memory expires: what lives for ever was merged into it, and is gone with it. -/
theorem keeper_expires :
    Every (Knowledge.step plainScores plainConsolidation plainManager) (fun k event => k.time ≤ event.out.now) ⟨two (some 10),[],0⟩ runs ∧
    Every (Knowledge.step plainScores plainConsolidation plainManager) (Fresh plainScores plainConsolidation) ⟨two (some 10),[],0⟩ runs ∧
    ¬ KeepsKnowledge (run (Knowledge.step plainScores plainConsolidation plainManager) ⟨two (some 10),[],0⟩ runs) := by
  have alive : (fact (some 10)).is_expired 5 = false := by decide
  have step := step_two alive (by decide)
  have final : run (Knowledge.step plainScores plainConsolidation plainManager) ⟨two (some 10),[],0⟩ runs = ⟨⟨[],by decide⟩,[⟨1,again,60⟩],100⟩ := by
    show Knowledge.step plainScores plainConsolidation plainManager
      (Knowledge.step plainScores plainConsolidation plainManager ⟨two (some 10),[],0⟩ (.consolidate (at_time 5)))
      (.compact (at_time 100)) = _
    rw [step]
    have listed : (((two (some 10)).insert (absorb (fact (some 10)) again)).remove 2).list_all (at_time 100).key 100000 = [absorb (fact (some 10)) again] := by
      have kept : (((two (some 10)).insert (absorb (fact (some 10)) again)).remove 2).memories = [absorb (fact (some 10)) again] := rfl
      rw [Store.list_all,Store.iter,kept,List.mergeSort_singleton]
      rfl
    simp only [Knowledge.step,Consolidation.compact,listed]
    rfl
  refine ⟨⟨by decide,?_,trivial⟩,⟨fresh_two alive,trivial,trivial⟩,fun keeps => ?_⟩
  · rw [step]
    decide
  · rw [final] at keeps
    obtain ⟨heir,stored,-⟩ := keeps.1 ⟨1,again,60⟩ (List.mem_singleton_self _) 100 le_rfl rfl
    exact absurd stored List.not_mem_nil

end
end Daf.Consolidation
