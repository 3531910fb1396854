import Daf.MemoryContext
import Daf.RecallBackends
import Mathlib.Algebra.Order.Ring.Rat
import Mathlib.Data.Rat.Defs

/-!
What a task loads into the working memory of its agent: the memories that it recalls, the best of them first, so
that the best are evicted first when they do not all fit.
-/
namespace Daf.ContextLoading
open Daf.LruCache Daf.Memories Daf.MemoryBackends Daf.MemoryContext Daf.RecallBackends Daf.UuidText

section
variable {F : Type}

/-! ### A list that is added -/

def loaded (wm : WorkingMemory F) (memories : List (Memory F)) : WorkingMemory F := memories.foldl (fun wm m => (wm.add m).2) wm

theorem loaded_snoc (wm : WorkingMemory F) (memories : List (Memory F)) (m : Memory F) :
    loaded wm (memories ++ [m]) = ((loaded wm memories).add m).2 := List.foldl_append

theorem loaded_capacity (wm : WorkingMemory F) (memories : List (Memory F)) : (loaded wm memories).capacity = wm.capacity := by
  induction memories using List.reverseRecOn with
  | nil => rfl
  | append_singleton memories m ih =>
    rw [loaded_snoc,← ih]
    exact call_capacity (loaded wm memories) (.add m)

/-- The last of the list come last, as many as fit. -/
theorem loaded_entries (wm : WorkingMemory F) (memories : List (Memory F)) (distinct : (memories.map Memory.id).Nodup) :
    ∃ front, (loaded wm memories).entries = front ++ memories.drop (memories.length - wm.capacity) := by
  induction memories using List.reverseRecOn with
  | nil => exact ⟨wm.entries,by simp [loaded]⟩
  | append_singleton memories m ih =>
    rw [List.map_append,List.nodup_append] at distinct
    obtain ⟨front,entries⟩ := ih distinct.1
    have positive := wm.positive
    have kept : without (memories.drop (memories.length - wm.capacity)) m.id = memories.drop (memories.length - wm.capacity) := by
      refine List.filter_eq_self.mpr fun other member => decide_eq_true ?_
      exact distinct.2.2 other.id (List.mem_map_of_mem (List.mem_of_mem_drop member)) m.id (by simp)
    have others : without (loaded wm memories).entries m.id =
        without front m.id ++ memories.drop (memories.length - wm.capacity) := by
      rw [entries,without,List.filter_append]
      exact congrArg _ kept
    have size : (without (loaded wm memories).entries m.id).length ≤ wm.capacity :=
      (List.length_filter_le _ _).trans ((loaded wm memories).bounded.trans (loaded_capacity wm memories).le)
    rw [loaded_snoc]
    by_cases full : (loaded wm memories).capacity ≤ (without (loaded wm memories).entries m.id).length
    · rw [others] at size full
      cases before : without front m.id with
      | nil =>
        rw [before,List.nil_append,loaded_capacity,List.length_drop] at full
        rw [before,List.nil_append] at others
        have there : memories.length - wm.capacity < memories.length := by omega
        rw [List.drop_eq_getElem_cons there] at others
        obtain ⟨-,entries'⟩ := add_full others (by rw [others,← List.drop_eq_getElem_cons there,loaded_capacity,List.length_drop]; exact full)
        have next : (memories ++ [m]).length - wm.capacity = memories.length - wm.capacity + 1 := by
          rw [List.length_append,List.length_singleton]
          omega
        rw [entries',next,List.drop_append_of_le_length there]
        exact ⟨[],rfl⟩
      | cons first front' =>
        rw [before,List.cons_append] at others
        rw [before,List.cons_append,List.length_cons,List.length_append,List.length_drop] at size
        rw [before,List.cons_append] at full
        obtain ⟨-,entries'⟩ := add_full others (by rw [others]; exact full)
        have whole : memories.length - wm.capacity = 0 := by omega
        have whole' : (memories ++ [m]).length - wm.capacity = 0 := by
          rw [List.length_append,List.length_singleton]
          omega
        rw [entries',whole,whole',List.drop_zero,List.drop_zero,List.append_assoc]
        exact ⟨front',rfl⟩
    · obtain ⟨-,entries'⟩ := add_room full
      rw [loaded_capacity,others,List.length_append,List.length_drop] at full
      have whole : memories.length - wm.capacity = 0 := by omega
      have whole' : (memories ++ [m]).length - wm.capacity = 0 := by
        rw [List.length_append,List.length_singleton]
        omega
      rw [entries',others,whole,whole',List.drop_zero,List.drop_zero,List.append_assoc]
      exact ⟨without front m.id,rfl⟩

/-- The best of a list ranked best first are kept, and none of it is evicted in favour of a worse one. -/
structure Keeps (recalled : List (Memory F)) (wm : WorkingMemory F) : Prop where
  best : ∀ m ∈ recalled.take (min recalled.length wm.capacity), m ∈ wm.all
  order : ∀ better worse, [better,worse].Sublist recalled → worse ∈ wm.all → better ∈ wm.all

/-- The first of a list that does not fit is evicted. -/
theorem first_evicted (wm : WorkingMemory F) {first : Memory F} {rest : List (Memory F)} (distinct : ((first :: rest).map Memory.id).Nodup)
    (many : wm.capacity < (first :: rest).length) : first ∉ (loaded wm (first :: rest)).all := by
  obtain ⟨front,entries⟩ := loaded_entries wm (first :: rest) distinct
  have bounded := (loaded wm (first :: rest)).bounded
  rw [loaded_capacity,entries,List.length_append,List.length_drop] at bounded
  have none_before : front = [] := List.eq_nil_of_length_eq_zero (by omega)
  have later : (first :: rest).length - wm.capacity = rest.length - wm.capacity + 1 := by
    rw [List.length_cons] at many ⊢
    omega
  rw [WorkingMemory.all,entries,none_before,List.nil_append,later,List.drop_succ_cons]
  intro member
  rw [List.map_cons,List.nodup_cons] at distinct
  exact distinct.1 (List.mem_map_of_mem (List.mem_of_mem_drop member))

/-- Exactly the lists that fit keep their best. -/
theorem keeps_iff (wm : WorkingMemory F) {recalled : List (Memory F)} (distinct : (recalled.map Memory.id).Nodup) :
    Keeps recalled (loaded wm recalled) ↔ recalled.length ≤ wm.capacity := by
  constructor
  · intro keeps
    by_contra many
    have positive := wm.positive
    cases recalled with
    | nil => exact many (Nat.zero_le _)
    | cons first rest =>
      refine first_evicted wm distinct (not_le.mp many) (keeps.best first ?_)
      rw [loaded_capacity,List.mem_take_iff_getElem]
      exact ⟨0,by rw [List.length_cons] at many ⊢; omega,rfl⟩
  · intro fits
    have all : ∀ m ∈ recalled, m ∈ (loaded wm recalled).all := by
      intro m member
      obtain ⟨front,entries⟩ := loaded_entries wm recalled distinct
      rw [WorkingMemory.all,entries,Nat.sub_eq_zero_of_le fits,List.drop_zero]
      exact List.mem_append_right front member
    constructor
    · intro m member
      exact all m (List.mem_of_mem_take member)
    · intro better worse ranked _
      exact all better (ranked.subset List.mem_cons_self)

end

/-! ### Loading a context -/

section
variable {F : Type} [LinearOrder F] [OfScientific F] (doubles : Doubles F)

omit [LinearOrder F] in
/-- The query that finds the context of a task. -/
def contextQuery (task_description : String) (tags : List String) (max_memories : Nat) : RecallQuery F :=
  let query : RecallQuery F :=
    { RecallQuery.new with content_search := some task_description, ranking_strategy := .MostRelevant, result_limit := max_memories }
  if !tags.isEmpty then { query with tag_filters := tags } else query

/-- How many memories were loaded, and the working memory after them. -/
def load_context {σ : Type} (M : MemoryStore F σ) (s : σ) (now : Int) (wm : WorkingMemory F) (task_description : String) (tags : List String)
    (max_memories : Nat) : MemoryResult (Nat × WorkingMemory F) := do
  let result ← execute_recall doubles M s now (contextQuery task_description tags max_memories)
  return (result.memories.length,result.memories.foldl (fun wm memory => (wm.add memory).2) wm)

omit [LinearOrder F] in
theorem contextQuery_limit (task_description : String) (tags : List String) (max_memories : Nat) :
    (contextQuery task_description tags max_memories : RecallQuery F).result_limit = max_memories := by
  unfold contextQuery
  dsimp only
  split_ifs <;> rfl

/-- A context keeps its best memories exactly when as many as are recalled fit into the working memory. -/
theorem load_context_keeps (backend : Backend F) (calls : List (Call F)) (lossless : ∀ call ∈ calls, call.Writes backend.Lossless)
    (few : (Live.run calls).memories.ncard ≤ unlimited) (now : Int) (wm : WorkingMemory F) (task_description : String) (tags : List String)
    (max_memories : Nat) :
    ∃ result wm', recallAfter doubles backend calls now (contextQuery task_description tags max_memories) = .ok result ∧
      load_context doubles (backend.trait doubles.contains_text) (backend.after doubles.contains_text calls) now wm task_description tags max_memories =
        .ok (result.memories.length,wm') ∧
      (Keeps result.memories wm' ↔
        min max_memories (matching_of doubles (Live.run calls) now (contextQuery task_description tags max_memories)).ncard ≤ wm.capacity) := by
  obtain ⟨result,memories,read,returns⟩ := backend_returns doubles backend lossless few now (contextQuery task_description tags max_memories)
  have exact_result := returns.exact
  have size := exact_result.size
  rw [exact_result.total,contextQuery_limit] at size
  refine ⟨result,loaded wm result.memories,read,?_,?_⟩
  · have read' : execute_recall doubles (backend.trait doubles.contains_text) (backend.after doubles.contains_text calls) now
        (contextQuery task_description tags max_memories) = .ok result := read
    unfold load_context
    rw [read']
    rfl
  · rw [← size]
    exact keeps_iff wm exact_result.distinct

end

/-! ### Two memories for one place -/

def lesson (id : Uuid) (importance : Rat) : Memory Rat := ⟨id,.Semantic,.Warm,.string "deploy",0,0,0,importance,[],none,none,none⟩

def lessons : List (Call Rat) := [.store (lesson 1 1),.store (lesson 2 0)]

/-- Scores of memories that were never read and are not older than a second. -/
def freshDoubles : Doubles Rat where
  hours _ := 0
  relevance_score weights _ m := (weights.1 + m.importance * weights.2.2) / (weights.1 + weights.2.1 + weights.2.2)
  compute_decay _ _ m := m.importance
  decays _ _ := false
  contains_text text content := content.eq (.string text)

theorem lessons_few : (Live.run lessons).memories.ncard ≤ unlimited := by
  refine (ncard_run lessons).2.trans ?_
  norm_num [unlimited,lessons]

theorem lessons_kept :
    ∃ result wm', recallAfter freshDoubles (.InMemory BitVec.toNat) lessons 0 (contextQuery "deploy" [] 2) = .ok result ∧
      load_context freshDoubles (Backend.trait freshDoubles.contains_text (.InMemory BitVec.toNat))
        (Backend.after freshDoubles.contains_text (.InMemory BitVec.toNat) lessons) 0 (WorkingMemory.new 2 (by decide)) "deploy" [] 2 =
        .ok (result.memories.length,wm') ∧
      (Keeps result.memories wm' ↔ min 2 (matching_of freshDoubles (Live.run lessons) 0 (contextQuery "deploy" [] 2)).ncard ≤ 2) := by
  refine load_context_keeps freshDoubles (.InMemory BitVec.toNat) lessons ?_ lessons_few 0 (WorkingMemory.new 2 (by decide)) "deploy" [] 2
  intro call member
  cases call <;> trivial

theorem lessons_matching : matching_of freshDoubles (Live.run lessons) 0 (contextQuery "deploy" [] 2) = {lesson 1 1,lesson 2 0} := by
  have live : Live.run lessons = Function.update (Function.update (fun _ => none) 1 (some (lesson 1 1))) 2 (some (lesson 2 0)) := rfl
  ext m
  constructor
  · rintro ⟨there,-⟩
    have there' : Live.run lessons m.id = some m := there
    rw [live,Function.update_apply,Function.update_apply] at there'
    split_ifs at there'
    · exact .inr (Option.some.inj there').symm
    · exact .inl (Option.some.inj there').symm
  · rintro (rfl | rfl) <;> exact ⟨rfl,by decide⟩

/-- The better of two memories that match is evicted by the other one. -/
theorem best_lesson_evicted :
    ∃ wm', recallAfter freshDoubles (.InMemory BitVec.toNat) lessons 0 (contextQuery "deploy" [] 2) = .ok ⟨[lesson 1 1,lesson 2 0],2⟩ ∧
      load_context freshDoubles (Backend.trait freshDoubles.contains_text (.InMemory BitVec.toNat))
        (Backend.after freshDoubles.contains_text (.InMemory BitVec.toNat) lessons) 0 (WorkingMemory.new 1 (by decide)) "deploy" [] 2 = .ok (2,wm') ∧
      min 2 wm'.capacity = 1 ∧ lesson 1 1 ∉ wm'.all := by
  have writes : ∀ call ∈ lessons, call.Writes (Backend.Lossless (.InMemory BitVec.toNat)) := fun call _ => by cases call <;> trivial
  obtain ⟨result,memories,read,returns⟩ :=
    backend_returns freshDoubles (.InMemory BitVec.toNat) writes lessons_few 0 (contextQuery "deploy" [] 2)
  have exact_result := returns.exact
  have total : result.total_matches = 2 := by
    rw [exact_result.total,lessons_matching]
    exact Set.ncard_pair (by decide)
  have size : result.memories.length = 2 := by rw [exact_result.size,total,contextQuery_limit,Nat.min_self]
  obtain ⟨first,second,both⟩ := List.length_eq_two.mp size
  have ranked := exact_result.ranked
  have distinct := exact_result.distinct
  have found := exact_result.found
  rw [both,lessons_matching] at found
  rw [both] at ranked distinct
  have better : ¬ rankingKey freshDoubles 0 (contextQuery "deploy" [] 2) (lesson 1 1) ≤ rankingKey freshDoubles 0 (contextQuery "deploy" [] 2) (lesson 2 0) := by
    norm_num [rankingKey,contextQuery,RecallQuery.new,freshDoubles,lesson]
  have order : first = lesson 1 1 ∧ second = lesson 2 0 := by
    rcases found first List.mem_cons_self with rfl | rfl <;> rcases found second (by simp) with rfl | rfl
    · exact absurd distinct (by decide)
    · exact ⟨rfl,rfl⟩
    · exact absurd (List.rel_of_pairwise_cons ranked List.mem_cons_self) better
    · exact absurd distinct (by decide)
  rw [order.1,order.2] at both
  have whole : result = ⟨[lesson 1 1,lesson 2 0],2⟩ := by rw [← both,← total]
  rw [whole] at read
  refine ⟨loaded (WorkingMemory.new 1 (by decide)) [lesson 1 1,lesson 2 0],read,?_,rfl,?_⟩
  · have read' : execute_recall freshDoubles (Backend.trait freshDoubles.contains_text (.InMemory BitVec.toNat))
        (Backend.after freshDoubles.contains_text (.InMemory BitVec.toNat) lessons) 0 (contextQuery "deploy" [] 2) = .ok ⟨[lesson 1 1,lesson 2 0],2⟩ := read
    unfold load_context
    rw [read']
    rfl
  · exact first_evicted _ (by decide) (by decide)

end Daf.ContextLoading
