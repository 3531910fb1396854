import Daf.MemoryBackends
import Daf.TopK
import Mathlib.Data.Sum.Order

/-!
Recall over the three stores: it reads everything before it filters, ranks and truncates, and so takes the best
of what matches, whichever store it is.
-/
namespace Daf.RecallBackends
open Daf.Memories Daf.MemoryBackends Daf.Runs Daf.TopK Daf.UuidText

section
variable {F σ : Type}

section
variable [LinearOrder F] (doubles : Doubles F)

omit [LinearOrder F] in
def candidates (M : MemoryStore F σ) (s : σ) (q : RecallQuery F) : MemoryResult (List (Memory F)) :=
  match q.content_search with
  | some search => M.search s search unlimited
  | none => M.list_all s unlimited

def execute_recall (M : MemoryStore F σ) (s : σ) (now : Int) (q : RecallQuery F) : MemoryResult (RecallResult F) := do
  let candidates ← candidates M s q
  let filtered := candidates.filter (q.admits now)
  return ⟨(filtered.mergeSort (q.rank doubles now)).take q.result_limit,filtered.length⟩

/-- A memory that the query matches: not expired, let through by its filters, with the text that it searches. -/
def matching (now : Int) (q : RecallQuery F) (m : Memory F) : Bool :=
  q.admits now m && q.content_search.all fun search => doubles.contains_text search m.content

/-- What a query ranks a memory by. -/
def rankingKey (now : Int) (q : RecallQuery F) (m : Memory F) : Int ⊕ₗ F :=
  match q.ranking_strategy with
  | .MostRecent => toLex (.inl m.last_accessed)
  | .MostAccessed => toLex (.inl (m.access_count : Int))
  | .MostImportant => toLex (.inr m.importance)
  | .MostRelevant => toLex (.inr (doubles.relevance_score q.relevance_weights now m))

theorem rank_iff (now : Int) (q : RecallQuery F) (a b : Memory F) :
    q.rank doubles now a b = true ↔ rankingKey doubles now q b ≤ rankingKey doubles now q a := by
  unfold RecallQuery.rank rankingKey
  cases q.ranking_strategy <;> simp

/-- The live memories that match, of which a result is exact: it counts them all and has the best of them. -/
def matching_of (live : Live F) (now : Int) (q : RecallQuery F) : Set (Memory F) := {m | m ∈ live.memories ∧ matching doubles now q m = true}

structure Exact (live : Live F) (now : Int) (q : RecallQuery F) (result : RecallResult F) : Prop where
  total : result.total_matches = (matching_of doubles live now q).ncard
  size : result.memories.length = min q.result_limit result.total_matches
  distinct : (result.memories.map Memory.id).Nodup
  found : ∀ m ∈ result.memories, m ∈ matching_of doubles live now q
  ranked : result.memories.Pairwise fun a b => rankingKey doubles now q b ≤ rankingKey doubles now q a
  best : ∀ m ∈ matching_of doubles live now q, m ∉ result.memories → ∀ r ∈ result.memories, rankingKey doubles now q m ≤ rankingKey doubles now q r

/-- What a recall returns: the best of all that match, and their number. -/
structure Returns (live : Live F) (now : Int) (q : RecallQuery F) (result : RecallResult F) (memories : List (Memory F)) : Prop where
  lists : Lists live memories
  total : result.total_matches = (memories.filter (matching doubles now q)).length
  best : Best (rankingKey doubles now q) q.result_limit (memories.filter (matching doubles now q)) result.memories

variable {doubles}

theorem lists_ncard {live : Live F} {memories : List (Memory F)} (lists : Lists live memories) (wanted : Memory F → Bool) :
    {m | m ∈ live.memories ∧ wanted m = true}.ncard = (memories.filter wanted).length := by
  classical
  have same : {m | m ∈ live.memories ∧ wanted m = true} = ((memories.filter wanted).toFinset : Set (Memory F)) := by
    ext m
    simp [lists.mem m]
  rw [same,Set.ncard_coe_finset,List.toFinset_card_of_nodup (lists.distinct.of_map.filter _)]

omit [LinearOrder F] in
theorem lists_perm {live : Live F} {memories memories' : List (Memory F)} (lists : Lists live memories) (lists' : Lists live memories') :
    memories.Perm memories' :=
  (List.perm_ext_iff_of_nodup lists.distinct.of_map lists'.distinct.of_map).mpr fun m => (lists.mem m).trans (lists'.mem m).symm

/-- A recall reads everything before it filters, ranks and truncates. -/
theorem recall_returns {M : MemoryStore F σ} {good : Memory F → Prop} {R : σ → Live F → Prop} (refines : Refines doubles.contains_text good M R)
    {s : σ} {live : Live F}
    (related : R s live) (few : live.memories.ncard ≤ unlimited) (now : Int) (q : RecallQuery F) :
    ∃ result memories, execute_recall doubles M s now q = .ok result ∧ Returns doubles live now q result memories := by
  obtain ⟨memories,lists,list_all,search⟩ := refines.listed s live related
  have fits : memories.length ≤ unlimited := by
    have count : live.memories.ncard = memories.length := by simpa using lists_ncard lists fun _ => true
    exact count ▸ few
  have filtered : ∃ read, candidates M s q = .ok read ∧ read.filter (q.admits now) = memories.filter (matching doubles now q) := by
    unfold candidates
    cases content : q.content_search with
    | none =>
      refine ⟨memories,(list_all unlimited).trans (by rw [List.take_of_length_le fits]),?_⟩
      refine List.filter_congr fun m _ => ?_
      simp [matching,content]
    | some text =>
      have fits' := (List.length_filter_le (fun m => doubles.contains_text text m.content) memories).trans fits
      refine ⟨_,(search text unlimited).trans (by rw [List.take_of_length_le fits']),?_⟩
      rw [List.filter_filter]
      refine List.filter_congr fun m _ => ?_
      simp [matching,content]
  obtain ⟨found,read,same⟩ := filtered
  let filtered := memories.filter (matching doubles now q)
  refine ⟨⟨(filtered.mergeSort (q.rank doubles now)).take q.result_limit,filtered.length⟩,memories,?_,lists,rfl,best_mergeSort (rank_iff doubles now q)⟩
  unfold execute_recall
  rw [read]
  show Except.ok _ = _
  rw [same]

theorem Returns.exact {live : Live F} {now : Int} {q : RecallQuery F} {result : RecallResult F} {memories : List (Memory F)}
    (returns : Returns doubles live now q result memories) : Exact doubles live now q result := by
  have found : ∀ m, m ∈ memories.filter (matching doubles now q) ↔ m ∈ matching_of doubles live now q := by
    intro m
    rw [List.mem_filter,returns.lists.mem]
    rfl
  have distinct := returns.lists.distinct
  exact {
    total := by rw [returns.total]; exact (lists_ncard returns.lists _).symm
    size := by rw [returns.total]; exact returns.best.size
    distinct := by
      obtain ⟨others,whole,-⟩ := returns.best.split
      have ids := (whole.map Memory.id).nodup_iff.mpr (distinct.sublist (List.filter_sublist.map _))
      rw [List.map_append] at ids
      exact (List.nodup_append.mp ids).1
    found := fun m member => (found m).mp (returns.best.mem member)
    ranked := returns.best.ranked
    best := fun m candidate out r member => returns.best.omitted member ((found m).mpr candidate) out }

theorem Returns.agree {live : Live F} {now : Int} {q : RecallQuery F} {result result' : RecallResult F} {memories memories' : List (Memory F)}
    (returns : Returns doubles live now q result memories) (returns' : Returns doubles live now q result' memories') :
    result.total_matches = result'.total_matches ∧
      result.memories.map (rankingKey doubles now q) = result'.memories.map (rankingKey doubles now q) := by
  have same := (lists_perm returns.lists returns'.lists).filter (matching doubles now q)
  exact ⟨by rw [returns.total,returns'.total,same.length_eq],returns.best.agree returns'.best same⟩

end

section
variable [LinearOrder F] (doubles : Doubles F)

/-- The recall over a backend after the calls. -/
def recallAfter (backend : Backend F) (calls : List (Call F)) (now : Int) (q : RecallQuery F) : MemoryResult (RecallResult F) :=
  execute_recall doubles (backend.trait doubles.contains_text) (backend.after doubles.contains_text calls) now q

/-- The same number of matches, and the same ranking keys of what is returned. -/
def Agree (now : Int) (q : RecallQuery F) (result result' : RecallResult F) : Prop :=
  result.total_matches = result'.total_matches ∧
    (result.memories.map (rankingKey doubles now q)).Perm (result'.memories.map (rankingKey doubles now q))

theorem backend_returns (backend : Backend F) {calls : List (Call F)} (lossless : ∀ call ∈ calls, call.Writes backend.Lossless)
    (few : (Live.run calls).memories.ncard ≤ unlimited) (now : Int) (q : RecallQuery F) :
    ∃ result memories, recallAfter doubles backend calls now q = .ok result ∧ Returns doubles (Live.run calls) now q result memories :=
  recall_returns (backend_refines doubles.contains_text backend) (backend_holds doubles.contains_text backend lossless) few now q

end

/-- The JSON that serde writes of the memory `needle`. -/
def needleJson : Bytes :=
  ("\x7b\"id\":\"00000000-0000-0000-0000-00000000000c\",\"kind\":\"Semantic\",\"tier\":\"Warm\",\"content\":\"needle\",\"embedding_hash\":null," ++
    "\"created_at\":\"1970-01-01T00:00:00Z\",\"last_accessed\":\"1970-01-01T00:00:00Z\",\"access_count\":0,\"importance\":1.0," ++
    "\"tags\":[\"target\"],\"source_agent\":null,\"source_conversation\":null,\"ttl\":null\x7d").toList.flatMap fun c => bigEndian 1 c.toNat

def needle : Memory Int := ⟨12,.Semantic,.Warm,.string "needle",0,0,0,1,["target"],none,none,none⟩

def needleSerde : Serde Int := ⟨fun _ => needleJson,fun bytes => if bytes = needleJson then .ok needle else .error "expected value"⟩

/-- Hours as a number of nanoseconds, and a relevance that is the importance. -/
def wholeDoubles : Doubles Int := ⟨id,fun _ _ m => m.importance,fun _ _ m => m.importance,fun a b => a ≠ b,fun text content => content.eq (.string text)⟩

def targets : RecallQuery Int := ⟨none,none,none,["target"],none,none,some "needle",1,.MostImportant,(1,1,1)⟩

theorem needle_lossless : needleSerde.Lossless needle := by
  unfold Serde.Lossless needleSerde
  dsimp only
  rw [if_pos rfl]

end
end Daf.RecallBackends
