import Daf.LogEntries
import Mathlib.Tactic.SplitIfs

/-!
Queries over log entries, and the pages of their results. A sum of two sizes can leave the range of a
`usize` (64 bits): with overflow checks the call panics then, without them the sum wraps.
-/
namespace Daf.LogQueries
open Daf.Json Daf.UuidText Daf.LogEntries
open Daf.MissionPlan (AgentId)

/-- How texts are put in lower case, and the text of a value. -/
structure Texts where
  to_lowercase : String → String
  to_string : Value → String

/-- The entries of a slice; no slice is longer than `isize::MAX`. -/
structure Slice where
  entries : List LogEntry
  bounded : entries.length < 2^63

structure LogQuery where
  agent : Option AgentId
  conversation : Option Uuid
  time_start : Option Int
  time_end : Option Int
  min_level : Option LogLevel
  tags : List String
  content_search : Option String
  max_results : Option UInt64
  offset : UInt64

def LogQuery.new : LogQuery := ⟨none,none,none,none,none,[],none,none,0⟩

def LogQuery.by_agent (q : LogQuery) (agent : AgentId) : LogQuery := { q with agent := some agent }
def LogQuery.by_conversation (q : LogQuery) (id : Uuid) : LogQuery := { q with conversation := some id }
def LogQuery.by_time_start (q : LogQuery) (start : Int) : LogQuery := { q with time_start := some start }
def LogQuery.by_time_end (q : LogQuery) (stop : Int) : LogQuery := { q with time_end := some stop }
def LogQuery.by_level (q : LogQuery) (level : LogLevel) : LogQuery := { q with min_level := some level }
def LogQuery.by_tag (q : LogQuery) (tag : String) : LogQuery := { q with tags := q.tags ++ [tag] }
def LogQuery.by_content_search (q : LogQuery) (search : String) : LogQuery := { q with content_search := some search }
def LogQuery.limit (q : LogQuery) (n : UInt64) : LogQuery := { q with max_results := some n }
/-- The builder `offset`. -/
def LogQuery.skipping (q : LogQuery) (n : UInt64) : LogQuery := { q with offset := n }

structure QueryResult where
  items : List LogEntry
  total : UInt64
  offset : UInt64
  limit : Option UInt64

def usizeMax : UInt64 := UInt64.ofNat (2^64 - 1)

section
variable (texts : Texts)

def content_str (entry : LogEntry) : String :=
  match entry.content with
  | .string s => texts.to_lowercase s
  | other => texts.to_lowercase (texts.to_string other)

def LogQuery.matches (q : LogQuery) (entry : LogEntry) : Bool :=
  q.agent.all (entry.source_agent = ·) &&
  q.conversation.all (entry.conversation_id = ·) &&
  q.time_start.all (fun start => !decide (entry.timestamp < start)) &&
  q.time_end.all (fun stop => !decide (stop < entry.timestamp)) &&
  q.min_level.all (fun min => !decide (entry.level.severity < min.severity)) &&
  q.tags.all (entry.tags.contains ·) &&
  q.content_search.all (fun search => contains (content_str texts entry) (texts.to_lowercase search))

def LogQuery.matching (q : LogQuery) (slice : Slice) : List LogEntry := slice.entries.filter (q.matches texts)

def LogQuery.execute (q : LogQuery) (slice : Slice) : QueryResult :=
  let matching := q.matching texts slice
  { items := (matching.drop q.offset.toNat).take (q.max_results.getD usizeMax).toNat
    total := UInt64.ofNat matching.length
    offset := q.offset
    limit := q.max_results }

end

/-- The sum of two sizes, `none` for a panic. -/
def add (overflow_checks : Bool) (a b : UInt64) : Option UInt64 := if overflow_checks ∧ 2^64 ≤ a.toNat + b.toNat then none else some (a + b)

/-- Whether there are more results, `none` for a panic. -/
def QueryResult.has_more (overflow_checks : Bool) (r : QueryResult) : Option Bool :=
  match r.limit with
  | some limit => (add overflow_checks r.offset limit).map fun sum => decide (sum < r.total)
  | none => some false

/-- A client that turns the pages: the items of the page at this offset and of those after it. `none` when
a call panics, or when the fuel is spent. -/
def turnPages (texts : Texts) (overflow_checks : Bool) (q : LogQuery) (limit : UInt64) (slice : Slice) : Nat → UInt64 → Option (List LogEntry)
  | 0,_ => none
  | fuel + 1,offset => do
    let page := ((q.limit limit).skipping offset).execute texts slice
    if ← page.has_more overflow_checks then
      let next ← add overflow_checks offset limit
      let later ← turnPages texts overflow_checks q limit slice fuel next
      pure (page.items ++ later)
    else pure page.items

/-- Some matching entry comes after the page that is returned. -/
def Beyond (texts : Texts) (q : LogQuery) (slice : Slice) : Prop :=
  ∃ n entry, (q.matching texts slice)[n]? = some entry ∧ q.offset.toNat + (q.execute texts slice).items.length ≤ n

/-- With overflow checks and without them, `has_more` returns whether there is more. -/
def Tells (texts : Texts) (q : LogQuery) (slice : Slice) : Prop :=
  ∀ overflow_checks, ∃ more, (q.execute texts slice).has_more overflow_checks = some more ∧ (more ↔ Beyond texts q slice)

/-- Offset and limit have a sum. -/
def LogQuery.Fits (q : LogQuery) : Prop := ∀ limit ∈ q.max_results, q.offset.toNat + limit.toNat < 2^64

/-! ### One page -/

section
variable {texts : Texts} {q : LogQuery} {slice : Slice}

theorem matching_bounded (texts : Texts) (q : LogQuery) (slice : Slice) : (q.matching texts slice).length < 2^63 :=
  Nat.lt_of_le_of_lt (List.length_filter_le _ _) slice.bounded

/-- Which entries match does not depend on the page. -/
@[simp] theorem matching_page (texts : Texts) (q : LogQuery) (limit offset : UInt64) (slice : Slice) :
    ((q.limit limit).skipping offset).matching texts slice = q.matching texts slice := rfl

theorem total_toNat (texts : Texts) (q : LogQuery) (slice : Slice) : (q.execute texts slice).total.toNat = (q.matching texts slice).length := by
  have bounded := matching_bounded texts q slice
  exact UInt64.toNat_ofNat_of_lt' (by simp only [UInt64.size]; omega)

theorem add_some {a b : UInt64} (fits : a.toNat + b.toNat < 2^64) (overflow_checks : Bool) :
    ∃ sum, add overflow_checks a b = some sum ∧ sum.toNat = a.toNat + b.toNat := by
  refine ⟨a + b,if_neg (by omega),?_⟩
  rw [UInt64.toNat_add]
  exact Nat.mod_eq_of_lt fits

theorem has_more_some {limit : UInt64} (limited : q.max_results = some limit) (fits : q.offset.toNat + limit.toNat < 2^64) (overflow_checks : Bool) :
    (q.execute texts slice).has_more overflow_checks = some (decide (q.offset.toNat + limit.toNat < (q.matching texts slice).length)) := by
  obtain ⟨sum,added,value⟩ := add_some fits overflow_checks
  have limits : (q.execute texts slice).limit = some limit := limited
  rw [QueryResult.has_more,limits]
  show (add overflow_checks q.offset limit).map _ = _
  simp only [added,Option.map_some,UInt64.lt_iff_toNat_lt,value,total_toNat]

theorem beyond_iff (texts : Texts) (q : LogQuery) (slice : Slice) :
    Beyond texts q slice ↔ q.offset.toNat + (q.execute texts slice).items.length < (q.matching texts slice).length := by
  constructor
  · rintro ⟨n,entry,there,after⟩
    obtain ⟨inside,-⟩ := List.getElem?_eq_some_iff.mp there
    omega
  · intro more
    exact ⟨_,_,List.getElem?_eq_getElem more,le_rfl⟩

theorem items_length (texts : Texts) (q : LogQuery) (slice : Slice) :
    (q.execute texts slice).items.length = min (q.max_results.getD usizeMax).toNat ((q.matching texts slice).length - q.offset.toNat) := by
  simp [LogQuery.execute]

theorem tells_of_fits (fits : q.Fits) : Tells texts q slice := by
  intro overflow_checks
  have bounded := matching_bounded texts q slice
  cases limited : q.max_results with
  | none =>
    refine ⟨false,?_,?_⟩
    · have limits : (q.execute texts slice).limit = none := limited
      rw [QueryResult.has_more,limits]
    · have most : usizeMax.toNat = 2^64 - 1 := by decide
      rw [beyond_iff,items_length,limited,Option.getD_none,most]
      simp only [Bool.false_eq_true,false_iff]
      omega
  | some limit =>
    refine ⟨_,has_more_some limited (fits limit limited) overflow_checks,?_⟩
    rw [beyond_iff,items_length,limited,Option.getD_some,decide_eq_true_eq]
    omega

/-- With overflow checks, a sum that is too large makes the call panic. -/
theorem fits_of_tells (tells : Tells texts q slice) : q.Fits := by
  intro limit limited
  by_contra overflows
  obtain ⟨more,returned,-⟩ := tells true
  have limits : (q.execute texts slice).limit = some limit := limited
  have panics : add true q.offset limit = none := if_pos ⟨rfl,by omega⟩
  rw [QueryResult.has_more,limits] at returned
  change (add true q.offset limit).map _ = _ at returned
  rw [panics] at returned
  exact nomatch returned

/-! ### All pages -/

/-- From an offset that has a sum with the limit on, the pages are the rest of the matching entries: each
later offset is below the number of matching entries, and so is the limit. -/
theorem turnPages_rest {overflow_checks : Bool} {limit : UInt64} (positive : 0 < limit) {fuel : Nat} {offset : UInt64}
    (fits : offset.toNat + limit.toNat < 2^64) (enough : (q.matching texts slice).length - offset.toNat < fuel) :
    turnPages texts overflow_checks q limit slice fuel offset = some ((q.matching texts slice).drop offset.toNat) := by
  induction fuel generalizing offset with
  | zero => omega
  | succ fuel ih =>
    have bounded := matching_bounded texts q slice
    have positive' : 0 < limit.toNat := UInt64.lt_iff_toNat_lt.mp positive
    have has : (((q.limit limit).skipping offset).execute texts slice).has_more overflow_checks = _ := has_more_some rfl fits overflow_checks
    have items : (((q.limit limit).skipping offset).execute texts slice).items = ((q.matching texts slice).drop offset.toNat).take limit.toNat := rfl
    obtain ⟨next,added,value⟩ := add_some fits overflow_checks
    rw [turnPages,has]
    change (if decide (offset.toNat + limit.toNat < (q.matching texts slice).length) then _ else _) = _
    by_cases more : offset.toNat + limit.toNat < (q.matching texts slice).length
    · have later : turnPages texts overflow_checks q limit slice fuel next = some ((q.matching texts slice).drop next.toNat) := ih (by omega) (by omega)
      rw [if_pos (decide_eq_true more),added]
      simp only [Option.bind_eq_bind,Option.bind_some,later,value,items]
      rw [← List.drop_drop]
      exact congrArg some (List.take_append_drop _ _)
    · rw [if_neg (by simpa using more),items]
      exact congrArg some (List.take_of_length_le (by rw [List.length_drop]; omega))

end

/-- Turning the pages from offset 0 ends, and gives the matching entries in order, each once. On one page,
`has_more` returns whether there is more exactly when offset and limit have a sum. -/
theorem paging_exact (texts : Texts) (q : LogQuery) (slice : Slice) :
    (∀ overflow_checks limit fuel, 0 < limit → slice.entries.length < fuel →
      turnPages texts overflow_checks q limit slice fuel 0 = some (slice.entries.filter (q.matches texts))) ∧
    (Tells texts q slice ↔ q.Fits) := by
  refine ⟨fun overflow_checks limit fuel positive enough => ?_,fits_of_tells,tells_of_fits⟩
  have shorter : (q.matching texts slice).length ≤ slice.entries.length := List.length_filter_le _ _
  have range : limit.toNat < 2^64 := limit.toNat_lt
  have zero : (0 : UInt64).toNat = 0 := rfl
  rw [turnPages_rest positive (by omega) (by omega)]
  rfl

/-- An entry with nothing in it, on its own. -/
def single : Slice := ⟨[LogEntry.new ⟨fun _ => [],fun _ => ""⟩ 1 0 ⟨2⟩ none 3 0 .Text .null .Info],by decide⟩

/-- The page of one entry at the last offset. -/
def lastPage : LogQuery := (LogQuery.new.skipping usizeMax).limit 1

/-- No entry comes after that page; yet `has_more` panics with overflow checks, and is true without them. -/
theorem last_page_has_more : let texts : Texts := ⟨id,fun _ => ""⟩
    ¬ Beyond texts lastPage single ∧ (lastPage.execute texts single).has_more true = none ∧
      (lastPage.execute texts single).has_more false = some true ∧ ¬ Tells texts lastPage single := by
  refine ⟨?_,by decide,by decide,fun tells => ?_⟩
  · rw [beyond_iff]
    decide
  · exact absurd (fits_of_tells tells 1 rfl) (by decide)

end Daf.LogQueries
