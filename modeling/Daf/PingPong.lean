import Daf.AlternatingRuns
import Daf.LogEntries
import Mathlib.Algebra.Order.Ring.Rat

/-!
The extraction of interaction patterns from a conversation log: two agents that take turns for four entries
or more.
-/
namespace Daf.PingPong
open Daf.Json Daf.UuidText Daf.LogEntries Daf.AlternatingRuns
open Daf.MissionPlan (AgentId)

inductive KnowledgeCategory where
  | Decision | Fact | Insight | Error | Pattern
deriving DecidableEq,Repr

structure KnowledgeEntry where
  id : Uuid
  source_conversation : Uuid
  extracted_at : Int
  category : KnowledgeCategory
  content : String
  /-- A double between 0 and 1. -/
  confidence : Rat
  related_entries : List Uuid
  source_entry_ids : List Uuid
  metadata : Value

/-- The id of a new entry and the time, from outside. -/
structure Stamp where
  id : Uuid
  now : Int

def KnowledgeEntry.new (stamp : Stamp) (source_conversation : Uuid) (category : KnowledgeCategory) (content : String) (confidence : Rat)
    (source_entry_ids : List Uuid) : KnowledgeEntry where
  id := stamp.id
  source_conversation
  extracted_at := stamp.now
  category
  content
  confidence := max 0 (min confidence 1)
  related_entries := []
  source_entry_ids
  metadata := .object []

/-- What is reported of a streak, by its first two entries and its length. -/
def pingPong (stamp : Stamp) (log : ConversationLog) (first second : LogEntry) (streak_len : Nat) : KnowledgeEntry :=
  .new stamp log.conversation_id .Pattern
    ("Ping-pong pattern between " ++ toText first.source_agent.uuid ++ " and " ++ toText second.source_agent.uuid ++ " for " ++ toString streak_len ++
      " turns (starting turn " ++ toString first.turn_number.toNat ++ ")")
    (3 / 5) [first.id,second.id]

/-- The streak that the loop is in, and what it has reported. A streak is no longer than the log, which a u64 counts. -/
structure Streak where
  streak_start : Nat
  streak_len : Nat
  out : List KnowledgeEntry

section
variable (stamps : Nat → Stamp) (log : ConversationLog)

/-- A streak of four entries or more is reported. `none` for an index out of range. -/
def flush (s : Streak) : Option (List KnowledgeEntry) :=
  if 4 ≤ s.streak_len then do
    let first ← log.entries[s.streak_start]?
    let second ← log.entries[s.streak_start+1]?
    some (s.out ++ [pingPong (stamps s.out.length) log first second s.streak_len])
  else some s.out

def turn (s : Streak) (i : Nat) : Option Streak := do
  let entry ← log.entries[i]?
  let two_back ← log.entries[i-2]?
  let one_back ← log.entries[i-1]?
  if entry.source_agent = two_back.source_agent ∧ one_back.source_agent ≠ entry.source_agent then
    if s.streak_len = 0 then some { s with streak_start := i - 2,streak_len := 3 } else some { s with streak_len := s.streak_len + 1 }
  else
    let out ← flush stamps log s
    some { s with streak_len := 0,out }

def extract_patterns : Option (List KnowledgeEntry) :=
  if log.entries.length < 4 then some []
  else do
    let s ← (List.range' 2 (log.entries.length - 2)).foldlM (turn stamps log) ⟨0,0,[]⟩
    flush stamps log s

/-- The agents of the entries. -/
def agents : List AgentId := log.entries.map LogEntry.source_agent

/-- One report for each run, in their order, by its first two entries. -/
structure Reports (runs : List (Nat × Nat)) (out : List KnowledgeEntry) : Prop where
  length : out.length = runs.length
  each : ∀ n p len, runs[n]? = some (p,len) →
    ∃ first second, log.entries[p]? = some first ∧ log.entries[p+1]? = some second ∧ out[n]? = some (pingPong (stamps n) log first second len)

/-- The runs of four entries or more that have ended before an index, the reports of them, and the streak at that index. -/
structure Scanned (i : Nat) (runs : List (Nat × Nat)) (s : Streak) : Prop where
  reports : Reports stamps log runs s.out
  sorted : runs.Pairwise fun a b => a.1 < b.1
  complete : ∀ p len, (p,len) ∈ runs ↔ 4 ≤ len ∧ Block (agents log) p (p+len) ∧ p + len < i
  idle : s.streak_len = 0 → i = 2 ∨ ¬ Same (agents log) (i-1)
  long : 0 < s.streak_len → 3 ≤ s.streak_len ∧ s.streak_start + s.streak_len = i
  inside : 0 < s.streak_len → ∀ j, s.streak_start + 2 ≤ j → j < i → Same (agents log) j
  left : 0 < s.streak_len → s.streak_start = 0 ∨ ¬ Same (agents log) (s.streak_start+1)

variable {stamps log} {i : Nat} {runs : List (Nat × Nat)} {s : Streak}

theorem get_agents (i : Nat) : (agents log)[i]? = log.entries[i]?.map LogEntry.source_agent := List.getElem?_map

/-- What the test of the loop asks, and that its entries are there. -/
theorem turn_spec (after : 2 ≤ i) (inside : i < log.entries.length) :
    turn stamps log s i =
      if log.entries[i]?.map LogEntry.source_agent = log.entries[i-2]?.map LogEntry.source_agent ∧
          log.entries[i-1]?.map LogEntry.source_agent ≠ log.entries[i]?.map LogEntry.source_agent then
        some (if s.streak_len = 0 then { s with streak_start := i - 2,streak_len := 3 } else { s with streak_len := s.streak_len + 1 })
      else (flush stamps log s).map fun out => { s with streak_len := 0,out } := by
  have here : log.entries[i]? = some log.entries[i] := List.getElem?_eq_getElem inside
  have two : log.entries[i-2]? = some log.entries[i-2] := List.getElem?_eq_getElem (by omega)
  have one : log.entries[i-1]? = some log.entries[i-1] := List.getElem?_eq_getElem (by omega)
  simp only [turn,here,two,one,Option.bind_eq_bind,Option.bind_some,Option.map_some,Option.some.injEq,ne_eq]
  split
  · split <;> rfl
  · cases flush stamps log s <;> rfl

theorem same_iff (inside : i < log.entries.length) :
    Same (agents log) i ↔ log.entries[i]?.map LogEntry.source_agent = log.entries[i-2]?.map LogEntry.source_agent ∧
      log.entries[i-1]?.map LogEntry.source_agent ≠ log.entries[i]?.map LogEntry.source_agent := by
  rw [Same,get_agents,get_agents,get_agents]
  simp [agents,inside]

/-- A streak begins or goes on. -/
theorem scan_same (after : 2 ≤ i) (same : Same (agents log) i) (scanned : Scanned stamps log i runs s) :
    Scanned stamps log (i+1) runs (if s.streak_len = 0 then { s with streak_start := i - 2,streak_len := 3 } else { s with streak_len := s.streak_len + 1 }) := by
  have complete : ∀ p len, (p,len) ∈ runs ↔ 4 ≤ len ∧ Block (agents log) p (p+len) ∧ p + len < i + 1 := by
    intro p len
    rw [scanned.complete]
    refine ⟨fun ⟨long,block,less⟩ => ⟨long,block,by omega⟩,fun ⟨long,block,less⟩ => ⟨long,block,?_⟩⟩
    rcases Nat.eq_or_lt_of_le (Nat.le_of_lt_succ less) with ends | earlier
    · rw [ends] at block
      exact absurd same block.right
    · exact earlier
  by_cases idle : s.streak_len = 0
  · rw [if_pos idle]
    refine ⟨scanned.reports,scanned.sorted,complete,nofun,fun _ => ⟨Nat.le_refl _,?_⟩,fun _ j from_ upto => ?_,fun _ => ?_⟩
    · show i - 2 + 3 = i + 1
      omega
    · have only : j = i := by
        have low : i - 2 + 2 ≤ j := from_
        omega
      rwa [only]
    · show i - 2 = 0 ∨ ¬ Same (agents log) (i-2+1)
      rcases scanned.idle idle with first | ended
      · exact .inl (by omega)
      · by_cases first : i = 2
        · exact .inl (by omega)
        · have place : i - 2 + 1 = i - 1 := by omega
          rw [place]
          exact .inr ended
  · rw [if_neg idle]
    have running := Nat.pos_of_ne_zero idle
    obtain ⟨long,place⟩ := scanned.long running
    refine ⟨scanned.reports,scanned.sorted,complete,fun zero => absurd zero (Nat.succ_ne_zero _),fun _ => ⟨?_,?_⟩,fun _ j from_ upto => ?_,fun _ => scanned.left running⟩
    · show 3 ≤ s.streak_len + 1
      omega
    · show s.streak_start + (s.streak_len + 1) = i + 1
      omega
    · rcases Nat.eq_or_lt_of_le (Nat.le_of_lt_succ upto) with here | earlier
      · rwa [here]
      · exact scanned.inside running j from_ earlier

theorem Reports.push (reports : Reports stamps log runs s.out) {p len : Nat} {first second : LogEntry} (here : log.entries[p]? = some first)
    (next : log.entries[p+1]? = some second) : Reports stamps log (runs ++ [(p,len)]) (s.out ++ [pingPong (stamps s.out.length) log first second len]) := by
  refine ⟨by simp [reports.length],fun n q l found => ?_⟩
  rcases Nat.lt_trichotomy n runs.length with old | new | beyond
  · rw [List.getElem?_append_left old] at found
    obtain ⟨a,b,at_a,at_b,reported⟩ := reports.each n q l found
    exact ⟨a,b,at_a,at_b,by rwa [List.getElem?_append_left (by rw [reports.length]; exact old)]⟩
  · subst new
    rw [List.getElem?_concat_length,Option.some.injEq] at found
    obtain ⟨rfl,rfl⟩ := Prod.mk.inj found
    refine ⟨first,second,here,next,?_⟩
    rw [← reports.length,List.getElem?_concat_length]
  · rw [List.getElem?_eq_none (by simp; omega)] at found
    cases found

/-- A streak ends here, or there is none. -/
theorem scan_other (after : 2 ≤ i) (upto : i ≤ log.entries.length) (other : ¬ Same (agents log) i) (scanned : Scanned stamps log i runs s) :
    ∃ out runs', flush stamps log s = some out ∧ Scanned stamps log (i+1) runs' { s with streak_len := 0,out } := by
  by_cases long : 4 ≤ s.streak_len
  · have running : 0 < s.streak_len := by omega
    obtain ⟨-,place⟩ := scanned.long running
    have first : log.entries[s.streak_start]? = some log.entries[s.streak_start] := List.getElem?_eq_getElem (by omega)
    have second : log.entries[s.streak_start+1]? = some log.entries[s.streak_start+1] := List.getElem?_eq_getElem (by omega)
    have block : Block (agents log) s.streak_start (s.streak_start + s.streak_len) :=
      ⟨place ▸ scanned.inside running,scanned.left running,place ▸ other⟩
    refine ⟨_,runs ++ [(s.streak_start,s.streak_len)],by rw [flush,if_pos long,first,second]; rfl,?_⟩
    refine ⟨scanned.reports.push first second,?_,fun p len => ?_,fun _ => .inr other,nofun,nofun,nofun⟩
    · rw [List.pairwise_append]
      refine ⟨scanned.sorted,List.pairwise_singleton _ _,fun run member last only => ?_⟩
      rw [List.mem_singleton.mp only]
      obtain ⟨far,earlier,less⟩ := (scanned.complete run.1 run.2).mp member
      by_contra behind
      have inner : Same (agents log) (run.1 + run.2) := scanned.inside running _ (by simp at behind; omega) less
      exact earlier.right inner
    · rw [List.mem_append,scanned.complete,List.mem_singleton,Prod.mk.injEq]
      constructor
      · rintro (⟨far,earlier,less⟩ | ⟨rfl,rfl⟩)
        · exact ⟨far,earlier,by omega⟩
        · exact ⟨long,block,by omega⟩
      · rintro ⟨far,ended,less⟩
        rcases Nat.eq_or_lt_of_le (Nat.le_of_lt_succ less) with ends | earlier
        · have start := ended.start_unique (by omega) (ends ▸ scanned.inside running) (scanned.left running) (by omega)
          exact .inr ⟨start,by omega⟩
        · exact .inl ⟨far,ended,earlier⟩
  · refine ⟨s.out,runs,if_neg long,scanned.reports,scanned.sorted,fun p len => ?_,fun _ => .inr other,nofun,nofun,nofun⟩
    rw [scanned.complete]
    refine ⟨fun ⟨far,block,less⟩ => ⟨far,block,by omega⟩,fun ⟨far,block,less⟩ => ⟨far,block,?_⟩⟩
    rcases Nat.eq_or_lt_of_le (Nat.le_of_lt_succ less) with ends | earlier
    · exfalso
      have last : Same (agents log) (i-1) := block.inside (i-1) (by omega) (by omega)
      by_cases idle : s.streak_len = 0
      · rcases scanned.idle idle with first | ended
        · omega
        · exact ended last
      · have running := Nat.pos_of_ne_zero idle
        obtain ⟨three,place⟩ := scanned.long running
        have start := block.start_unique (by omega) (ends ▸ scanned.inside running) (scanned.left running) (by omega)
        omega
    · exact earlier

theorem scan_turn (after : 2 ≤ i) (inside : i < log.entries.length) (scanned : Scanned stamps log i runs s) :
    ∃ s' runs', turn stamps log s i = some s' ∧ Scanned stamps log (i+1) runs' s' := by
  rw [turn_spec after inside]
  by_cases same : Same (agents log) i
  · rw [if_pos ((same_iff inside).mp same)]
    exact ⟨_,runs,rfl,scan_same after same scanned⟩
  · rw [if_neg (fun test => same ((same_iff inside).mpr test))]
    obtain ⟨out,runs',flushed,next⟩ := scan_other after (Nat.le_of_lt inside) same scanned
    exact ⟨_,runs',by rw [flushed]; rfl,next⟩

theorem scan_loop (count : Nat) (after : 2 ≤ i) (upto : i + count = log.entries.length) (scanned : Scanned stamps log i runs s) :
    ∃ s' runs', (List.range' i count).foldlM (turn stamps log) s = some s' ∧ Scanned stamps log log.entries.length runs' s' := by
  induction count generalizing i s runs with
  | zero => exact ⟨s,runs,rfl,by rw [← upto]; exact scanned⟩
  | succ count ih =>
    obtain ⟨s₁,runs₁,step,next⟩ := scan_turn after (by omega) scanned
    obtain ⟨s₂,runs₂,rest,done⟩ := ih (Nat.le_succ_of_le after) (by omega) next
    exact ⟨s₂,runs₂,by rw [List.range'_succ,List.foldlM_cons,step]; exact rest,done⟩

theorem scanned_start : Scanned stamps log 2 [] ⟨0,0,[]⟩ where
  reports := ⟨rfl,nofun⟩
  sorted := .nil
  complete p len := ⟨nofun,fun ⟨_,_,less⟩ => by omega⟩
  idle _ := .inl rfl
  long := nofun
  inside := nofun
  left := nofun

end
end Daf.PingPong
