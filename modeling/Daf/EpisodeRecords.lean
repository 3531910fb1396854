import Daf.Cuts
import Daf.LogQueries
import Daf.TextSlices
import Mathlib.Data.List.Forall2
import Mathlib.Data.List.Induction

/-!
A recorder that segments a conversation into episodes while its log entries come in: at markers, and where the
entries pause.
-/
namespace Daf.EpisodeRecords
open Daf.Json Daf.UuidText Daf.LogEntries Daf.Cuts Daf.TextSlices
open Daf.LogQueries (Texts)
open Daf.MissionPlan (AgentId)

inductive EpisodeEventType where
  | Action | Observation | Decision | Communication
deriving DecidableEq,Repr

structure EpisodeEvent where
  timestamp : Int
  agent_id : AgentId
  event_type : EpisodeEventType
  description : String
  data : Value
  source_entry_id : Option Uuid

def EpisodeEvent.new (now : Int) (agent_id : AgentId) (event_type : EpisodeEventType) (description : String) : EpisodeEvent :=
  ⟨now,agent_id,event_type,description,.null,none⟩

def EpisodeEvent.with_source (event : EpisodeEvent) (entry_id : Uuid) : EpisodeEvent := { event with source_entry_id := some entry_id }

structure Episode where
  id : Uuid
  title : String
  participants : List AgentId
  start_time : Int
  end_time : Option Int
  trigger : String
  outcome : Option String
  key_events : List EpisodeEvent
  learnings : List String
  conversation_id : Uuid
  metadata : Value

def Episode.new (id : Uuid) (now : Int) (title trigger : String) (conversation_id : Uuid) (participants : List AgentId) : Episode :=
  ⟨id,title,participants,now,none,trigger,none,[],[],conversation_id,.object []⟩

def Episode.record_event (episode : Episode) (event : EpisodeEvent) : Episode :=
  { episode with
    participants := if episode.participants.contains event.agent_id then episode.participants else episode.participants ++ [event.agent_id]
    key_events := episode.key_events ++ [event] }

def Episode.close (episode : Episode) (now : Int) (outcome : String) : Episode := { episode with end_time := some now,outcome := some outcome }

structure EpisodeRecorder where
  current_episode : Option Episode
  completed : List Episode
  conversation_id : Uuid
  idle_threshold_secs : Int
  last_entry_time : Option Int

def EpisodeRecorder.new (conversation_id : Uuid) : EpisodeRecorder := ⟨none,[],conversation_id,300,none⟩

def EpisodeRecorder.with_idle_threshold (r : EpisodeRecorder) (seconds : Int) : EpisodeRecorder := { r with idle_threshold_secs := seconds }

/-- What one call takes from outside: an id, and the time when an episode is made, an event is made and an episode is closed. -/
structure Draw where
  id : Uuid
  started : Int
  recorded : Int
  closed : Int

/-- A duration in nanoseconds in whole seconds, rounded toward zero. -/
def num_seconds (duration : Int) : Int := duration.tdiv 1000000000

/-- The entry has the tag of an end. -/
def ends (entry : LogEntry) : Bool := entry.tags.any (· = "episode:end")

/-- The entry has the tag of a start. -/
def starts (entry : LogEntry) : Bool := entry.tags.any (· = "episode:start")

section
variable (texts : Texts)

/-- The type of an event, by the tags and the text of its entry. -/
def classify_entry (entry : LogEntry) : EpisodeEventType :=
  let tags_lower := entry.tags.map texts.to_lowercase
  if tags_lower.any fun t => contains t "decision" || contains t "chose" then .Decision
  else if tags_lower.any fun t => contains t "action" || contains t "tool" || contains t "execute" then .Action
  else if tags_lower.any fun t => contains t "observe" || contains t "read" || contains t "result" then .Observation
  else
    match entry.content with
    | .string s =>
      let lower := texts.to_lowercase s
      if contains lower "decided" || contains lower "choosing" || contains lower "decision" then .Decision
      else if contains lower "executed" || contains lower "running" || contains lower "calling" then .Action
      else if contains lower "observed" || contains lower "result:" || contains lower "output:" then .Observation
      else .Communication
    | _ => .Communication

def textOf (entry : LogEntry) : String :=
  match entry.content with
  | .string s => s
  | other => texts.to_string other

def eventOf (now : Int) (entry : LogEntry) : EpisodeEvent :=
  (EpisodeEvent.new now entry.source_agent (classify_entry texts entry) (textOf texts entry)).with_source entry.id

/-- The title of a text: its first 57 bytes, if it is longer than 60. `none` when the cut is inside a character. -/
def titleOf (text : String) : Option String :=
  if 60 < size text.toList then (slice text.toList 0 57).map fun head => String.ofList head ++ "..." else some text

def EpisodeRecorder.end_current_episode (r : EpisodeRecorder) (now : Int) (reason : String) : EpisodeRecorder :=
  match r.current_episode with
  | some ep => { r with current_episode := none,completed := r.completed ++ [ep.close now reason] }
  | none => r

/-- `none` for a panic. -/
def EpisodeRecorder.start_episode_from_entry (r : EpisodeRecorder) (draw : Draw) (entry : LogEntry) : Option EpisodeRecorder :=
  (titleOf (textOf texts entry)).map fun title =>
    { r with current_episode := some (.new draw.id draw.started title (textOf texts entry) r.conversation_id [entry.source_agent]) }

/-- What the markers and the pause before an entry do to the episode that is recorded. -/
def EpisodeRecorder.boundary (r : EpisodeRecorder) (draw : Draw) (entry : LogEntry) : Option EpisodeRecorder :=
  if starts entry then (r.end_current_episode draw.closed "New episode:start marker").start_episode_from_entry texts draw entry
  else
    match r.last_entry_time with
    | some last_time =>
      let gap := num_seconds (entry.timestamp - last_time)
      some (if r.idle_threshold_secs ≤ gap then r.end_current_episode draw.closed ("Idle gap of " ++ toString gap ++ "s exceeded threshold") else r)
    | none => some r

def EpisodeRecorder.record (r : EpisodeRecorder) (draw : Draw) (entry : LogEntry) : Option EpisodeRecorder :=
  if ends entry then some { r.end_current_episode draw.closed "Explicit episode:end marker" with last_entry_time := some entry.timestamp }
  else do
    let r ← r.boundary texts draw entry
    let r ← if r.current_episode.isNone then r.start_episode_from_entry texts draw entry else some r
    some { r with
      current_episode := r.current_episode.map fun ep => ep.record_event (eventOf texts draw.recorded entry)
      last_entry_time := some entry.timestamp }

/-- One entry after the other; the calls are numbered. -/
def EpisodeRecorder.record_each (draws : Nat → Draw) : Nat → List LogEntry → EpisodeRecorder → Option EpisodeRecorder
  | _,[],r => some r
  | n,entry :: rest,r => do
    let r ← r.record texts (draws n) entry
    record_each draws (n+1) rest r

/-- The episodes that have been completed with the conversation. -/
def EpisodeRecorder.record_conversation (r : EpisodeRecorder) (draws : Nat → Draw) (log : ConversationLog) : Option (List Episode) := do
  let r ← r.record_each texts draws 0 log.entries
  some (r.end_current_episode (draws log.entries.length).closed "Conversation ended").completed

/-! ### What an episode is to be -/

/-- The event is that of the entry, made at some time. -/
def Records (event : EpisodeEvent) (entry : LogEntry) : Prop := ∃ now, event = eventOf texts now entry

/-- The pause before an entry, behind the one immediately before it, is long. -/
def Idle (threshold : Int) (last entry : LogEntry) : Prop := threshold ≤ num_seconds (entry.timestamp - last.timestamp)

/-- The parts are not empty and hold the entries without an end tag in their order, and a part ends between two of these
exactly at a start tag, at an end tag between them, or at a long pause. -/
structure Partition (threshold : Int) (entries : List LogEntry) (parts : List (List EpisodeEvent)) : Prop where
  events : List.Forall₂ (Records texts) parts.flatten (entries.filter fun entry => !ends entry)
  filled : ∀ part ∈ parts, part ≠ []
  cuts : ∀ before a between b after, entries = before ++ (a :: between) ++ b :: after → ends a = false → ends b = false →
    (∀ entry ∈ between, ends entry = true) →
    (CutAt parts ((before.filter fun entry => !ends entry).length + 1) ↔
      starts b = true ∨ between ≠ [] ∨ Idle threshold ((a :: between).getLast (List.cons_ne_nil _ _)) b)

/-- The entry begins an episode, behind the one before it. -/
def Begins (threshold : Int) (last : Option LogEntry) (entry : LogEntry) : Prop :=
  ends entry = false ∧ (starts entry = true ∨ ∀ before ∈ last, ends before = true ∨ Idle threshold before entry)

/-- The title of the entry is not cut inside a character. -/
def Titled (entry : LogEntry) : Prop := size (textOf texts entry).toList ≤ 60 ∨ (slice (textOf texts entry).toList 0 57).isSome

variable {texts} {threshold : Int} {r : EpisodeRecorder} {entry : LogEntry} {done : List LogEntry}

/-! ### One entry -/

/-- The events of the episodes, completed and current. -/
def EpisodeRecorder.parts (r : EpisodeRecorder) : List (List EpisodeEvent) := r.completed.map Episode.key_events ++ r.current_episode.toList.map Episode.key_events

theorem titleOf_isSome : (titleOf (textOf texts entry)).isSome ↔ Titled texts entry := by
  unfold titleOf Titled
  split
  case isTrue long => simp [Nat.not_le_of_lt long]
  case isFalse short => simp [Nat.le_of_not_lt short]

@[simp] theorem parts_end (r : EpisodeRecorder) (now : Int) (reason : String) : (r.end_current_episode now reason).parts = r.parts := by
  unfold EpisodeRecorder.end_current_episode EpisodeRecorder.parts
  split
  case h_1 ep there => simp [there,Episode.close]
  case h_2 => rfl

@[simp] theorem current_end (r : EpisodeRecorder) (now : Int) (reason : String) : (r.end_current_episode now reason).current_episode = none := by
  unfold EpisodeRecorder.end_current_episode
  split
  case h_1 => rfl
  case h_2 none => exact none

@[simp] theorem threshold_end (r : EpisodeRecorder) (now : Int) (reason : String) :
    (r.end_current_episode now reason).idle_threshold_secs = r.idle_threshold_secs := by
  unfold EpisodeRecorder.end_current_episode
  split <;> rfl

/-- What a recorder knows after some entries. -/
structure Inv (texts : Texts) (threshold : Int) (done : List LogEntry) (r : EpisodeRecorder) : Prop where
  limit : r.idle_threshold_secs = threshold
  last : r.last_entry_time = done.getLast?.map LogEntry.timestamp
  running : r.current_episode.isSome ↔ ∃ last ∈ done.getLast?, ends last = false
  partition : Partition texts threshold done r.parts

/-- Without an episode, a title is needed, and then the entry is the first event. -/
theorem started {r : EpisodeRecorder} (free : r.current_episode = none) (draw : Draw) (titled : Titled texts entry) :
    ∃ r', r.start_episode_from_entry texts draw entry = some r' ∧ r'.idle_threshold_secs = r.idle_threshold_secs ∧
      ∃ ep, r'.current_episode = some ep ∧ ep.key_events = [] ∧ r.parts = r'.completed.map Episode.key_events := by
  obtain ⟨title,cut⟩ := Option.isSome_iff_exists.mp (titleOf_isSome.mpr titled)
  refine ⟨{ r with current_episode := some (.new draw.id draw.started title (textOf texts entry) r.conversation_id [entry.source_agent]) },
    by rw [EpisodeRecorder.start_episode_from_entry,cut]; rfl,rfl,_,rfl,rfl,?_⟩
  simp [EpisodeRecorder.parts,free]

theorem untitled (r : EpisodeRecorder) (draw : Draw) (inside : ¬ Titled texts entry) : r.start_episode_from_entry texts draw entry = none := by
  have none : titleOf (textOf texts entry) = none := by
    rw [← Option.not_isSome_iff_eq_none,titleOf_isSome]
    exact inside
  rw [EpisodeRecorder.start_episode_from_entry,none]
  rfl

/-- Behind an end or a long pause no episode is recorded. -/
theorem boundary_free (inv : Inv texts threshold done r) (draw : Draw) (unmarked : starts entry = false)
    (pause : ∀ before ∈ done.getLast?, ends before = true ∨ Idle threshold before entry) :
    ∃ r', r.boundary texts draw entry = some r' ∧ r'.current_episode = none ∧ r'.parts = r.parts ∧ r'.idle_threshold_secs = threshold := by
  unfold EpisodeRecorder.boundary
  rw [if_neg (by simp [unmarked]),inv.last]
  cases found : done.getLast? with
  | none =>
    have free : r.current_episode = none := by
      rw [← Option.not_isSome_iff_eq_none,inv.running,found]
      simp
    exact ⟨r,rfl,free,rfl,inv.limit⟩
  | some before =>
    simp only [Option.map_some]
    by_cases long : r.idle_threshold_secs ≤ num_seconds (entry.timestamp - before.timestamp)
    · rw [if_pos long]
      exact ⟨_,rfl,current_end _ _ _,parts_end _ _ _,(threshold_end _ _ _).trans inv.limit⟩
    · rw [if_neg long]
      have ended := (pause before found).resolve_right fun idle => long (by rw [inv.limit]; exact idle)
      have free : r.current_episode = none := by
        rw [← Option.not_isSome_iff_eq_none,inv.running,found]
        simp [ended]
      exact ⟨r,rfl,free,rfl,inv.limit⟩

/-- An entry that begins an episode: a new part, unless its title cannot be cut. -/
theorem record_begins (inv : Inv texts threshold done r) (draw : Draw) (begins : Begins threshold done.getLast? entry) :
    (¬ Titled texts entry → r.record texts draw entry = none) ∧
    (Titled texts entry → ∃ r', r.record texts draw entry = some r' ∧ r'.idle_threshold_secs = threshold ∧ r'.last_entry_time = some entry.timestamp ∧
      r'.current_episode.isSome ∧ r'.parts = r.parts ++ [[eventOf texts draw.recorded entry]]) := by
  obtain ⟨inner,begins⟩ := begins
  unfold EpisodeRecorder.record
  rw [if_neg (by simp [inner])]
  cases marked : starts entry with
  | true =>
    have marker : r.boundary texts draw entry = (r.end_current_episode draw.closed "New episode:start marker").start_episode_from_entry texts draw entry := by
      rw [EpisodeRecorder.boundary,if_pos marked]
    rw [marker]
    constructor
    · intro inside
      rw [untitled _ draw inside]
      rfl
    · intro titled
      obtain ⟨r',start,limit,ep,current,empty,parts⟩ := started (current_end r draw.closed "New episode:start marker") draw titled
      rw [parts_end] at parts
      refine ⟨{ r' with current_episode := r'.current_episode.map fun ep => ep.record_event (eventOf texts draw.recorded entry),last_entry_time := some entry.timestamp },
        by rw [start]; simp [current],limit.trans ((threshold_end _ _ _).trans inv.limit),rfl,by simp [current],?_⟩
      rw [parts]
      simp [EpisodeRecorder.parts,current,Episode.record_event,empty]
  | false =>
    obtain ⟨r₀,passed,free,same,limit₀⟩ := boundary_free inv draw marked (begins.resolve_left (by simp [marked]))
    rw [passed]
    constructor
    · intro inside
      simp [free,untitled _ draw inside]
    · intro titled
      obtain ⟨r',start,limit,ep,current,empty,parts⟩ := started free draw titled
      refine ⟨{ r' with current_episode := r'.current_episode.map fun ep => ep.record_event (eventOf texts draw.recorded entry),last_entry_time := some entry.timestamp },
        by simp [free,start],limit.trans limit₀,rfl,by simp [current],?_⟩
      rw [← same,parts]
      simp [EpisodeRecorder.parts,current,Episode.record_event,empty]

/-- Any other entry is one more event of the current episode. -/
theorem record_continues (inv : Inv texts threshold done r) (draw : Draw) (inner : ends entry = false) (goes_on : ¬ Begins threshold done.getLast? entry) :
    ∃ r' ep, r.record texts draw entry = some r' ∧ r'.idle_threshold_secs = threshold ∧ r'.last_entry_time = some entry.timestamp ∧
      r'.current_episode.isSome ∧ r.parts = r.completed.map Episode.key_events ++ [ep] ∧
      r'.parts = r.completed.map Episode.key_events ++ [ep ++ [eventOf texts draw.recorded entry]] := by
  have others : starts entry = false ∧ ∃ before ∈ done.getLast?, ends before = false ∧ ¬ Idle threshold before entry := by
    by_contra begins
    refine goes_on ⟨inner,?_⟩
    cases marked : starts entry with
    | true => exact .inl rfl
    | false =>
      refine .inr fun before found => ?_
      by_contra pause
      obtain ⟨open_,short⟩ := not_or.mp pause
      exact begins ⟨marked,before,found,by simpa using open_,short⟩
  obtain ⟨unmarked,before,found,open_,short⟩ := others
  obtain ⟨ep,current⟩ := Option.isSome_iff_exists.mp (inv.running.mpr ⟨before,found,open_⟩)
  have passed : r.boundary texts draw entry = some r := by
    have brief : ¬ r.idle_threshold_secs ≤ num_seconds (entry.timestamp - before.timestamp) := by
      rw [inv.limit]
      exact short
    rw [EpisodeRecorder.boundary,if_neg (by simp [unmarked]),inv.last,Option.mem_def.mp found]
    exact congrArg some (if_neg brief)
  refine ⟨{ r with current_episode := some (ep.record_event (eventOf texts draw.recorded entry)),last_entry_time := some entry.timestamp },ep.key_events,
    ?_,inv.limit,rfl,rfl,by simp [EpisodeRecorder.parts,current],rfl⟩
  rw [EpisodeRecorder.record,if_neg (by simp [inner]),passed]
  simp [current]

/-! ### The parts of the entries so far -/

theorem partition_nil : Partition texts threshold [] [] where
  events := .nil
  filled := nofun
  cuts before a between b after split := by simp at split

/-- A pair of the entries so far, or the last one with the new one. -/
theorem split_snoc {before rest after : List LogEntry} {b : LogEntry} (split : done ++ [entry] = before ++ rest ++ b :: after) :
    (after = [] ∧ b = entry ∧ done = before ++ rest) ∨ ∃ after', after = after' ++ [entry] ∧ done = before ++ rest ++ b :: after' := by
  rcases List.eq_nil_or_concat after with rfl | ⟨after',last,rfl⟩
  · obtain ⟨front,same⟩ := List.append_inj' split rfl
    exact .inl ⟨rfl,(List.singleton_inj.mp same).symm,front⟩
  · rw [List.concat_eq_append,← List.cons_append,← List.append_assoc] at split
    obtain ⟨front,same⟩ := List.append_inj' split rfl
    exact .inr ⟨after',by rw [List.concat_eq_append,List.singleton_inj.mp same],front⟩

theorem partition_ended {parts : List (List EpisodeEvent)} (partition : Partition texts threshold done parts) (ended : ends entry = true) :
    Partition texts threshold (done ++ [entry]) parts where
  events := by simpa [List.filter_append,ended] using partition.events
  filled := partition.filled
  cuts before a between b after split first second inner := by
    rcases split_snoc split with ⟨-,rfl,-⟩ | ⟨after',-,earlier⟩
    · rw [ended] at second
      cases second
    · exact partition.cuts before a between b after' earlier first second inner

/-- With one more event the parts end where they did, and before the new one exactly if it begins an episode. -/
theorem partition_recorded {parts more : List (List EpisodeEvent)} {event : EpisodeEvent} (partition : Partition texts threshold done parts)
    (inner : ends entry = false) (records : Records texts event entry) (flat : more.flatten = parts.flatten ++ [event]) (filled : ∀ part ∈ more, part ≠ [])
    (same : ∀ n < parts.flatten.length, CutAt more n ↔ CutAt parts n)
    (last : done ≠ [] → (CutAt more parts.flatten.length ↔ Begins threshold done.getLast? entry)) : Partition texts threshold (done ++ [entry]) more where
  events := by
    rw [flat,List.filter_append]
    have one : [entry].filter (fun entry => !ends entry) = [entry] := by simp [inner]
    rw [one]
    exact List.rel_append partition.events (.cons records .nil)
  filled := filled
  cuts before a between b after split first second between_ends := by
    have total := partition.events.length_eq
    rcases split_snoc split with ⟨-,rfl,rfl⟩ | ⟨after',-,rfl⟩
    · have none : between.filter (fun entry => !ends entry) = [] := by
        refine List.filter_eq_nil_iff.mpr fun e member => ?_
        simp [between_ends e member]
      have place : (before.filter fun entry => !ends entry).length + 1 = parts.flatten.length := by
        rw [total]
        simp [List.filter_append,first,none]
      have there : (before ++ a :: between).getLast? = some ((a :: between).getLast (List.cons_ne_nil _ _)) := by
        rw [List.getLast?_append_of_ne_nil _ (List.cons_ne_nil a between),List.getLast?_eq_some_getLast]
      rw [place,last (by simp),there,Begins]
      simp only [inner,true_and,Option.mem_def,Option.some.injEq,forall_eq']
      refine or_congr_right (or_congr_left ?_)
      rcases List.eq_nil_or_concat between with rfl | ⟨front,e,rfl⟩
      · simp [first]
      · have ended : ends e = true := between_ends e (by simp)
        simp [ended]
    · rw [same _ ?_]
      · exact partition.cuts before a between b after' rfl first second between_ends
      · rw [total]
        simp [List.filter_append,first,second]

theorem inv_record (inv : Inv texts threshold done r) (draw : Draw) (titled : Begins threshold done.getLast? entry → Titled texts entry) :
    ∃ r', r.record texts draw entry = some r' ∧ Inv texts threshold (done ++ [entry]) r' := by
  have final : (done ++ [entry]).getLast? = some entry := List.getLast?_concat
  cases tagged : ends entry with
  | true =>
    refine ⟨{ r.end_current_episode draw.closed "Explicit episode:end marker" with last_entry_time := some entry.timestamp },
      by rw [EpisodeRecorder.record,if_pos tagged],?_,by rw [final]; rfl,?_,?_⟩
    · exact (threshold_end _ _ _).trans inv.limit
    · simp [final,tagged]
    · have same := parts_end r draw.closed "Explicit episode:end marker"
      refine partition_ended ?_ tagged
      show Partition texts threshold done (r.end_current_episode draw.closed "Explicit episode:end marker").parts
      rw [same]
      exact inv.partition
  | false =>
    by_cases begins : Begins threshold done.getLast? entry
    · obtain ⟨r',recorded,limit,time,running,parts⟩ := (record_begins inv draw begins).2 (titled begins)
      refine ⟨r',recorded,limit,by rw [final,time]; rfl,by simp [final,tagged,running],?_⟩
      rw [parts]
      refine partition_recorded inv.partition tagged ⟨draw.recorded,rfl⟩ (by simp) ?_ (fun n less => ?_) fun _ => ?_
      · intro part member
        rcases List.mem_append.mp member with old | new
        · exact inv.partition.filled part old
        · rw [List.mem_singleton.mp new]
          exact List.cons_ne_nil _ _
      · rw [cutAt_concat]
        exact or_iff_left (by omega)
      · exact iff_of_true (cutAt_concat.mpr (.inl (cutAt_total _))) begins
    · obtain ⟨r',ep,recorded,limit,time,running,before,parts⟩ := record_continues inv draw tagged begins
      have old := inv.partition
      rw [before] at old
      have filled : ep ≠ [] := old.filled ep (by simp)
      refine ⟨r',recorded,limit,by rw [final,time]; rfl,by simp [final,tagged,running],?_⟩
      rw [parts]
      refine partition_recorded old tagged ⟨draw.recorded,rfl⟩ (by simp) ?_ (fun n less => ?_) fun _ => ?_
      · intro part member
        rcases List.mem_append.mp member with earlier | new
        · exact old.filled part (List.mem_append_left _ earlier)
        · rw [List.mem_singleton.mp new]
          simp
      · exact cutAt_grow _ less
      · exact iff_of_false (not_cutAt_grow filled (List.cons_ne_nil _ _)) begins

/-! ### A whole conversation -/

theorem record_each_spec (draws : Nat → Draw) (rest : List LogEntry) (n : Nat) (done : List LogEntry) (r : EpisodeRecorder) (inv : Inv texts threshold done r) :
    ((r.record_each texts draws n rest).isSome ↔
      ∀ before entry after, rest = before ++ entry :: after → Begins threshold (done ++ before).getLast? entry → Titled texts entry) ∧
    ∀ r' ∈ r.record_each texts draws n rest, Inv texts threshold (done ++ rest) r' := by
  induction rest generalizing n done r with
  | nil =>
    refine ⟨⟨fun _ before entry after split => by simp at split,fun _ => rfl⟩,fun r' same => ?_⟩
    rw [List.append_nil,← Option.some.inj same]
    exact inv
  | cons entry rest ih =>
    by_cases titled : Begins threshold done.getLast? entry → Titled texts entry
    · obtain ⟨r₁,recorded,next⟩ := inv_record inv (draws n) titled
      obtain ⟨returns,result⟩ := ih (n+1) (done ++ [entry]) r₁ next
      have step : r.record_each texts draws n (entry :: rest) = r₁.record_each texts draws (n+1) rest := by
        rw [EpisodeRecorder.record_each,recorded]
        rfl
      rw [step,returns]
      refine ⟨⟨fun all before e after split begins => ?_,fun all before e after split begins => ?_⟩,fun r' there => ?_⟩
      · cases before with
        | nil =>
          obtain ⟨rfl,rfl⟩ := List.cons.inj split
          rw [List.append_nil] at begins
          exact titled begins
        | cons first before =>
          obtain ⟨rfl,later⟩ := List.cons.inj split
          exact all before e after later (by rw [List.append_assoc]; exact begins)
      · rw [List.append_assoc] at begins
        exact all (entry :: before) e after (by rw [split]; rfl) begins
      · have final := result r' there
        rwa [List.append_assoc] at final
    · obtain ⟨begins,inside⟩ := Classical.not_imp.mp titled
      have step : r.record_each texts draws n (entry :: rest) = none := by
        rw [EpisodeRecorder.record_each,(record_begins inv (draws n) begins).1 inside]
        rfl
      rw [step]
      refine ⟨iff_of_false nofun fun all => ?_,nofun⟩
      exact inside (all [] entry rest rfl (by rw [List.append_nil]; exact begins))

/-- The recorder returns, and the episodes partition the conversation, exactly if no entry that begins an episode has a
text of more than 60 bytes whose byte 57 is inside a character. -/
theorem conversation_partitioned (texts : Texts) (threshold : Int) (conversation_id : Uuid) (draws : Nat → Draw) (log : ConversationLog) :
    (∃ episodes, ((EpisodeRecorder.new conversation_id).with_idle_threshold threshold).record_conversation texts draws log = some episodes ∧
      Partition texts threshold log.entries (episodes.map Episode.key_events)) ↔
    ∀ before entry after, log.entries = before ++ entry :: after → Begins threshold before.getLast? entry → Titled texts entry := by
  have start : Inv texts threshold [] ((EpisodeRecorder.new conversation_id).with_idle_threshold threshold) :=
    ⟨rfl,rfl,iff_of_false nofun (by simp),partition_nil⟩
  obtain ⟨returns,result⟩ := record_each_spec draws log.entries 0 [] _ start
  simp only [List.nil_append] at returns result
  rw [← returns]
  cases found : ((EpisodeRecorder.new conversation_id).with_idle_threshold threshold).record_each texts draws 0 log.entries with
  | none =>
    refine iff_of_false ?_ nofun
    rintro ⟨episodes,recorded,-⟩
    rw [EpisodeRecorder.record_conversation,found] at recorded
    cases recorded
  | some r =>
    refine iff_of_true ⟨_,by rw [EpisodeRecorder.record_conversation,found]; rfl,?_⟩ rfl
    have inv := result r found
    have parts : ((r.end_current_episode (draws log.entries.length).closed "Conversation ended").completed).map Episode.key_events = r.parts := by
      rw [← parts_end r (draws log.entries.length).closed "Conversation ended",EpisodeRecorder.parts,current_end]
      exact (List.append_nil _).symm
    rw [parts]
    exact inv.partition

end

/-- A text in which byte 57 is inside a character. -/
def accented : List Char := List.replicate 56 'a' ++ 'é' :: List.replicate 3 'a'

/-- A single entry with this text makes the recorder panic. -/
theorem accented_panics : ¬ ∃ episodes, ((EpisodeRecorder.new 0#128).with_idle_threshold 300).record_conversation ⟨id,fun _ => ""⟩ (fun _ => ⟨1#128,0,0,0⟩)
    ⟨0#128,[⟨2#128,0,⟨3#128⟩,none,0#128,0,.Text,.string (String.ofList accented),.object [],[],.Info,""⟩]⟩ = some episodes ∧
      Partition ⟨id,fun _ => ""⟩ 300 [⟨2#128,0,⟨3#128⟩,none,0#128,0,.Text,.string (String.ofList accented),.object [],[],.Info,""⟩]
        (episodes.map Episode.key_events) := by
  have cut : titleOf (String.ofList accented) = none := by
    rw [titleOf,String.toList_ofList]
    decide
  rintro ⟨episodes,recorded,-⟩
  simp [EpisodeRecorder.record_conversation,EpisodeRecorder.record_each,EpisodeRecorder.record,EpisodeRecorder.boundary,
    EpisodeRecorder.start_episode_from_entry,textOf,cut,ends,starts,EpisodeRecorder.new,EpisodeRecorder.with_idle_threshold] at recorded

end Daf.EpisodeRecords
