import Daf.Cuts
import Daf.JsonAccess
import Daf.MissionPlan
import Daf.UuidText
import Mathlib.Data.List.AList
import Mathlib.Data.Rat.Defs

/-!
Streams of events segmented into episodes, and the index that finds episodes by their time. An episode starts when
it is made, and not at its first event.
-/
namespace Daf.Episodes
open Daf.Cuts Daf.Json Daf.MissionPlan Daf.UuidText

structure EpisodeEvent where
  timestamp : Int
  agent_id : AgentId
  action : String
  observation : Option String
  decision : Option String
  data : Value
deriving DecidableEq

inductive EpisodeOutcome where
  | Success
  | Failure (reason : String)
  | Abandoned (reason : String)
  | InProgress
deriving DecidableEq,Repr

structure Episode where
  id : Uuid
  title : String
  agent_ids : List AgentId
  task_id : Option Uuid
  start_time : Int
  end_time : Option Int
  events : List EpisodeEvent
  outcome : EpisodeOutcome
  learnings : List String
  importance : Rat
  tags : List String
  metadata : AList fun _ : String => Value

/-- An episode that is made at this time, with the id that is drawn for it. -/
def Episode.new (drawn : Uuid) (now : Int) (title : String) : Episode := ⟨drawn,title,[],none,now,none,[],.InProgress,[],0.5,[],∅⟩

def Episode.record_event (episode : Episode) (event : EpisodeEvent) : Episode :=
  { episode with
    agent_ids := if episode.agent_ids.contains event.agent_id then episode.agent_ids else episode.agent_ids ++ [event.agent_id]
    events := episode.events ++ [event] }

/-! ### Segmentation -/

/-- The event has a boundary marker that is true. -/
def marked (event : EpisodeEvent) : Bool :=
  match event.data.get "episode_boundary" with
  | some (.bool marker) => marker
  | _ => false

/-- An episode ends between the two events. -/
def boundary (gap_threshold : Int) (prev curr : EpisodeEvent) : Bool :=
  gap_threshold < curr.timestamp - prev.timestamp || marked curr

/-- The event at the position starts an episode that is not the first one. -/
def boundaryAt (gap_threshold : Int) (events : List EpisodeEvent) (i : Nat) : Bool :=
  match events[i - 1]?,events[i]? with
  | some prev,some curr => boundary gap_threshold prev curr
  | _,_ => false

def detect_boundaries (events : List EpisodeEvent) (gap_threshold : Int) : List Nat :=
  if events.length < 2 then [] else (List.range' 1 (events.length - 1)).filter (boundaryAt gap_threshold events)

/-- What is drawn for the episodes that are made: their ids, and the times at which they are made. -/
abbrev Draws := Nat → Uuid × Int

/-- The loop over the positions at which segments end. -/
def segments (draws : Draws) (title : Nat → String) (events : List EpisodeEvent) : List Nat → Nat → Nat → List Episode
  | [],_,_ => []
  | stop :: stops,idx,start =>
    let segment := (events.take stop).drop start
    (if !segment.isEmpty then [segment.foldl Episode.record_event (.new (draws idx).1 (draws idx).2 (title idx))] else []) ++
      segments draws title events stops (idx + 1) stop

def segment_events (draws : Draws) (events : List EpisodeEvent) (gap_threshold : Int) (base_title : String) : List Episode :=
  if events.isEmpty then [] else
  let split_points := detect_boundaries events gap_threshold ++ [events.length]
  let title := fun idx => if 1 < split_points.length then base_title ++ " (part " ++ toString (idx + 1) ++ ")" else base_title
  segments draws title events split_points 0 0

/-! ### The index -/

structure EpisodeIndex where
  episodes : List Episode

def EpisodeIndex.new : EpisodeIndex := ⟨[]⟩

def EpisodeIndex.insert (index : EpisodeIndex) (episode : Episode) : EpisodeIndex := ⟨index.episodes ++ [episode]⟩

def EpisodeIndex.by_time_range (index : EpisodeIndex) (start stop : Int) : List Episode :=
  index.episodes.filter fun ep => start ≤ ep.start_time && ep.start_time ≤ stop

/-! ### The episodes that are made -/

/-- The episode of a segment. -/
def recorded (draws : Draws) (title : Nat → String) (item : List EpisodeEvent × Nat) : Episode :=
  item.1.foldl Episode.record_event (.new (draws item.2).1 (draws item.2).2 (title item.2))

theorem record_events (segment : List EpisodeEvent) (episode : Episode) :
    (segment.foldl Episode.record_event episode).events = episode.events ++ segment ∧
      (segment.foldl Episode.record_event episode).start_time = episode.start_time := by
  induction segment generalizing episode with
  | nil => simp
  | cons event segment ih =>
    obtain ⟨events,start⟩ := ih (episode.record_event event)
    rw [List.foldl_cons,events,start]
    simp [Episode.record_event]

/-- The agents of an episode are those of its events. -/
def Attributed (episode : Episode) : Prop := episode.agent_ids.Nodup ∧ ∀ agent, agent ∈ episode.agent_ids ↔ ∃ event ∈ episode.events, event.agent_id = agent

theorem record_attributed {episode : Episode} (attributed : Attributed episode) (event : EpisodeEvent) : Attributed (episode.record_event event) := by
  obtain ⟨distinct,same⟩ := attributed
  have events : ∀ agent, (∃ e ∈ (episode.record_event event).events, e.agent_id = agent) ↔ agent ∈ episode.agent_ids ∨ event.agent_id = agent := by
    intro agent
    rw [same]
    simp [Episode.record_event,or_and_right,exists_or]
  by_cases known : event.agent_id ∈ episode.agent_ids
  · have kept : (episode.record_event event).agent_ids = episode.agent_ids := if_pos (List.contains_iff_mem.mpr known)
    refine ⟨kept ▸ distinct,fun agent => ?_⟩
    rw [kept,events]
    exact (or_iff_left_of_imp fun equal => equal ▸ known).symm
  · have pushed : (episode.record_event event).agent_ids = episode.agent_ids ++ [event.agent_id] := if_neg fun there => known (List.contains_iff_mem.mp there)
    refine ⟨?_,fun agent => ?_⟩
    · rw [pushed]
      exact List.nodup_append.mpr ⟨distinct,List.nodup_singleton _,fun a old b new equal => known (by rw [← List.mem_singleton.mp new,← equal]; exact old)⟩
    · rw [pushed,events,List.mem_append,List.mem_singleton,eq_comm (a := agent)]

theorem recorded_attributed (draws : Draws) (title : Nat → String) (item : List EpisodeEvent × Nat) : Attributed (recorded draws title item) := by
  have all : ∀ (segment : List EpisodeEvent) (episode : Episode), Attributed episode → Attributed (segment.foldl Episode.record_event episode) := by
    intro segment
    induction segment with
    | nil => exact fun episode attributed => attributed
    | cons event segment ih => exact fun episode attributed => ih _ (record_attributed attributed event)
  exact all item.1 _ ⟨List.nodup_nil,by simp [Episode.new]⟩

theorem events_recorded (draws : Draws) (title : Nat → String) (item : List EpisodeEvent × Nat) : (recorded draws title item).events = item.1 :=
  (record_events item.1 _).1

theorem start_recorded (draws : Draws) (title : Nat → String) (item : List EpisodeEvent × Nat) : (recorded draws title item).start_time = (draws item.2).2 :=
  (record_events item.1 _).2

/-- No segment is empty, so that each of them has its episode. -/
theorem segments_cut (draws : Draws) (title : Nat → String) {events : List EpisodeEvent} {stops : List Nat} {start : Nat} (idx : Nat)
    (ascending : (start :: stops).Pairwise (· < ·)) (inside : ∀ stop ∈ stops, stop ≤ events.length) :
    segments draws title events stops idx start = ((cut stops start events).zipIdx idx).map (recorded draws title) := by
  induction stops generalizing idx start with
  | nil => rfl
  | cons stop stops ih =>
    have filled : (events.take stop).drop start ≠ [] := cut_ne_nil ascending inside _ List.mem_cons_self
    rw [List.pairwise_cons] at ascending
    rw [segments,ih (idx + 1) ascending.2 fun later member => inside later (List.mem_cons_of_mem stop member)]
    simp [filled,cut,recorded]

theorem mem_boundaries {events : List EpisodeEvent} {gap_threshold : Int} {i : Nat} :
    i ∈ detect_boundaries events gap_threshold ↔ 0 < i ∧ i < events.length ∧ boundaryAt gap_threshold events i = true := by
  unfold detect_boundaries
  split_ifs with short
  · simp only [List.not_mem_nil,false_iff]
    omega
  · rw [List.mem_filter,List.mem_range'_1]
    constructor
    · rintro ⟨⟨low,high⟩,there⟩
      exact ⟨low,by omega,there⟩
    · rintro ⟨low,high,there⟩
      exact ⟨⟨low,by omega⟩,there⟩

theorem boundaries_ascending (events : List EpisodeEvent) (gap_threshold : Int) (some_event : events ≠ []) :
    (0 :: (detect_boundaries events gap_threshold ++ [events.length])).Pairwise (· < ·) := by
  have sorted : (detect_boundaries events gap_threshold).Pairwise (· < ·) := by
    unfold detect_boundaries
    split_ifs
    · exact .nil
    · exact List.Pairwise.filter _ (List.pairwise_lt_range' 1)
  have length := List.length_pos_of_ne_nil some_event
  refine List.pairwise_cons.mpr ⟨fun i member => ?_,List.pairwise_append.mpr ⟨sorted,List.pairwise_singleton _ _,fun i member j last => ?_⟩⟩
  · rcases List.mem_append.mp member with inner | last
    · exact (Iff.mp mem_boundaries inner).1
    · rw [List.mem_singleton.mp last]
      exact length
  · rw [List.mem_singleton.mp last]
    exact (Iff.mp mem_boundaries member).2.1

section
variable (draws : Draws) (events : List EpisodeEvent) (gap_threshold : Int) (base_title : String)

/-- The event lists of the episodes. -/
def parts : List (List EpisodeEvent) := (segment_events draws events gap_threshold base_title).map Episode.events

/-- The positions at which episodes start. -/
def starts : List Nat := 0 :: detect_boundaries events gap_threshold

/-- The parts are not empty, make up the stream, and end exactly where a gap is too long or a marker stands. -/
structure Partition (parts : List (List EpisodeEvent)) : Prop where
  whole : parts.flatten = events
  filled : ∀ part ∈ parts, part ≠ []
  ends : ∀ i prev curr, events[i]? = some prev → events[i + 1]? = some curr →
    ((∃ k, (parts.take k).flatten.length = i + 1) ↔ gap_threshold < curr.timestamp - prev.timestamp ∨ marked curr = true)

/-- The episodes are found by the times of their first events. -/
def Found (episodes : List Episode) : Prop :=
  ∀ start stop, ∀ episode ∈ episodes, ∀ first, episode.events.head? = some first → start ≤ first.timestamp → first.timestamp ≤ stop →
    episode ∈ (episodes.foldl EpisodeIndex.insert .new).by_time_range start stop

/-- Each episode is made at the time of its first event. -/
def Punctual : Prop := ∀ k i event, (starts events gap_threshold)[k]? = some i → events[i]? = some event → (draws k).2 = event.timestamp

theorem inside_stops : ∀ stop ∈ detect_boundaries events gap_threshold ++ [events.length], stop ≤ events.length := by
  intro stop member
  rcases List.mem_append.mp member with inner | last
  · exact Nat.le_of_lt (mem_boundaries.mp inner).2.1
  · rw [List.mem_singleton.mp last]

theorem segment_cut (some_event : events ≠ []) : ∃ title, segment_events draws events gap_threshold base_title =
    ((cut (detect_boundaries events gap_threshold ++ [events.length]) 0 events).zipIdx).map (recorded draws title) := by
  unfold segment_events
  rw [if_neg (by simpa using some_event)]
  exact ⟨_,segments_cut draws _ 0 (boundaries_ascending events gap_threshold some_event) (inside_stops events gap_threshold)⟩

theorem parts_cut (some_event : events ≠ []) :
    parts draws events gap_threshold base_title = cut (detect_boundaries events gap_threshold ++ [events.length]) 0 events := by
  obtain ⟨title,episodes⟩ := segment_cut draws events gap_threshold base_title some_event
  rw [parts,episodes,List.map_map]
  have first : Episode.events ∘ recorded draws title = Prod.fst := funext fun item => events_recorded draws title item
  rw [first,List.zipIdx_map_fst]

theorem partition : Partition events gap_threshold (parts draws events gap_threshold base_title) := by
  by_cases some_event : events = []
  · subst some_event
    exact ⟨rfl,fun part member => absurd member List.not_mem_nil,fun i prev curr before => by simp at before⟩
  have ascending := boundaries_ascending events gap_threshold some_event
  have inside := inside_stops events gap_threshold
  rw [parts_cut draws events gap_threshold base_title some_event]
  refine ⟨?_,cut_ne_nil ascending inside,fun i prev curr before behind => ?_⟩
  · rw [flatten_cut ascending inside,List.drop_zero]
    simp
  · have within : i + 1 < events.length := (List.getElem?_eq_some_iff.mp behind).1
    rw [ends_cut ascending inside (Nat.succ_pos i),List.mem_append,List.mem_singleton,mem_boundaries]
    have between : boundaryAt gap_threshold events (i + 1) = boundary gap_threshold prev curr := by
      unfold boundaryAt
      rw [Nat.add_sub_cancel,before,behind]
    simp [between,boundary,within,within.ne]

theorem parts_same (draws draws' : Draws) (events : List EpisodeEvent) (gap_threshold : Int) (base_title base_title' : String) :
    parts draws events gap_threshold base_title = parts draws' events gap_threshold base_title' := by
  by_cases some_event : events = []
  · rw [some_event]
    rfl
  · rw [parts_cut draws events gap_threshold base_title some_event,parts_cut draws' events gap_threshold base_title' some_event]

theorem segment_attributed : ∀ episode ∈ segment_events draws events gap_threshold base_title, Attributed episode := by
  intro episode member
  by_cases some_event : events = []
  · rw [some_event] at member
    exact absurd member List.not_mem_nil
  · obtain ⟨title,episodes⟩ := segment_cut draws events gap_threshold base_title some_event
    rw [episodes] at member
    obtain ⟨item,-,rfl⟩ := List.mem_map.mp member
    exact recorded_attributed draws title item

theorem index_episodes (episodes : List Episode) (index : EpisodeIndex) : (episodes.foldl EpisodeIndex.insert index).episodes = index.episodes ++ episodes := by
  induction episodes generalizing index with
  | nil => simp
  | cons episode episodes ih =>
    rw [List.foldl_cons,ih]
    simp [EpisodeIndex.insert]

/-- An episode is found by the time of its first event when it starts at that time. -/
theorem found_iff (episodes : List Episode) :
    Found episodes ↔ ∀ episode ∈ episodes, ∀ first, episode.events.head? = some first → episode.start_time = first.timestamp := by
  have mem_range : ∀ start stop episode, episode ∈ (episodes.foldl EpisodeIndex.insert .new).by_time_range start stop ↔
      episode ∈ episodes ∧ start ≤ episode.start_time ∧ episode.start_time ≤ stop := by
    intro start stop episode
    rw [EpisodeIndex.by_time_range,index_episodes,List.mem_filter]
    simp [EpisodeIndex.new]
  constructor
  · intro found episode member first head
    obtain ⟨-,low,high⟩ := (mem_range _ _ _).mp (found first.timestamp first.timestamp episode member first head le_rfl le_rfl)
    exact le_antisymm high low
  · intro same start stop episode member first head low high
    have equal := same episode member first head
    exact (mem_range _ _ _).mpr ⟨member,by rw [equal]; exact low,by rw [equal]; exact high⟩

theorem punctual_iff : Punctual draws events gap_threshold ↔ Found (segment_events draws events gap_threshold base_title) := by
  by_cases some_event : events = []
  · subst some_event
    constructor
    · exact fun _ start stop episode member => absurd member List.not_mem_nil
    · intro _ k i event _ there
      simp at there
  have ascending := boundaries_ascending events gap_threshold some_event
  obtain ⟨title,episodes⟩ := segment_cut draws events gap_threshold base_title some_event
  have begins : ∀ (k : Nat) (piece : List EpisodeEvent), (cut (detect_boundaries events gap_threshold ++ [events.length]) 0 events)[k]? = some piece →
      ∃ begin, (starts events gap_threshold)[k]? = some begin ∧ piece.head? = events[begin]? := by
    intro k piece there
    obtain ⟨begin,start,head⟩ := head_cut ascending there
    have inside := (List.getElem?_eq_some_iff.mp there).1
    rw [length_cut,List.length_append,List.length_singleton] at inside
    rw [← List.cons_append,List.getElem?_append_left (by rw [List.length_cons]; exact inside)] at start
    exact ⟨begin,start,head⟩
  rw [found_iff,episodes]
  constructor
  · intro punctual episode member first head
    obtain ⟨⟨piece,k⟩,listed,rfl⟩ := List.mem_map.mp member
    obtain ⟨begin,start,same⟩ := begins k piece (List.mem_zipIdx_iff_getElem?.mp listed)
    rw [events_recorded] at head
    rw [start_recorded]
    exact punctual k begin first start (same.symm.trans head)
  · intro same k i event start there
    have inside : k < (cut (detect_boundaries events gap_threshold ++ [events.length]) 0 events).length := by
      rw [length_cut,List.length_append,List.length_singleton]
      exact (List.getElem?_eq_some_iff.mp start).1
    have piece := List.getElem?_eq_getElem inside
    obtain ⟨begin,start',head⟩ := begins k _ piece
    obtain rfl : i = begin := Option.some.inj (start.symm.trans start')
    have listed : ((cut (detect_boundaries events gap_threshold ++ [events.length]) 0 events)[k],k) ∈
        (cut (detect_boundaries events gap_threshold ++ [events.length]) 0 events).zipIdx := List.mem_zipIdx_iff_getElem?.mpr piece
    have member := List.mem_map_of_mem (f := recorded draws title) listed
    have equal := same _ member event (by rw [events_recorded]; exact head.trans there)
    rw [start_recorded] at equal
    exact equal

end

/-- Segmentation partitions the stream; the episodes are found by the times of their first events exactly when they are made at those times. -/
theorem segmentation (draws : Draws) (events : List EpisodeEvent) (gap_threshold : Int) (base_title : String) :
    (Partition events gap_threshold (parts draws events gap_threshold base_title) ∧
        (∀ episode ∈ segment_events draws events gap_threshold base_title, Attributed episode) ∧
        (∀ draws' base_title', parts draws' (parts draws events gap_threshold base_title).flatten gap_threshold base_title' =
          parts draws events gap_threshold base_title) ∧
        Found (segment_events draws events gap_threshold base_title)) ↔
      Punctual draws events gap_threshold := by
  have whole := (partition draws events gap_threshold base_title).whole
  constructor
  · rintro ⟨-,-,-,found⟩
    exact (punctual_iff draws events gap_threshold base_title).mpr found
  · intro punctual
    refine ⟨partition draws events gap_threshold base_title,fun episode member => ?_,fun draws' base_title' => ?_,
      (punctual_iff draws events gap_threshold base_title).mp punctual⟩
    · exact segment_attributed draws events gap_threshold base_title episode member
    · rw [whole]
      exact parts_same draws' draws events gap_threshold base_title' base_title

/-- Two events that are recorded an hour after they happened, each of them an episode. -/
def recordedLate : List EpisodeEvent := [⟨0,⟨1⟩,"called_tool",none,none,.null⟩,⟨1800,⟨2⟩,"sent_message",none,none,.null⟩]

/-- The episodes are made at 3600, so that a range that holds the first event does not find its episode. -/
theorem late_episode_missed :
    (segment_events (fun idx => (BitVec.ofNat 128 idx,3600)) recordedLate 600 "work").map Episode.start_time = [3600,3600] ∧
      (((segment_events (fun idx => (BitVec.ofNat 128 idx,3600)) recordedLate 600 "work").foldl EpisodeIndex.insert .new).by_time_range 0 1800).length = 0 := by
  decide

end Daf.Episodes
