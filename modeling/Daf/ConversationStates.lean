import Daf.MissionPlan
import Daf.UuidText

/-!
The states of a conversation. Turns go to an active conversation only, and completing or archiving it is meant to be the end; but a conversation
can be paused in every state, and a paused one can be resumed.
-/
namespace Daf.ConversationStates
open Daf.UuidText
open Daf.MissionPlan (AgentId)

structure ConversationId where
  uuid : Uuid
deriving DecidableEq,Repr

structure Turn where
  speaker : AgentId
  content : List UInt8
  timestamp : Int
  turn_number : UInt64
  metadata : List (String × String)
deriving DecidableEq,Repr

def Turn.new (speaker : AgentId) (content : List UInt8) (turn_number : UInt64) (now : Int) : Turn := ⟨speaker,content,now,turn_number,[]⟩

inductive ConversationState where
  | Active
  | Paused
  | Completed
  | Archived
deriving DecidableEq,Repr

def ConversationState.accepts_turns : ConversationState → Bool
  | .Active => true
  | _ => false

def ConversationState.is_terminal : ConversationState → Bool
  | .Completed | .Archived => true
  | _ => false

structure Conversation where
  id : ConversationId
  participants : List AgentId
  turns : List Turn
  started_at : Int
  ended_at : Option Int
  state : ConversationState
  topic : String
deriving DecidableEq,Repr

def Conversation.new (id : ConversationId) (participants : List AgentId) (topic : String) (now : Int) : Conversation :=
  ⟨id,participants,[],now,none,.Active,topic⟩

inductive ConversationError where
  | NotActive (conversation_id : ConversationId) (state : ConversationState)
deriving DecidableEq,Repr

/-- What a call answers, and the conversation behind it. -/
abbrev Answered := Except ConversationError UInt64 × Conversation

def Conversation.add_turn (c : Conversation) (speaker : AgentId) (content : List UInt8) (now : Int) : Answered :=
  if !c.state.accepts_turns then (.error (.NotActive c.id c.state),c)
  else
    let turn_number := UInt64.ofNat c.turns.length
    (.ok turn_number,{ c with turns := c.turns ++ [.new speaker content turn_number now] })

def Conversation.add_turn_with_metadata (c : Conversation) (speaker : AgentId) (content : List UInt8) (metadata : List (String × String)) (now : Int) :
    Answered :=
  if !c.state.accepts_turns then (.error (.NotActive c.id c.state),c)
  else
    let turn_number := UInt64.ofNat c.turns.length
    (.ok turn_number,{ c with turns := c.turns ++ [{ Turn.new speaker content turn_number now with metadata }] })

/-- The turns of the other conversation, numbered on from here. -/
def renumbered (base : UInt64) (turns : List Turn) : List Turn :=
  turns.zipIdx.map fun t => { t.1 with turn_number := base + UInt64.ofNat t.2 }

def addParticipant (participants : List AgentId) (participant : AgentId) : List AgentId :=
  if participant ∈ participants then participants else participants ++ [participant]

def Conversation.merge (c other : Conversation) : Answered :=
  if !c.state.accepts_turns then (.error (.NotActive c.id c.state),c)
  else
    (.ok (UInt64.ofNat other.turns.length),{ c with
      turns := c.turns ++ renumbered (UInt64.ofNat c.turns.length) other.turns
      participants := other.participants.foldl addParticipant c.participants })

def Conversation.pause (c : Conversation) : Conversation := { c with state := .Paused }

def Conversation.resume (c : Conversation) : Conversation := if c.state = .Paused then { c with state := .Active } else c

def Conversation.complete (c : Conversation) (now : Int) : Conversation := { c with state := .Completed, ended_at := some now }

def Conversation.archive (c : Conversation) (now : Int) : Conversation :=
  { c with state := .Archived, ended_at := if c.ended_at.isNone then some now else c.ended_at }

inductive Call where
  | add_turn (speaker : AgentId) (content : List UInt8) (now : Int)
  | add_turn_with_metadata (speaker : AgentId) (content : List UInt8) (metadata : List (String × String)) (now : Int)
  | merge (other : Conversation)
  | pause
  | resume
  | complete (now : Int)
  | archive (now : Int)

def Call.apply (c : Conversation) : Call → Conversation
  | .add_turn speaker content now => (c.add_turn speaker content now).2
  | .add_turn_with_metadata speaker content metadata now => (c.add_turn_with_metadata speaker content metadata now).2
  | .merge other => (c.merge other).2
  | .pause => c.pause
  | .resume => c.resume
  | .complete now => c.complete now
  | .archive now => c.archive now

def run (c : Conversation) (calls : List Call) : Conversation := calls.foldl Call.apply c

/-- Once the conversation is completed or archived, no later call changes its turns or makes it active again. -/
def Final (c : Conversation) (calls : List Call) : Prop :=
  ∀ before after rest, calls = before ++ after ++ rest → (run c before).state.is_terminal →
    (run c (before ++ after)).turns = (run c before).turns ∧ (run c (before ++ after)).state ≠ .Active

def Call.closes : Call → Bool
  | .complete _ | .archive _ => true
  | _ => false

/-- A conversation that is paused when it was completed or archived is completed or archived again before it is resumed. -/
def ClosedAgain (c : Conversation) (calls : List Call) : Prop :=
  ∀ before middle rest, calls = before ++ .pause :: middle ++ .resume :: rest → (run c before).state.is_terminal → ∃ call ∈ middle, call.closes

/-! ### One call -/

variable {c : Conversation} {call : Call} {calls : List Call}

theorem run_append (c : Conversation) (before after : List Call) : run c (before ++ after) = run (run c before) after := List.foldl_append

theorem run_concat (c : Conversation) (calls : List Call) (call : Call) : run c (calls ++ [call]) = call.apply (run c calls) := by
  rw [run_append]
  rfl

/-- All that a call can do to a conversation that is not active. -/
theorem apply_cases (inactive : c.state ≠ .Active) (call : Call) :
    call.closes = false ∧ call.apply c = c ∨ (call = .pause ∧ call.apply c = c.pause) ∨ (call = .resume ∧ c.state = .Paused) ∨
      (call.closes ∧ (call.apply c).turns = c.turns ∧ (call.apply c).state.is_terminal) := by
  have refuses : c.state.accepts_turns = false := by
    cases state : c.state with
    | Active => exact absurd state inactive
    | Paused | Completed | Archived => rfl
  cases call with
  | add_turn | add_turn_with_metadata | merge =>
    refine .inl ⟨rfl,?_⟩
    simp [Call.apply,Conversation.add_turn,Conversation.add_turn_with_metadata,Conversation.merge,refuses]
  | pause => exact .inr (.inl ⟨rfl,rfl⟩)
  | resume =>
    by_cases paused : c.state = .Paused
    · exact .inr (.inr (.inl ⟨rfl,paused⟩))
    · exact .inl ⟨rfl,if_neg paused⟩
  | complete now => exact .inr (.inr (.inr ⟨rfl,rfl,rfl⟩))
  | archive now => exact .inr (.inr (.inr ⟨rfl,rfl,rfl⟩))

/-! ### Runs -/

/-- Without a call that closes it, a conversation that is paused or active stays one of the two. -/
theorem run_open (open_ : ∀ call ∈ calls, call.closes = false) (start : c.state = .Paused ∨ c.state = .Active) :
    (run c calls).state = .Paused ∨ (run c calls).state = .Active := by
  induction calls generalizing c with
  | nil => exact start
  | cons call calls ih =>
    obtain ⟨here,later⟩ := List.forall_mem_cons.mp open_
    refine ih later ?_
    cases call with
    | add_turn | add_turn_with_metadata | merge =>
      simp only [Call.apply,Conversation.add_turn,Conversation.add_turn_with_metadata,Conversation.merge]
      split <;> exact start
    | pause => exact .inl rfl
    | resume =>
      show (if c.state = .Paused then _ else c).state = _ ∨ (if c.state = .Paused then _ else c).state = _
      split_ifs
      · exact .inr rfl
      · exact start
    | complete | archive => cases here

/-- What holds behind the end as long as conversations are closed again: the turns are as they were, and the conversation is at its end
    or was paused since. -/
structure Ended (c : Conversation) (before after : List Call) : Prop where
  turns : (run c (before ++ after)).turns = (run c before).turns
  state : (run c (before ++ after)).state.is_terminal ∨ (run c (before ++ after)).state = .Paused ∧
    ∃ first middle, after = first ++ .pause :: middle ∧ (run c (before ++ first)).state.is_terminal ∧ ∀ call ∈ middle, call.closes = false

theorem Ended.inactive {before after : List Call} (ended : Ended c before after) : (run c (before ++ after)).state ≠ .Active := by
  intro active
  rcases ended.state with terminal | ⟨paused,-⟩
  · rw [active] at terminal
    cases terminal
  · rw [active] at paused
    cases paused

theorem ended_concat {before after rest : List Call} (again : ClosedAgain c (before ++ (after ++ [call]) ++ rest)) (ended : Ended c before after) :
    Ended c before (after ++ [call]) := by
  have next : run c (before ++ (after ++ [call])) = call.apply (run c (before ++ after)) := by rw [← List.append_assoc,run_concat]
  rcases apply_cases ended.inactive call with ⟨open_,same⟩ | ⟨rfl,paused⟩ | ⟨rfl,paused⟩ | ⟨-,turns,terminal⟩
  · refine ⟨by rw [next,same]; exact ended.turns,?_⟩
    rw [next,same]
    refine ended.state.imp id fun ⟨paused,first,middle,split,terminal,unclosed⟩ => ⟨paused,first,middle ++ [call],by rw [split]; simp,terminal,?_⟩
    intro other member
    rcases List.mem_append.mp member with old | new
    · exact unclosed other old
    · rw [List.mem_singleton.mp new]
      exact open_
  · refine ⟨by rw [next,paused]; exact ended.turns,.inr ⟨by rw [next,paused]; rfl,?_⟩⟩
    rcases ended.state with terminal | ⟨-,first,middle,rfl,terminal,unclosed⟩
    · exact ⟨after,[],rfl,terminal,nofun⟩
    · refine ⟨first,middle ++ [Call.pause],by simp,terminal,fun other member => ?_⟩
      rcases List.mem_append.mp member with old | new
      · exact unclosed other old
      · rw [List.mem_singleton.mp new]
        rfl
  · -- resumed although nothing has closed it since the pause
    rcases ended.state with terminal | ⟨-,first,middle,rfl,terminal,unclosed⟩
    · rw [paused] at terminal
      cases terminal
    · obtain ⟨other,member,closes⟩ := again (before ++ first) middle rest (by simp) terminal
      rw [unclosed other member] at closes
      cases closes
  · exact ⟨by rw [next,turns]; exact ended.turns,.inl (by rw [next]; exact terminal)⟩

theorem ended_of_closedAgain {before after rest : List Call} (again : ClosedAgain c (before ++ after ++ rest)) (terminal : (run c before).state.is_terminal) :
    Ended c before after := by
  induction after using List.reverseRecOn generalizing rest with
  | nil => exact ⟨by rw [List.append_nil],.inl (by rwa [List.append_nil])⟩
  | append_singleton after call ih =>
    have earlier : ClosedAgain c (before ++ after ++ call :: rest) := by simpa using again
    exact ended_concat again (ih earlier)

/-- Completed and archived conversations stay as they are exactly when those that are paused at their end are closed again before they are resumed. -/
theorem final_iff (c : Conversation) (calls : List Call) : Final c calls ↔ ClosedAgain c calls := by
  constructor
  · intro final before middle rest split terminal
    by_contra unclosed
    have open_ : ∀ call ∈ middle, call.closes = false := fun call member => by
      by_contra closes
      exact unclosed ⟨call,member,by simpa using closes⟩
    have stays := run_open (c := (run c before).pause) open_ (.inl rfl)
    refine (final before (Call.pause :: middle ++ [Call.resume]) rest (by rw [split]; simp) terminal).2 ?_
    rw [← List.append_assoc,run_concat,run_append]
    show (run (run c before).pause middle).resume.state = .Active
    unfold Conversation.resume
    split_ifs with paused
    · rfl
    · exact stays.resolve_left paused
  · intro again before after rest split terminal
    subst split
    have ended := ended_of_closedAgain again terminal
    exact ⟨ended.turns,ended.inactive⟩

/-- A completed conversation that is paused and resumed takes another turn. -/
theorem completed_resumed : ¬ Final (.new ⟨1⟩ [⟨1⟩] "" 0) [.complete 1,.pause,.resume,.add_turn ⟨1⟩ [104,105] 2] := by
  intro final
  have turns := (final [.complete 1] [.pause,.resume,.add_turn ⟨1⟩ [104,105] 2] [] rfl (by decide)).1
  exact absurd turns (by decide)

end Daf.ConversationStates
