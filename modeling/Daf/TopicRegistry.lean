import Mathlib.Data.List.AList

/-!
The topic registry under concurrency. Each access to an entry of the map is one
step; a call is a sequence of such steps that other calls may come between.
`unsubscribe` and `unsubscribe_all` delete an emptied topic in a step of its own,
after the lock on the entry is released. As long as these deletions find the
topic absent or still empty, no subscription is lost.
-/
namespace Daf.TopicRegistry

structure AgentId where
  uuid : BitVec 128
deriving DecidableEq,Repr

abbrev Topic := String
/-- The subscribed agents by topic. -/
abbrev Subscriptions := AList (fun _ : Topic => List AgentId)

/-- A call on the registry. -/
inductive Op where
  | subscribe (topic : Topic) (agent : AgentId)
  | unsubscribe (topic : Topic) (agent : AgentId)
  | unsubscribe_all (agent : AgentId)
deriving DecidableEq,Repr

/-- Where a call stands. -/
inductive Pc where
  | start
  /-- `unsubscribe` left the entry empty; the topic is to be removed. -/
  | removing (topic : Topic) (removed : Bool)
  /-- `unsubscribe_all` has these topics of the map still to visit. -/
  | sweeping (todo : List Topic) (empty_topics : List Topic) (count : Nat)
  | clearing (empty_topics : List Topic) (count : Nat)
  | returned (result : Nat)
deriving DecidableEq,Repr

structure Call where
  op : Op
  pc : Pc
deriving DecidableEq,Repr

structure State where
  subscriptions : Subscriptions
  calls : List Call

def State.new : State := ⟨∅,[]⟩

/-- The agents subscribed to a topic. -/
def subscribers (m : Subscriptions) (topic : Topic) : List AgentId := (m.lookup topic).getD []

/-! ### The accesses to an entry -/

/-- Add an agent to an entry, which is created if there is none. -/
def addTo (m : Subscriptions) (topic : Topic) (agent : AgentId) : Subscriptions :=
  match m.lookup topic with
  | none => m.insert topic [agent]
  | some agents => if agent ∈ agents then m else m.insert topic (agents ++ [agent])

/-- Drop an agent from an entry, if there is one. -/
def retainIn (m : Subscriptions) (topic : Topic) (agent : AgentId) : Subscriptions :=
  match m.lookup topic with
  | none => m
  | some agents => m.insert topic (agents.filter (· ≠ agent))

/-- The entry exists and has no agents. -/
def isEmptyEntry (m : Subscriptions) (topic : Topic) : Bool := m.lookup topic == some []

/-- How many agents an entry would lose. -/
def lost (m : Subscriptions) (topic : Topic) (agent : AgentId) : Nat := (subscribers m topic).countP (· = agent)

/-! ### Steps -/

inductive Label where
  | invoke (op : Op)
  /-- The next step of a call. -/
  | step (call : Nat)
  /-- The iteration of a call comes to a topic, perhaps one that was added meanwhile. -/
  | visit (call : Nat) (topic : Topic)
deriving DecidableEq,Repr

def State.setPc (s : State) (m : Subscriptions) (i : Nat) (call : Call) (pc : Pc) : State :=
  ⟨m,s.calls.set i { call with pc }⟩

/-- The next step of a call, apart from the visits of an iteration. -/
def callStep (s : State) (i : Nat) (call : Call) : Option State :=
  match call.pc with
  | .start =>
    match call.op with
    | .subscribe topic agent => some (s.setPc (addTo s.subscriptions topic agent) i call (.returned 0))
    | .unsubscribe topic agent =>
      let m := retainIn s.subscriptions topic agent
      let removed := decide (0 < lost s.subscriptions topic agent)
      if isEmptyEntry m topic then some (s.setPc m i call (.removing topic removed))
      else some (s.setPc m i call (.returned removed.toNat))
    | .unsubscribe_all _ => some (s.setPc s.subscriptions i call (.sweeping s.subscriptions.keys [] 0))
  | .removing topic removed => some (s.setPc (s.subscriptions.erase topic) i call (.returned removed.toNat))
  | .sweeping [] empty_topics count => some (s.setPc s.subscriptions i call (.clearing empty_topics count))
  | .sweeping (_ :: _) _ _ => none
  | .clearing [] count => some (s.setPc s.subscriptions i call (.returned count))
  | .clearing (topic :: rest) count => some (s.setPc (s.subscriptions.erase topic) i call (.clearing rest count))
  | .returned _ => none

/-- An iteration visits a topic: it drops the agent there, if the topic is present. -/
def callVisit (s : State) (i : Nat) (call : Call) (topic : Topic) : Option State :=
  match call.op,call.pc with
  | .unsubscribe_all agent,.sweeping todo empty_topics count =>
    let m := retainIn s.subscriptions topic agent
    let empty_topics := if isEmptyEntry m topic then empty_topics ++ [topic] else empty_topics
    some (s.setPc m i call (.sweeping (todo.filter (· ≠ topic)) empty_topics (count + lost s.subscriptions topic agent)))
  | _,_ => none

def step (s : State) : Label → Option State
  | .invoke op => some { s with calls := s.calls ++ [⟨op,.start⟩] }
  | .step i => s.calls[i]?.bind (callStep s i)
  | .visit i topic => s.calls[i]?.bind (fun call => callVisit s i call topic)

def run (s : State) (labels : List Label) : Option State := labels.foldlM step s

/-! ### Deletions that find the topic empty -/

/-- The topic that the next step of a call deletes. -/
def Pc.deletes : Pc → Option Topic
  | .removing topic _ => some topic
  | .clearing (topic :: _) _ => some topic
  | _ => none

/-- If the step deletes a topic, nobody is subscribed to it. -/
def Careful (s : State) : Label → Bool
  | .step i =>
    match s.calls[i]?.bind (·.pc.deletes) with
    | none => true
    | some topic => (subscribers s.subscriptions topic).isEmpty
  | _ => true

/-- Every step of a schedule is careful. -/
def CarefulRun : State → List Label → Bool
  | _,[] => true
  | s,label :: later =>
    Careful s label &&
      match step s label with
      | none => true
      | some s' => CarefulRun s' later

/-- The call is one of the agent on the topic. -/
def touches (agent : AgentId) (topic : Topic) : Op → Bool
  | .subscribe t a => a == agent && t == topic
  | .unsubscribe t a => a == agent && t == topic
  | .unsubscribe_all a => a == agent

def Pc.isReturned : Pc → Bool
  | .returned _ => true
  | _ => false

/-- No call of the agent on the topic is under way. -/
def Quiet (agent : AgentId) (topic : Topic) (s : State) : Prop :=
  ∀ call ∈ s.calls, touches agent topic call.op = true → call.pc.isReturned = true

/-! ### Entries after an access -/

section
variable {m : Subscriptions} {topic other : Topic} {agent a : AgentId}

theorem subscribers_insert (m : Subscriptions) (topic other : Topic) (agents : List AgentId) :
    subscribers (m.insert topic agents) other = if other = topic then agents else subscribers m other := by
  by_cases same : other = topic
  · subst same
    simp [subscribers]
  · simp [subscribers,same,AList.lookup_insert_ne]

theorem mem_addTo : a ∈ subscribers (addTo m topic agent) other ↔
    a ∈ subscribers m other ∨ other = topic ∧ a = agent := by
  unfold addTo
  cases found : m.lookup topic with
  | none =>
    rw [subscribers_insert]
    by_cases same : other = topic
    · subst same
      simp [subscribers,found]
    · simp [same]
  | some agents =>
    have here : subscribers m topic = agents := by simp [subscribers,found]
    simp only
    split_ifs with known
    · constructor
      · exact .inl
      · rintro (old | ⟨rfl,rfl⟩)
        · exact old
        · rwa [here]
    · rw [subscribers_insert]
      by_cases same : other = topic
      · subst same
        simp [here]
      · simp [same]

theorem mem_retainIn : a ∈ subscribers (retainIn m topic agent) other ↔
    a ∈ subscribers m other ∧ ¬ (other = topic ∧ a = agent) := by
  unfold retainIn
  cases found : m.lookup topic with
  | none =>
    constructor
    · intro member
      refine ⟨member,?_⟩
      rintro ⟨rfl,rfl⟩
      simp [subscribers,found] at member
    · exact And.left
  | some agents =>
    have here : subscribers m topic = agents := by simp [subscribers,found]
    rw [subscribers_insert]
    by_cases same : other = topic
    · subst same
      simp [here]
    · simp [same]

theorem mem_erase (member : a ∈ subscribers (m.erase topic) other) : a ∈ subscribers m other := by
  by_cases same : other = topic
  · subst same
    simp [subscribers] at member
  · simpa [subscribers,same,AList.lookup_erase_ne] using member

theorem mem_erase_careful (vacant : (subscribers m topic).isEmpty = true) (member : a ∈ subscribers m other) :
    a ∈ subscribers (m.erase topic) other := by
  have same : other ≠ topic := by
    rintro rfl
    rw [List.isEmpty_iff.mp vacant] at member
    cases member
  simpa [subscribers,same,AList.lookup_erase_ne] using member

theorem key_of_member (member : a ∈ subscribers m topic) : topic ∈ m.keys := by
  refine AList.mem_keys.mp (AList.lookup_isSome.mp ?_)
  cases found : m.lookup topic with
  | none => simp [subscribers,found] at member
  | some agents => rfl

end

/-! ### Calls of other agents -/

section
variable {s s' : State} {agent : AgentId} {topic : Topic} {i : Nat} {call : Call}

theorem callStep_calls (moved : callStep s i call = some s') : ∃ pc, s'.calls = s.calls.set i { call with pc } := by
  unfold callStep at moved
  split at moved
  · split at moved
    · cases moved
      exact ⟨_,rfl⟩
    · simp only at moved
      split_ifs at moved <;> (cases moved; exact ⟨_,rfl⟩)
    · cases moved
      exact ⟨_,rfl⟩
  all_goals
    cases moved
    try exact ⟨_,rfl⟩

theorem callVisit_calls {at_topic : Topic} (moved : callVisit s i call at_topic = some s') :
    ∃ pc, s'.calls = s.calls.set i { call with pc } := by
  unfold callVisit at moved
  split at moved
  · cases moved
    exact ⟨_,rfl⟩
  · cases moved

/-- A call of another agent, or on another topic, changes nothing for the agent: it
    adds nothing, and if it deletes the topic nobody was subscribed. -/
theorem callStep_foreign (moved : callStep s i call = some s') (foreign : touches agent topic call.op = false)
    (careful : ∀ t, call.pc.deletes = some t → (subscribers s.subscriptions t).isEmpty = true) :
    agent ∈ subscribers s'.subscriptions topic ↔ agent ∈ subscribers s.subscriptions topic := by
  unfold callStep at moved
  split at moved
  · split at moved
    · rename_i t a op
      cases moved
      simp only [State.setPc,mem_addTo,or_iff_left_iff_imp]
      rintro ⟨rfl,rfl⟩
      simp [touches,op] at foreign
    · rename_i t a op
      have kept : agent ∈ subscribers (retainIn s.subscriptions t a) topic ↔ agent ∈ subscribers s.subscriptions topic := by
        rw [mem_retainIn,and_iff_left_iff_imp]
        rintro _ ⟨rfl,rfl⟩
        simp [touches,op] at foreign
      simp only at moved
      split_ifs at moved <;> (cases moved; exact kept)
    · cases moved
      exact Iff.rfl
  · rename_i t removed pc
    cases moved
    exact ⟨mem_erase,mem_erase_careful (careful t (by simp [pc,Pc.deletes]))⟩
  · cases moved
    exact Iff.rfl
  · cases moved
  · cases moved
    exact Iff.rfl
  · rename_i t rest count pc
    cases moved
    exact ⟨mem_erase,mem_erase_careful (careful t (by simp [pc,Pc.deletes]))⟩
  · cases moved

theorem callVisit_foreign {at_topic : Topic} (moved : callVisit s i call at_topic = some s')
    (foreign : touches agent topic call.op = false) :
    agent ∈ subscribers s'.subscriptions topic ↔ agent ∈ subscribers s.subscriptions topic := by
  unfold callVisit at moved
  split at moved
  · rename_i a todo empty count op pc
    cases moved
    simp only [State.setPc,mem_retainIn,and_iff_left_iff_imp]
    rintro _ ⟨_,rfl⟩
    simp [touches,op] at foreign
  · cases moved

/-! ### The last call of an agent on a topic -/

/-- A call that removes the agent is still to come to the topic. -/
def Pc.ahead (topic : Topic) : Pc → Bool
  | .start => true
  | .sweeping todo _ _ => decide (topic ∈ todo)
  | _ => false

/-- What a call of the agent on the topic has achieved so far. -/
def Achieved (agent : AgentId) (topic : Topic) (m : Subscriptions) (call : Call) : Prop :=
  match call.op with
  | .subscribe _ _ => call.pc = .start ∨ call.pc.isReturned = true ∧ agent ∈ subscribers m topic
  | _ => agent ∈ subscribers m topic → call.pc.ahead topic = true

/-- The call at an index is the last one of the agent on the topic. -/
structure Last (agent : AgentId) (topic : Topic) (op : Op) (c : Nat) (s : State) : Prop where
  touch : touches agent topic op = true
  others : ∀ i call, i ≠ c → s.calls[i]? = some call → touches agent topic call.op = true → call.pc.isReturned = true
  own : ∃ pc, s.calls[c]? = some ⟨op,pc⟩ ∧ Achieved agent topic s.subscriptions ⟨op,pc⟩

theorem last_invoke (quiet : Quiet agent topic s) {op : Op} (touch : touches agent topic op = true) :
    Last agent topic op s.calls.length { s with calls := s.calls ++ [⟨op,.start⟩] } := by
  refine ⟨touch,fun i call elsewhere found touched => ?_,.start,by simp,?_⟩
  · have inside := (List.getElem?_eq_some_iff.mp found).1
    simp only [List.length_append,List.length_singleton] at inside
    rw [List.getElem?_append_left (by omega)] at found
    exact quiet call (List.mem_of_getElem? found) touched
  · cases op <;> simp [Achieved,Pc.ahead]

theorem returned_stuck (ended : call.pc.isReturned = true) : callStep s i call = none ∧ ∀ t, callVisit s i call t = none := by
  cases pc : call.pc with
  | returned result => exact ⟨by simp [callStep,pc],fun t => by cases op : call.op <;> simp [callVisit,pc,op]⟩
  | _ => simp [pc,Pc.isReturned] at ended

/-- The last call itself goes on. -/
theorem achieved_step (moved : callStep s i call = some s') (touch : touches agent topic call.op = true)
    (achieved : Achieved agent topic s.subscriptions call) :
    ∃ pc, s'.calls = s.calls.set i { call with pc } ∧ Achieved agent topic s'.subscriptions { call with pc } := by
  unfold callStep at moved
  split at moved
  · split at moved
    · rename_i t a op
      simp only [touches,op,Bool.and_eq_true,beq_iff_eq] at touch
      obtain ⟨rfl,rfl⟩ := touch
      cases moved
      exact ⟨_,rfl,by simp [Achieved,op,Pc.isReturned,State.setPc,mem_addTo]⟩
    · rename_i t a op
      simp only [touches,op,Bool.and_eq_true,beq_iff_eq] at touch
      obtain ⟨rfl,rfl⟩ := touch
      simp only at moved
      split_ifs at moved <;> (cases moved; exact ⟨_,rfl,by simp [Achieved,op,State.setPc,mem_retainIn]⟩)
    · rename_i a op
      cases moved
      refine ⟨_,rfl,?_⟩
      simp only [Achieved,op,State.setPc,Pc.ahead,decide_eq_true_eq]
      exact key_of_member
  · rename_i t removed pc
    cases moved
    refine ⟨_,rfl,?_⟩
    cases op : call.op with
    | subscribe => simp [Achieved,op,pc,Pc.isReturned] at achieved
    | _ =>
      simp only [Achieved,op,pc,Pc.ahead] at achieved ⊢
      exact fun member => achieved (mem_erase member)
  · rename_i empty count pc
    cases moved
    refine ⟨_,rfl,?_⟩
    cases op : call.op with
    | subscribe => simp [Achieved,op,pc,Pc.isReturned] at achieved
    | _ => simpa [Achieved,op,pc,Pc.ahead,State.setPc] using achieved
  · cases moved
  · rename_i count pc
    cases moved
    refine ⟨_,rfl,?_⟩
    cases op : call.op with
    | subscribe => simp [Achieved,op,pc,Pc.isReturned] at achieved
    | _ => simpa [Achieved,op,pc,Pc.ahead,State.setPc] using achieved
  · rename_i t rest count pc
    cases moved
    refine ⟨_,rfl,?_⟩
    cases op : call.op with
    | subscribe => simp [Achieved,op,pc,Pc.isReturned] at achieved
    | _ =>
      simp only [Achieved,op,pc,Pc.ahead] at achieved ⊢
      exact fun member => achieved (mem_erase member)
  · cases moved

theorem achieved_visit {at_topic : Topic} (moved : callVisit s i call at_topic = some s')
    (touch : touches agent topic call.op = true) (achieved : Achieved agent topic s.subscriptions call) :
    ∃ pc, s'.calls = s.calls.set i { call with pc } ∧ Achieved agent topic s'.subscriptions { call with pc } := by
  unfold callVisit at moved
  split at moved
  · rename_i a todo empty count op pc
    simp only [touches,op,beq_iff_eq] at touch
    subst touch
    cases moved
    refine ⟨_,rfl,?_⟩
    simp only [Achieved,op,pc,State.setPc,Pc.ahead,decide_eq_true_eq] at achieved ⊢
    intro member
    obtain ⟨old,elsewhere⟩ := mem_retainIn.mp member
    refine List.mem_filter.mpr ⟨achieved old,?_⟩
    simpa using elsewhere
  · cases moved

/-- A step of the last call, or of a call that does not touch the topic for the agent. -/
theorem Last.setPc {op : Op} {c : Nat} (last : Last agent topic op c s) (found : s.calls[i]? = some call) {m : Subscriptions}
    {pc : Pc} (own : i = c → Achieved agent topic m { call with pc })
    (foreign : i ≠ c → (touches agent topic call.op = false ∧
      (agent ∈ subscribers m topic ↔ agent ∈ subscribers s.subscriptions topic))) :
    Last agent topic op c ⟨m,s.calls.set i { call with pc }⟩ := by
  have inside := (List.getElem?_eq_some_iff.mp found).1
  refine ⟨last.touch,fun j other elsewhere at_j touched => ?_,?_⟩
  · by_cases here : i = j
    · subst here
      simp only [List.getElem?_set_self inside,Option.some.injEq] at at_j
      subst at_j
      simp [(foreign elsewhere).1] at touched
    · simp only [List.getElem?_set_ne here] at at_j
      exact last.others j other elsewhere at_j touched
  · obtain ⟨mine,at_c,achieved⟩ := last.own
    by_cases here : i = c
    · subst here
      rw [found] at at_c
      cases at_c
      exact ⟨pc,List.getElem?_set_self inside,own rfl⟩
    · refine ⟨mine,(List.getElem?_set_ne here).trans at_c,?_⟩
      have same := (foreign here).2
      unfold Achieved at achieved ⊢
      cases op <;> simpa [same] using achieved

theorem last_step {op : Op} {c : Nat} (last : Last agent topic op c s) {label : Label} (careful : Careful s label = true)
    (silent : ∀ op, label = .invoke op → touches agent topic op = false) (moved : step s label = some s') :
    Last agent topic op c s' := by
  -- A call of the agent on the topic other than the last one has returned, and cannot step.
  have untouched : ∀ i call, i ≠ c → s.calls[i]? = some call → (callStep s i call ≠ none ∨ ∃ t, callVisit s i call t ≠ none) →
      touches agent topic call.op = false := by
    intro i call elsewhere found possible
    by_contra touched
    obtain ⟨stuck,unvisited⟩ := returned_stuck (s := s) (i := i)
      (last.others i call elsewhere found (by simpa using touched))
    rcases possible with possible | ⟨t,possible⟩
    · exact possible stuck
    · exact possible (unvisited t)
  cases label with
  | invoke other =>
    cases moved
    have foreign := silent _ rfl
    obtain ⟨mine,at_c,achieved⟩ := last.own
    have inside := (List.getElem?_eq_some_iff.mp at_c).1
    refine ⟨last.touch,fun i call elsewhere found touched => ?_,mine,(List.getElem?_append_left inside).trans at_c,achieved⟩
    by_cases old : i < s.calls.length
    · rw [List.getElem?_append_left old] at found
      exact last.others i call elsewhere found touched
    · have bound := (List.getElem?_eq_some_iff.mp found).1
      simp only [List.length_append,List.length_singleton] at bound
      have here : i = s.calls.length := by omega
      subst here
      simp only [List.getElem?_concat_length,Option.some.injEq] at found
      subst found
      simp [foreign] at touched
  | step i =>
    obtain ⟨call,found,moved⟩ := Option.bind_eq_some_iff.mp moved
    have deletes : ∀ t, call.pc.deletes = some t → (subscribers s.subscriptions t).isEmpty = true := by
      intro t pc
      simpa [Careful,found,pc] using careful
    by_cases here : i = c
    · obtain ⟨mine,at_c,achieved⟩ := last.own
      subst here
      rw [found] at at_c
      cases at_c
      obtain ⟨pc,calls,after⟩ := achieved_step moved last.touch achieved
      have same : s' = ⟨s'.subscriptions,s.calls.set i { op,pc }⟩ := by rw [← calls]
      rw [same]
      exact last.setPc found (fun _ => after) (fun elsewhere => absurd rfl elsewhere)
    · obtain ⟨pc,calls⟩ := callStep_calls moved
      have foreign := untouched i call here found (.inl (by simp [moved]))
      have same : s' = ⟨s'.subscriptions,s.calls.set i { call with pc }⟩ := by rw [← calls]
      rw [same]
      exact last.setPc found (fun same => absurd same here) (fun _ => ⟨foreign,callStep_foreign moved foreign deletes⟩)
  | visit i t =>
    obtain ⟨call,found,moved⟩ := Option.bind_eq_some_iff.mp moved
    by_cases here : i = c
    · obtain ⟨mine,at_c,achieved⟩ := last.own
      subst here
      rw [found] at at_c
      cases at_c
      obtain ⟨pc,calls,after⟩ := achieved_visit moved last.touch achieved
      have same : s' = ⟨s'.subscriptions,s.calls.set i { op,pc }⟩ := by rw [← calls]
      rw [same]
      exact last.setPc found (fun _ => after) (fun elsewhere => absurd rfl elsewhere)
    · obtain ⟨pc,calls⟩ := callVisit_calls moved
      have foreign := untouched i call here found (.inr ⟨t,by simp [moved]⟩)
      have same : s' = ⟨s'.subscriptions,s.calls.set i { call with pc }⟩ := by rw [← calls]
      rw [same]
      exact last.setPc found (fun same => absurd same here) (fun _ => ⟨foreign,callVisit_foreign moved foreign⟩)

theorem last_run {op : Op} {c : Nat} (last : Last agent topic op c s) {labels : List Label} (careful : CarefulRun s labels = true)
    (silent : ∀ op, .invoke op ∈ labels → touches agent topic op = false) (reached : run s labels = some s') :
    Last agent topic op c s' := by
  induction labels generalizing s with
  | nil =>
    cases reached
    exact last
  | cons label later ih =>
    obtain ⟨next,moved,rest⟩ := Option.bind_eq_some_iff.mp reached
    simp only [CarefulRun,moved,Bool.and_eq_true] at careful
    refine ih (last_step last careful.1 (fun op same => silent op (by simp [same])) moved) careful.2 (fun op member => ?_) rest
    exact silent op (List.mem_cons_of_mem label member)

theorem run_append (s : State) (first second : List Label) : run s (first ++ second) = (run s first).bind (run · second) := by
  simp [run,List.foldlM_append]

theorem careful_suffix {first second : List Label} (careful : CarefulRun s (first ++ second) = true)
    (reached : run s first = some s') : CarefulRun s' second = true := by
  induction first generalizing s with
  | nil =>
    cases reached
    exact careful
  | cons label later ih =>
    obtain ⟨next,moved,rest⟩ := Option.bind_eq_some_iff.mp reached
    simp only [List.cons_append,CarefulRun,moved,Bool.and_eq_true] at careful
    exact ih careful.2 rest

end

/-- In every interleaving whose deletions find the topic absent or empty, once all
    calls have returned, the last call of an agent on a topic decides: after
    `subscribe` it is subscribed, after `unsubscribe` or `unsubscribe_all` it is not.
    The last call starts after the other calls of the agent on the topic returned. -/
theorem last_call_decides (agent : AgentId) (topic : Topic) (op : Op) (before after : List Label) (s : State)
    (reached : run State.new (before ++ .invoke op :: after) = some s)
    (touch : touches agent topic op = true)
    (sequential : ∀ start, run State.new before = some start → Quiet agent topic start)
    (final : ∀ later, .invoke later ∈ after → touches agent topic later = false)
    (returned : ∀ call ∈ s.calls, call.pc.isReturned = true)
    (careful : CarefulRun State.new (before ++ .invoke op :: after) = true) :
    (op = .subscribe topic agent → agent ∈ subscribers s.subscriptions topic) ∧
    (op ≠ .subscribe topic agent → agent ∉ subscribers s.subscriptions topic) := by
  rw [run_append] at reached
  obtain ⟨start,reachedStart,rest⟩ := Option.bind_eq_some_iff.mp reached
  have suffix := careful_suffix careful reachedStart
  have first := last_invoke (sequential start reachedStart) touch
  obtain ⟨pc,at_call,achieved⟩ := (last_run first suffix final rest).own
  have ended := returned _ (List.mem_of_getElem? at_call)
  constructor
  · rintro rfl
    rcases achieved with rfl | ⟨_,member⟩
    · cases ended
    · exact member
  · intro other member
    cases op with
    | subscribe t a =>
      simp only [touches,Bool.and_eq_true,beq_iff_eq] at touch
      exact other (by rw [touch.1,touch.2])
    | _ =>
      have ahead := achieved member
      cases pc <;> simp_all [Pc.isReturned,Pc.ahead]

/-- One agent leaves a topic and another joins it. -/
def handover : List Label :=
  [.invoke (.subscribe "task.completed" ⟨1⟩),.step 0,.invoke (.unsubscribe "task.completed" ⟨1⟩),.step 1,.step 1]

theorem handover_keeps_subscription : ∃ s,
    run State.new (handover ++ [.invoke (.subscribe "task.completed" ⟨2⟩),.step 2]) = some s ∧
    ⟨2⟩ ∈ subscribers s.subscriptions "task.completed" := by
  refine ⟨_,rfl,(last_call_decides ⟨2⟩ "task.completed" (.subscribe "task.completed" ⟨2⟩) handover [.step 2] _ rfl rfl
    (fun start reached => ?_) (by simp) (by decide) (by decide)).1 rfl⟩
  cases reached
  unfold Quiet
  decide

/-- The second agent joins between the two steps of the first one: its subscription
    is deleted with the topic, though it is its only call and has returned. -/
theorem subscription_lost : ∃ s,
    run State.new [.invoke (.subscribe "task.completed" ⟨1⟩),.step 0,.invoke (.unsubscribe "task.completed" ⟨1⟩),.step 1,
      .invoke (.subscribe "task.completed" ⟨2⟩),.step 2,.step 1] = some s ∧
    (∀ call ∈ s.calls, call.pc.isReturned = true) ∧
    s.calls.filter (fun call => touches ⟨2⟩ "task.completed" call.op) = [⟨.subscribe "task.completed" ⟨2⟩,.returned 0⟩] ∧
    ⟨2⟩ ∉ subscribers s.subscriptions "task.completed" :=
  ⟨_,rfl,by decide,by decide,by decide⟩

end Daf.TopicRegistry
