import Daf.ChannelSafety

/-!
What the callers of the channel pool see: after a close no send through an old
handle succeeds, and the frames that were accepted before reach the holder of the
receiver, each once and in order.
-/
namespace Daf.ChannelDelivery
open Daf.WireProtocol Daf.ChannelPool Daf.ChannelSafety

/-! ### What a step does to the channels -/

/-- What a step can do to a channel. -/
structure Later (label : Label) (c : Nat) (before after : Channel) : Prop where
  id : after.id = before.id
  closed : before.closed = true → after.closed = true ∧ ∀ dir, (after.queue dir).accepted = (before.queue dir).accepted
  dropped : ∀ dir, (after.queue dir).receiver = .dropped → (before.queue dir).receiver = .dropped ∨ label = .dropReceiver c dir

theorem Later.refl (label : Label) (c : Nat) (ch : Channel) : Later label c ch ch :=
  ⟨rfl,fun closed => ⟨closed,fun _ => rfl⟩,fun _ dropped => .inl dropped⟩

/-- A step opens at most one channel or changes at most one. -/
def Changed (label : Label) (s s' : State) : Prop :=
  s'.channels = s.channels ∨ (∃ id, s'.channels = s.channels ++ [Channel.new id]) ∨
  ∃ c f, s'.channels = s.channels.modify c f ∧ ∀ ch, s.channels[c]? = some ch → Later label c ch (f ch)

section
variable {label : Label} {s s' : State}

theorem Changed.after (changed : Changed label s s') {c : Nat} {before : Channel} (found : s.channels[c]? = some before) :
    ∃ after, s'.channels[c]? = some after ∧ Later label c before after := by
  rcases changed with same | ⟨id,opened⟩ | ⟨d,f,modified,later⟩
  · exact ⟨before,by rw [same]; exact found,Later.refl label c before⟩
  · have inside := (List.getElem?_eq_some_iff.mp found).1
    exact ⟨before,by rw [opened,List.getElem?_append_left inside]; exact found,Later.refl label c before⟩
  · refine ⟨_,by rw [modified]; exact channel_still found,?_⟩
    split_ifs with here
    · subst here
      exact later before found
    · exact Later.refl label c before

theorem Changed.before (changed : Changed label s s') {c : Nat} {after : Channel} (found : s'.channels[c]? = some after) :
    (∃ before, s.channels[c]? = some before ∧ Later label c before after) ∨ ∃ id, after = Channel.new id := by
  by_cases inside : c < s.channels.length
  · obtain ⟨after',found',later⟩ := changed.after (List.getElem?_eq_getElem inside)
    rw [found] at found'
    cases found'
    exact .inl ⟨_,List.getElem?_eq_getElem inside,later⟩
  · have outside : s.channels[c]? = none := List.getElem?_eq_none (Nat.le_of_not_lt inside)
    rcases changed with same | ⟨id,opened⟩ | ⟨d,f,modified,_⟩
    · rw [same,outside] at found
      cases found
    · have bound := (List.getElem?_eq_some_iff.mp found).1
      simp only [opened,List.length_append,List.length_singleton] at bound
      have here : c = s.channels.length := by omega
      rw [opened,here,List.getElem?_concat_length] at found
      exact .inr ⟨id,(Option.some.inj found).symm⟩
    · rw [modified,List.getElem?_modify,outside] at found
      cases found

end

/-! ### What a step does to the calls -/

/-- The channel and the direction that a call sends to. -/
def target : Op → Option (Nat × Dir)
  | .send c _ => some (c,.outbound)
  | .send_frame c _ => some (c,.outbound)
  | .deliver c _ => some (c,.inbound)
  | _ => none

/-- The queue that a call waits for or has a permit of. -/
def aim : Pc → Option (Nat × Dir)
  | .cloned c dir _ => some (c,dir)
  | .reserved c dir _ => some (c,dir)
  | _ => none

/-- The operation that a section belongs to. -/
def operation : Section → Option Op
  | .free => none
  | .counting => some .open
  | .allocating => some .open
  | .registering _ => some .open
  | .publishing _ => some .open
  | .mapping _ => some .open
  | .opened _ => some .open
  | .closing channel_id => some (.close channel_id)
  | .cancelling channel_id _ => some (.close channel_id)
  | .takingOutbound channel_id _ => some (.close channel_id)
  | .takingInbound channel_id _ => some (.close channel_id)
  | .dropping channel_id => some (.close channel_id)
  | .unmapping channel_id => some (.close channel_id)
  | .closed channel_id => some (.close channel_id)

/-- What a step of a call does: it moves to another point of the call. -/
structure Moves (s s' : State) (i : Nat) (call : Call) (pc : Pc) : Prop where
  calls : s'.calls = s.calls.modify i (fun call => { call with pc })
  aimed : ∀ t, aim pc = some t → target call.op = some t ∨ aim call.pc = some t
  sent : pc = .returned .sent → ∃ c dir frame ch, call.pc = .reserved c dir frame ∧ s.channels[c]? = some ch ∧ ch.closed = false
  unit : pc = .returned .unit → ∃ id, s.lifecycle_lock = .closed id ∧ s.owner = i ∧ s'.channels = s.channels
  lock : operation s'.lifecycle_lock = none ∨ operation s'.lifecycle_lock = operation s.lifecycle_lock ∧ s'.owner = s.owner ∨
    operation s'.lifecycle_lock = some call.op ∧ s'.owner = i
  changed : Changed (.step i) s s'
  limit : s'.max_channels = s.max_channels

section
variable {blake3 : Hash} {s s' : State} {i : Nat} {call : Call}

/-- A step that only moves the call, apart from the maps. -/
theorem moves_setPc {t : State} {pc : Pc} (calls : t.calls = s.calls) (lock : t.lifecycle_lock = s.lifecycle_lock)
    (owner : t.owner = s.owner) (channels : t.channels = s.channels) (limit : t.max_channels = s.max_channels)
    (aimed : ∀ t, aim pc = some t → target call.op = some t ∨ aim call.pc = some t)
    (sent : pc ≠ .returned .sent) (unit : pc ≠ .returned .unit) : Moves s (t.setPc i pc) i call pc where
  calls := by
    show t.calls.modify i _ = _
    rw [calls]
  aimed := aimed
  sent same := absurd same sent
  unit same := absurd same unit
  lock := .inr (.inl ⟨congrArg operation lock,owner⟩)
  changed := .inl channels
  limit := limit

/-- A step inside the section that does not leave it. -/
theorem moves_inside (found : s.calls[i]? = some call) (inside : call.pc = .inside) (calls : s'.calls = s.calls)
    (lock : operation s'.lifecycle_lock = operation s.lifecycle_lock) (owner : s'.owner = s.owner)
    (limit : s'.max_channels = s.max_channels) (changed : Changed (.step i) s s') : Moves s s' i call .inside where
  calls := by
    rw [calls]
    apply List.ext_getElem?
    intro j
    rw [List.getElem?_modify]
    by_cases here : i = j
    · subst here
      simp [found,← inside]
    · simp [here]
  aimed _ aimed := by cases aimed
  sent same := by cases same
  unit same := by cases same
  lock := .inr (.inl ⟨lock,owner⟩)
  changed := changed
  limit := limit

/-- A step that leaves the section, other than by the end of a close. -/
theorem moves_leave {t : State} {result : Result} (calls : t.calls = s.calls) (channels : t.channels = s.channels)
    (limit : t.max_channels = s.max_channels) (sent : result ≠ .sent) (unit : result = .unit → ∃ id, s.lifecycle_lock = .closed id ∧ s.owner = i) :
    Moves s (t.leave i result) i call (.returned result) where
  calls := by
    show t.calls.modify i _ = _
    rw [calls]
  aimed _ aimed := by cases aimed
  sent same := absurd (Pc.returned.inj same) sent
  unit same := by
    obtain ⟨id,lock,owner⟩ := unit (Pc.returned.inj same)
    exact ⟨id,lock,owner,channels⟩
  lock := .inl rfl
  changed := .inl channels
  limit := limit

theorem moves_section (found : s.calls[i]? = some call) (inside : call.pc = .inside) (owner : s.owner = i)
    (moved : sectionStep s i s.lifecycle_lock = some s') : ∃ pc, Moves s s' i call pc := by
  cases sec : s.lifecycle_lock <;> rw [sec] at moved
  case free => cases moved
  case counting =>
    simp only [sectionStep] at moved
    split_ifs at moved <;> cases moved
    · exact ⟨_,moves_leave rfl rfl rfl (by simp) (by simp)⟩
    · exact ⟨_,moves_inside found inside rfl (by rw [sec]; rfl) rfl rfl (.inl rfl)⟩
  case allocating =>
    simp only [sectionStep] at moved
    split_ifs at moved <;> cases moved
    · exact ⟨_,moves_leave rfl rfl rfl (by simp) (by simp)⟩
    · exact ⟨_,moves_leave rfl rfl rfl (by simp) (by simp)⟩
    · exact ⟨_,moves_inside found inside rfl (by rw [sec]; rfl) rfl rfl (.inr (.inl ⟨_,rfl⟩))⟩
  case opened c =>
    cases moved
    exact ⟨_,moves_leave rfl rfl rfl (by simp) (by simp)⟩
  case closing id =>
    simp only [sectionStep] at moved
    split at moved <;> cases moved <;> exact ⟨_,moves_inside found inside rfl (by rw [sec]; rfl) rfl rfl (.inl rfl)⟩
  case cancelling id c =>
    cases moved
    refine ⟨_,moves_inside found inside rfl (by rw [sec]; rfl) rfl rfl (.inr (.inr ⟨c,_,rfl,fun ch _ => ⟨rfl,?_,?_⟩⟩))⟩
    · exact fun _ => ⟨rfl,fun dir => by cases dir <;> rfl⟩
    · exact fun dir dropped => .inl (by cases dir <;> exact dropped)
  case takingOutbound id c =>
    cases moved
    refine ⟨_,moves_inside found inside rfl (by rw [sec]; rfl) rfl rfl (.inr (.inr ⟨c,_,rfl,fun ch _ => ⟨rfl,?_,?_⟩⟩))⟩
    · exact fun closed => ⟨closed,fun dir => by cases dir <;> rfl⟩
    · exact fun dir dropped => .inl (by cases dir <;> exact dropped)
  case takingInbound id c =>
    cases moved
    refine ⟨_,moves_inside found inside rfl (by rw [sec]; rfl) rfl rfl (.inr (.inr ⟨c,_,rfl,fun ch _ => ⟨rfl,?_,?_⟩⟩))⟩
    · exact fun closed => ⟨closed,fun dir => by cases dir <;> rfl⟩
    · exact fun dir dropped => .inl (by cases dir <;> exact dropped)
  case dropping id =>
    simp only [sectionStep] at moved
    split at moved <;> cases moved
    · exact ⟨_,moves_inside found inside rfl (by rw [sec]; rfl) rfl rfl (.inl rfl)⟩
    · refine ⟨_,moves_inside found inside rfl (by rw [sec]; rfl) rfl rfl (.inr (.inr ⟨_,_,rfl,fun ch _ => ⟨rfl,?_,?_⟩⟩))⟩
      · exact fun closed => ⟨closed,fun dir => by cases dir <;> rfl⟩
      · intro dir dropped
        cases dir with
        | outbound => cases dropped
        | inbound => exact .inl dropped
  case closed id =>
    cases moved
    exact ⟨_,moves_leave rfl rfl rfl (by simp) (fun _ => ⟨id,sec,owner⟩)⟩
  all_goals
    cases moved
    exact ⟨_,moves_inside found inside rfl (by rw [sec]; rfl) rfl rfl (.inl rfl)⟩

theorem moves_cloneSender {c : Nat} {ch : Channel} {dir : Dir} {frame : Frame} (targets : target call.op = some (c,dir)) :
    ∃ pc, Moves s (cloneSender s i c ch dir frame) i call pc := by
  unfold cloneSender
  split_ifs
  · exact ⟨_,moves_setPc rfl rfl rfl rfl rfl (fun t same => .inl (targets.trans same)) (by simp) (by simp)⟩
  · exact ⟨_,moves_setPc rfl rfl rfl rfl rfl (by simp [aim]) (by simp) (by simp)⟩

theorem moves_enter {first : Section} (own : operation first = some call.op) : Moves s (s.enter i first) i call .inside where
  calls := rfl
  aimed _ aimed := by cases aimed
  sent same := by cases same
  unit same := by cases same
  lock := .inr (.inr ⟨own,rfl⟩)
  changed := .inl rfl
  limit := rfl

theorem moves_start {op : Op} (same : call.op = op) (moved : startStep blake3 s i op = some s') : ∃ pc, Moves s s' i call pc := by
  have plain : ∀ result, result ≠ .sent → result ≠ .unit → ∃ pc, Moves s (s.setPc i (.returned result)) i call pc :=
    fun result sent unit => ⟨_,moves_setPc rfl rfl rfl rfl rfl (by simp [aim]) (by simpa using sent) (by simpa using unit)⟩
  cases op with
  | «open» =>
    simp only [startStep] at moved
    split_ifs at moved
    cases moved
    exact ⟨_,moves_enter (by rw [same]; rfl)⟩
  | close id =>
    simp only [startStep] at moved
    split_ifs at moved
    cases moved
    exact ⟨_,moves_enter (by rw [same]; rfl)⟩
  | take_outbound_receiver id =>
    simp only [startStep] at moved
    split at moved <;> cases moved
    · exact plain _ (by simp) (by simp)
    · exact ⟨_,moves_setPc rfl rfl rfl rfl rfl (by simp [aim]) (by simp) (by simp)⟩
  | writer_for_stream stream =>
    simp only [startStep] at moved
    split at moved <;> cases moved
    · exact plain _ (by simp) (by simp)
    · exact ⟨_,moves_setPc rfl rfl rfl rfl rfl (by simp [aim]) (by simp) (by simp)⟩
  | send c payload =>
    simp only [startStep] at moved
    split at moved
    · cases moved
    · split_ifs at moved <;> cases moved
      · exact moves_cloneSender (by rw [same]; rfl)
      · exact plain _ (by simp) (by simp)
  | send_frame c frame =>
    simp only [startStep] at moved
    split at moved
    · cases moved
    · split_ifs at moved <;> cases moved
      · exact plain _ (by simp) (by simp)
      · exact moves_cloneSender (by rw [same]; rfl)
  | deliver c frame =>
    simp only [startStep] at moved
    split at moved <;> cases moved
    exact moves_cloneSender (by rw [same]; rfl)

/-- A frame is enqueued only in an open channel. -/
theorem moves_enqueue {c : Nat} {dir : Dir} {frame : Frame} (at_pc : call.pc = .reserved c dir frame)
    (moved : enqueueStep s i c dir frame = some s') : ∃ pc, Moves s s' i call pc := by
  simp only [enqueueStep] at moved
  split at moved
  · cases moved
  · rename_i ch at_c
    split_ifs at moved with refused <;> cases moved
    · exact ⟨_,moves_setPc rfl rfl rfl rfl rfl (by simp [aim]) (by simp) (by simp)⟩
    · have open_ : ch.closed = false := by
        simp only [not_or,Bool.not_eq_true] at refused
        exact refused.2
      refine ⟨.returned .sent,rfl,by simp [aim],fun _ => ⟨c,dir,frame,ch,at_pc,at_c,open_⟩,by simp,
        .inr (.inl ⟨rfl,rfl⟩),.inr (.inr ⟨c,_,rfl,fun before found => ?_⟩),rfl⟩
      rw [at_c] at found
      cases found
      refine ⟨by cases dir <;> rfl,fun closed => ?_,fun other dropped => .inl ?_⟩
      · rw [open_] at closed
        cases closed
      · cases dir <;> cases other <;> exact dropped

theorem moves_call (found : s.calls[i]? = some call) (moved : callStep blake3 s i call = some s') :
    ∃ pc, Moves s s' i call pc := by
  unfold callStep at moved
  split at moved
  · exact moves_start rfl moved
  · split_ifs at moved with owner
    exact moves_section found ‹_› owner moved
  · cases moved
    exact ⟨_,moves_setPc rfl rfl rfl rfl rfl (by simp [aim]) (by simp) (by simp)⟩
  · rename_i c dir frame at_pc
    simp only [reserveStep] at moved
    split at moved
    · cases moved
    · split_ifs at moved <;> cases moved
      · exact ⟨_,moves_setPc rfl rfl rfl rfl rfl (by simp [aim]) (by simp) (by simp)⟩
      · exact ⟨_,moves_setPc rfl rfl rfl rfl rfl (fun t same => .inr (by rw [at_pc]; exact same)) (by simp) (by simp)⟩
  · exact moves_enqueue ‹_› moved
  · cases moved

end

/-! ### Calls and sections -/

/-- A call waits only for the queue that it sends to. -/
def Aimed (s : State) : Prop := ∀ (i : Nat) call, s.calls[i]? = some call → ∀ t, aim call.pc = some t → target call.op = some t

/-- The section belongs to the call that holds the lock. -/
def Owned (s : State) : Prop :=
  ∀ op, operation s.lifecycle_lock = some op → ∃ call, s.calls[s.owner]? = some call ∧ call.op = op

section
variable {blake3 : Hash} {s s' : State} {i : Nat} {call : Call} {pc : Pc}

/-- The calls after a step of one of them. -/
theorem Moves.before (moves : Moves s s' i call pc) (found : s.calls[i]? = some call) {j : Nat} {after : Call}
    (at_j : s'.calls[j]? = some after) : s.calls[j]? = some after ∨ j = i ∧ after = { call with pc } := by
  rw [moves.calls,List.getElem?_modify] at at_j
  by_cases here : i = j
  · subst here
    rw [found] at at_j
    simp only [if_true,Option.map_eq_map,Option.map_some,Option.some.injEq] at at_j
    exact .inr ⟨rfl,at_j.symm⟩
  · exact .inl (by simpa [here] using at_j)

theorem Moves.after (moves : Moves s s' i call pc) {j : Nat} {before : Call} (at_j : s.calls[j]? = some before) :
    ∃ after, s'.calls[j]? = some after ∧ after.op = before.op := by
  rw [moves.calls,List.getElem?_modify,at_j]
  by_cases here : i = j <;> simp [here]

theorem Moves.keep_aimed (moves : Moves s s' i call pc) (found : s.calls[i]? = some call) (aimed : Aimed s) : Aimed s' := by
  intro j after at_j t same
  rcases moves.before found at_j with old | ⟨_,rfl⟩
  · exact aimed j after old t same
  · rcases moves.aimed t same with direct | before
    · exact direct
    · exact aimed i call found t before

theorem Moves.keep_owned (moves : Moves s s' i call pc) (found : s.calls[i]? = some call) (owned : Owned s) : Owned s' := by
  intro op belongs
  rcases moves.lock with free | ⟨same,owner⟩ | ⟨entered,owner⟩
  · rw [free] at belongs
    cases belongs
  · rw [same] at belongs
    obtain ⟨holder,at_owner,rfl⟩ := owned op belongs
    rw [owner]
    exact moves.after at_owner
  · rw [entered] at belongs
    cases belongs
    rw [owner]
    exact moves.after found

/-- What a step other than one of a call leaves as it is. -/
structure Outside (label : Label) (s s' : State) : Prop where
  calls : ∀ (j : Nat) call, s.calls[j]? = some call → ∃ call', s'.calls[j]? = some call' ∧ call'.op = call.op
  fresh : ∀ (j : Nat) call, s'.calls[j]? = some call → s.calls[j]? = some call ∨ call.pc = .start ∨ call.pc = .returned .abandoned
  lock : s'.lifecycle_lock = s.lifecycle_lock
  owner : s'.owner = s.owner
  changed : Changed label s s'
  limit : s'.max_channels = s.max_channels

theorem Outside.same {label : Label} (calls : s'.calls = s.calls) (lock : s'.lifecycle_lock = s.lifecycle_lock)
    (owner : s'.owner = s.owner) (limit : s'.max_channels = s.max_channels) (changed : Changed label s s') :
    Outside label s s' where
  calls j call found := ⟨call,by rw [calls]; exact found,rfl⟩
  fresh j call found := .inl (by rw [← calls]; exact found)
  lock := lock
  owner := owner
  changed := changed
  limit := limit

theorem pop_accepted (q : Queue) : q.pop.accepted = q.accepted := by
  unfold Queue.pop
  split <;> rfl

theorem dropReceiver_accepted (q : Queue) : q.dropReceiver.accepted = q.accepted := by
  unfold Queue.dropReceiver
  split_ifs <;> rfl

/-- Every step is a step of a call or happens outside of the calls. -/
theorem step_cases {label : Label} (moved : step blake3 s label = some s') :
    (∃ i call pc, label = .step i ∧ s.calls[i]? = some call ∧ Moves s s' i call pc) ∨ Outside label s s' := by
  cases label with
  | invoke op =>
    cases moved
    refine .inr ⟨fun j call found => ⟨call,?_,rfl⟩,fun j call found => ?_,rfl,rfl,.inl rfl,rfl⟩
    · show (s.calls ++ _)[j]? = _
      rw [List.getElem?_append_left (List.getElem?_eq_some_iff.mp found).1]
      exact found
    · rw [show ({ s with calls := s.calls ++ [⟨op,.start⟩] } : State).calls = s.calls ++ [⟨op,.start⟩] from rfl,
        List.getElem?_append] at found
      split_ifs at found
      · exact .inl found
      · have new := List.mem_singleton.mp (List.mem_of_getElem? found)
        exact .inr (.inl (by rw [new]))
  | step i =>
    obtain ⟨call,found,moved⟩ := Option.bind_eq_some_iff.mp moved
    obtain ⟨pc,moves⟩ := moves_call found moved
    exact .inl ⟨i,call,pc,rfl,found,moves⟩
  | abandon i =>
    obtain ⟨call,found,moved⟩ := Option.bind_eq_some_iff.mp moved
    split at moved <;> cases moved
    have moves : Moves s (s.setPc i (.returned .abandoned)) i call (.returned .abandoned) :=
      moves_setPc rfl rfl rfl rfl rfl (by simp [aim]) (by simp) (by simp)
    refine .inr ⟨fun j call found => moves.after found,fun j after at_j => ?_,rfl,rfl,.inl rfl,rfl⟩
    rcases moves.before found at_j with old | ⟨_,rfl⟩
    · exact .inl old
    · exact .inr (.inr rfl)
  | recv c dir =>
    simp only [step] at moved
    split at moved
    · cases moved
    · split_ifs at moved
      cases moved
      refine .inr (Outside.same rfl rfl rfl rfl (.inr (.inr ⟨c,_,rfl,fun ch _ => ?_⟩)))
      refine ⟨by cases dir <;> rfl,fun closed => ⟨by cases dir <;> exact closed,fun other => ?_⟩,fun other dropped => .inl ?_⟩
      · cases dir <;> cases other <;> first | rfl | exact pop_accepted _
      · cases dir <;> cases other <;> first | exact dropped | exact (pop_receiver _).symm.trans dropped
  | dropReceiver c dir =>
    simp only [step] at moved
    split at moved
    · cases moved
    · split_ifs at moved
      cases moved
      refine .inr (Outside.same rfl rfl rfl rfl (.inr (.inr ⟨c,_,rfl,fun ch _ => ?_⟩)))
      refine ⟨by cases dir <;> rfl,fun closed => ⟨by cases dir <;> exact closed,fun other => ?_⟩,fun other dropped => ?_⟩
      · cases dir <;> cases other <;> first | rfl | exact dropReceiver_accepted _
      · cases dir <;> cases other <;> first | exact .inr rfl | exact .inl dropped
  | setState c state =>
    cases moved
    refine .inr (Outside.same rfl rfl rfl rfl (.inr (.inr ⟨c,_,rfl,fun ch _ => ?_⟩)))
    exact ⟨rfl,fun closed => ⟨closed,fun other => by cases other <;> rfl⟩,fun other dropped => .inl (by cases other <;> exact dropped)⟩

theorem step_changed {label : Label} (moved : step blake3 s label = some s') : Changed label s s' := by
  rcases step_cases moved with ⟨i,call,pc,rfl,_,moves⟩ | outside
  · exact moves.changed
  · exact outside.changed

theorem aimed_step {label : Label} (aimed : Aimed s) (moved : step blake3 s label = some s') : Aimed s' := by
  rcases step_cases moved with ⟨i,call,pc,rfl,found,moves⟩ | outside
  · exact moves.keep_aimed found aimed
  · intro j call at_j t same
    rcases outside.fresh j call at_j with old | start | gone
    · exact aimed j call old t same
    · simp [start,aim] at same
    · simp [gone,aim] at same

theorem owned_step {label : Label} (owned : Owned s) (moved : step blake3 s label = some s') : Owned s' := by
  rcases step_cases moved with ⟨i,call,pc,rfl,found,moves⟩ | outside
  · exact moves.keep_owned found owned
  · intro op belongs
    rw [outside.lock] at belongs
    obtain ⟨holder,at_owner,rfl⟩ := owned op belongs
    rw [outside.owner]
    exact outside.calls s.owner holder at_owner

theorem limit_step {label : Label} (moved : step blake3 s label = some s') : s'.max_channels = s.max_channels := by
  rcases step_cases moved with ⟨i,call,pc,rfl,_,moves⟩ | outside
  · exact moves.limit
  · exact outside.limit

/-- What is known of every state of a run. -/
structure Known (max_channels : Nat) (s : State) : Prop where
  inv : Inv s
  aimed : Aimed s
  owned : Owned s
  limit : s.max_channels = max_channels

theorem known_init (channel_buffer_size max_channels : Nat) : Known max_channels (with_limits channel_buffer_size max_channels) where
  inv := inv_init channel_buffer_size max_channels
  aimed j call found := by simp [with_limits] at found
  owned op belongs := by cases belongs
  limit := rfl

theorem known_run {max_channels : Nat} (known : Known max_channels s) {labels : List Label}
    (reached : run blake3 s labels = some s') : Known max_channels s' := by
  induction labels generalizing s with
  | nil =>
    cases reached
    exact known
  | cons label later ih =>
    obtain ⟨next,moved,rest⟩ := Option.bind_eq_some_iff.mp reached
    exact ih ⟨inv_step known.inv moved,aimed_step known.aimed moved,owned_step known.owned moved,
      (limit_step moved).trans known.limit⟩ rest

/-! ### Closed channels -/

/-- A closed channel stays closed, and no call that sends to it succeeds. -/
structure Silent (c : Nat) (ch : Channel) (s s' : State) : Prop where
  channel : ∃ ch', s'.channels[c]? = some ch' ∧ ch'.closed = true ∧ ∀ dir, (ch'.queue dir).accepted = (ch.queue dir).accepted
  calls : ∀ (j : Nat) call dir, s'.calls[j]? = some call → target call.op = some (c,dir) → call.pc = .returned .sent →
    s.calls[j]? = some call

theorem silent_step {label : Label} (aimed : Aimed s) {c : Nat} {ch : Channel} (found : s.channels[c]? = some ch)
    (closed : ch.closed = true) (moved : step blake3 s label = some s') : Silent c ch s s' where
  channel := by
    obtain ⟨ch',found',later⟩ := (step_changed moved).after found
    exact ⟨ch',found',later.closed closed⟩
  calls j after dir at_j targets sent := by
    rcases step_cases moved with ⟨i,call,pc,rfl,at_i,moves⟩ | outside
    · rcases moves.before at_i at_j with old | ⟨_,rfl⟩
      · exact old
      · obtain ⟨c',dir',frame,ch',at_pc,found',unclosed⟩ := moves.sent sent
        have same := aimed i call at_i (c',dir') (by rw [at_pc]; rfl)
        cases targets.symm.trans same
        cases found.symm.trans found'
        rw [closed] at unclosed
        cases unclosed
    · rcases outside.fresh j after at_j with old | start | gone
      · exact old
      · rw [start] at sent
        cases sent
      · rw [gone] at sent
        cases sent

theorem silent_run {labels : List Label} (aimed : Aimed s) {c : Nat} {ch : Channel} (found : s.channels[c]? = some ch)
    (closed : ch.closed = true) (reached : run blake3 s labels = some s') : Silent c ch s s' := by
  induction labels generalizing s ch with
  | nil =>
    cases reached
    exact ⟨⟨ch,found,closed,fun _ => rfl⟩,fun _ _ _ at_j _ _ => at_j⟩
  | cons label later ih =>
    obtain ⟨next,moved,rest⟩ := Option.bind_eq_some_iff.mp reached
    have first := silent_step aimed found closed moved
    obtain ⟨ch',found',closed',accepted⟩ := first.channel
    have second := ih (aimed_step aimed moved) found' closed' rest
    obtain ⟨last,at_last,closedLast,acceptedLast⟩ := second.channel
    refine ⟨⟨last,at_last,closedLast,fun dir => (acceptedLast dir).trans (accepted dir)⟩,fun j call dir at_j targets sent => ?_⟩
    exact first.calls j call dir (second.calls j call dir at_j targets sent) targets sent

/-- The step by which a close returns leaves every channel with its id closed. -/
theorem close_returns {max_channels id : Nat} (known : Known max_channels s) (moved : step blake3 s (.step i) = some s')
    (returned : s'.calls[i]? = some ⟨.close id,.returned .unit⟩) : AllClosed s' id := by
  obtain ⟨call,found,stepped⟩ := Option.bind_eq_some_iff.mp moved
  obtain ⟨pc,moves⟩ := moves_call found stepped
  rcases moves.before found returned with old | ⟨_,same⟩
  · -- A call that has returned does not step.
    rw [old] at found
    cases found
    cases stepped
  · have unit : pc = .returned .unit := (congrArg Call.pc same).symm
    have op : call.op = .close id := (congrArg Call.op same).symm
    obtain ⟨id',lock,owner,channels⟩ := moves.unit unit
    obtain ⟨holder,at_owner,ownOp⟩ := known.owned (.close id') (by rw [lock]; rfl)
    rw [owner,found] at at_owner
    cases at_owner
    rw [op] at ownOp
    cases ownOp
    have closed := known.inv.section_ok
    rw [lock] at closed
    intro c ch at_c
    rw [channels] at at_c
    exact closed c ch at_c

/-! ### Delivery -/

theorem dropped_run {labels : List Label} {P : Nat → Dir → Prop}
    (before : ∀ (c : Nat) ch dir, s.channels[c]? = some ch → (ch.queue dir).receiver = .dropped → P c dir)
    (reached : run blake3 s labels = some s') {c : Nat} {ch : Channel} {dir : Dir} (found : s'.channels[c]? = some ch)
    (dropped : (ch.queue dir).receiver = .dropped) : P c dir ∨ .dropReceiver c dir ∈ labels := by
  induction labels generalizing s P with
  | nil =>
    cases reached
    exact .inl (before c ch dir found dropped)
  | cons label later ih =>
    obtain ⟨next,moved,rest⟩ := Option.bind_eq_some_iff.mp reached
    have start : ∀ (d : Nat) dh dir, next.channels[d]? = some dh → (dh.queue dir).receiver = .dropped →
        P d dir ∨ label = .dropReceiver d dir := by
      intro d dh dir at_d gone
      rcases (step_changed moved).before at_d with ⟨old,at_old,later⟩ | ⟨id,rfl⟩
      · rcases later.dropped dir gone with already | now
        · exact .inl (before d old dir at_old already)
        · exact .inr now
      · cases dir <;> cases gone
    rcases ih start rest with (already | now) | afterwards
    · exact .inl already
    · exact .inr (by rw [now]; exact List.mem_cons_self)
    · exact .inr (List.mem_cons_of_mem _ afterwards)

theorem queue_onQueue (ch : Channel) (dir : Dir) (f : Queue → Queue) : (ch.onQueue dir f).queue dir = f (ch.queue dir) := by
  cases dir <;> rfl

/-- The holder of a receiver can take the frames out of the queue. -/
theorem drain {n c : Nat} {ch : Channel} {dir : Dir} (held : holds s c dir) (found : s.channels[c]? = some ch)
    (live : (ch.queue dir).receiver = .live) (size : (ch.queue dir).buffer.length = n) :
    ∃ t ch', run blake3 s (List.replicate n (.recv c dir)) = some t ∧ t.channels[c]? = some ch' ∧
      (ch'.queue dir).received = (ch.queue dir).received ++ (ch.queue dir).buffer := by
  induction n generalizing s ch with
  | zero =>
    refine ⟨s,ch,rfl,found,?_⟩
    rw [List.eq_nil_of_length_eq_zero size,List.append_nil]
  | succ n ih =>
    obtain ⟨frame,rest,buffer⟩ := List.exists_cons_of_length_eq_add_one size
    have moved : step blake3 s (.recv c dir) = some (s.onChannel c (·.onQueue dir (·.pop))) := by
      simp only [step,found]
      exact if_pos ⟨held,live,by simp [buffer]⟩
    have popped : (ch.queue dir).pop.buffer = rest ∧ (ch.queue dir).pop.received = (ch.queue dir).received ++ [frame] := by
      simp [Queue.pop,buffer]
    have found' : (s.onChannel c (·.onQueue dir (·.pop))).channels[c]? = some (ch.onQueue dir (·.pop)) :=
      (channel_still found).trans (by rw [if_pos rfl])
    have held' : holds (s.onChannel c (·.onQueue dir (·.pop))) c dir := by
      cases dir <;> exact held
    obtain ⟨t,last,reached,at_last,received⟩ := ih held' found' (by rw [queue_onQueue,pop_receiver]; exact live) (by
      rw [queue_onQueue,popped.1]
      simpa [buffer] using size)
    refine ⟨t,last,?_,at_last,?_⟩
    · rw [List.replicate_succ]
      exact Option.bind_eq_some_iff.mpr ⟨_,moved,reached⟩
    · rw [received,queue_onQueue,popped.1,popped.2,buffer,List.append_assoc]
      rfl

/-- A receiver that somebody holds and did not drop is live. -/
theorem held_live {max_channels : Nat} (known : Known max_channels s) {c : Nat} {ch : Channel} {dir : Dir}
    (held : holds s c dir) (found : s.channels[c]? = some ch) (dropped : (ch.queue dir).receiver ≠ .dropped) :
    (ch.queue dir).receiver = .live := by
  cases state : (ch.queue dir).receiver with
  | live => rfl
  | dropped => exact absurd state dropped
  | discarded =>
    cases dir with
    | inbound => exact absurd state (known.inv.kept c ch found)
    | outbound => exact absurd held (known.inv.discarded c ch found state).1

end

/-- The maps of the writers and of the streams know the same channels. -/
def SameChannels (s : State) : Prop :=
  ∀ id, (∃ c, s.inbound_writers.lookup id = some c) ↔ ∃ stream, s.stream_to_channel.lookup stream = some id

/-- The frames that were accepted for a queue are those that its receiver has taken
    and those that it can still take, in order. -/
def Delivers (blake3 : Hash) (s : State) (c : Nat) (dir : Dir) (q : Queue) : Prop :=
  q.accepted = q.received ++ q.buffer ∧
  ∃ t ch, run blake3 s (List.replicate q.buffer.length (.recv c dir)) = some t ∧ t.channels[c]? = some ch ∧
    (ch.queue dir).received = q.accepted

/-- In every state of every interleaving: ids that are handed out are not 0 and never
    handed out again, the limit is kept, no receiver is claimed twice, the maps agree
    when no call is in its section, after a close no send to the channel succeeds any
    more, and what was accepted is delivered to a holder that keeps its receiver. -/
theorem pool_safe (blake3 : Hash) (channel_buffer_size max_channels : Nat) (labels : List Label) (s : State)
    (reached : run blake3 (with_limits channel_buffer_size max_channels) labels = some s) :
    (s.handed.Nodup ∧ 0 ∉ s.handed) ∧ active_count s ≤ max_channels ∧ s.claimed.Nodup ∧
    (s.lifecycle_lock = .free → SameChannels s) ∧
    (∀ i id t later u, step blake3 s (.step i) = some t → t.calls[i]? = some ⟨.close id,.returned .unit⟩ →
      run blake3 t later = some u → ∀ (c : Nat) ch, t.channels[c]? = some ch → ch.id = id → Silent c ch t u) ∧
    (∀ (c : Nat) ch dir, s.channels[c]? = some ch → holds s c dir → .dropReceiver c dir ∉ labels →
      Delivers blake3 s c dir (ch.queue dir)) := by
  have known := known_run (known_init channel_buffer_size max_channels) reached
  refine ⟨⟨known.inv.handed.1,fun zero => ?_⟩,?_,known.inv.claimed.1,fun free id => ?_,?_,?_⟩
  · exact absurd (known.inv.handed.2 0 zero).1 (lt_irrefl 0)
  · rw [← known.limit]
    exact known.inv.limit
  · rw [known.inv.synced id (by rw [free]; exact fun moving => moving)]
    refine ⟨fun mapped => ⟨id,mapped⟩,fun ⟨stream,mapped⟩ => ?_⟩
    rw [known.inv.streams stream id mapped] at mapped
    exact mapped
  · intro i id t later u moved returned rest c ch found same
    have aimed := aimed_step known.aimed moved
    exact silent_run aimed found (close_returns known moved returned c ch found same) rest
  · intro c ch dir found held kept
    have dropped : (ch.queue dir).receiver ≠ .dropped := by
      intro gone
      have never := dropped_run (P := fun _ _ => False) (fun c ch dir found => by simp [with_limits] at found) reached found gone
      exact never.elim id kept
    have live := held_live known held found dropped
    have all : (ch.queue dir).accepted = (ch.queue dir).received ++ (ch.queue dir).buffer := by
      cases dir with
      | outbound => exact (known.inv.queues c ch found).1 live
      | inbound => exact (known.inv.queues c ch found).2 live
    refine ⟨all,?_⟩
    rw [all]
    exact drain held found live rfl

/-- A channel is opened, its receiver claimed, a frame sent, and the close is about to return. -/
def shipment : List Label :=
  [Label.invoke .open] ++ List.replicate 7 (Label.step 0) ++ ([.invoke (.take_outbound_receiver 1),.step 1,.setState 0 .Open] : List Label) ++
  ([.invoke (.send 0 [7]),.step 2,.step 2,.step 2] : List Label) ++ [Label.invoke (.close 1)] ++ List.replicate 7 (Label.step 3)

theorem shipment_safe : ∃ s t u,
    run (fun _ _ => 0) (with_limits 1 1) shipment = some s ∧ step (fun _ _ => 0) s (.step 3) = some t ∧
    run (fun _ _ => 0) t [.invoke (.send 0 [8]),.step 4] = some u ∧
    (∃ ch, s.channels[0]? = some ch ∧ ch.outbound.accepted = [Frame.data (fun _ _ => 0) 1 [7]] ∧
      Delivers (fun _ _ => 0) s 0 .outbound ch.outbound) ∧
    (∃ ch, t.channels[0]? = some ch ∧ Silent 0 ch t u) := by
  have safe := pool_safe (fun _ _ => 0) 1 1 shipment _ rfl
  obtain ⟨_,_,_,_,silent,delivers⟩ := safe
  refine ⟨_,_,_,rfl,rfl,rfl,⟨_,rfl,rfl,?_⟩,⟨_,rfl,?_⟩⟩
  · exact delivers 0 _ .outbound rfl (show 0 ∈ [0] by decide) (by simp [shipment])
  · exact silent 3 1 _ [.invoke (.send 0 [8]),.step 4] _ rfl rfl rfl 0 _ rfl rfl

end Daf.ChannelDelivery
