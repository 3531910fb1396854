import Daf.ChannelPool

/-!
Safety of the channel pool in every interleaving: the invariant `Inv` holds in
every state that a run reaches, and a closed channel accepts nothing any more.
-/
namespace Daf.ChannelSafety
open Daf.WireProtocol Daf.ChannelPool

/-! ### Maps and channels -/

theorem lookup_retain (m : Index) (keep : Nat → Nat → Bool) (k v : Nat) :
    (retain m keep).lookup k = some v ↔ m.lookup k = some v ∧ keep k v = true := by
  have before := AList.mem_lookup_iff (a := k) (b := v) (s := m)
  have after := AList.mem_lookup_iff (a := k) (b := v) (s := retain m keep)
  simp only [Option.mem_def] at before after
  rw [after,before]
  exact List.mem_filter

theorem lookup_erase_iff (m : Index) (k k' v : Nat) : (m.erase k).lookup k' = some v ↔ m.lookup k' = some v ∧ k' ≠ k := by
  by_cases same : k' = k
  · subst same
    simp
  · simp [same,AList.lookup_erase_ne]

theorem lookup_insert_iff (m : Index) (k v k' v' : Nat) :
    (m.insert k v).lookup k' = some v' ↔ k' = k ∧ v' = v ∨ k' ≠ k ∧ m.lookup k' = some v' := by
  by_cases same : k' = k
  · subst same
    simp [eq_comm]
  · simp [same,AList.lookup_insert_ne]

theorem erase_size_le (m : Index) (k : Nat) : (m.erase k).entries.length ≤ m.entries.length := by
  have sub : (m.erase k).keys.length ≤ m.keys.length := by
    rw [AList.keys_erase]
    exact List.length_erase_le
  simpa [AList.keys,List.keys] using sub

theorem insert_size_le (m : Index) (k v : Nat) : (m.insert k v).entries.length ≤ m.entries.length + 1 := by
  have sub : (m.insert k v).keys.length ≤ m.keys.length + 1 := by
    rw [AList.keys_insert,List.length_cons]
    exact Nat.succ_le_succ List.length_erase_le
  simpa [AList.keys,List.keys] using sub

/-- The channels after a change of one of them. -/
theorem channel_modified {channels : List Channel} {c d : Nat} {f : Channel → Channel} {after : Channel}
    (found : (channels.modify c f)[d]? = some after) :
    ∃ before, channels[d]? = some before ∧ after = if d = c then f before else before := by
  rw [List.getElem?_modify] at found
  obtain ⟨before,at_d,rfl⟩ := Option.map_eq_some_iff.mp found
  refine ⟨before,at_d,?_⟩
  by_cases same : c = d
  · simp [same]
  · simp [same,Ne.symm same]

theorem channel_still {channels : List Channel} {c d : Nat} {f : Channel → Channel} {before : Channel}
    (found : channels[d]? = some before) : (channels.modify c f)[d]? = some (if d = c then f before else before) := by
  rw [List.getElem?_modify,found]
  by_cases same : c = d
  · simp [same]
  · simp [same,Ne.symm same]

theorem ids_modified {channels : List Channel} {c : Nat} {f : Channel → Channel} (keeps : ∀ ch, (f ch).id = ch.id) :
    (channels.modify c f).map (·.id) = channels.map (·.id) := by
  apply List.ext_getElem?
  intro d
  rw [List.getElem?_map,List.getElem?_map,List.getElem?_modify]
  cases channels[d]? with
  | none => rfl
  | some ch => by_cases same : c = d <;> simp [same,keeps]

/-! ### The invariant -/

/-- The frames that were accepted are those received and those still queued, in
    order, unless the receiver is gone. -/
def QueueOk (q : Queue) : Prop := q.receiver = .live → q.accepted = q.received ++ q.buffer

/-- The section is about this channel id, and the two maps may differ on it. -/
def unsettled (channels : List Channel) : Section → Nat → Prop
  | .mapping c,id => ∃ ch, channels[c]? = some ch ∧ ch.id = id
  | .cancelling channel_id _,id => channel_id = id
  | .takingOutbound channel_id _,id => channel_id = id
  | .takingInbound channel_id _,id => channel_id = id
  | .dropping channel_id,id => channel_id = id
  | .unmapping channel_id,id => channel_id = id
  | _,_ => False

/-- The channel is in the making, or a close has removed it from the pool and is
    about to cancel it. -/
def unpublished : Section → Nat → Prop
  | .registering c,d => c = d
  | .publishing c,d => c = d
  | .cancelling _ c,d => c = d
  | _,_ => False

/-- The channel exists under an id that was not handed out. -/
def New (s : State) (c : Nat) : Prop := ∃ ch, s.channels[c]? = some ch ∧ ch.id ∉ s.handed

/-- The outbound receiver of a channel is neither in the pool nor claimed. -/
def Apart (s : State) (c : Nat) : Prop := c ∉ s.claimed ∧ ∀ id, s.outbound_receivers.lookup id ≠ some c

/-- Every channel with an id is closed. -/
def AllClosed (s : State) (id : Nat) : Prop := ∀ (c : Nat) ch, s.channels[c]? = some ch → ch.id = id → ch.closed = true

/-- The channel is closed and out of the map of the writers. -/
def Withdrawn (s : State) (id : Nat) : Prop := AllClosed s id ∧ s.inbound_writers.lookup id = none

/-- What holds at each point of the section under the lifecycle lock. -/
def SectionOk (s : State) : Section → Prop
  | .allocating => active_count s < s.max_channels
  | .registering c => active_count s < s.max_channels ∧ New s c ∧ Apart s c ∧
    ∃ ch, s.channels[c]? = some ch ∧ ch.outbound.receiver ≠ .discarded
  | .publishing c => active_count s < s.max_channels ∧ New s c
  | .mapping c => New s c ∧ ∃ ch, s.channels[c]? = some ch ∧ s.inbound_writers.lookup ch.id = some c
  | .opened c => New s c
  | .cancelling channel_id c => (∃ ch, s.channels[c]? = some ch ∧ ch.id = channel_id) ∧ s.inbound_writers.lookup channel_id = none
  | .takingOutbound channel_id _ => Withdrawn s channel_id
  | .takingInbound channel_id _ => Withdrawn s channel_id
  | .dropping channel_id => Withdrawn s channel_id
  | .unmapping channel_id => Withdrawn s channel_id
  | .closed channel_id => AllClosed s channel_id
  | _ => True

structure Inv (s : State) : Prop where
  next : 0 < s.next_channel_id
  ids : ∀ (c : Nat) ch, s.channels[c]? = some ch → 0 < ch.id ∧ ch.id < s.next_channel_id
  distinct : (s.channels.map (·.id)).Nodup
  writers : ∀ id c, s.inbound_writers.lookup id = some c → ∃ ch, s.channels[c]? = some ch ∧ ch.id = id
  receivers : ∀ id c, s.outbound_receivers.lookup id = some c → ∃ ch, s.channels[c]? = some ch ∧ ch.id = id
  streams : ∀ stream id, s.stream_to_channel.lookup stream = some id → stream = id
  synced : ∀ id, ¬ unsettled s.channels s.lifecycle_lock id →
    ((∃ c, s.inbound_writers.lookup id = some c) ↔ s.stream_to_channel.lookup id = some id)
  limit : active_count s ≤ s.max_channels
  live : ∀ (c : Nat) ch, s.channels[c]? = some ch → ch.closed = true ∨ s.inbound_writers.lookup ch.id = some c ∨
    unpublished s.lifecycle_lock c
  section_ok : SectionOk s s.lifecycle_lock
  queues : ∀ (c : Nat) ch, s.channels[c]? = some ch → QueueOk ch.outbound ∧ QueueOk ch.inbound
  discarded : ∀ (c : Nat) ch, s.channels[c]? = some ch → ch.outbound.receiver = .discarded → Apart s c
  kept : ∀ (c : Nat) ch, s.channels[c]? = some ch → ch.inbound.receiver ≠ .discarded
  handed : s.handed.Nodup ∧ ∀ id ∈ s.handed, 0 < id ∧ id < s.next_channel_id
  claimed : s.claimed.Nodup ∧ ∀ c ∈ s.claimed, c < s.channels.length ∧ ∀ id, s.outbound_receivers.lookup id ≠ some c

theorem inv_init (channel_buffer_size max_channels : Nat) : Inv (with_limits channel_buffer_size max_channels) where
  next := Nat.one_pos
  ids c ch found := by simp [with_limits] at found
  distinct := List.nodup_nil
  writers id c found := by simp [with_limits] at found
  receivers id c found := by simp [with_limits] at found
  streams stream id found := by simp [with_limits] at found
  synced id _ := by simp [with_limits]
  limit := Nat.zero_le _
  live c ch found := by simp [with_limits] at found
  section_ok := trivial
  queues c ch found := by simp [with_limits] at found
  discarded c ch found := by simp [with_limits] at found
  kept c ch found := by simp [with_limits] at found
  handed := ⟨List.nodup_nil,fun _ member => absurd member List.not_mem_nil⟩
  claimed := ⟨List.nodup_nil,fun _ member => absurd member List.not_mem_nil⟩

section
variable {s : State}

/-- Two channels with the same id are the same. -/
theorem Inv.same_channel (inv : Inv s) {c d : Nat} {ch dh : Channel} (at_c : s.channels[c]? = some ch)
    (at_d : s.channels[d]? = some dh) (same : ch.id = dh.id) : c = d := by
  have low := (List.getElem?_eq_some_iff.mp at_c).1
  have high := (List.getElem?_eq_some_iff.mp at_d).1
  have injective := List.nodup_iff_injective_get.mp inv.distinct
  have equal := @injective ⟨c,by simpa using low⟩ ⟨d,by simpa using high⟩ (by
    have first := (List.getElem?_eq_some_iff.mp at_c).2
    have second := (List.getElem?_eq_some_iff.mp at_d).2
    simp [first,second,same])
  exact congrArg Fin.val equal

theorem Inv.setPc (inv : Inv s) (i : Nat) (pc : Pc) : Inv (s.setPc i pc) := { inv with }

/-! ### Changes of one channel -/

/-- A change of a channel that keeps its id, does not open it again, and keeps
    what is known about its queues. -/
structure Mild (f : Channel → Channel) : Prop where
  id : ∀ ch, (f ch).id = ch.id
  closed : ∀ ch, ch.closed = true → (f ch).closed = true
  outbound : ∀ ch, QueueOk ch.outbound → QueueOk (f ch).outbound
  inbound : ∀ ch, QueueOk ch.inbound → QueueOk (f ch).inbound
  kept : ∀ ch, ch.inbound.receiver ≠ .discarded → (f ch).inbound.receiver ≠ .discarded

section
variable {f : Channel → Channel} (mild : Mild f) {c : Nat}
include mild

theorem Mild.modified {d : Nat} {after : Channel} (found : (s.onChannel c f).channels[d]? = some after) :
    ∃ before, s.channels[d]? = some before ∧ after.id = before.id ∧ (before.closed = true → after.closed = true) ∧
      (after = before ∨ d = c ∧ after = f before) := by
  obtain ⟨before,at_d,rfl⟩ := channel_modified found
  refine ⟨before,at_d,?_⟩
  by_cases here : d = c
  · rw [if_pos here]
    exact ⟨mild.id before,mild.closed before,.inr ⟨here,rfl⟩⟩
  · rw [if_neg here]
    exact ⟨rfl,fun closed => closed,.inl rfl⟩

theorem Mild.still {d : Nat} {before : Channel} (found : s.channels[d]? = some before) :
    ∃ after, (s.onChannel c f).channels[d]? = some after ∧ after.id = before.id := by
  refine ⟨_,channel_still found,?_⟩
  split_ifs
  · exact mild.id before
  · rfl

theorem Mild.new {d : Nat} (new : New s d) : New (s.onChannel c f) d := by
  obtain ⟨ch,found,fresh⟩ := new
  obtain ⟨after,found,same⟩ := mild.still found
  exact ⟨after,found,by rw [same]; exact fresh⟩

theorem Mild.allClosed {id : Nat} (all : AllClosed s id) : AllClosed (s.onChannel c f) id := by
  intro d ch found same
  obtain ⟨before,at_d,sameId,closed,_⟩ := mild.modified found
  exact closed (all d before at_d (sameId.symm.trans same))

theorem Mild.unsettled {id : Nat} {sec : Section} : unsettled (s.onChannel c f).channels sec id ↔ unsettled s.channels sec id := by
  cases sec with
  | mapping d =>
    constructor
    · rintro ⟨ch,found,same⟩
      obtain ⟨before,at_d,sameId,_⟩ := mild.modified found
      exact ⟨before,at_d,sameId.symm.trans same⟩
    · rintro ⟨ch,found,same⟩
      obtain ⟨after,found,sameId⟩ := mild.still found
      exact ⟨after,found,sameId.trans same⟩
  | _ => exact Iff.rfl

/-- A mild change keeps the invariant, if a receiver that it discards is nowhere. -/
theorem Inv.onChannel (inv : Inv s) (discards : ∀ ch, s.channels[c]? = some ch → (f ch).outbound.receiver = .discarded →
    ch.outbound.receiver = .discarded ∨ Apart s c ∧ ¬ unpublished s.lifecycle_lock c) : Inv (s.onChannel c f) where
  next := inv.next
  ids d ch found := by
    obtain ⟨before,at_d,same,_⟩ := mild.modified found
    rw [same]
    exact inv.ids d before at_d
  distinct := by
    rw [State.onChannel,ids_modified mild.id]
    exact inv.distinct
  writers id d found := by
    obtain ⟨ch,at_d,same⟩ := inv.writers id d found
    obtain ⟨after,at_after,sameId⟩ := mild.still at_d
    exact ⟨after,at_after,sameId.trans same⟩
  receivers id d found := by
    obtain ⟨ch,at_d,same⟩ := inv.receivers id d found
    obtain ⟨after,at_after,sameId⟩ := mild.still at_d
    exact ⟨after,at_after,sameId.trans same⟩
  streams := inv.streams
  synced id settled := inv.synced id (fun moving => settled (mild.unsettled.mpr moving))
  limit := inv.limit
  live d ch found := by
    obtain ⟨before,at_d,same,closed,_⟩ := mild.modified found
    rw [same]
    rcases inv.live d before at_d with before | known | making
    · exact .inl (closed before)
    · exact .inr (.inl known)
    · exact .inr (.inr making)
  section_ok := by
    have before := inv.section_ok
    show SectionOk (s.onChannel c f) s.lifecycle_lock
    cases sec : s.lifecycle_lock <;> rw [sec] at before
    case free => trivial
    case counting => trivial
    case allocating => exact before
    case registering d =>
      obtain ⟨room,new,apart,ch,found,present⟩ := before
      refine ⟨room,mild.new new,apart,_,channel_still found,?_⟩
      split_ifs with here
      · subst here
        intro gone
        rcases discards ch found gone with before | ⟨_,published⟩
        · exact present before
        · exact published (by rw [sec]; rfl)
      · exact present
    case publishing d => exact ⟨before.1,mild.new before.2⟩
    case mapping d =>
      obtain ⟨new,ch,found,known⟩ := before
      obtain ⟨after,at_after,same⟩ := mild.still found
      exact ⟨mild.new new,after,at_after,by rw [same]; exact known⟩
    case opened d => exact mild.new before
    case closing id => trivial
    case cancelling id d =>
      obtain ⟨⟨ch,found,same⟩,absent⟩ := before
      obtain ⟨after,at_after,sameId⟩ := mild.still found
      exact ⟨⟨after,at_after,sameId.trans same⟩,absent⟩
    case closed id => exact mild.allClosed before
    all_goals exact ⟨mild.allClosed before.1,before.2⟩
  queues d ch found := by
    obtain ⟨before,at_d,_,_,same | ⟨_,changed⟩⟩ := mild.modified found
    · rw [same]
      exact inv.queues d before at_d
    · rw [changed]
      obtain ⟨outbound,inbound⟩ := inv.queues d before at_d
      exact ⟨mild.outbound before outbound,mild.inbound before inbound⟩
  discarded d ch found gone := by
    obtain ⟨before,at_d,_,_,same | ⟨rfl,changed⟩⟩ := mild.modified found
    · rw [same] at gone
      exact inv.discarded d before at_d gone
    · rw [changed] at gone
      rcases discards before at_d gone with before' | ⟨apart,_⟩
      · exact inv.discarded d before at_d before'
      · exact apart
  kept d ch found := by
    obtain ⟨before,at_d,_,_,same | ⟨_,changed⟩⟩ := mild.modified found
    · rw [same]
      exact inv.kept d before at_d
    · rw [changed]
      exact mild.kept before (inv.kept d before at_d)
  handed := inv.handed
  claimed := by
    refine ⟨inv.claimed.1,fun d member => ?_⟩
    simpa [State.onChannel] using inv.claimed.2 d member

end

/-- A change of one queue that keeps what is known about it. -/
theorem Mild.onQueue (dir : Dir) {f : Queue → Queue} (ok : ∀ q, QueueOk q → QueueOk (f q))
    (kept : dir = .inbound → ∀ q, q.receiver ≠ .discarded → (f q).receiver ≠ .discarded) : Mild (·.onQueue dir f) := by
  cases dir with
  | outbound => exact ⟨fun _ => rfl,fun _ closed => closed,fun ch before => ok _ before,fun _ before => before,fun _ before => before⟩
  | inbound => exact ⟨fun _ => rfl,fun _ closed => closed,fun _ before => before,fun ch before => ok _ before,fun ch => kept rfl _⟩

theorem push_mild (dir : Dir) (frame : Frame) : Mild (·.onQueue dir (·.push frame)) := by
  refine Mild.onQueue dir (fun q ok there => ?_) (fun _ _ before => before)
  simp only [Queue.push] at there ⊢
  rw [ok there,List.append_assoc]

theorem pop_receiver (q : Queue) : q.pop.receiver = q.receiver := by
  unfold Queue.pop
  split <;> rfl

theorem pop_mild (dir : Dir) : Mild (·.onQueue dir (·.pop)) := by
  refine Mild.onQueue dir (fun q ok there => ?_) (fun _ q before => by rw [pop_receiver]; exact before)
  rw [pop_receiver] at there
  have all := ok there
  unfold Queue.pop
  split
  · exact all
  · rename_i frame rest full
    simpa [full] using all

theorem takeSender_mild (dir : Dir) : Mild (·.onQueue dir (·.takeSender)) :=
  Mild.onQueue dir (fun _ ok there => ok there) (fun _ _ before => before)

theorem discard_mild : Mild (·.onQueue .outbound (·.discard)) :=
  Mild.onQueue .outbound (fun _ _ there => by cases there) (fun wrong => by cases wrong)

theorem dropReceiver_discarded {q : Queue} (gone : q.dropReceiver.receiver = .discarded) : q.receiver = .discarded := by
  unfold Queue.dropReceiver at gone
  split_ifs at gone
  exact gone

theorem dropReceiver_mild (dir : Dir) : Mild (·.onQueue dir (·.dropReceiver)) := by
  refine Mild.onQueue dir (fun q ok there => ?_) (fun _ q before gone => before (dropReceiver_discarded gone))
  unfold Queue.dropReceiver at there ⊢
  split_ifs at there ⊢
  exact ok there

theorem setState_mild (state : ChannelState) : Mild (fun ch => { ch with state }) :=
  ⟨fun _ => rfl,fun _ closed => closed,fun _ before => before,fun _ before => before,fun _ before => before⟩

theorem cancel_mild : Mild (fun ch => { ch with closed := true }) :=
  ⟨fun _ => rfl,fun _ _ => rfl,fun _ before => before,fun _ before => before,fun _ before => before⟩

/-! ### Changes of the maps -/

theorem idOf_eq {c : Nat} {ch : Channel} (found : s.channels[c]? = some ch) : idOf s c = ch.id := by simp [idOf,found]

/-- The pool gives up the outbound receiver of a channel. -/
theorem Inv.unregister (inv : Inv s) (id : Nat) : Inv { s with outbound_receivers := s.outbound_receivers.erase id } := by
  have apart : ∀ c, Apart s c → Apart { s with outbound_receivers := s.outbound_receivers.erase id } c := by
    intro c before
    exact ⟨before.1,fun other found => before.2 other ((lookup_erase_iff _ _ _ _).mp found).1⟩
  exact { inv with
    receivers := fun other c found => inv.receivers other c ((lookup_erase_iff _ _ _ _).mp found).1
    discarded := fun c ch found gone => apart c (inv.discarded c ch found gone)
    claimed := ⟨inv.claimed.1,fun c member => ⟨(inv.claimed.2 c member).1,fun other found =>
      (inv.claimed.2 c member).2 other ((lookup_erase_iff _ _ _ _).mp found).1⟩⟩
    section_ok := by
      have before := inv.section_ok
      show SectionOk { s with outbound_receivers := s.outbound_receivers.erase id } s.lifecycle_lock
      cases sec : s.lifecycle_lock <;> rw [sec] at before
      case registering c => exact ⟨before.1,before.2.1,apart c before.2.2.1,before.2.2.2⟩
      all_goals exact before }

/-- A receiver that the pool gave up is apart. -/
theorem Inv.unregistered (inv : Inv s) {id c : Nat} (found : s.outbound_receivers.lookup id = some c) :
    Apart { s with outbound_receivers := s.outbound_receivers.erase id } c := by
  refine ⟨fun member => (inv.claimed.2 c member).2 id found,fun other still => ?_⟩
  obtain ⟨there,different⟩ := (lookup_erase_iff _ _ _ _).mp still
  obtain ⟨ch,at_c,same⟩ := inv.receivers id c found
  obtain ⟨dh,at_d,sameOther⟩ := inv.receivers other c there
  rw [at_c] at at_d
  cases at_d
  exact different (sameOther.symm.trans same)

/-- A caller gets the outbound receiver of a channel. -/
theorem Inv.claim (inv : Inv s) {c : Nat} {ch : Channel} (at_c : s.channels[c]? = some ch)
    (present : ch.outbound.receiver ≠ .discarded) (registered : ∀ d, s.lifecycle_lock = .registering d → d ≠ c)
    (apart : Apart s c) : Inv { s with claimed := s.claimed ++ [c] } := by
  have other : ∀ d, d ≠ c → Apart s d → Apart { s with claimed := s.claimed ++ [c] } d := by
    intro d different before
    refine ⟨?_,before.2⟩
    simp only [List.mem_append,List.mem_singleton]
    rintro (member | same)
    · exact before.1 member
    · exact different same
  exact { inv with
    discarded := fun d dh found gone => by
      refine other d ?_ (inv.discarded d dh found gone)
      rintro rfl
      rw [at_c] at found
      cases found
      exact present gone
    claimed := by
      refine ⟨List.nodup_append.mpr ⟨inv.claimed.1,List.nodup_singleton c,?_⟩,fun d member => ?_⟩
      · rintro d member e single rfl
        exact apart.1 (List.mem_singleton.mp single ▸ member)
      · rcases List.mem_append.mp member with old | new
        · exact inv.claimed.2 d old
        · rw [List.mem_singleton.mp new]
          exact ⟨(List.getElem?_eq_some_iff.mp at_c).1,apart.2⟩
    section_ok := by
      have before := inv.section_ok
      show SectionOk { s with claimed := s.claimed ++ [c] } s.lifecycle_lock
      cases sec : s.lifecycle_lock <;> rw [sec] at before
      case registering d => exact ⟨before.1,before.2.1,other d (registered d sec) before.2.2.1,before.2.2.2⟩
      all_goals exact before }

theorem Inv.take (inv : Inv s) {id c : Nat} (found : s.outbound_receivers.lookup id = some c) :
    Inv { s with outbound_receivers := s.outbound_receivers.erase id, claimed := s.claimed ++ [c] } := by
  obtain ⟨ch,at_c,_⟩ := inv.receivers id c found
  refine Inv.claim (inv.unregister id) at_c (fun gone => ?_) (fun d sec same => ?_) (inv.unregistered found)
  · exact (inv.discarded c ch at_c gone).2 id found
  · subst same
    have before := inv.section_ok
    rw [show s.lifecycle_lock = .registering d from sec] at before
    exact before.2.2.1.2 id found

/-! ### The section under the lifecycle lock -/

/-- Go on inside the section: what was in motion is settled, or still in motion. -/
theorem Inv.goTo (inv : Inv s) {next : Section}
    (synced : ∀ id, unsettled s.channels s.lifecycle_lock id → unsettled s.channels next id ∨
      ((∃ c, s.inbound_writers.lookup id = some c) ↔ s.stream_to_channel.lookup id = some id))
    (live : ∀ (c : Nat) ch, s.channels[c]? = some ch → unpublished s.lifecycle_lock c →
      ch.closed = true ∨ s.inbound_writers.lookup ch.id = some c ∨ unpublished next c)
    (ok : SectionOk s next) : Inv (s.goTo next) :=
  { inv with
    synced := fun id settled => by
      by_cases moving : unsettled s.channels s.lifecycle_lock id
      · rcases synced id moving with still | same
        · exact absurd still settled
        · exact same
      · exact inv.synced id moving
    live := fun c ch found => by
      rcases inv.live c ch found with closed | known | making
      · exact .inl closed
      · exact .inr (.inl known)
      · exact live c ch found making
    section_ok := by
      cases next <;> exact ok }

theorem Inv.leave (inv : Inv s) (settled : ∀ id, ¬ unsettled s.channels s.lifecycle_lock id)
    (published : ∀ c, ¬ unpublished s.lifecycle_lock c) (i : Nat) (result : Result) : Inv (s.leave i result) := by
  have left : Inv (s.goTo .free) := by
    refine inv.goTo (fun id moving => ?_) (fun c _ _ making => ?_) trivial
    · exact absurd moving (settled id)
    · exact absurd making (published c)
  exact left.setPc i _

theorem Inv.enter (inv : Inv s) (free : s.lifecycle_lock = .free) (i : Nat) {first : Section} (ok : SectionOk s first) :
    Inv (s.enter i first) := by
  have entered : Inv (s.goTo first) := by
    refine inv.goTo (fun id moving => ?_) (fun c _ _ making => ?_) ok
    · rw [free] at moving
      exact moving.elim
    · rw [free] at making
      exact making.elim
  exact { entered with }

theorem Inv.create (inv : Inv s) (sec : s.lifecycle_lock = .allocating) :
    Inv ({ s with channels := s.channels ++ [Channel.new s.next_channel_id],
                  next_channel_id := s.next_channel_id + 1 }.goTo (.registering s.channels.length)) := by
  have older : ∀ {c : Nat} {ch}, s.channels[c]? = some ch → (s.channels ++ [Channel.new s.next_channel_id])[c]? = some ch :=
    fun {c ch} found => by rw [List.getElem?_append_left (List.getElem?_eq_some_iff.mp found).1]; exact found
  have split : ∀ {c : Nat} {ch}, (s.channels ++ [Channel.new s.next_channel_id])[c]? = some ch →
      s.channels[c]? = some ch ∨ c = s.channels.length ∧ ch = Channel.new s.next_channel_id := by
    intro c ch found
    rw [List.getElem?_append] at found
    split_ifs at found with old
    · exact .inl found
    · rw [List.getElem?_singleton] at found
      split_ifs at found with first
      · exact .inr ⟨by omega,(Option.some.inj found).symm⟩
  have newest : (s.channels ++ [Channel.new s.next_channel_id])[s.channels.length]? = some (Channel.new s.next_channel_id) :=
    List.getElem?_concat_length
  have apart : Apart s s.channels.length := by
    refine ⟨fun member => absurd (inv.claimed.2 _ member).1 (lt_irrefl _),fun id found => ?_⟩
    obtain ⟨ch,at_c,_⟩ := inv.receivers id _ found
    simp at at_c
  have room := inv.section_ok
  rw [sec] at room
  refine {
    next := Nat.succ_pos _
    ids := fun c ch found => ?ids
    distinct := ?distinct
    writers := fun id c found => ?writers
    receivers := fun id c found => ?receivers
    streams := inv.streams
    synced := fun id _ => inv.synced id (by rw [sec]; exact fun moving => moving)
    limit := inv.limit
    live := fun c ch found => ?live
    section_ok := ⟨room,⟨_,newest,fun member => absurd (inv.handed.2 _ member).2 (lt_irrefl _)⟩,apart,_,newest,by simp [Channel.new,Queue.new]⟩
    queues := fun c ch found => ?queues
    discarded := fun c ch found gone => ?discarded
    kept := fun c ch found => ?kept
    handed := ⟨inv.handed.1,fun id member => ⟨(inv.handed.2 id member).1,Nat.lt_succ_of_lt (inv.handed.2 id member).2⟩⟩
    claimed := ⟨inv.claimed.1,fun c member => ⟨?claimed,(inv.claimed.2 c member).2⟩⟩ }
  case ids =>
    rcases split found with old | ⟨_,rfl⟩
    · exact ⟨(inv.ids c ch old).1,Nat.lt_succ_of_lt (inv.ids c ch old).2⟩
    · exact ⟨inv.next,Nat.lt_succ_self _⟩
  case distinct =>
    show ((s.channels ++ [Channel.new s.next_channel_id]).map (·.id)).Nodup
    rw [List.map_append,List.nodup_append]
    refine ⟨inv.distinct,List.nodup_singleton _,fun id old other new same => ?_⟩
    obtain ⟨ch,member,rfl⟩ := List.mem_map.mp old
    obtain ⟨c,inside,rfl⟩ := List.mem_iff_getElem.mp member
    have low := (inv.ids c _ (List.getElem?_eq_getElem inside)).2
    rw [same,List.mem_singleton.mp new] at low
    exact absurd low (lt_irrefl _)
  case writers =>
    obtain ⟨ch,at_c,same⟩ := inv.writers id c found
    exact ⟨ch,older at_c,same⟩
  case receivers =>
    obtain ⟨ch,at_c,same⟩ := inv.receivers id c found
    exact ⟨ch,older at_c,same⟩
  case live =>
    rcases split found with old | ⟨rfl,rfl⟩
    · have before := inv.live c ch old
      rw [sec] at before
      rcases before with closed | known | making
      · exact .inl closed
      · exact .inr (.inl known)
      · exact making.elim
    · exact .inr (.inr rfl)
  case queues =>
    rcases split found with old | ⟨_,rfl⟩
    · exact inv.queues c ch old
    · exact ⟨fun _ => rfl,fun _ => rfl⟩
  case discarded =>
    rcases split found with old | ⟨_,rfl⟩
    · exact inv.discarded c ch old gone
    · cases gone
  case kept =>
    rcases split found with old | ⟨_,rfl⟩
    · exact inv.kept c ch old
    · simp [Channel.new,Queue.new]
  case claimed =>
    have low := (inv.claimed.2 c member).1
    simp only [State.goTo,List.length_append,List.length_singleton]
    omega

theorem Inv.register {c : Nat} (inv : Inv s) (sec : s.lifecycle_lock = .registering c) :
    Inv ({ s with outbound_receivers := s.outbound_receivers.insert (idOf s c) c }.goTo (.publishing c)) := by
  have before := inv.section_ok
  rw [sec] at before
  obtain ⟨room,new,apart,ch,at_c,present⟩ := before
  rw [idOf_eq at_c]
  have elsewhere : ∀ d, d ≠ c → (∀ id, s.outbound_receivers.lookup id ≠ some d) →
      ∀ id, (s.outbound_receivers.insert ch.id c).lookup id ≠ some d := by
    intro d different absent id found
    rcases (lookup_insert_iff _ _ _ _ _).mp found with ⟨_,same⟩ | ⟨_,old⟩
    · exact different same
    · exact absent id old
  exact { inv with
    receivers := fun id d found => by
      rcases (lookup_insert_iff _ _ _ _ _).mp found with ⟨rfl,rfl⟩ | ⟨_,old⟩
      · exact ⟨ch,at_c,rfl⟩
      · exact inv.receivers id d old
    synced := fun id _ => inv.synced id (by rw [sec]; exact fun moving => moving)
    live := fun d dh found => by
      have before := inv.live d dh found
      rw [sec] at before
      exact before
    section_ok := ⟨room,new⟩
    discarded := fun d dh found gone => by
      obtain ⟨free,absent⟩ := inv.discarded d dh found gone
      refine ⟨free,elsewhere d ?_ absent⟩
      rintro rfl
      cases at_c.symm.trans found
      exact present gone
    claimed := ⟨inv.claimed.1,fun d member => ⟨(inv.claimed.2 d member).1,
      elsewhere d (fun same => apart.1 (same ▸ member)) (inv.claimed.2 d member).2⟩⟩ }

theorem Inv.publish {c : Nat} (inv : Inv s) (sec : s.lifecycle_lock = .publishing c) :
    Inv ({ s with inbound_writers := s.inbound_writers.insert (idOf s c) c }.goTo (.mapping c)) := by
  have before := inv.section_ok
  rw [sec] at before
  obtain ⟨room,new⟩ := before
  obtain ⟨ch,at_c,_⟩ := id new
  rw [idOf_eq at_c]
  exact { inv with
    writers := fun id d found => by
      rcases (lookup_insert_iff _ _ _ _ _).mp found with ⟨rfl,rfl⟩ | ⟨_,old⟩
      · exact ⟨ch,at_c,rfl⟩
      · exact inv.writers id d old
    synced := fun id settled => by
      have different : id ≠ ch.id := fun same => settled ⟨ch,at_c,same.symm⟩
      have before := inv.synced id (by rw [sec]; exact fun moving => moving)
      simpa [State.goTo,AList.lookup_insert_ne different] using before
    limit := (insert_size_le _ _ _).trans room
    live := fun d dh found => by
      have before := inv.live d dh found
      rw [sec] at before
      rcases before with closed | known | rfl
      · exact .inl closed
      · refine .inr (.inl ((lookup_insert_iff _ _ _ _ _).mpr ?_))
        by_cases same : dh.id = ch.id
        · exact .inl ⟨same,inv.same_channel found at_c same⟩
        · exact .inr ⟨same,known⟩
      · cases at_c.symm.trans found
        exact .inr (.inl (AList.lookup_insert _))
    section_ok := ⟨new,ch,at_c,AList.lookup_insert _⟩ }

theorem Inv.map {c : Nat} (inv : Inv s) (sec : s.lifecycle_lock = .mapping c) :
    Inv ({ s with stream_to_channel := s.stream_to_channel.insert (idOf s c) (idOf s c) }.goTo (.opened c)) := by
  have before := inv.section_ok
  rw [sec] at before
  obtain ⟨new,ch,at_c,known⟩ := before
  rw [idOf_eq at_c]
  exact { inv with
    streams := fun stream id found => by
      rcases (lookup_insert_iff _ _ _ _ _).mp found with ⟨rfl,rfl⟩ | ⟨_,old⟩
      · rfl
      · exact inv.streams stream id old
    synced := fun id _ => by
      show (∃ d, s.inbound_writers.lookup id = some d) ↔ (s.stream_to_channel.insert ch.id ch.id).lookup id = some id
      by_cases same : id = ch.id
      · subst same
        simp [known]
      · rw [AList.lookup_insert_ne same]
        refine inv.synced id ?_
        rw [sec]
        rintro ⟨dh,at_d,sameId⟩
        rw [at_c] at at_d
        cases at_d
        exact same sameId.symm
    live := fun d dh found => by
      have before := inv.live d dh found
      rw [sec] at before
      exact before
    section_ok := new }

theorem Inv.hand {c : Nat} (inv : Inv s) (sec : s.lifecycle_lock = .opened c) (i : Nat) :
    Inv ({ s with handed := s.handed ++ [idOf s c] }.leave i (.channel c)) := by
  have new := inv.section_ok
  rw [sec] at new
  obtain ⟨ch,at_c,fresh⟩ := new
  rw [idOf_eq at_c]
  have left : Inv ({ s with handed := s.handed ++ [ch.id] }.goTo .free) := { inv with
    synced := fun id _ => inv.synced id (by rw [sec]; exact fun moving => moving)
    live := fun d dh found => by
      have before := inv.live d dh found
      rw [sec] at before
      exact before
    section_ok := trivial
    handed := by
      refine ⟨List.nodup_append.mpr ⟨inv.handed.1,List.nodup_singleton _,?_⟩,fun id member => ?_⟩
      · rintro id old other single rfl
        exact fresh (List.mem_singleton.mp single ▸ old)
      · rcases List.mem_append.mp member with old | new
        · exact inv.handed.2 id old
        · rw [List.mem_singleton.mp new]
          exact inv.ids c ch at_c }
  exact left.setPc i _

/-- A close that does not find its channel among the writers has nothing to do. -/
theorem Inv.nothing_to_close {id : Nat} (inv : Inv s) (sec : s.lifecycle_lock = .closing id)
    (absent : s.inbound_writers.lookup id = none) : Inv (s.goTo (.closed id)) := by
  refine inv.goTo (fun other moving => ?_) (fun c ch found making => ?_) (fun c ch found same => ?_)
  · rw [sec] at moving
    exact moving.elim
  · rw [sec] at making
    exact making.elim
  · have before := inv.live c ch found
    rw [sec,same,absent] at before
    rcases before with closed | known | making
    · exact closed
    · cases known
    · exact making.elim

theorem Inv.withdraw {id c : Nat} (inv : Inv s) (sec : s.lifecycle_lock = .closing id)
    (known : s.inbound_writers.lookup id = some c) :
    Inv ({ s with inbound_writers := s.inbound_writers.erase id }.goTo (.cancelling id c)) :=
  { inv with
    writers := fun other d found => inv.writers other d ((lookup_erase_iff _ _ _ _).mp found).1
    synced := fun other settled => by
      have different : other ≠ id := fun same => settled same.symm
      have before := inv.synced other (by rw [sec]; exact fun moving => moving)
      simpa [State.goTo,AList.lookup_erase_ne different] using before
    limit := (erase_size_le _ _).trans inv.limit
    live := fun d dh found => by
      have before := inv.live d dh found
      rw [sec] at before
      rcases before with closed | there | making
      · exact .inl closed
      · by_cases same : dh.id = id
        · rw [same,known] at there
          exact .inr (.inr (Option.some.inj there))
        · exact .inr (.inl ((lookup_erase_iff _ _ _ _).mpr ⟨there,same⟩))
      · exact making.elim
    section_ok := ⟨inv.writers id c known,AList.lookup_erase _ _⟩ }

theorem Inv.cancel {id c : Nat} (inv : Inv s) (sec : s.lifecycle_lock = .cancelling id c) :
    Inv ((s.onChannel c (fun ch => { ch with closed := true })).goTo (.takingOutbound id c)) := by
  have before := inv.section_ok
  rw [sec] at before
  obtain ⟨⟨ch,at_c,same⟩,absent⟩ := before
  have changed := Inv.onChannel cancel_mild inv (c := c) (fun _ _ gone => .inl gone)
  refine changed.goTo (fun other moving => .inl ?_) (fun d dh found making => .inl ?_) ⟨fun d dh found sameId => ?_,absent⟩
  · rw [show (s.onChannel c _).lifecycle_lock = .cancelling id c from sec] at moving
    exact moving
  · rw [show (s.onChannel c _).lifecycle_lock = .cancelling id c from sec] at making
    obtain ⟨before,_,rfl⟩ := channel_modified found
    rw [if_pos making.symm]
  · obtain ⟨before,at_d,rfl⟩ := channel_modified found
    by_cases here : d = c
    · rw [if_pos here]
    · rw [if_neg here] at sameId
      exact absurd (inv.same_channel at_d at_c (sameId.trans same.symm)) here

/-- The steps of a close that change nothing but a queue of the channel. -/
theorem Inv.silence {c : Nat} {now next : Section} (inv : Inv s) (sec : s.lifecycle_lock = now) (dir : Dir)
    (moving : ∀ other, unsettled s.channels now other → unsettled s.channels next other)
    (published : ∀ d, ¬ unpublished now d) (same : ∀ t, SectionOk t now → SectionOk t next) :
    Inv ((s.onChannel c (·.onQueue dir (·.takeSender))).goTo next) := by
  have mild := takeSender_mild dir
  have changed := Inv.onChannel mild inv (c := c) (fun ch _ gone => .inl (by cases dir <;> exact gone))
  have still : (s.onChannel c (·.onQueue dir (·.takeSender))).lifecycle_lock = now := sec
  refine changed.goTo (fun other before => .inl ?_) (fun d _ _ making => ?_) (same _ ?_)
  · rw [still] at before
    exact mild.unsettled.mpr (moving other (mild.unsettled.mp before))
  · rw [still] at making
    exact absurd making (published d)
  · rw [← still]
    exact changed.section_ok

theorem Inv.drop {id : Nat} (inv : Inv s) (sec : s.lifecycle_lock = .dropping id) {c : Nat}
    (found : s.outbound_receivers.lookup id = some c) :
    Inv (({ s with outbound_receivers := s.outbound_receivers.erase id }.onChannel c (·.onQueue .outbound (·.discard))).goTo
      (.unmapping id)) := by
  have changed := Inv.onChannel discard_mild (inv.unregister id) (c := c) (fun ch _ _ => .inr ⟨inv.unregistered found,by
    rw [show ({ s with outbound_receivers := _ } : State).lifecycle_lock = .dropping id from sec]
    exact fun making => making⟩)
  have ok := changed.section_ok
  rw [show (State.onChannel { s with outbound_receivers := _ } c _).lifecycle_lock = .dropping id from sec] at ok
  refine changed.goTo (fun other moving => .inl ?_) (fun d _ _ making => ?_) ok
  · rw [show (State.onChannel { s with outbound_receivers := _ } c _).lifecycle_lock = .dropping id from sec] at moving
    exact moving
  · rw [show (State.onChannel { s with outbound_receivers := _ } c _).lifecycle_lock = .dropping id from sec] at making
    exact making.elim

theorem Inv.unmap {id : Nat} (inv : Inv s) (sec : s.lifecycle_lock = .unmapping id) :
    Inv ({ s with stream_to_channel := retain s.stream_to_channel (fun _ cid => cid ≠ id) }.goTo (.closed id)) := by
  have before := inv.section_ok
  rw [sec] at before
  obtain ⟨closed,absent⟩ := before
  exact { inv with
    streams := fun stream other found => inv.streams stream other ((lookup_retain _ _ _ _).mp found).1
    synced := fun other _ => by
      show (∃ c, s.inbound_writers.lookup other = some c) ↔ (retain s.stream_to_channel (fun _ cid => cid ≠ id)).lookup other = some other
      rw [lookup_retain]
      by_cases same : other = id
      · subst same
        simp [absent]
      · have before := inv.synced other (by rw [sec]; exact Ne.symm same)
        simpa [same] using before
    live := fun d dh found => by
      have before := inv.live d dh found
      rw [sec] at before
      exact before
    section_ok := closed }

theorem inv_section (inv : Inv s) {i : Nat} {s' : State} (moved : sectionStep s i s.lifecycle_lock = some s') : Inv s' := by
  cases sec : s.lifecycle_lock <;> rw [sec] at moved
  case free => cases moved
  case counting =>
    simp only [sectionStep] at moved
    split_ifs at moved with full <;> cases moved
    · exact inv.leave (by rw [sec]; exact fun _ moving => moving) (by rw [sec]; exact fun _ making => making) i _
    · refine inv.goTo (fun id moving => ?_) (fun c _ _ making => ?_) (Nat.lt_of_not_le full)
      · rw [sec] at moving
        exact moving.elim
      · rw [sec] at making
        exact making.elim
  case allocating =>
    have settled : ∀ id, ¬ unsettled s.channels s.lifecycle_lock id := by rw [sec]; exact fun _ moving => moving
    have published : ∀ c, ¬ unpublished s.lifecycle_lock c := by rw [sec]; exact fun _ making => making
    simp only [sectionStep] at moved
    split_ifs at moved <;> cases moved
    · exact inv.leave settled published i _
    · have counted : Inv { s with next_channel_id := s.next_channel_id + 1 } := { inv with
        next := Nat.succ_pos _
        ids := fun c ch found => ⟨(inv.ids c ch found).1,Nat.lt_succ_of_lt (inv.ids c ch found).2⟩
        section_ok := by
          have before := inv.section_ok
          show SectionOk { s with next_channel_id := s.next_channel_id + 1 } s.lifecycle_lock
          rw [sec] at before ⊢
          exact before
        handed := ⟨inv.handed.1,fun id member => ⟨(inv.handed.2 id member).1,Nat.lt_succ_of_lt (inv.handed.2 id member).2⟩⟩ }
      exact counted.leave settled published i _
    · exact inv.create sec
  case registering c =>
    cases moved
    exact inv.register sec
  case publishing c =>
    cases moved
    exact inv.publish sec
  case mapping c =>
    cases moved
    exact inv.map sec
  case opened c =>
    cases moved
    exact inv.hand sec i
  case closing id =>
    simp only [sectionStep] at moved
    split at moved <;> cases moved
    · exact inv.nothing_to_close sec ‹_›
    · exact inv.withdraw sec ‹_›
  case cancelling id c =>
    cases moved
    exact inv.cancel sec
  case takingOutbound id c =>
    cases moved
    exact inv.silence sec .outbound (fun _ moving => moving) (fun _ making => making) (fun _ ok => ok)
  case takingInbound id c =>
    cases moved
    exact inv.silence sec .inbound (fun _ moving => moving) (fun _ making => making) (fun _ ok => ok)
  case dropping id =>
    simp only [sectionStep] at moved
    split at moved <;> cases moved
    · have ok := inv.section_ok
      rw [sec] at ok
      refine inv.goTo (fun other moving => .inl ?_) (fun c _ _ making => ?_) ok
      · rw [sec] at moving
        exact moving
      · rw [sec] at making
        exact making.elim
    · exact inv.drop sec ‹_›
  case unmapping id =>
    cases moved
    exact inv.unmap sec
  case closed id =>
    cases moved
    exact inv.leave (by rw [sec]; exact fun _ moving => moving) (by rw [sec]; exact fun _ making => making) i _

/-! ### Every step keeps the invariant -/

variable {blake3 : Hash} {i : Nat} {s' : State}

theorem inv_cloneSender (inv : Inv s) (c : Nat) (ch : Channel) (dir : Dir) (frame : Frame) : Inv (cloneSender s i c ch dir frame) := by
  unfold cloneSender
  split_ifs <;> exact inv.setPc i _

theorem inv_start (inv : Inv s) {op : Op} (moved : startStep blake3 s i op = some s') : Inv s' := by
  cases op with
  | «open» =>
    simp only [startStep] at moved
    split_ifs at moved with free
    cases moved
    exact inv.enter free i trivial
  | close id =>
    simp only [startStep] at moved
    split_ifs at moved with free
    cases moved
    exact inv.enter free i trivial
  | take_outbound_receiver id =>
    simp only [startStep] at moved
    split at moved <;> cases moved
    · exact inv.setPc i _
    · exact (inv.take ‹_›).setPc i _
  | writer_for_stream stream =>
    simp only [startStep] at moved
    split at moved <;> cases moved <;> exact inv.setPc i _
  | send c payload =>
    simp only [startStep] at moved
    split at moved
    · cases moved
    · split_ifs at moved <;> cases moved
      · exact inv_cloneSender inv c _ .outbound _
      · exact inv.setPc i _
  | send_frame c frame =>
    simp only [startStep] at moved
    split at moved
    · cases moved
    · split_ifs at moved <;> cases moved
      · exact inv.setPc i _
      · exact inv_cloneSender inv c _ .outbound _
  | deliver c frame =>
    simp only [startStep] at moved
    split at moved <;> cases moved
    exact inv_cloneSender inv c _ .inbound _

theorem inv_call (inv : Inv s) {call : Call} (moved : callStep blake3 s i call = some s') : Inv s' := by
  unfold callStep at moved
  split at moved
  · exact inv_start inv moved
  · split_ifs at moved
    exact inv_section inv moved
  · cases moved
    exact inv.setPc i _
  · unfold reserveStep at moved
    split at moved
    · cases moved
    · split_ifs at moved <;> cases moved <;> exact inv.setPc i _
  · rename_i c dir frame _
    unfold enqueueStep at moved
    split at moved
    · cases moved
    · split_ifs at moved <;> cases moved
      · exact inv.setPc i _
      · exact (Inv.onChannel (push_mild dir frame) inv (fun ch _ gone => .inl (by cases dir <;> exact gone))).setPc i _
  · cases moved

theorem inv_step (inv : Inv s) {label : Label} (moved : step blake3 s label = some s') : Inv s' := by
  cases label with
  | invoke op =>
    cases moved
    exact { inv with }
  | step i =>
    obtain ⟨call,_,moved⟩ := Option.bind_eq_some_iff.mp moved
    exact inv_call inv moved
  | abandon i =>
    obtain ⟨call,_,moved⟩ := Option.bind_eq_some_iff.mp moved
    split at moved <;> cases moved
    exact inv.setPc i _
  | recv c dir =>
    simp only [step] at moved
    split at moved
    · cases moved
    · split_ifs at moved
      cases moved
      refine Inv.onChannel (pop_mild dir) inv (fun ch _ gone => .inl ?_)
      cases dir with
      | outbound => exact (pop_receiver ch.outbound).symm.trans gone
      | inbound => exact gone
  | dropReceiver c dir =>
    simp only [step] at moved
    split at moved
    · cases moved
    · split_ifs at moved
      cases moved
      refine Inv.onChannel (dropReceiver_mild dir) inv (fun ch _ gone => .inl ?_)
      cases dir with
      | outbound => exact dropReceiver_discarded gone
      | inbound => exact gone
  | setState c state =>
    cases moved
    exact Inv.onChannel (setState_mild state) inv (fun _ _ gone => .inl gone)

theorem inv_run (inv : Inv s) {labels : List Label} (reached : run blake3 s labels = some s') : Inv s' := by
  induction labels generalizing s with
  | nil =>
    cases reached
    exact inv
  | cons label later ih =>
    obtain ⟨next,moved,rest⟩ := Option.bind_eq_some_iff.mp reached
    exact ih (inv_step inv moved) rest

end
end Daf.ChannelSafety
