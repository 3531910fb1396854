import Daf.Runs
import Daf.UuidText
import Mathlib.Data.List.AList
import Mathlib.Data.List.Induction

/-!
The peers of a cluster and their health checks. Each call takes one step on the table of peers, except for
a sweep, which lists what it will remove and then removes one peer after the other.
-/
namespace Daf.PeerTracker
open Daf.Runs Daf.UuidText

structure NodeInfo where
  id : Uuid
  name : String
  started_at : Int
  version : String
deriving DecidableEq,Repr

inductive PeerStatus where
  | Alive | Suspected | Dead | Left
deriving DecidableEq,Repr

structure PeerEntry where
  info : NodeInfo
  status : PeerStatus
  last_seen : Int
  /-- A u32. -/
  failed_checks : Nat
deriving DecidableEq,Repr

def PeerEntry.new (info : NodeInfo) (now : Int) : PeerEntry := ⟨info,.Alive,now,0⟩

def PeerEntry.heartbeat (entry : PeerEntry) (now : Int) : PeerEntry := { entry with last_seen := now,failed_checks := 0,status := .Alive }

def PeerEntry.fail_check (entry : PeerEntry) : PeerEntry :=
  let failed_checks := (entry.failed_checks + 1) % 2^32
  { entry with failed_checks,status := if 3 ≤ failed_checks then .Dead else .Suspected }

abbrev Peers := AList (fun _ : Uuid => PeerEntry)

def upsert (peers : Peers) (info : NodeInfo) (now : Int) : Peers :=
  match peers.lookup info.id with
  | some entry => peers.insert info.id ({ entry with info }.heartbeat now)
  | none => peers.insert info.id (.new info now)

def heartbeat (peers : Peers) (peer_id : Uuid) (now : Int) : Peers :=
  match peers.lookup peer_id with
  | some entry => peers.insert peer_id (entry.heartbeat now)
  | none => peers

def fail_check (peers : Peers) (peer_id : Uuid) : Peers :=
  match peers.lookup peer_id with
  | some entry => peers.insert peer_id entry.fail_check
  | none => peers

def mark_left (peers : Peers) (peer_id : Uuid) : Peers :=
  match peers.lookup peer_id with
  | some entry => peers.insert peer_id { entry with status := .Left }
  | none => peers

def remove (peers : Peers) (peer_id : Uuid) : Option PeerEntry × Peers := (peers.lookup peer_id,peers.erase peer_id)

/-- The peers that a sweep lists, in the order of the table. -/
def dead_ids (peers : Peers) : List Uuid :=
  (peers.entries.filter fun e => decide (e.2.status = .Dead ∨ e.2.status = .Left)).map fun e => e.2.info.id

/-- A call of `sweep_dead` after its listing: what it has still to remove, and what it has removed. -/
structure Sweep where
  dead_ids : List Uuid
  removed : List PeerEntry

structure Cluster where
  peers : Peers
  sweeps : List Sweep

def Cluster.new : Cluster := ⟨∅,[]⟩

inductive Event where
  | upsert (info : NodeInfo) (now : Int)
  | heartbeat (peer_id : Uuid) (now : Int)
  | fail_check (peer_id : Uuid)
  | mark_left (peer_id : Uuid)
  /-- A sweep lists these peers, in the order in which the table is iterated. -/
  | list (dead_ids : List Uuid)
  /-- This sweep takes the next peer of its list. -/
  | remove (sweep : Nat)
deriving DecidableEq,Repr

/-- The next peer that the sweep will remove. -/
def Cluster.next (c : Cluster) (sweep : Nat) : Option Uuid := (c.sweeps[sweep]?).bind fun s => s.dead_ids.head?

def Cluster.sweepNext (c : Cluster) (sweep : Nat) : Cluster :=
  match c.sweeps[sweep]? with
  | some ⟨id :: later,removed⟩ =>
    let (entry,peers) := remove c.peers id
    ⟨peers,c.sweeps.set sweep ⟨later,removed ++ entry.toList⟩⟩
  | _ => c

def step (c : Cluster) : Event → Cluster
  | .upsert info now => { c with peers := upsert c.peers info now }
  | .heartbeat peer_id now => { c with peers := heartbeat c.peers peer_id now }
  | .fail_check peer_id => { c with peers := fail_check c.peers peer_id }
  | .mark_left peer_id => { c with peers := mark_left c.peers peer_id }
  | .list ids => if ids.Perm (dead_ids c.peers) then { c with sweeps := c.sweeps ++ [⟨ids,[]⟩] } else c
  | .remove sweep => c.sweepNext sweep

/-- The table and the sweeps after these steps. -/
def after (events : List Event) : Cluster := run step .new events

/-! ### What the calls say about a peer -/

inductive Call where
  | contact | failed | left
deriving DecidableEq,Repr

/-- What a step says about the peer. -/
def Event.about (id : Uuid) : Event → Option Call
  | .upsert info _ => if info.id = id then some .contact else none
  | .heartbeat peer_id _ => if peer_id = id then some .contact else none
  | .fail_check peer_id => if peer_id = id then some .failed else none
  | .mark_left peer_id => if peer_id = id then some .left else none
  | .list _ | .remove _ => none

/-- The calls about a peer since its last contact, the latest first. -/
def since (id : Uuid) (events : List Event) : List Call := (events.filterMap (Event.about id)).reverse.takeWhile (· ≠ .contact)

/-- The status that the calls since the last contact give a peer. -/
def statusOf (calls : List Call) : PeerStatus :=
  if calls = [] then .Alive else if .left ∈ calls then .Left else if calls.count .failed < 3 then .Suspected else .Dead

/-- Every tracked peer has the status that follows from the calls. -/
def Follows (events : List Event) : Prop := ∀ id, ∀ entry ∈ (after events).peers.lookup id, entry.status = statusOf (since id events)

/-- The peer that a sweep removes with this step, if any, is dead or has left. -/
def Justly (events : List Event) : Event → Prop
  | .remove sweep => ∀ id ∈ (after events).next sweep, ∀ entry ∈ (after events).peers.lookup id, entry.status = .Dead ∨ entry.status = .Left
  | _ => True

/-- At any time of the run the statuses follow the calls, and every removal is of a peer that is dead or has left. -/
structure Tracks (events : List Event) : Prop where
  statuses : ∀ before, before <+: events → Follows before
  removals : ∀ before event, before ++ [event] <+: events → Justly before event

/-- A check that fails finds its peer not to have left since its last contact, nor its counter full; and a sweep
that reaches a tracked peer finds that it has left or failed three checks since its last contact, which may have
come in behind the listing. -/
def Orderly (events : List Event) : Event → Prop
  | .fail_check id => ((after events).peers.lookup id).isSome → .left ∉ since id events ∧ (since id events).count .failed + 1 < 2^32
  | .remove sweep => ∀ id ∈ (after events).next sweep, ((after events).peers.lookup id).isSome →
      .left ∈ since id events ∨ 3 ≤ (since id events).count .failed
  | _ => True

/-! ### One step -/

section
variable {events : List Event} {id : Uuid} {entry : PeerEntry}

theorem after_snoc (events : List Event) (event : Event) : after (events ++ [event]) = step (after events) event := run_snoc events event

theorem since_snoc (id : Uuid) (events : List Event) (event : Event) : since id (events ++ [event]) =
    match event.about id with
    | none => since id events
    | some .contact => []
    | some .failed => .failed :: since id events
    | some .left => .left :: since id events := by
  unfold since
  rw [List.filterMap_append,List.reverse_append]
  cases said : event.about id with
  | none => simp [said]
  | some call => cases call <;> simp [said]

theorem lookup_modify (peers : Peers) (key id : Uuid) (f : PeerEntry → PeerEntry) :
    (match peers.lookup key with
      | some entry => peers.insert key (f entry)
      | none => peers).lookup id = if key = id then (peers.lookup key).map f else peers.lookup id := by
  by_cases own : key = id
  · subst own
    rw [if_pos rfl]
    cases found : peers.lookup key with
    | none => exact found
    | some entry => exact AList.lookup_insert peers
  · rw [if_neg own]
    cases peers.lookup key with
    | none => rfl
    | some entry => exact AList.lookup_insert_ne (Ne.symm own)

theorem lookup_upsert (peers : Peers) (info : NodeInfo) (now : Int) (id : Uuid) :
    (upsert peers info now).lookup id =
      if info.id = id then some (((peers.lookup id).getD (.new info now)).heartbeat now |> ({ · with info })) else peers.lookup id := by
  unfold upsert
  by_cases own : info.id = id
  · subst own
    rw [if_pos rfl]
    cases peers.lookup info.id <;> exact AList.lookup_insert peers
  · rw [if_neg own]
    cases peers.lookup info.id <;> exact AList.lookup_insert_ne (Ne.symm own)

theorem lookup_sweepNext (c : Cluster) (sweep : Nat) (id : Uuid) (there : entry ∈ (c.sweepNext sweep).peers.lookup id) : entry ∈ c.peers.lookup id := by
  unfold Cluster.sweepNext at there
  split at there
  case h_1 listed later removed found =>
    by_cases own : id = listed
    · subst own
      simp [remove] at there
    · simpa [remove,AList.lookup_erase_ne own] using there
  case h_2 => exact there

/-- What one step leaves at a key of the table: an entry that it says nothing about, a contact, or an entry that it changes. -/
theorem lookup_snoc {event : Event} (there : entry ∈ (after (events ++ [event])).peers.lookup id) :
    (event.about id = none ∧ entry ∈ (after events).peers.lookup id) ∨
    (event.about id = some .contact ∧ entry.failed_checks = 0 ∧ entry.status = .Alive) ∨
    ∃ old ∈ (after events).peers.lookup id,
      (event = .fail_check id ∧ entry = old.fail_check) ∨ (event = .mark_left id ∧ entry = { old with status := .Left }) := by
  rw [after_snoc] at there
  cases event with
  | upsert info now =>
    have here : entry ∈ (upsert (after events).peers info now).lookup id := there
    rw [lookup_upsert] at here
    by_cases own : info.id = id
    · rw [if_pos own,Option.mem_some_iff] at here
      exact .inr (.inl ⟨if_pos own,here ▸ rfl,here ▸ rfl⟩)
    · rw [if_neg own] at here
      exact .inl ⟨if_neg own,here⟩
  | heartbeat peer_id now =>
    have here : entry ∈ (heartbeat (after events).peers peer_id now).lookup id := there
    rw [heartbeat,lookup_modify] at here
    by_cases own : peer_id = id
    · rw [if_pos own] at here
      obtain ⟨old,-,rfl⟩ := Option.mem_map.mp here
      exact .inr (.inl ⟨if_pos own,rfl,rfl⟩)
    · rw [if_neg own] at here
      exact .inl ⟨if_neg own,here⟩
  | fail_check peer_id =>
    have here : entry ∈ (fail_check (after events).peers peer_id).lookup id := there
    rw [fail_check,lookup_modify] at here
    by_cases own : peer_id = id
    · subst own
      rw [if_pos rfl] at here
      obtain ⟨old,found,rfl⟩ := Option.mem_map.mp here
      exact .inr (.inr ⟨old,found,.inl ⟨rfl,rfl⟩⟩)
    · rw [if_neg own] at here
      exact .inl ⟨if_neg own,here⟩
  | mark_left peer_id =>
    have here : entry ∈ (mark_left (after events).peers peer_id).lookup id := there
    rw [mark_left,lookup_modify (f := fun entry => { entry with status := .Left })] at here
    by_cases own : peer_id = id
    · subst own
      rw [if_pos rfl] at here
      obtain ⟨old,found,rfl⟩ := Option.mem_map.mp here
      exact .inr (.inr ⟨old,found,.inr ⟨rfl,rfl⟩⟩)
    · rw [if_neg own] at here
      exact .inl ⟨if_neg own,here⟩
  | list ids =>
    refine .inl ⟨rfl,?_⟩
    simp only [step] at there
    split at there <;> exact there
  | remove sweep => exact .inl ⟨rfl,lookup_sweepNext (after events) sweep id there⟩

/-! ### The counter and the status -/

/-- The counter of every tracked peer is the number of checks that failed since its last contact, as far as 32 bits count them. -/
def Counts (events : List Event) : Prop := ∀ id, ∀ entry ∈ (after events).peers.lookup id, entry.failed_checks = (since id events).count .failed % 2^32

theorem counts_snoc {event : Event} (counts : Counts events) : Counts (events ++ [event]) := by
  intro id entry there
  rw [since_snoc]
  rcases lookup_snoc there with ⟨silent,old⟩ | ⟨contact,zero,-⟩ | ⟨old,found,⟨rfl,rfl⟩ | ⟨rfl,rfl⟩⟩
  · rw [silent]
    exact counts id entry old
  · rw [contact,zero]
    rfl
  · have before := counts id old found
    simp only [Event.about,if_pos,List.count_cons_self]
    show (old.failed_checks + 1) % 2^32 = _
    omega
  · have before := counts id old found
    simpa [Event.about] using before

theorem counts_after (events : List Event) : Counts events := by
  induction events using List.reverseRecOn with
  | nil => exact fun id entry there => by simp [after,run,Cluster.new] at there
  | append_singleton events event counts => exact counts_snoc counts

theorem statusOf_failed {calls : List Call} (stays : .left ∉ calls) :
    statusOf (.failed :: calls) = if 3 ≤ calls.count .failed + 1 then .Dead else .Suspected := by
  have nowhere : Call.left ∉ Call.failed :: calls := by simpa using stays
  rw [statusOf,if_neg (List.cons_ne_nil _ _),if_neg nowhere,List.count_cons_self]
  split <;> split <;> first | rfl | omega

theorem statusOf_failed_left {calls : List Call} (left : .left ∈ calls) : statusOf (.failed :: calls) = .Left := by
  rw [statusOf,if_neg (List.cons_ne_nil _ _),if_pos (List.mem_cons_of_mem _ left)]

theorem fail_check_status (entry : PeerEntry) : entry.fail_check.status = if 3 ≤ (entry.failed_checks + 1) % 2^32 then .Dead else .Suspected := rfl

theorem fail_check_stays (entry : PeerEntry) : entry.fail_check.status ≠ .Left := by
  rw [fail_check_status]
  split <;> exact fun same => by cases same

/-- Down is who has left or failed three checks. -/
theorem statusOf_down (calls : List Call) : statusOf calls = .Dead ∨ statusOf calls = .Left ↔ .left ∈ calls ∨ 3 ≤ calls.count .failed := by
  unfold statusOf
  by_cases quiet : calls = []
  · simp [quiet]
  · rw [if_neg quiet]
    by_cases left : .left ∈ calls
    · simp [left]
    · rw [if_neg left]
      by_cases few : calls.count .failed < 3
      · simp only [if_pos few,left,false_or]
        constructor
        · rintro (same | same) <;> cases same
        · omega
      · simp only [if_neg few,left,false_or,true_or,true_iff]
        omega

/-- What a check that fails has to find for the status to be right behind it. -/
theorem fail_check_follows {entry : PeerEntry} {calls : List Call} (counts : entry.failed_checks = calls.count .failed % 2^32)
    (room : calls.count .failed < 2^32) :
    entry.fail_check.status = statusOf (.failed :: calls) ↔ .left ∉ calls ∧ calls.count .failed + 1 < 2^32 := by
  by_cases left : .left ∈ calls
  · rw [statusOf_failed_left left]
    simp [left,fail_check_stays]
  · rw [statusOf_failed left,fail_check_status,counts]
    simp only [left,not_false_eq_true,true_and]
    constructor
    · intro same
      by_contra full
      have wraps : (calls.count .failed % 2^32 + 1) % 2^32 = 0 := by omega
      rw [wraps,if_neg (by decide),if_pos (by omega)] at same
      cases same
    · intro fits
      have counted : (calls.count .failed % 2^32 + 1) % 2^32 = calls.count .failed + 1 := by omega
      rw [counted]

/-- As long as the steps are orderly, no counter is full. -/
theorem orderly_room (orderly : ∀ before event, before ++ [event] <+: events → Orderly before event) :
    ∀ id, ((after events).peers.lookup id).isSome → (since id events).count .failed < 2^32 := by
  induction events using List.reverseRecOn with
  | nil => exact fun id there => by simp [after,run,Cluster.new] at there
  | append_singleton events event ih =>
    intro id there
    have before := ih fun before e inside => orderly before e (inside.trans (List.prefix_append _ _))
    have last := orderly events event (List.prefix_refl _)
    obtain ⟨entry,there⟩ := Option.isSome_iff_exists.mp there
    rw [since_snoc]
    rcases lookup_snoc there with ⟨silent,old⟩ | ⟨contact,-,-⟩ | ⟨old,found,⟨rfl,-⟩ | ⟨rfl,-⟩⟩
    · rw [silent]
      exact before id (Option.isSome_of_mem old)
    · rw [contact]
      exact Nat.two_pow_pos 32
    · have tracked := Option.isSome_of_mem found
      simp only [Event.about,if_pos,List.count_cons_self]
      exact (last tracked).2
    · have tracked := Option.isSome_of_mem found
      simpa [Event.about] using before id tracked

/-- One more step leaves the statuses right, and a removal was right, exactly if the step is orderly. -/
theorem follows_snoc {event : Event} (follows : Follows events) (room : ∀ id, ((after events).peers.lookup id).isSome → (since id events).count .failed < 2^32) :
    Follows (events ++ [event]) ∧ Justly events event ↔ Orderly events event := by
  constructor
  · rintro ⟨next,just⟩
    cases event with
    | fail_check id =>
      intro tracked
      obtain ⟨old,found⟩ := Option.isSome_iff_exists.mp tracked
      have there : old.fail_check ∈ (after (events ++ [Event.fail_check id])).peers.lookup id := by
        rw [after_snoc]
        show (fail_check (after events).peers id).lookup id = _
        rw [fail_check,lookup_modify,if_pos rfl,found]
        rfl
      have status := next id _ there
      rw [since_snoc] at status
      simp only [Event.about,if_pos] at status
      exact (fail_check_follows (counts_after events id old found) (room id tracked)).mp status
    | remove sweep =>
      intro id here tracked
      obtain ⟨entry,found⟩ := Option.isSome_iff_exists.mp tracked
      have down := just id here entry found
      rw [follows id entry found] at down
      exact (statusOf_down _).mp down
    | upsert | heartbeat | mark_left | list => trivial
  · intro orderly
    constructor
    · intro id entry there
      rw [since_snoc]
      rcases lookup_snoc there with ⟨silent,old⟩ | ⟨contact,-,alive⟩ | ⟨old,found,⟨rfl,rfl⟩ | ⟨rfl,rfl⟩⟩
      · rw [silent]
        exact follows id entry old
      · rw [contact]
        exact alive
      · have tracked := Option.isSome_of_mem found
        simp only [Event.about,if_pos]
        exact (fail_check_follows (counts_after events id old found) (room id tracked)).mpr (orderly tracked)
      · simp [Event.about,statusOf]
    · cases event with
      | remove sweep =>
        intro id here entry found
        rw [follows id entry found]
        exact (statusOf_down _).mpr (orderly id here (Option.isSome_of_mem found))
      | upsert | heartbeat | fail_check | mark_left | list => trivial

/-! ### Runs -/

theorem prefix_snoc {α : Type} {before events : List α} {event : α} : before <+: events ++ [event] ↔ before <+: events ∨ before = events ++ [event] := by
  rw [List.prefix_concat_iff]
  exact or_comm

theorem tracks_snoc (event : Event) : Tracks (events ++ [event]) ↔ Tracks events ∧ Follows (events ++ [event]) ∧ Justly events event := by
  constructor
  · intro tracks
    refine ⟨⟨fun before inside => tracks.statuses before (inside.trans (List.prefix_append _ _)),
      fun before e inside => tracks.removals before e (inside.trans (List.prefix_append _ _))⟩,?_,?_⟩
    · exact tracks.statuses _ (List.prefix_refl _)
    · exact tracks.removals events event (List.prefix_refl _)
  · rintro ⟨tracks,follows,just⟩
    refine ⟨?_,?_⟩
    · intro before inside
      rcases Iff.mp prefix_snoc inside with earlier | rfl
      · exact tracks.statuses before earlier
      · exact follows
    · intro before e inside
      rcases Iff.mp prefix_snoc inside with earlier | same
      · exact tracks.removals before e earlier
      · obtain ⟨rfl,rfl⟩ := List.append_singleton_inj.mp same
        exact just

/-- The statuses follow the calls throughout a run, and only peers that are dead or have left are removed, exactly
if each of its steps is orderly. -/
theorem tracks_iff_orderly (events : List Event) : Tracks events ↔ ∀ before event, before ++ [event] <+: events → Orderly before event := by
  induction events using List.reverseRecOn with
  | nil =>
    refine ⟨fun _ before event inside => by simp at inside,fun _ => ⟨?_,fun before event inside => by simp at inside⟩⟩
    intro before inside id entry there
    rw [List.prefix_nil.mp inside] at there
    simp [after,run,Cluster.new] at there
  | append_singleton events event ih =>
    rw [tracks_snoc]
    constructor
    · rintro ⟨tracks,last⟩ before e inside
      have orderly := ih.mp tracks
      rcases prefix_snoc.mp inside with earlier | same
      · exact orderly before e earlier
      · obtain ⟨rfl,rfl⟩ := List.append_singleton_inj.mp same
        exact (follows_snoc (tracks.statuses _ (List.prefix_refl _)) (orderly_room orderly)).mp last
    · intro all
      have orderly := fun before e (inside : before ++ [e] <+: events) => all before e (inside.trans (List.prefix_append _ _))
      have tracks := ih.mpr orderly
      exact ⟨tracks,(follows_snoc (tracks.statuses _ (List.prefix_refl _)) (orderly_room orderly)).mpr (all events event (List.prefix_refl _))⟩

end

/-- A peer that has left is suspected after the next failed check; and a sweep removes one that was heard of behind its listing. -/
theorem departed_and_alive :
    ¬ Tracks [.upsert ⟨1#128,"a",0,"1"⟩ 0,.mark_left 1#128,.fail_check 1#128] ∧
    ¬ Tracks [.upsert ⟨1#128,"a",0,"1"⟩ 0,.mark_left 1#128,.list [1#128],.heartbeat 1#128 1,.remove 0] := by
  constructor
  · intro tracks
    have status := tracks.statuses _ (List.prefix_refl _) 1#128 ⟨⟨1#128,"a",0,"1"⟩,.Suspected,0,1⟩ (by decide)
    revert status
    decide
  · intro tracks
    have removed := tracks.removals [.upsert ⟨1#128,"a",0,"1"⟩ 0,.mark_left 1#128,.list [1#128],.heartbeat 1#128 1] (.remove 0) (List.prefix_refl _)
      1#128 (by decide) ⟨⟨1#128,"a",0,"1"⟩,.Alive,1,0⟩ (by decide)
    revert removed
    decide

end Daf.PeerTracker
