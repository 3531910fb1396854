import Daf.WireProtocol
import Mathlib.Data.List.AList

/-!
The channel pool: logical channels with a bounded queue in each direction, the
maps by which the pool finds them, and the calls of open, close, send and
delivery as sequences of steps, one for each section under a lock and each access
to a concurrent map. A channel is known by its index among all channels that were
ever opened; handles are such indices, and may be used at any time.
-/
namespace Daf.ChannelPool
open Daf.WireProtocol

inductive ChannelState where
  | Opening | Open | Closing | Closed
deriving DecidableEq,Repr

def ChannelState.is_usable : ChannelState → Bool
  | .Open => true
  | _ => false

def ChannelState.is_terminal : ChannelState → Bool
  | .Closed => true
  | _ => false

inductive ChannelError where
  | NotOpen (channel_id : Nat) (state : ChannelState)
  | SendFailed (channel_id : Nat)
  | PoolExhausted (max : Nat)
deriving DecidableEq,Repr

/-! ### Queues -/

/-- What became of the receiving end of a queue. -/
inductive Receiver where
  | live
  /-- Dropped by its holder. -/
  | dropped
  /-- Dropped by the pool, which nobody had asked for it. -/
  | discarded
deriving DecidableEq,Repr

/-- A bounded queue with the option that holds its sender, and the history of the
    frames that were sent with success and of those that were received. -/
structure Queue where
  sender : Bool
  receiver : Receiver
  buffer : List Frame
  accepted : List Frame
  received : List Frame

def Queue.new : Queue := ⟨true,.live,[],[],[]⟩

def Queue.push (q : Queue) (frame : Frame) : Queue :=
  { q with buffer := q.buffer ++ [frame], accepted := q.accepted ++ [frame] }

def Queue.pop (q : Queue) : Queue :=
  match q.buffer with
  | [] => q
  | frame :: rest => { q with buffer := rest, received := q.received ++ [frame] }

/-- Close the queue for new frames. -/
def Queue.takeSender (q : Queue) : Queue := { q with sender := false }

/-- The pool drops the receiving end. -/
def Queue.discard (q : Queue) : Queue := { q with receiver := .discarded, buffer := [] }

/-- The holder of the receiving end drops it, with the frames in the queue. -/
def Queue.dropReceiver (q : Queue) : Queue := if q.receiver = .live then { q with receiver := .dropped, buffer := [] } else q

inductive Dir where
  | outbound | inbound
deriving DecidableEq,Repr

structure Channel where
  id : Nat
  stream_id : Nat
  state : ChannelState
  outbound : Queue
  inbound : Queue
  closed : Bool

def Channel.queue (ch : Channel) : Dir → Queue
  | .outbound => ch.outbound
  | .inbound => ch.inbound

def Channel.onQueue (ch : Channel) (dir : Dir) (f : Queue → Queue) : Channel :=
  match dir with
  | .outbound => { ch with outbound := f ch.outbound }
  | .inbound => { ch with inbound := f ch.inbound }

def Channel.new (id : Nat) : Channel := ⟨id,id,.Opening,Queue.new,Queue.new,false⟩

/-! ### The pool -/

def u32MAX : Nat := 4294967295
/-- The largest capacity that a queue can be created with. -/
def MAX_PERMITS : Nat := 2305843009213693951

abbrev Index := AList (fun _ : Nat => Nat)

/-- The entries that a predicate accepts. -/
def retain (m : Index) (keep : Nat → Nat → Bool) : Index :=
  ⟨m.entries.filter (fun e => keep e.1 e.2),m.nodupKeys.sublist List.filter_sublist⟩

inductive Op where
  | open
  | close (channel_id : Nat)
  | take_outbound_receiver (channel_id : Nat)
  | writer_for_stream (stream_id : Nat)
  | send (c : Nat) (payload : Bytes)
  | send_frame (c : Nat) (frame : Frame)
  | deliver (c : Nat) (frame : Frame)

/-- Where the call stands that holds the lifecycle lock, if it is held. -/
inductive Section where
  | free
  | counting
  | allocating
  /-- The outbound receiver of the new channel is registered next. -/
  | registering (c : Nat)
  /-- The inbound writer is registered next. -/
  | publishing (c : Nat)
  | mapping (c : Nat)
  | opened (c : Nat)
  | closing (channel_id : Nat)
  /-- The writer is removed; the token is cancelled next. -/
  | cancelling (channel_id : Nat) (c : Nat)
  | takingOutbound (channel_id : Nat) (c : Nat)
  | takingInbound (channel_id : Nat) (c : Nat)
  | dropping (channel_id : Nat)
  | unmapping (channel_id : Nat)
  | closed (channel_id : Nat)
deriving DecidableEq,Repr

inductive Result where
  | unit
  | channel (c : Nat)
  | receiver (c : Option Nat)
  | writer (c : Option Nat)
  | sent
  | failed (error : ChannelError)
  /-- The future was dropped, or the call panicked. -/
  | abandoned
deriving DecidableEq,Repr

/-- Where a call stands. -/
inductive Pc where
  | start
  /-- Inside the section under the lifecycle lock. -/
  | inside
  | looked (channel_id : Nat)
  /-- The sender is cloned; the call waits for capacity. -/
  | cloned (c : Nat) (dir : Dir) (frame : Frame)
  | reserved (c : Nat) (dir : Dir) (frame : Frame)
  | returned (result : Result)
deriving DecidableEq,Repr

structure Call where
  op : Op
  pc : Pc

structure State where
  channels : List Channel
  inbound_writers : Index
  outbound_receivers : Index
  stream_to_channel : Index
  next_channel_id : Nat
  channel_buffer_size : Nat
  max_channels : Nat
  lifecycle_lock : Section
  /-- The call that holds the lifecycle lock. -/
  owner : Nat
  calls : List Call
  /-- The ids of the channels that were returned by `open`. -/
  handed : List Nat
  /-- The channels whose outbound receiver was returned. -/
  claimed : List Nat

def with_limits (channel_buffer_size max_channels : Nat) : State where
  channels := []
  inbound_writers := ∅
  outbound_receivers := ∅
  stream_to_channel := ∅
  next_channel_id := 1
  channel_buffer_size := max channel_buffer_size 1
  max_channels
  lifecycle_lock := .free
  owner := 0
  calls := []
  handed := []
  claimed := []

def active_count (s : State) : Nat := s.inbound_writers.entries.length

/-! ### Steps -/

namespace State

def setPc (s : State) (i : Nat) (pc : Pc) : State := { s with calls := s.calls.modify i (fun call => { call with pc }) }

def onChannel (s : State) (c : Nat) (f : Channel → Channel) : State := { s with channels := s.channels.modify c f }

/-- Go on inside the section. -/
def goTo (s : State) (next : Section) : State := { s with lifecycle_lock := next }

/-- Take the lifecycle lock. -/
def enter (s : State) (i : Nat) (first : Section) : State := { s with lifecycle_lock := first, owner := i }.setPc i .inside

/-- Release the lock and return. -/
def leave (s : State) (i : Nat) (result : Result) : State := (s.goTo .free).setPc i (.returned result)

end State

/-- The permits that calls hold for a queue. -/
def permits (s : State) (c : Nat) (dir : Dir) : Nat :=
  s.calls.countP (fun call =>
    match call.pc with
    | .reserved c' dir' _ => c' = c ∧ dir' = dir
    | _ => false)

/-- The first section of a send: take a clone of the sender. -/
def cloneSender (s : State) (i c : Nat) (ch : Channel) (dir : Dir) (frame : Frame) : State :=
  if (ch.queue dir).sender then s.setPc i (.cloned c dir frame)
  else s.setPc i (.returned (.failed (.SendFailed ch.id)))

/-- The first step of a call. -/
def startStep (blake3 : Hash) (s : State) (i : Nat) : Op → Option State
  | .open => if s.lifecycle_lock = .free then some (s.enter i .counting) else none
  | .close channel_id => if s.lifecycle_lock = .free then some (s.enter i (.closing channel_id)) else none
  | .take_outbound_receiver channel_id =>
    match s.outbound_receivers.lookup channel_id with
    | none => some (s.setPc i (.returned (.receiver none)))
    | some c =>
      let s := { s with outbound_receivers := s.outbound_receivers.erase channel_id, claimed := s.claimed ++ [c] }
      some (s.setPc i (.returned (.receiver (some c))))
  | .writer_for_stream stream_id =>
    match s.stream_to_channel.lookup stream_id with
    | none => some (s.setPc i (.returned (.writer none)))
    | some channel_id => some (s.setPc i (.looked channel_id))
  | .send c payload =>
    match s.channels[c]? with
    | none => none
    | some ch =>
      if ch.state.is_usable then some (cloneSender s i c ch .outbound (Frame.data blake3 (UInt32.ofNat ch.stream_id) payload))
      else some (s.setPc i (.returned (.failed (.NotOpen ch.id ch.state))))
  | .send_frame c frame =>
    match s.channels[c]? with
    | none => none
    | some ch =>
      if ch.state.is_terminal then some (s.setPc i (.returned (.failed (.NotOpen ch.id ch.state))))
      else some (cloneSender s i c ch .outbound frame)
  | .deliver c frame =>
    match s.channels[c]? with
    | none => none
    | some ch => some (cloneSender s i c ch .inbound frame)

/-- The id of a channel that the section has just created. -/
def idOf (s : State) (c : Nat) : Nat := ((s.channels[c]?).map (·.id)).getD 0

/-- The next step of the call that holds the lifecycle lock. -/
def sectionStep (s : State) (i : Nat) : Section → Option State
  | .free => none
  | .counting =>
    if s.max_channels ≤ active_count s then some (s.leave i (.failed (.PoolExhausted s.max_channels)))
    else some (s.goTo .allocating)
  | .allocating =>
    if s.next_channel_id = u32MAX then some (s.leave i (.failed (.PoolExhausted s.max_channels)))
    else if MAX_PERMITS < s.channel_buffer_size then
      some ({ s with next_channel_id := s.next_channel_id + 1 }.leave i .abandoned)
    else
      let channels := s.channels ++ [Channel.new s.next_channel_id]
      some ({ s with channels, next_channel_id := s.next_channel_id + 1 }.goTo (.registering s.channels.length))
  | .registering c => some ({ s with outbound_receivers := s.outbound_receivers.insert (idOf s c) c }.goTo (.publishing c))
  | .publishing c => some ({ s with inbound_writers := s.inbound_writers.insert (idOf s c) c }.goTo (.mapping c))
  | .mapping c => some ({ s with stream_to_channel := s.stream_to_channel.insert (idOf s c) (idOf s c) }.goTo (.opened c))
  | .opened c => some ({ s with handed := s.handed ++ [idOf s c] }.leave i (.channel c))
  | .closing channel_id =>
    match s.inbound_writers.lookup channel_id with
    | none => some (s.goTo (.closed channel_id))
    | some c => some ({ s with inbound_writers := s.inbound_writers.erase channel_id }.goTo (.cancelling channel_id c))
  | .cancelling channel_id c =>
    some ((s.onChannel c (fun ch => { ch with closed := true })).goTo (.takingOutbound channel_id c))
  | .takingOutbound channel_id c =>
    some ((s.onChannel c (·.onQueue .outbound (·.takeSender))).goTo (.takingInbound channel_id c))
  | .takingInbound channel_id c => some ((s.onChannel c (·.onQueue .inbound (·.takeSender))).goTo (.dropping channel_id))
  | .dropping channel_id =>
    match s.outbound_receivers.lookup channel_id with
    | none => some (s.goTo (.unmapping channel_id))
    | some c =>
      let s := { s with outbound_receivers := s.outbound_receivers.erase channel_id }
      some ((s.onChannel c (·.onQueue .outbound (·.discard))).goTo (.unmapping channel_id))
  | .unmapping channel_id =>
    let stream_to_channel := retain s.stream_to_channel (fun _ cid => cid ≠ channel_id)
    some ({ s with stream_to_channel }.goTo (.closed channel_id))
  | .closed _ => some (s.leave i .unit)

/-- A call waits for capacity; a cancelled token goes first. -/
def reserveStep (s : State) (i c : Nat) (dir : Dir) (frame : Frame) : Option State :=
  match s.channels[c]? with
  | none => none
  | some ch =>
    if ch.closed ∨ (ch.queue dir).receiver ≠ .live then some (s.setPc i (.returned (.failed (.SendFailed ch.id))))
    else if (ch.queue dir).buffer.length + permits s c dir < s.channel_buffer_size then some (s.setPc i (.reserved c dir frame))
    else none

/-- The second section of a send: check for a close again, and enqueue. -/
def enqueueStep (s : State) (i c : Nat) (dir : Dir) (frame : Frame) : Option State :=
  match s.channels[c]? with
  | none => none
  | some ch =>
    if !(ch.queue dir).sender ∨ ch.closed then some (s.setPc i (.returned (.failed (.SendFailed ch.id))))
    else some ((s.onChannel c (·.onQueue dir (·.push frame))).setPc i (.returned .sent))

def callStep (blake3 : Hash) (s : State) (i : Nat) (call : Call) : Option State :=
  match call.pc with
  | .start => startStep blake3 s i call.op
  | .inside => if s.owner = i then sectionStep s i s.lifecycle_lock else none
  | .looked channel_id => some (s.setPc i (.returned (.writer (s.inbound_writers.lookup channel_id))))
  | .cloned c dir frame => reserveStep s i c dir frame
  | .reserved c dir frame => enqueueStep s i c dir frame
  | .returned _ => none

/-- Somebody outside the pool has the receiver: that of the inbound queue belongs to
    the channel, that of the outbound queue to who claimed it. -/
def holds (s : State) (c : Nat) : Dir → Prop
  | .inbound => True
  | .outbound => c ∈ s.claimed

instance (s : State) (c : Nat) (dir : Dir) : Decidable (holds s c dir) :=
  match dir with
  | .inbound => inferInstanceAs (Decidable True)
  | .outbound => inferInstanceAs (Decidable (c ∈ s.claimed))

inductive Label where
  | invoke (op : Op)
  | step (call : Nat)
  /-- The caller drops the future of a send that waits for capacity. -/
  | abandon (call : Nat)
  /-- The holder of a receiver takes the next frame. -/
  | recv (c : Nat) (dir : Dir)
  | dropReceiver (c : Nat) (dir : Dir)
  /-- The owner of a channel sets its state. -/
  | setState (c : Nat) (state : ChannelState)

def step (blake3 : Hash) (s : State) : Label → Option State
  | .invoke op => some { s with calls := s.calls ++ [⟨op,.start⟩] }
  | .step i => s.calls[i]?.bind (callStep blake3 s i)
  | .abandon i =>
    s.calls[i]?.bind (fun call =>
      match call.pc with
      | .cloned _ _ _ => some (s.setPc i (.returned .abandoned))
      | _ => none)
  | .recv c dir =>
    match s.channels[c]? with
    | none => none
    | some ch =>
      if holds s c dir ∧ (ch.queue dir).receiver = .live ∧ (ch.queue dir).buffer ≠ [] then
        some (s.onChannel c (·.onQueue dir (·.pop)))
      else none
  | .dropReceiver c dir =>
    match s.channels[c]? with
    | none => none
    | some ch =>
      if holds s c dir ∧ (ch.queue dir).receiver = .live then some (s.onChannel c (·.onQueue dir (·.dropReceiver))) else none
  | .setState c state => some (s.onChannel c (fun ch => { ch with state }))

def run (blake3 : Hash) (s : State) (labels : List Label) : Option State := labels.foldlM (step blake3) s

end Daf.ChannelPool
