import Daf.Runs
import Mathlib.Data.List.Basic
import Mathlib.Tactic.SplitIfs

/-!
A pair of in-process connections as two byte streams. Each end sends messages through a bounded queue to the other, which hands them
out in pieces as large as its buffers; a close or a drop of one end takes its sender away.
-/
namespace Daf.ByteStreams
open Daf.Runs

abbrev Bytes := List UInt8

inductive Side where
  | a | b
deriving DecidableEq,Repr

def Side.peer : Side → Side
  | .a => .b
  | .b => .a

inductive ConnectionState where
  | Connecting | Connected | Draining | Closed
deriving DecidableEq,Repr

inductive TransportError where
  | ConnectionClosed
  | ChannelError (reason : String)
deriving DecidableEq,Repr

/-- The receiving half of a bounded queue, with the messages in the queue. -/
structure Receiver where
  queue : List Bytes
  closed : Bool
deriving DecidableEq,Repr

/-- What a send comes to; it waits as long as the queue is full. -/
inductive Sending where
  | sent (rx : Receiver)
  | receiver_gone
  | waits
deriving DecidableEq,Repr

def Receiver.send (rx : Receiver) (capacity : Nat) (data : Bytes) : Sending :=
  if rx.closed then .receiver_gone
  else if rx.queue.length < capacity then .sent { rx with queue := rx.queue ++ [data] }
  else .waits

structure ConnectionInfo where
  bytes_sent : UInt64
  bytes_received : UInt64
  state : ConnectionState
deriving DecidableEq,Repr

def ConnectionInfo.new : ConnectionInfo := ⟨0,0,.Connecting⟩

structure InProcConnection where
  /-- Whether the sender is there. -/
  tx : Bool
  rx : Receiver
  pending : Bytes
  info : ConnectionInfo
deriving DecidableEq,Repr

/-! ### The calls -/

/-- What a call that comes to an end returns. -/
inductive Result where
  | written
  | failed (error : TransportError)
  | read (bytes : Bytes)
  | closed
  | dropped
deriving DecidableEq,Repr

/-- A read into a buffer of this size; `sender` says whether the other end still has its sender. The read waits while nothing has
arrived but something may. -/
def InProcConnection.read (c : InProcConnection) (sender : Bool) (size : Nat) : Option (Result × InProcConnection) :=
  if size = 0 then some (.read [],c)
  else if c.info.state = .Closed then some (.read [],c)
  else if c.pending ≠ [] then
    let n := min size c.pending.length
    some (.read (c.pending.take n),
      { c with
        pending := c.pending.drop n
        info.bytes_received := c.info.bytes_received + UInt64.ofNat n })
  else
    match c.rx.queue with
    | data :: queue =>
      let n := min size data.length
      some (.read (data.take n),
        { c with
          rx.queue := queue
          pending := if n < data.length then c.pending ++ data.drop n else c.pending
          info.bytes_received := c.info.bytes_received + UInt64.ofNat n })
    | [] => if sender ∧ !c.rx.closed then none else some (.read [],{ c with info.state := .Closed })

/-- A write by an end to the receiver of the other; it waits while the queue is full. -/
def InProcConnection.write_bytes (c : InProcConnection) (rx : Receiver) (capacity : Nat) (data : Bytes) :
    Option (Result × InProcConnection × Receiver) :=
  if !c.tx then some (.failed .ConnectionClosed,c,rx)
  else if c.info.state ≠ .Connected then some (.failed .ConnectionClosed,c,rx)
  else if data = [] then some (.written,c,rx)
  else
    match rx.send capacity data with
    | .waits => none
    | .receiver_gone => some (.failed (.ChannelError "receiver dropped"),c,rx)
    | .sent rx => some (.written,{ c with info.bytes_sent := c.info.bytes_sent + UInt64.ofNat data.length },rx)

/-- The bytes are copied first. -/
def InProcConnection.write (c : InProcConnection) (rx : Receiver) (capacity : Nat) (data : Bytes) :
    Option (Result × InProcConnection × Receiver) :=
  c.write_bytes rx capacity data

def InProcConnection.close (c : InProcConnection) : InProcConnection :=
  { c with
    info.state := .Closed
    rx.closed := true
    tx := false
    pending := [] }

/-- Both halves go with the connection. -/
def InProcConnection.drop (c : InProcConnection) : InProcConnection :=
  { c with
    rx.closed := true
    tx := false }

structure Pair where
  capacity : Nat
  conn : Side → InProcConnection
  dropped : Side → Bool

def InProcConnection.pair (capacity : Nat) : Pair :=
  ⟨capacity,fun _ => ⟨true,⟨[],false⟩,[],{ ConnectionInfo.new with state := .Connected }⟩,fun _ => false⟩

def Pair.set (p : Pair) (s : Side) (c : InProcConnection) : Pair := { p with conn := Function.update p.conn s c }

inductive Call where
  | write (data : Bytes)
  | write_bytes (data : Bytes)
  | read (size : Nat)
  | close
  | drop
deriving DecidableEq,Repr

abbrev Event := Side × Call

def Pair.write (p : Pair) (s : Side) (call : InProcConnection → Receiver → Nat → Bytes → Option (Result × InProcConnection × Receiver))
    (data : Bytes) : Option (Result × Pair) :=
  (call (p.conn s) (p.conn s.peer).rx p.capacity data).map fun (result,c,rx) =>
    (result,(p.set s c).set s.peer { p.conn s.peer with rx })

/-- What the call returns at once, if it does not wait. Nothing is called on an end that was dropped. -/
def outcome (p : Pair) : Event → Option (Result × Pair)
  | (s,call) =>
    if p.dropped s then none
    else
      match call with
      | .write data => p.write s InProcConnection.write data
      | .write_bytes data => p.write s InProcConnection.write_bytes data
      | .read size => ((p.conn s).read (p.conn s.peer).tx size).map fun (result,c) => (result,p.set s c)
      | .close => some (.closed,p.set s (p.conn s).close)
      | .drop => some (.dropped,{ p.set s (p.conn s).drop with dropped := Function.update p.dropped s true })

/-! ### Runs -/

abbrev History := List (Event × Result)

/-- The pair with the calls that have returned. A call that waits is made again as a later event. -/
structure World where
  pair : Pair
  history : History

def World.step (w : World) (event : Event) : World :=
  match outcome w.pair event with
  | none => w
  | some (result,pair) => ⟨pair,w.history ++ [(event,result)]⟩

def World.new (capacity : Nat) : World := ⟨InProcConnection.pair capacity,[]⟩

def Call.payload : Call → Bytes
  | .write data => data
  | .write_bytes data => data
  | .read _ => []
  | .close => []
  | .drop => []

/-- The call takes the end's sender away. -/
def Call.ends : Call → Bool
  | .close => true
  | .drop => true
  | _ => false

/-- The bytes of the successful writes of an end. -/
def written (s : Side) (history : History) : Bytes :=
  history.flatMap fun (event,result) => if event.1 = s ∧ result = .written then event.2.payload else []

/-- The bytes that the reads of an end returned. -/
def returned (s : Side) (history : History) : Bytes :=
  history.flatMap fun (event,result) =>
    match result with
    | .read bytes => if event.1 = s then bytes else []
    | _ => []

def Closed (s : Side) (history : History) : Prop := ∃ result, ((s,.close),result) ∈ history

def Dropped (s : Side) (history : History) : Prop := ∃ result, ((s,.drop),result) ∈ history

/-- How many reads into non-empty buffers an end makes. -/
def reads (s : Side) (events : List Event) : Nat :=
  events.countP fun
    | (t,.read size) => t = s ∧ 0 < size
    | _ => false

/-! ### What a call can do -/

/-- The bytes that were sent to an end and that its reads have not returned. -/
def InProcConnection.unread (c : InProcConnection) : Bytes := c.pending ++ c.rx.queue.flatten

/-- A read that returns bytes takes them from the front of what is unread and leaves the rest of the connection alone. -/
structure Takes (c : InProcConnection) (bytes : Bytes) (c' : InProcConnection) : Prop where
  front : c.unread = bytes ++ c'.unread
  queue : ∀ data ∈ c'.rx.queue, data ∈ c.rx.queue
  tx : c'.tx = c.tx
  closed : c'.rx.closed = c.rx.closed
  state : c'.info.state = c.info.state
  bytes_sent : c'.info.bytes_sent = c.info.bytes_sent
  bytes_received : c'.info.bytes_received = c.info.bytes_received + UInt64.ofNat bytes.length

/-- One constructor for each thing that a call of an end can do. -/
inductive Moves (p : Pair) (s : Side) : Call → Result → Pair → Prop where
  | refused {call : Call} {error : TransportError} : call.ends = false → Moves p s call (.failed error) p
  | wrote_nothing {call : Call} : (p.conn s).tx = true → call.ends = false → call.payload = [] → Moves p s call .written p
  | sent {call : Call} : (p.conn s).tx = true → call.ends = false → call.payload ≠ [] → (p.conn s.peer).rx.closed = false →
    Moves p s call .written ((p.set s { p.conn s with info.bytes_sent := (p.conn s).info.bytes_sent + UInt64.ofNat call.payload.length }).set s.peer
      { p.conn s.peer with rx.queue := (p.conn s.peer).rx.queue ++ [call.payload] })
  | read_nothing {size : Nat} : size = 0 ∨ (p.conn s).info.state = .Closed → Moves p s (.read size) (.read []) p
  | took {size : Nat} {bytes : Bytes} {c : InProcConnection} : bytes ≠ [] → (p.conn s).info.state ≠ .Closed → Takes (p.conn s) bytes c →
    Moves p s (.read size) (.read bytes) (p.set s c)
  | ended {size : Nat} : (p.conn s).unread = [] → (p.conn s.peer).tx = false ∨ (p.conn s).rx.closed = true →
    Moves p s (.read size) (.read []) (p.set s { p.conn s with info.state := .Closed })
  | closed : Moves p s .close .closed (p.set s (p.conn s).close)
  | dropped : Moves p s .drop .dropped { p.set s (p.conn s).drop with dropped := Function.update p.dropped s true }

@[simp] theorem Side.peer_peer (s : Side) : s.peer.peer = s := by cases s <;> rfl

theorem Side.peer_ne (s : Side) : s.peer ≠ s := by cases s <;> decide

theorem Side.cases (s t : Side) : t = s ∨ t = s.peer := by cases s <;> cases t <;> decide

section
variable {p : Pair} {s : Side}

@[simp] theorem Pair.set_self {c : InProcConnection} : (p.set s c).conn s = c := Function.update_self ..

@[simp] theorem Pair.set_peer {c : InProcConnection} : (p.set s c).conn s.peer = p.conn s.peer :=
  Function.update_of_ne s.peer_ne ..

@[simp] theorem Pair.set_of_peer {c : InProcConnection} : (p.set s.peer c).conn s = p.conn s :=
  Function.update_of_ne s.peer_ne.symm ..

@[simp] theorem Pair.set_dropped {c : InProcConnection} : (p.set s c).dropped = p.dropped := rfl

theorem Pair.set_same : (p.set s (p.conn s)) = p := by
  show { p with conn := _ } = p
  rw [Function.update_eq_self]

theorem read_moves {size : Nat} {result : Result} {c : InProcConnection} (full : ∀ data ∈ (p.conn s).rx.queue, data ≠ [])
    (out : (p.conn s).read (p.conn s.peer).tx size = some (result,c)) : Moves p s (.read size) result (p.set s c) := by
  unfold InProcConnection.read at out
  by_cases none : size = 0
  · rw [if_pos none] at out
    cases out
    rw [Pair.set_same]
    exact .read_nothing (.inl none)
  rw [if_neg none] at out
  by_cases shut : (p.conn s).info.state = .Closed
  · rw [if_pos shut] at out
    cases out
    rw [Pair.set_same]
    exact .read_nothing (.inr shut)
  rw [if_neg shut] at out
  by_cases left : (p.conn s).pending ≠ []
  · rw [if_pos left] at out
    cases out
    have some : 0 < (p.conn s).pending.length := List.length_pos_of_ne_nil left
    refine .took ?_ shut ⟨?_,fun _ inside => inside,rfl,rfl,rfl,rfl,?_⟩
    · apply List.ne_nil_of_length_pos
      rw [List.length_take]
      omega
    · show _ = _ ++ (_ ++ _)
      rw [← List.append_assoc,List.take_append_drop]
      rfl
    · simp only [List.length_take]
      congr 2
      omega
  rw [if_neg left] at out
  have nothing : (p.conn s).pending = [] := not_not.mp left
  cases arrived : (p.conn s).rx.queue with
  | cons data queue =>
    simp only [arrived] at out
    cases out
    have some : 0 < data.length := List.length_pos_of_ne_nil (full data (by simp [arrived]))
    refine .took ?_ shut ⟨?_,?_,rfl,rfl,rfl,rfl,?_⟩
    · apply List.ne_nil_of_length_pos
      rw [List.length_take]
      omega
    · have rest : (if min size data.length < data.length then (p.conn s).pending ++ data.drop (min size data.length) else (p.conn s).pending)
          = data.drop (min size data.length) := by
        split_ifs with more
        · rw [nothing,List.nil_append]
        · rw [nothing,List.drop_eq_nil_of_le (by omega)]
      simp only [InProcConnection.unread,arrived,nothing]
      rw [← nothing,rest,nothing,List.nil_append,List.flatten_cons,← List.append_assoc,List.take_append_drop]
    · intro other inside
      rw [arrived]
      exact List.mem_cons_of_mem _ inside
    · simp only [List.length_take]
      congr 2
      omega
  | nil =>
    simp only [arrived] at out
    split_ifs at out with open_
    cases out
    refine .ended (by simp [InProcConnection.unread,nothing,arrived]) ?_
    cases sender : (p.conn s.peer).tx <;> cases closed : (p.conn s).rx.closed <;> simp_all

theorem write_moves (call : Call) {result : Result} {p' : Pair} (writes : call.ends = false)
    (out : p.write s InProcConnection.write_bytes call.payload = some (result,p')) : Moves p s call result p' := by
  obtain ⟨⟨r,c,rx⟩,called,same⟩ := Option.map_eq_some_iff.mp out
  cases same
  have still : (p.set s (p.conn s)).set s.peer { p.conn s.peer with rx := (p.conn s.peer).rx } = p := by
    rw [Pair.set_same]
    exact Pair.set_same
  unfold InProcConnection.write_bytes at called
  split_ifs at called with gone shut empty
  · cases called
    rw [still]
    exact .refused writes
  · cases called
    rw [still]
    exact .refused writes
  · cases called
    rw [still]
    exact .wrote_nothing (by simpa using gone) writes empty
  · unfold Receiver.send at called
    by_cases closed : (p.conn s.peer).rx.closed = true
    · simp only [closed,if_true] at called
      cases called
      rw [still]
      exact .refused writes
    · rw [if_neg closed] at called
      split_ifs at called with room
      cases called
      exact .sent (by simpa using gone) writes empty (by simpa using closed)

theorem outcome_moves {call : Call} {result : Result} {p' : Pair} (full : ∀ data ∈ (p.conn s).rx.queue, data ≠ [])
    (out : outcome p (s,call) = some (result,p')) : p.dropped s = false ∧ Moves p s call result p' := by
  simp only [outcome] at out
  split_ifs at out with gone
  refine ⟨by simpa using gone,?_⟩
  cases call with
  | write data => exact write_moves (.write data) rfl out
  | write_bytes data => exact write_moves (.write_bytes data) rfl out
  | read size =>
    obtain ⟨⟨r,c⟩,called,same⟩ := Option.map_eq_some_iff.mp out
    cases same
    exact read_moves full called
  | close =>
    cases out
    exact .closed
  | drop =>
    cases out
    exact .dropped

end

/-! ### What has been returned is the start of what was written -/

/-- How an end, the other end, the bytes that the other end sent and those that this one returned belong together. -/
structure Joined (c d : InProcConnection) (sent got : Bytes) : Prop where
  whole : c.tx = true → sent = got ++ c.unread
  kept : got <+: sent
  finished : c.tx = true → c.info.state = .Closed → d.tx = false ∧ c.unread = []
  full : ∀ data ∈ c.rx.queue, data ≠ []
  closed : c.rx.closed = !c.tx
  received : c.info.bytes_received = UInt64.ofNat got.length
  sent : d.info.bytes_sent = UInt64.ofNat sent.length

section
variable {c c' d d' : InProcConnection} {sent got bytes : Bytes}

theorem Joined.took (joined : Joined c d sent got) (open_ : c.info.state ≠ .Closed) (tx : c.tx = true) (takes : Takes c bytes c') :
    Joined c' d sent (got ++ bytes) where
  whole _ := by rw [joined.whole tx,takes.front,List.append_assoc]
  kept := by
    rw [joined.whole tx,takes.front,← List.append_assoc]
    exact List.prefix_append ..
  finished _ shut := absurd (takes.state ▸ shut) open_
  full data inside := joined.full data (takes.queue data inside)
  closed := by rw [takes.closed,takes.tx,joined.closed]
  received := by rw [takes.bytes_received,joined.received,List.length_append,UInt64.ofNat_add]
  sent := joined.sent

/-- The end of the stream was reached. -/
theorem Joined.ended (joined : Joined c d sent got) (nothing : c.unread = []) (departed : d.tx = false ∨ c.rx.closed = true) :
    Joined { c with info.state := .Closed } d sent got where
  whole := joined.whole
  kept := joined.kept
  finished tx _ := by
    refine ⟨?_,nothing⟩
    rcases departed with gone | shut
    · exact gone
    · rw [joined.closed,show c.tx = true from tx] at shut
      cases shut
  full := joined.full
  closed := joined.closed
  received := joined.received
  sent := joined.sent

/-- The end leaves; what it has not read is lost. -/
theorem Joined.left (joined : Joined c d sent got) (tx : c'.tx = false) (closed : c'.rx.closed = true) (queue : c'.rx.queue = c.rx.queue)
    (received : c'.info.bytes_received = c.info.bytes_received) : Joined c' d sent got where
  whole still := absurd (tx ▸ still) (by decide)
  kept := joined.kept
  finished still := absurd (tx ▸ still) (by decide)
  full := queue ▸ joined.full
  closed := by rw [tx,closed]; rfl
  received := received.trans joined.received
  sent := joined.sent

/-- The other end changes, but sends nothing. -/
theorem Joined.other (joined : Joined c d sent got) (tx : d'.tx = d.tx ∨ d'.tx = false) (sent_same : d'.info.bytes_sent = d.info.bytes_sent) :
    Joined c d' sent got where
  whole := joined.whole
  kept := joined.kept
  finished still shut := by
    obtain ⟨gone,nothing⟩ := joined.finished still shut
    refine ⟨?_,nothing⟩
    rcases tx with same | left
    · rw [same,gone]
    · exact left
  full := joined.full
  closed := joined.closed
  received := joined.received
  sent := sent_same.trans joined.sent

theorem Joined.sent_more (joined : Joined c d sent got) (tx : d.tx = true) (some : bytes ≠ []) :
    Joined { c with rx.queue := c.rx.queue ++ [bytes] } { d with info.bytes_sent := d.info.bytes_sent + UInt64.ofNat bytes.length }
      (sent ++ bytes) got where
  whole still := by simp [joined.whole still,InProcConnection.unread]
  kept := joined.kept.trans (List.prefix_append ..)
  finished still shut := by
    have gone := (joined.finished still shut).1
    rw [tx] at gone
    cases gone
  full data inside := by
    rcases List.mem_append.mp inside with before | new
    · exact joined.full data before
    · rw [List.mem_singleton.mp new]
      exact some
  closed := joined.closed
  received := joined.received
  sent := by
    show d.info.bytes_sent + _ = _
    rw [joined.sent,List.length_append,UInt64.ofNat_add]

end

theorem written_snoc (t s : Side) (call : Call) (result : Result) (history : History) :
    written t (history ++ [((s,call),result)]) = written t history ++ if s = t ∧ result = .written then call.payload else [] := by
  simp [written]

theorem returned_snoc (t s : Side) (call : Call) (result : Result) (history : History) :
    returned t (history ++ [((s,call),result)]) = returned t history ++
      match result with
      | .read bytes => if s = t then bytes else []
      | _ => [] := by
  simp only [returned,List.flatMap_append,List.flatMap_singleton]

theorem closed_snoc {t s : Side} {call : Call} {result : Result} {history : History} :
    Closed t (history ++ [((s,call),result)]) ↔ Closed t history ∨ t = s ∧ call = .close := by
  simp only [Closed,List.mem_append,List.mem_singleton,Prod.mk.injEq,exists_or]
  constructor
  · rintro (before | ⟨_,⟨here,same⟩,-⟩)
    · exact .inl before
    · exact .inr ⟨here,same.symm⟩
  · rintro (before | ⟨here,same⟩)
    · exact .inl before
    · exact .inr ⟨result,⟨here,same.symm⟩,rfl⟩

theorem dropped_snoc {t s : Side} {call : Call} {result : Result} {history : History} :
    Dropped t (history ++ [((s,call),result)]) ↔ Dropped t history ∨ t = s ∧ call = .drop := by
  simp only [Dropped,List.mem_append,List.mem_singleton,Prod.mk.injEq,exists_or]
  constructor
  · rintro (before | ⟨_,⟨here,same⟩,-⟩)
    · exact .inl before
    · exact .inr ⟨here,same.symm⟩
  · rintro (before | ⟨here,same⟩)
    · exact .inl before
    · exact .inr ⟨result,⟨here,same.symm⟩,rfl⟩

structure Sound (w : World) : Prop where
  joined : ∀ s, Joined (w.pair.conn s) (w.pair.conn s.peer) (written s.peer w.history) (returned s w.history)
  gone : ∀ s, (w.pair.conn s).tx = false ↔ Closed s w.history ∨ Dropped s w.history
  shut : ∀ s, (w.pair.conn s).tx = false → w.pair.dropped s = false → (w.pair.conn s).info.state = .Closed
  dropped : ∀ s, w.pair.dropped s = true ↔ Dropped s w.history

section
variable {p p' : Pair} {history : History} {s : Side} {call : Call} {result : Result}

theorem Sound.new (capacity : Nat) : Sound (World.new capacity) where
  joined s := by
    refine ⟨fun _ => rfl,List.prefix_rfl,?_,?_,rfl,rfl,rfl⟩
    · intro _ shut
      cases shut
    · intro data inside
      cases inside
  gone s := by
    constructor
    · intro gone
      cases gone
    · rintro (⟨_,inside⟩ | ⟨_,inside⟩) <;> cases inside
  shut s gone := by cases gone
  dropped s := by
    constructor
    · intro dropped
      cases dropped
    · rintro ⟨_,inside⟩
      cases inside

/-- A call that does not end its side keeps what the ends and the history say of closes and drops. -/
theorem Sound.stays (sound : Sound ⟨p,history⟩) (stays : call.ends = false) (tx : ∀ t, (p'.conn t).tx = (p.conn t).tx)
    (dropped : p'.dropped = p.dropped) (state : ∀ t, (p.conn t).info.state = .Closed → (p'.conn t).info.state = .Closed)
    (joined : ∀ t, Joined (p'.conn t) (p'.conn t.peer) (written t.peer (history ++ [((s,call),result)])) (returned t (history ++ [((s,call),result)]))) :
    Sound ⟨p',history ++ [((s,call),result)]⟩ where
  joined := joined
  gone t := by
    rw [tx,closed_snoc,dropped_snoc]
    have not_close : call ≠ .close := by rintro rfl; cases stays
    have not_drop : call ≠ .drop := by rintro rfl; cases stays
    simpa [not_close,not_drop] using sound.gone t
  shut t gone kept := by
    rw [tx] at gone
    rw [dropped] at kept
    exact state t (sound.shut t gone kept)
  dropped t := by
    have not_drop : call ≠ .drop := by rintro rfl; cases stays
    rw [dropped,dropped_snoc]
    simpa [not_drop] using sound.dropped t

/-- A call that changes nothing and moves no bytes. -/
theorem Sound.same (sound : Sound ⟨p,history⟩) (stays : call.ends = false) (wrote : result = .written → call.payload = [])
    (read : ∀ bytes, result = .read bytes → bytes = []) : Sound ⟨p,history ++ [((s,call),result)]⟩ := by
  apply sound.stays stays (fun _ => rfl) rfl (fun _ => id)
  intro t
  have no_bytes : (match result with | .read bytes => if s = t then bytes else [] | _ => []) = [] := by
    cases result with
    | read bytes => simp [read bytes rfl]
    | _ => rfl
  have nothing : (if s = t.peer ∧ result = .written then call.payload else []) = [] := by
    split_ifs with both
    · exact wrote both.2
    · rfl
  rw [written_snoc,returned_snoc,no_bytes,nothing,List.append_nil,List.append_nil]
  exact sound.joined t

/-- A change of one end, seen from both. -/
theorem joined_set {c : InProcConnection} (sent got : Side → Bytes) (own : Joined c (p.conn s.peer) (sent s.peer) (got s))
    (other : Joined (p.conn s.peer) c (sent s) (got s.peer)) (t : Side) : Joined ((p.set s c).conn t) ((p.set s c).conn t.peer) (sent t.peer) (got t) := by
  rcases s.cases t with rfl | rfl
  · rw [Pair.set_self,Pair.set_peer]
    exact own
  · rw [Side.peer_peer,Pair.set_self,Pair.set_peer]
    exact other

/-- A change of one end that sends nothing and leaves its sender, seen from both ends. -/
theorem Sound.set {c : InProcConnection} {bytes : Bytes} (sound : Sound ⟨p,history⟩) (stays : call.ends = false) (result_eq : result = .read bytes)
    (tx : c.tx = (p.conn s).tx) (sent : c.info.bytes_sent = (p.conn s).info.bytes_sent)
    (state : (p.conn s).info.state = .Closed → c.info.state = .Closed)
    (own : Joined c (p.conn s.peer) (written s.peer history) (returned s history ++ bytes)) : Sound ⟨p.set s c,history ++ [((s,call),result)]⟩ := by
  have other := sound.joined s.peer
  rw [Side.peer_peer] at other
  apply sound.stays stays
  · intro t
    rcases s.cases t with rfl | rfl
    · rw [Pair.set_self,tx]
    · rw [Pair.set_peer]
  · rfl
  · intro t
    rcases s.cases t with rfl | rfl
    · rw [Pair.set_self]
      exact state
    · rw [Pair.set_peer]
      exact id
  · apply joined_set (fun t => written t (history ++ [((s,call),result)])) fun t => returned t (history ++ [((s,call),result)])
    · simpa [written_snoc,returned_snoc,result_eq] using own
    · simpa [written_snoc,returned_snoc,result_eq,s.peer_ne.symm] using other.other (.inl tx) sent

theorem Sound.left {c : InProcConnection} {p' : Pair} (sound : Sound ⟨p,history⟩) (conn : p'.conn = (p.set s c).conn)
    (tx : c.tx = false) (closed : c.rx.closed = true) (queue : c.rx.queue = (p.conn s).rx.queue)
    (sent : c.info.bytes_sent = (p.conn s).info.bytes_sent) (received : c.info.bytes_received = (p.conn s).info.bytes_received)
    (quiet : result ≠ .written ∧ ∀ bytes, result ≠ .read bytes) (t : Side) :
    Joined (p'.conn t) (p'.conn t.peer) (written t.peer (history ++ [((s,call),result)])) (returned t (history ++ [((s,call),result)])) := by
  have own := sound.joined s
  have other := sound.joined s.peer
  rw [Side.peer_peer] at other
  have no_bytes : ∀ t, returned t (history ++ [((s,call),result)]) = returned t history := by
    intro t
    rw [returned_snoc]
    cases result with
    | read bytes => exact absurd rfl (quiet.2 bytes)
    | _ => exact List.append_nil _
  have nothing : ∀ t, written t (history ++ [((s,call),result)]) = written t history := fun t => by simp [written_snoc,quiet.1]
  rw [conn,nothing,no_bytes]
  exact joined_set (fun t => written t history) (fun t => returned t history) (own.left tx closed queue received)
    (other.other (.inr tx) sent) t

theorem Sound.moves (sound : Sound ⟨p,history⟩) (here : p.dropped s = false) (moves : Moves p s call result p') :
    Sound ⟨p',history ++ [((s,call),result)]⟩ := by
  have own := sound.joined s
  have other := sound.joined s.peer
  rw [Side.peer_peer] at other
  cases moves with
  | refused stays => exact sound.same stays (by simp) (by simp)
  | wrote_nothing _ stays nothing => exact sound.same stays (fun _ => nothing) (by simp)
  | read_nothing _ => exact sound.same rfl (by simp) (by simp)
  | sent tx stays some _ =>
    apply sound.stays stays
    · intro t
      rcases s.cases t with rfl | rfl <;> simp
    · rfl
    · intro t
      rcases s.cases t with rfl | rfl <;> simp
    · intro t
      rcases s.cases t with rfl | rfl
      · have quiet : Joined (p.conn t) { p.conn t.peer with rx.queue := (p.conn t.peer).rx.queue ++ [call.payload] } _ _ := own.other (.inl rfl) rfl
        simpa [written_snoc,returned_snoc,t.peer_ne.symm] using
          (⟨quiet.whole,quiet.kept,quiet.finished,quiet.full,quiet.closed,quiet.received,quiet.sent⟩ :
            Joined { p.conn t with info.bytes_sent := (p.conn t).info.bytes_sent + UInt64.ofNat call.payload.length } _ _ _)
      · simpa [written_snoc,returned_snoc] using other.sent_more tx some
  | took some open_ takes =>
    have tx : (p.conn s).tx = true := by
      by_contra gone
      exact open_ (sound.shut s (by simpa using gone) here)
    exact sound.set rfl rfl takes.tx takes.bytes_sent (fun shut => absurd shut open_) (own.took open_ tx takes)
  | ended nothing departed =>
    exact sound.set rfl rfl rfl rfl (fun _ => rfl) (by simpa using own.ended nothing departed)
  | closed =>
    refine ⟨sound.left rfl rfl rfl rfl rfl rfl (by simp),?_,?_,?_⟩
    · intro t
      rw [closed_snoc,dropped_snoc]
      rcases s.cases t with rfl | rfl
      · simp [InProcConnection.close]
      · simpa [s.peer_ne] using sound.gone s.peer
    · intro t gone kept
      rcases s.cases t with rfl | rfl
      · simp [InProcConnection.close]
      · rw [Pair.set_peer] at gone ⊢
        exact sound.shut s.peer gone kept
    · intro t
      rw [dropped_snoc]
      simpa using sound.dropped t
  | dropped =>
    refine ⟨sound.left rfl rfl rfl rfl rfl rfl (by simp),?_,?_,?_⟩
    · intro t
      rw [closed_snoc,dropped_snoc]
      rcases s.cases t with rfl | rfl
      · simp [InProcConnection.drop,Pair.set]
      · simpa [s.peer_ne,Pair.set] using sound.gone s.peer
    · intro t gone kept
      rcases s.cases t with rfl | rfl
      · simp at kept
      · simp only [Pair.set,Function.update_of_ne s.peer_ne] at gone kept ⊢
        exact sound.shut s.peer gone kept
    · intro t
      rw [dropped_snoc]
      rcases s.cases t with rfl | rfl
      · simp
      · simpa [s.peer_ne] using sound.dropped s.peer

theorem Sound.step {w : World} (sound : Sound w) (event : Event) : Sound (w.step event) := by
  obtain ⟨s,call⟩ := event
  unfold World.step
  cases out : outcome w.pair (s,call) with
  | none => exact sound
  | some made =>
    obtain ⟨result,pair⟩ := made
    obtain ⟨here,moves⟩ := outcome_moves (sound.joined s).full out
    exact sound.moves here moves

end

/-! ### Ends of streams -/

def Gone (s : Side) (history : History) : Prop := Closed s history ∨ Dropped s history

theorem gone_snoc {t s : Side} {call : Call} {result : Result} {history : History} :
    Gone t (history ++ [((s,call),result)]) ↔ Gone t history ∨ t = s ∧ call.ends = true := by
  rw [Gone,closed_snoc,dropped_snoc,Gone]
  cases call <;> simp [Call.ends] <;> tauto

section
variable {w : World} {s : Side} {call : Call} {p' : Pair}

theorem Sound.here (sound : Sound w) (open_ : ¬ Gone s w.history) : w.pair.dropped s = false := by
  by_contra gone
  exact open_ (.inr ((sound.dropped s).mp (by simpa using gone)))

/-- A read of nothing into a buffer is the end of the stream. -/
theorem Sound.ended (sound : Sound w) {size : Nat} (buffer : 0 < size) (out : outcome w.pair (s,.read size) = some (.read [],p')) :
    Closed s w.history ∨ returned s w.history = written s.peer w.history ∧ Gone s.peer w.history := by
  obtain ⟨here,moves⟩ := outcome_moves (sound.joined s).full out
  have other_gone : (w.pair.conn s.peer).tx = false → Gone s.peer w.history := (sound.gone s.peer).mp
  by_cases open_ : (w.pair.conn s).tx = true
  · right
    have whole := (sound.joined s).whole open_
    cases moves with
    | read_nothing why =>
      rcases why with none | shut
      · omega
      · obtain ⟨gone,nothing⟩ := (sound.joined s).finished open_ shut
        exact ⟨by rw [whole,nothing,List.append_nil],other_gone gone⟩
    | took some _ _ => exact absurd rfl some
    | ended nothing departed =>
      rw [(sound.joined s).closed,open_] at departed
      exact ⟨by rw [whole,nothing,List.append_nil],other_gone (departed.resolve_right (by decide))⟩
  · left
    rcases (sound.gone s).mp (by simpa using open_) with closed | dropped
    · exact closed
    · rw [(sound.dropped s).mpr dropped] at here
      cases here

theorem Sound.no_write (sound : Sound w) (gone : Gone s w.history) : outcome w.pair (s,call) ≠ some (.written,p') := by
  intro out
  have closed := (sound.gone s).mpr gone
  cases (outcome_moves (sound.joined s).full out).2 with
  | wrote_nothing tx => exact absurd tx (by simp [closed])
  | sent tx => exact absurd tx (by simp [closed])

theorem read_returns (c : InProcConnection) (size : Nat) : ∃ bytes c', c.read false size = some (.read bytes,c') := by
  rw [InProcConnection.read]
  split
  · exact ⟨_,_,rfl⟩
  split
  · exact ⟨_,_,rfl⟩
  split
  · exact ⟨_,_,rfl⟩
  cases c.rx.queue with
  | nil => exact ⟨_,_,if_neg (by simp)⟩
  | cons data queue => exact ⟨_,_,rfl⟩

/-- What holds from the close of one end on until the other leaves too. -/
structure Draining (s : Side) (sent : Bytes) (w : World) : Prop where
  sound : Sound w
  open_ : ¬ Gone s w.history
  departed : Gone s.peer w.history
  sent : written s.peer w.history = sent

theorem Draining.step {sent : Bytes} (draining : Draining s sent w) {event : Event} (stays : ∀ call, event = (s,call) → call.ends = false) :
    Draining s sent (w.step event) := by
  obtain ⟨t,call⟩ := event
  have sound := draining.sound.step (t,call)
  unfold World.step at sound ⊢
  cases out : outcome w.pair (t,call) with
  | none => exact draining
  | some made =>
    obtain ⟨result,pair⟩ := made
    simp only [out] at sound
    refine ⟨sound,?_,?_,?_⟩
    · rw [gone_snoc]
      rintro (before | ⟨rfl,ends⟩)
      · exact draining.open_ before
      · rw [stays call rfl] at ends
        cases ends
    · rw [gone_snoc]
      exact .inl draining.departed
    · show written s.peer (w.history ++ [((t,call),result)]) = sent
      rw [written_snoc,if_neg,List.append_nil,draining.sent]
      rintro ⟨rfl,rfl⟩
      exact draining.sound.no_write draining.departed out

theorem reads_cons (event : Event) (events : List Event) : reads s (event :: events) = reads s events + reads s [event] := by
  rw [reads,reads,reads,List.countP_cons,List.countP_singleton]

/-- Each read into a buffer returns at least one byte more, or all have been returned. -/
theorem Draining.progress {sent : Bytes} (draining : Draining s sent w) (event : Event) :
    sent.length ≤ (returned s (w.step event).history).length ∨
    (returned s w.history).length + reads s [event] ≤ (returned s (w.step event).history).length := by
  have more : ∀ event, (returned s w.history).length ≤ (returned s (w.step event).history).length := by
    intro event
    unfold World.step
    cases outcome w.pair event with
    | none => exact Nat.le_refl _
    | some made =>
      rw [returned_snoc,List.length_append]
      omega
  by_cases reading : ∃ size, event = (s,.read size) ∧ 0 < size
  · obtain ⟨size,rfl,buffer⟩ := reading
    have one : reads s [(s,.read size)] = 1 := by simp [reads,buffer]
    have gone : (w.pair.conn s.peer).tx = false := (draining.sound.gone s.peer).mpr draining.departed
    obtain ⟨bytes,c,read⟩ := read_returns (w.pair.conn s) size
    have out : outcome w.pair (s,.read size) = some (.read bytes,w.pair.set s c) := by
      simp [outcome,draining.sound.here draining.open_,gone,read]
    have after : returned s (w.step (s,.read size)).history = returned s w.history ++ bytes := by
      simp [World.step,out,returned_snoc]
    rw [after,one,List.length_append]
    cases bytes with
    | nil =>
      left
      rcases draining.sound.ended buffer out with closed | ⟨all,-⟩
      · exact absurd (.inl closed) draining.open_
      · rw [all,draining.sent]
        simp
    | cons byte bytes =>
      right
      simp
  · right
    have none : reads s [event] = 0 := by
      rw [reads,List.countP_singleton]
      obtain ⟨t,call⟩ := event
      cases call with
      | read size =>
        rw [if_neg]
        intro both
        obtain ⟨here,buffer⟩ := of_decide_eq_true both
        exact reading ⟨size,by rw [here],buffer⟩
      | _ => rfl
    rw [none]
    exact more event

theorem Draining.run {sent : Bytes} (draining : Draining s sent w) {events : List Event} (stays : ∀ call, (s,call) ∈ events → call.ends = false)
    (enough : sent.length ≤ (returned s w.history).length + reads s events) : returned s (run World.step w events).history = sent := by
  induction events generalizing w with
  | nil =>
    have kept := (draining.sound.joined s).kept
    rw [draining.sent] at kept
    exact kept.eq_of_length_le enough
  | cons event events ih =>
    have next := draining.step fun call same => stays call (same ▸ List.mem_cons_self)
    apply ih next fun call inside => stays call (List.mem_cons_of_mem _ inside)
    rw [reads_cons] at enough
    rcases draining.progress event <;> omega

end

/-- In every run, and for each end: its reads return the start of what the successful writes of the other end hold; a read into a buffer
returns nothing only after a close of its own, or when all was returned and the other end has left; once the other end has left, as many
reads as there are bytes left return them all; no write succeeds after a close; and the counts are exact, as far as 64 bits count. -/
theorem stream_exact (capacity : Nat) (events : List Event) (s : Side) :
    let w := run World.step (World.new capacity) events
    returned s w.history <+: written s.peer w.history ∧
    (∀ size p', 0 < size → outcome w.pair (s,.read size) = some (.read [],p') →
      Closed s w.history ∨ returned s w.history = written s.peer w.history ∧ Gone s.peer w.history) ∧
    (∀ more, Gone s.peer w.history → ¬ Gone s w.history → (∀ call, (s,call) ∈ more → call.ends = false) →
      (written s.peer w.history).length ≤ (returned s w.history).length + reads s more →
      returned s (run World.step w more).history = written s.peer w.history) ∧
    (∀ call p', Closed s w.history → outcome w.pair (s,call) ≠ some (.written,p')) ∧
    (w.pair.conn s).info.bytes_sent.toNat = (written s w.history).length % 2^64 ∧
    (w.pair.conn s).info.bytes_received.toNat = (returned s w.history).length % 2^64 := by
  intro w
  have sound : Sound w := invariant (I := Sound) (fun _ event sound => sound.step event) (Sound.new capacity) events
  refine ⟨(sound.joined s).kept,?_,?_,?_,?_,?_⟩
  · intro size p' buffer out
    exact sound.ended buffer out
  · intro more departed open_ stays enough
    exact (Draining.mk sound open_ departed rfl).run stays enough
  · intro call p' closed
    exact sound.no_write (.inl closed)
  · have sent := (sound.joined s.peer).sent
    rw [Side.peer_peer] at sent
    rw [sent,UInt64.toNat_ofNat']
  · rw [(sound.joined s).received,UInt64.toNat_ofNat']

/-! ### The counts wrap -/

/-- One end writes a byte and the other reads it, many times over. -/
def rounds : Nat → List Event
  | 0 => []
  | n + 1 => rounds n ++ [(.a,.write [0]),(.b,.read 1)]

/-- Both ends are there, and all was read. -/
structure Idle (w : World) : Prop where
  here : w.pair.dropped = fun _ => false
  sender : (w.pair.conn .a).tx = true
  connected : ∀ s, (w.pair.conn s).info.state = .Connected
  receiver : (w.pair.conn .b).rx = ⟨[],false⟩
  pending : (w.pair.conn .b).pending = []
  capacity : 0 < w.pair.capacity

theorem Idle.round {w : World} (idle : Idle w) : Idle ((w.step (.a,.write [0])).step (.b,.read 1)) ∧
    (written .a ((w.step (.a,.write [0])).step (.b,.read 1)).history).length = (written .a w.history).length + 1 := by
  obtain ⟨p,history⟩ := w
  obtain ⟨here,sender,connected,receiver,pending,room⟩ := idle
  let full := (p.set .a { p.conn .a with info.bytes_sent := (p.conn .a).info.bytes_sent + 1 }).set .b { p.conn .b with rx := ⟨[[0]],false⟩ }
  let empty := full.set .b { p.conn .b with rx := ⟨[],false⟩, info.bytes_received := (p.conn .b).info.bytes_received + 1 }
  have sent : outcome p (.a,.write [0]) = some (.written,full) := by
    simp only at here sender connected receiver room
    simp [outcome,here,Pair.write,InProcConnection.write,InProcConnection.write_bytes,sender,connected,Side.peer,receiver,Receiver.send,room,full]
  have read : outcome full (.b,.read 1) = some (.read [0],empty) := by
    simp only at here connected pending
    simp [outcome,full,here,InProcConnection.read,connected,pending,empty]
  have done : ((World.mk p history).step (.a,.write [0])).step (.b,.read 1) =
      ⟨empty,history ++ ([((.a,.write [0]),.written)] : History) ++ ([((.b,.read 1),.read [0])] : History)⟩ := by
    simp [World.step,sent,read]
  have conn_a : empty.conn .a = { p.conn .a with info.bytes_sent := (p.conn .a).info.bytes_sent + 1 } := by simp [empty,full,Pair.set]
  have conn_b : empty.conn .b = { p.conn .b with rx := ⟨[],false⟩, info.bytes_received := (p.conn .b).info.bytes_received + 1 } := by simp [empty]
  rw [done]
  constructor
  · refine ⟨here,?_,?_,?_,?_,room⟩
    · rw [conn_a]
      exact sender
    · intro s
      cases s with
      | a => rw [conn_a]; exact connected .a
      | b => rw [conn_b]; exact connected .b
    · rw [conn_b]
    · rw [conn_b]
      exact pending
  · simp [written,Call.payload]

theorem rounds_idle (n : Nat) : Idle (run World.step (World.new 16) (rounds n)) ∧
    (written .a (run World.step (World.new 16) (rounds n)).history).length = n := by
  induction n with
  | zero => exact ⟨⟨rfl,rfl,fun _ => rfl,rfl,rfl,by decide⟩,rfl⟩
  | succ n ih =>
    rw [rounds,run_append]
    obtain ⟨idle,count⟩ := ih.1.round
    exact ⟨idle,by rw [ih.2] at count; exact count⟩

theorem rounds_count (n : Nat) : ((run World.step (World.new 16) (rounds n)).pair.conn .a).info.bytes_sent = UInt64.ofNat n := by
  have sound : Sound (run World.step (World.new 16) (rounds n)) := invariant (I := Sound) (fun _ event sound => sound.step event) (Sound.new 16) _
  have sent := (sound.joined .b).sent
  rw [show Side.peer .b = .a from rfl,(rounds_idle n).2] at sent
  exact sent

/-- After 2^64 bytes the count of the bytes sent is 0. -/
theorem sent_count_wraps : ∃ events,
    (written .a (run World.step (World.new 16) events).history).length = 2^64 ∧
    ((run World.step (World.new 16) events).pair.conn .a).info.bytes_sent.toNat ≠ (written .a (run World.step (World.new 16) events).history).length := by
  refine ⟨rounds (2^64),(rounds_idle _).2,?_⟩
  rw [(rounds_idle _).2,rounds_count]
  decide

end Daf.ByteStreams
