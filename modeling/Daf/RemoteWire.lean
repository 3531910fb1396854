import Daf.Runs
import Daf.WireCodec

/-!
The exchange of one JSON value in one DDAL frame between a remote worker and its client. The reader asks
the connection for no more bytes than its frame limit leaves room for and decodes after every read. The
connection is an ordered byte stream, of which a read gets any part that has arrived; JSON is a parameter.
-/
namespace Daf.RemoteWire
open Daf.WireProtocol Daf.WireCodec Daf.Incremental Daf.Runs

inductive ProtocolError where
  | codec (error : DdalCodecError)
  | json (error : String)
  | connection
  | text (reason : String)
deriving DecidableEq,Repr

inductive RemoteError where
  | Configuration (reason : String)
  | Protocol (error : ProtocolError)
  | Timeout
  | Rejected (reason : String)
deriving DecidableEq,Repr

/-- The checks of an endpoint's configuration. Whether the clock can represent the deadline is for the platform to say. -/
def validate (loopback tls : Bool) (timeout : Nat) (representable : Bool) (cap : Nat) : Except RemoteError Unit :=
  if ¬ loopback ∧ ¬ tls then .error (.Configuration "TLS required outside loopback") else
  if timeout = 0 ∨ ¬ representable ∨ cap ≤ HEADER_SIZE ∨ cap > HEADER_SIZE + MAX_PAYLOAD_SIZE.toNat then
    .error (.Configuration "positive timeout and bounded frame size required") else .ok ()

/-- The JSON texts of the values of a type. -/
structure JsonText (T : Type) where
  to_vec : T → Except String Bytes
  from_slice : Bytes → Except String T

/-! ### The connection -/

/-- What the peer has sent so far, how much of it was read, and how the peer's side ended. -/
structure Connection where
  stream : Bytes := []
  taken : Nat := 0
  closed : Bool := false
  reset : Bool := false
deriving DecidableEq,Repr

def Connection.received (conn : Connection) : Bytes := conn.stream.take conn.taken
def Connection.pending (conn : Connection) : Bytes := conn.stream.drop conn.taken

inductive Received where
  | waits
  | fails
  | bytes (chunk : Bytes)
deriving DecidableEq,Repr

/-- One read into a slice of `room` bytes. The network chooses how many of the pending bytes it gets, at least
    one if there is one; no bytes mean that the peer has closed, or that the slice is empty. -/
def Connection.read (conn : Connection) (room n : Nat) : Received × Connection :=
  if conn.reset then (.fails,conn) else
  if conn.pending = [] then (if conn.closed then .bytes [] else .waits,conn) else
  let chunk := conn.pending.take (min (n+1) room)
  (.bytes chunk,{ conn with taken := conn.taken + chunk.length })

/-! ### Writing and reading a value -/

/-- The bytes that `write_json` hands to the connection. -/
def write_json {T : Type} (blake3 : Hash) (serde : JsonText T) (cap : Nat) (value : T) : Except RemoteError Bytes :=
  match serde.to_vec value with
  | .error e => .error (.Protocol (.json e))
  | .ok payload =>
    if payload.length > cap - HEADER_SIZE then .error (.Protocol (.text "frame size exceeded")) else
    match (DdalCodec.mk cap).encode blake3 (Frame.data blake3 1 payload) [] with
    | (.error e,_) => .error (.Protocol (.codec e))
    | (.ok (),bytes) => .ok bytes

/-- Where `read_json` is in its loop: before it decodes what it has buffered, waiting for the connection, or returned. -/
inductive Reader (T : Type) where
  | decoding (bytes : Bytes)
  | receiving (bytes : Bytes)
  | returned (result : Except RemoteError T)

/-- The length of the slice that `read_json` reads into. -/
def room (cap : Nat) (bytes : Bytes) : Int := min ((cap : Int) - bytes.length) 4096

section
variable {T : Type} (blake3 : Hash) (serde : JsonText T) (cap : Nat)

/-- What `read_json` makes of the first frame. -/
def parse (frame : Frame) : Except RemoteError T :=
  if frame.frame_type ≠ .Data ∨ frame.stream_id ≠ 1 ∨ frame.flags ≠ 0 then .error (.Protocol (.text "unsupported remote frame")) else
  match serde.from_slice frame.payload with
  | .ok value => .ok value
  | .error e => .error (.Protocol (.json e))

def decodeBuffered (bytes : Bytes) : Reader T :=
  match (DdalCodec.mk cap).decode blake3 bytes with
  | (.error e,_) => .returned (.error (.Protocol (.codec e)))
  | (.ok (some frame),_) => .returned (parse serde frame)
  | (.ok none,rest) => if rest.length ≥ cap then .returned (.error (.Protocol (.text "frame size exceeded"))) else .receiving rest

def receive (bytes : Bytes) : Received → Reader T
  | .waits => .receiving bytes
  | .fails => .returned (.error (.Protocol .connection))
  | .bytes [] => .returned (.error (.Protocol (.text "peer closed before reply")))
  | .bytes chunk => .decoding (bytes ++ chunk)

/-- A call of `read_json` and its connection. -/
structure Reading (T : Type) where
  conn : Connection := {}
  reader : Reader T := .decoding []

/-- One step of `read_json`; `n` is the network's choice if the step reads. -/
def Reading.proceed (r : Reading T) (n : Nat) : Reading T :=
  match r.reader with
  | .decoding bytes => { r with reader := decodeBuffered blake3 serde cap bytes }
  | .receiving bytes => ⟨(r.conn.read (room cap bytes).toNat n).2,receive bytes (r.conn.read (room cap bytes).toNat n).1⟩
  | .returned _ => r

/-- What the peer does: it sends bytes until it closes, or the connection is reset. -/
inductive Peer where
  | sends (bytes : Bytes)
  | closes
  | resets
deriving DecidableEq,Repr

def Connection.peer (conn : Connection) : Peer → Connection
  | .sends bytes => if conn.closed then conn else { conn with stream := conn.stream ++ bytes }
  | .closes => { conn with closed := true }
  | .resets => { conn with reset := true }

inductive Event where
  | peer (action : Peer)
  | proceed (n : Nat)
deriving DecidableEq,Repr

def Reading.step (r : Reading T) : Event → Reading T
  | .peer action => { r with conn := r.conn.peer action }
  | .proceed n => r.proceed blake3 serde cap n

/-- A call of `read_json` on a new connection, and what happened since. -/
def read_json (events : List Event) : Reading T := run (Reading.step blake3 serde cap) {} events

/-! ### The first frame of a stream -/

/-- The first frame that the codec of the limit finds in a stream. -/
def FirstFrame (stream : Bytes) (frame : Frame) : Prop := ∃ rest, (DdalCodec.mk cap).decode blake3 stream = (.ok (some frame),rest)

/-- The codec fails on a stream before it finds a frame. -/
def Garbled (stream : Bytes) (error : DdalCodecError) : Prop := ∃ rest, (DdalCodec.mk cap).decode blake3 stream = (.error error,rest)

/-- The codec finds neither a frame nor an error. -/
def Unfinished (stream : Bytes) : Prop := ∃ rest, (DdalCodec.mk cap).decode blake3 stream = (.ok none,rest)

end

section
variable {blake3 : Hash} {cap : Nat} {stream tail buffer rest : Bytes} {frame : Frame} {error : DdalCodecError}

theorem decode_frame_append (decoded : (DdalCodec.mk cap).decode blake3 buffer = (.ok (some frame),rest)) (tail : Bytes) :
    (DdalCodec.mk cap).decode blake3 (buffer ++ tail) = (.ok (some frame),rest ++ tail) :=
  asStep_item ((codec_stable blake3 ⟨cap⟩).item buffer frame rest tail (by simp [decoder,decoded,asStep]))

theorem decode_error_append (decoded : (DdalCodec.mk cap).decode blake3 buffer = (.error error,rest)) (tail : Bytes) :
    (DdalCodec.mk cap).decode blake3 (buffer ++ tail) = (.error error,rest ++ tail) :=
  asStep_error ((codec_stable blake3 ⟨cap⟩).error buffer error rest tail (by simp [decoder,decoded,asStep]))

theorem asStep_injective {left right : Except DdalCodecError (Option Frame) × Bytes} (same : asStep left = asStep right) : left = right := by
  rcases left with ⟨_ | _ | _,_⟩ <;> rcases right with ⟨_ | _ | _,_⟩ <;> simp_all [asStep]

/-- A buffer that the decoder has skipped garbage in is decoded as the one that it was given. -/
theorem decode_more_append (decoded : (DdalCodec.mk cap).decode blake3 buffer = (.ok none,rest)) (tail : Bytes) :
    (DdalCodec.mk cap).decode blake3 (buffer ++ tail) = (DdalCodec.mk cap).decode blake3 (rest ++ tail) :=
  asStep_injective ((codec_stable blake3 ⟨cap⟩).more buffer rest tail (by simp [decoder,decoded,asStep]))

theorem FirstFrame.append (first : FirstFrame blake3 cap stream frame) (tail : Bytes) : FirstFrame blake3 cap (stream ++ tail) frame := by
  obtain ⟨rest,decoded⟩ := first
  exact ⟨rest ++ tail,decode_frame_append decoded tail⟩

theorem Garbled.append (garbled : Garbled blake3 cap stream error) (tail : Bytes) : Garbled blake3 cap (stream ++ tail) error := by
  obtain ⟨rest,decoded⟩ := garbled
  exact ⟨rest ++ tail,decode_error_append decoded tail⟩

theorem decodeAligned_more (decoded : decodeAligned blake3 ⟨cap⟩ buffer = (.ok none,rest)) (admits : HEADER_SIZE < cap) :
    rest = buffer ∧ rest.length < cap := by
  have same := (decodeAligned_append blake3 ⟨cap⟩ decoded []).1 rfl
  refine ⟨same,?_⟩
  subst same
  unfold decodeAligned at decoded
  by_cases short : rest.length < HEADER_SIZE
  · omega
  · rw [if_neg short] at decoded
    cases valid : validate_header rest with
    | error e => simp only [valid] at decoded; cases decoded
    | ok _ =>
      simp only [valid] at decoded
      by_cases large : HEADER_SIZE + (payloadLen rest).toNat > cap
      · rw [if_pos large] at decoded; cases decoded
      · rw [if_neg large] at decoded
        by_cases incomplete : rest.length < HEADER_SIZE + (payloadLen rest).toNat
        · omega
        · rw [if_neg incomplete] at decoded
          cases parsed : decode_from_bytes blake3 rest with
          | mk inner left =>
            have final : inner ≠ .ok none := decode_from_bytes_full parsed valid (by omega)
            rw [parsed] at decoded
            match inner,final with
            | .ok (some frame),_ => cases decoded
            | .error e,_ => cases decoded

/-- The decoder asks for more bytes only while its frame limit leaves room for them. -/
theorem decode_more (decoded : (DdalCodec.mk cap).decode blake3 buffer = (.ok none,rest)) (admits : HEADER_SIZE < cap) :
    rest.length < cap ∧ (DdalCodec.mk cap).decode blake3 rest = (.ok none,rest) := by
  have again := decode_more_append decoded []
  simp only [List.append_nil] at again
  refine ⟨?_,again ▸ decoded⟩
  unfold DdalCodec.decode at decoded
  cases aligned : align_to_magic buffer with
  | mk found start =>
    cases found with
    | false =>
      simp only [aligned] at decoded
      cases decoded
      have short := align_missing aligned
      simp only [HEADER_SIZE] at admits
      omega
    | true =>
      simp only [aligned] at decoded
      exact (decodeAligned_more decoded admits).2

end

/-! ### What a call of `read_json` knows -/

section
variable {T : Type} (blake3 : Hash) (serde : JsonText T) (cap : Nat)

/-- Behind any part of the stream that was read, the buffer is decoded as that part. -/
def StandsFor (received buffer : Bytes) : Prop :=
  ∀ tail, (DdalCodec.mk cap).decode blake3 (received ++ tail) = (DdalCodec.mk cap).decode blake3 (buffer ++ tail)

/-- Why a call has returned what it did, by the stream that its peer has sent. -/
inductive Returned (conn : Connection) : Except RemoteError T → Prop where
  | frame (frame : Frame) (first : FirstFrame blake3 cap conn.stream frame) : Returned conn (parse serde frame)
  | garbled (error : DdalCodecError) (garbled : Garbled blake3 cap conn.stream error) : Returned conn (.error (.Protocol (.codec error)))
  | closed (closed : conn.closed = true) (unfinished : Unfinished blake3 cap conn.stream) :
      Returned conn (.error (.Protocol (.text "peer closed before reply")))
  | reset (reset : conn.reset = true) : Returned conn (.error (.Protocol .connection))

def Place (conn : Connection) : Reader T → Prop
  | .decoding bytes => bytes.length ≤ cap ∧ StandsFor blake3 cap conn.received bytes
  | .receiving bytes => bytes.length < cap ∧ (DdalCodec.mk cap).decode blake3 bytes = (.ok none,bytes) ∧ StandsFor blake3 cap conn.received bytes
  | .returned result => Returned blake3 serde cap conn result

structure Follows (r : Reading T) : Prop where
  taken : r.conn.taken ≤ r.conn.stream.length
  place : Place blake3 serde cap r.conn r.reader

/-- The buffer is within the limit, also after the read that the call waits for, and that read is into a slice that is not empty. -/
def Bounded : Reader T → Prop
  | .decoding bytes => bytes.length ≤ cap
  | .receiving bytes => 0 < room cap bytes ∧ room cap bytes ≤ 4096 ∧ bytes.length + room cap bytes ≤ cap
  | .returned _ => True

end

section
variable {T : Type} {blake3 : Hash} {serde : JsonText T} {cap : Nat} {conn : Connection} {reader : Reader T} {r : Reading T}

theorem received_pending (conn : Connection) : conn.received ++ conn.pending = conn.stream := List.take_append_drop conn.taken conn.stream

theorem peer_received (inside : conn.taken ≤ conn.stream.length) (action : Peer) : (conn.peer action).received = conn.received := by
  cases action with
  | sends bytes =>
    unfold Connection.peer Connection.received
    by_cases closed : conn.closed = true
    · simp [closed]
    · simp [closed,List.take_append_of_le_length inside]
  | closes => rfl
  | resets => rfl

theorem peer_stream (conn : Connection) (action : Peer) : ∃ tail, (conn.peer action).stream = conn.stream ++ tail ∧ (conn.closed = true → tail = []) := by
  cases action with
  | sends bytes =>
    by_cases closed : conn.closed = true
    · exact ⟨[],by simp [Connection.peer,closed],fun _ => rfl⟩
    · exact ⟨bytes,by simp [Connection.peer,closed],fun stands => absurd stands closed⟩
  | closes => exact ⟨[],by simp [Connection.peer],fun _ => rfl⟩
  | resets => exact ⟨[],by simp [Connection.peer],fun _ => rfl⟩

theorem peer_taken (conn : Connection) (action : Peer) : (conn.peer action).taken = conn.taken := by
  cases action with
  | sends bytes => by_cases closed : conn.closed = true <;> simp [Connection.peer,closed]
  | closes => rfl
  | resets => rfl

theorem peer_closed (closed : conn.closed = true) (action : Peer) : (conn.peer action).closed = true := by
  cases action <;> simp [Connection.peer,closed]

theorem peer_reset (reset : conn.reset = true) (action : Peer) : (conn.peer action).reset = true := by
  cases action with
  | sends bytes => by_cases closed : conn.closed = true <;> simp [Connection.peer,closed,reset]
  | closes => exact reset
  | resets => rfl

theorem Returned.peer {result : Except RemoteError T} (returned : Returned blake3 serde cap conn result) (action : Peer) :
    Returned blake3 serde cap (conn.peer action) result := by
  obtain ⟨tail,grown,frozen⟩ := peer_stream conn action
  cases returned with
  | frame frame first => exact .frame frame (grown ▸ first.append tail)
  | garbled error garbled => exact .garbled error (grown ▸ garbled.append tail)
  | closed closed unfinished =>
    refine .closed (peer_closed closed action) ?_
    rw [grown,frozen closed,List.append_nil]
    exact unfinished
  | reset reset => exact .reset (peer_reset reset action)

theorem Follows.peer (follows : Follows blake3 serde cap r) (action : Peer) : Follows blake3 serde cap { r with conn := r.conn.peer action } := by
  have same := peer_received follows.taken action
  obtain ⟨tail,grown,-⟩ := peer_stream r.conn action
  refine ⟨?_,?_⟩
  · show (r.conn.peer action).taken ≤ (r.conn.peer action).stream.length
    rw [peer_taken,grown,List.length_append]
    have inside := follows.taken
    omega
  · have place := follows.place
    show Place blake3 serde cap (r.conn.peer action) r.reader
    cases at_reader : r.reader with
    | decoding bytes =>
      rw [at_reader] at place
      exact ⟨place.1,same ▸ place.2⟩
    | receiving bytes =>
      rw [at_reader] at place
      exact ⟨place.1,place.2.1,same ▸ place.2.2⟩
    | returned result =>
      rw [at_reader] at place
      exact Returned.peer place action

theorem StandsFor.stream {bytes : Bytes} (stands : StandsFor blake3 cap conn.received bytes) :
    (DdalCodec.mk cap).decode blake3 conn.stream = (DdalCodec.mk cap).decode blake3 (bytes ++ conn.pending) := by
  rw [← received_pending conn]
  exact stands conn.pending

theorem decodeBuffered_place {bytes : Bytes} (admits : HEADER_SIZE < cap) (place : Place blake3 serde cap conn (.decoding bytes)) :
    Place blake3 serde cap conn (decodeBuffered blake3 serde cap bytes) := by
  obtain ⟨bound,stands⟩ := place
  have stream := stands.stream
  unfold decodeBuffered
  cases decoded : (DdalCodec.mk cap).decode blake3 bytes with
  | mk answer rest =>
    cases answer with
    | error e => exact .garbled e ⟨_,stream.trans (decode_error_append decoded conn.pending)⟩
    | ok found =>
      cases found with
      | some frame => exact .frame frame ⟨_,stream.trans (decode_frame_append decoded conn.pending)⟩
      | none =>
        obtain ⟨short,again⟩ := decode_more decoded admits
        simp only [ge_iff_le,if_neg (Nat.not_le.mpr short)]
        exact ⟨short,again,fun tail => (stands tail).trans (decode_more_append decoded tail)⟩

/-- What one read does. -/
theorem read_cases (conn : Connection) (room n : Nat) :
    (conn.reset = true ∧ conn.read room n = (.fails,conn)) ∨
    (conn.pending = [] ∧ conn.closed = true ∧ conn.read room n = (.bytes [],conn)) ∨
    (conn.pending = [] ∧ conn.closed = false ∧ conn.read room n = (.waits,conn)) ∨
    ∃ chunk later, conn.pending = chunk ++ later ∧ chunk.length ≤ room ∧ (0 < room → chunk ≠ []) ∧
      conn.read room n = (.bytes chunk,{ conn with taken := conn.taken + chunk.length }) := by
  by_cases reset : conn.reset = true
  · exact .inl ⟨reset,by simp [Connection.read,reset]⟩
  · by_cases empty : conn.pending = []
    · cases closed : conn.closed with
      | true => exact .inr (.inl ⟨empty,rfl,by simp [Connection.read,reset,empty,closed]⟩)
      | false => exact .inr (.inr (.inl ⟨empty,rfl,by simp [Connection.read,reset,empty,closed]⟩))
    · refine .inr (.inr (.inr ⟨conn.pending.take (min (n+1) room),conn.pending.drop (min (n+1) room),(List.take_append_drop _ _).symm,?_,?_,?_⟩))
      · rw [List.length_take]; omega
      · intro positive none
        rcases List.take_eq_nil_iff.mp none with zero | nil
        · omega
        · exact empty nil
      · simp [Connection.read,reset,empty]

theorem received_taken {chunk later : Bytes} (arrived : conn.pending = chunk ++ later) :
    ({ conn with taken := conn.taken + chunk.length } : Connection).received = conn.received ++ chunk := by
  have taken : (conn.stream.drop conn.taken).take chunk.length = chunk := by
    show conn.pending.take chunk.length = chunk
    rw [arrived,List.take_left]
  unfold Connection.received
  rw [List.take_add,taken]

theorem pending_taken {chunk later : Bytes} (arrived : conn.pending = chunk ++ later) :
    ({ conn with taken := conn.taken + chunk.length } : Connection).pending = later := by
  show conn.stream.drop (conn.taken + chunk.length) = later
  rw [← List.drop_drop]
  show conn.pending.drop chunk.length = later
  rw [arrived,List.drop_left]

theorem room_bounds {bytes : Bytes} (short : bytes.length < cap) :
    0 < room cap bytes ∧ room cap bytes ≤ 4096 ∧ bytes.length + room cap bytes ≤ cap := by
  unfold room
  omega

theorem Follows.proceed (admits : HEADER_SIZE < cap) (follows : Follows blake3 serde cap r) (n : Nat) :
    Follows blake3 serde cap (r.proceed blake3 serde cap n) := by
  have place := follows.place
  unfold Reading.proceed
  cases at_reader : r.reader with
  | decoding bytes =>
    rw [at_reader] at place
    exact ⟨follows.taken,decodeBuffered_place admits place⟩
  | returned result => exact follows
  | receiving bytes =>
    rw [at_reader] at place
    obtain ⟨short,undecided,stands⟩ := place
    obtain ⟨positive,-,fits⟩ := room_bounds short
    rcases read_cases r.conn (room cap bytes).toNat n with ⟨reset,read⟩ | ⟨empty,closed,read⟩ | ⟨empty,opened,read⟩ | ⟨chunk,later,arrived,bound,some,read⟩
    · simp only [read]
      exact ⟨follows.taken,.reset reset⟩
    · simp only [read]
      refine ⟨follows.taken,.closed closed ⟨bytes,?_⟩⟩
      rw [stands.stream,empty,List.append_nil]
      exact undecided
    · simp only [read]
      exact ⟨follows.taken,short,undecided,stands⟩
    · simp only [read]
      have nonempty := some (by omega)
      obtain ⟨byte,more,rfl⟩ := List.exists_cons_of_ne_nil nonempty
      refine ⟨?_,?_,?_⟩
      · have size := congrArg List.length arrived
        simp only [Connection.pending,List.length_drop,List.length_append] at size
        have inside := follows.taken
        show r.conn.taken + (byte :: more).length ≤ r.conn.stream.length
        omega
      · rw [List.length_append]
        omega
      · intro tail
        rw [received_taken arrived,List.append_assoc,List.append_assoc]
        exact stands ((byte :: more) ++ tail)

theorem Follows.start : Follows blake3 serde cap {} := ⟨Nat.le_refl _,Nat.zero_le _,fun _ => rfl⟩

theorem Follows.step (admits : HEADER_SIZE < cap) (follows : Follows blake3 serde cap r) (event : Event) :
    Follows blake3 serde cap (r.step blake3 serde cap event) := by
  cases event with
  | peer action => exact follows.peer action
  | proceed n => exact follows.proceed admits n

theorem read_json_follows (blake3 : Hash) (serde : JsonText T) (admits : HEADER_SIZE < cap) (events : List Event) :
    Follows blake3 serde cap (read_json blake3 serde cap events) :=
  Runs.invariant (I := Follows blake3 serde cap) (fun _ event follows => follows.step admits event) Follows.start events

theorem read_json_append (blake3 : Hash) (serde : JsonText T) (cap : Nat) (events later : List Event) :
    read_json blake3 serde cap (events ++ later) = run (Reading.step blake3 serde cap) (read_json blake3 serde cap events) later := run_append events later

theorem Place.bounded (place : Place blake3 serde cap conn reader) : Bounded cap reader := by
  cases reader with
  | decoding bytes => exact place.1
  | receiving bytes => exact room_bounds place.1
  | returned result => trivial

end

/-! ### The loop ends -/

section
variable {T : Type} (blake3 : Hash) (serde : JsonText T) (cap : Nat) {r : Reading T}

/-- How many steps a call can still take before it returns or waits. -/
def Reading.work (r : Reading T) : Nat :=
  match r.reader with
  | .decoding _ => 2 * r.conn.pending.length + 2
  | .receiving _ => 2 * r.conn.pending.length + 1
  | .returned _ => 0

def Event.steps : Event → Nat
  | .peer _ => 0
  | .proceed _ => 1

theorem decodeBuffered_work (conn : Connection) (bytes : Bytes) :
    (⟨conn,decodeBuffered blake3 serde cap bytes⟩ : Reading T).work ≤ 2 * conn.pending.length + 1 := by
  unfold decodeBuffered
  split
  · exact Nat.zero_le _
  · exact Nat.zero_le _
  · split_ifs
    · exact Nat.zero_le _
    · exact Nat.le_refl _

/-- A step of a call that does not wait for its peer brings it closer to its return. -/
theorem proceed_work (moves : ∀ bytes, r.reader = .receiving bytes → r.conn.pending = [] → r.conn.closed = true ∨ r.conn.reset = true) (n : Nat) :
    (r.proceed blake3 serde cap n).work + 1 ≤ r.work ∨ (r.proceed blake3 serde cap n).work = 0 := by
  unfold Reading.proceed
  cases at_reader : r.reader with
  | decoding bytes =>
    have bound := decodeBuffered_work blake3 serde cap r.conn bytes
    have here : r.work = 2 * r.conn.pending.length + 2 := by simp only [Reading.work,at_reader]
    exact .inl (by rw [here]; exact Nat.succ_le_succ bound)
  | returned result => exact .inr (by simp only [Reading.work,at_reader])
  | receiving bytes =>
    have here : r.work = 2 * r.conn.pending.length + 1 := by simp only [Reading.work,at_reader]
    rcases read_cases r.conn (room cap bytes).toNat n with ⟨reset,read⟩ | ⟨empty,closed,read⟩ | ⟨empty,opened,read⟩ | ⟨chunk,later,arrived,bound,some,read⟩
    · exact .inr (by simp only [read]; rfl)
    · exact .inr (by simp only [read]; rfl)
    · rcases moves bytes at_reader empty with closed | reset
      · rw [opened] at closed; cases closed
      · simp [Connection.read,reset] at read
    · simp only [read]
      cases chunk with
      | nil => exact .inr rfl
      | cons byte more =>
        refine .inl ?_
        rw [here,arrived]
        have left := congrArg List.length (pending_taken arrived)
        show 2 * ({ r.conn with taken := r.conn.taken + (byte :: more).length } : Connection).pending.length + 2 + 1 ≤ _
        rw [left]
        simp only [List.length_append,List.length_cons]
        omega

theorem peer_work (closed : r.conn.closed = true) (action : Peer) : ({ r with conn := r.conn.peer action } : Reading T).work = r.work := by
  have same : (r.conn.peer action).pending = r.conn.pending := by
    obtain ⟨tail,grown,frozen⟩ := peer_stream r.conn action
    rw [Connection.pending,peer_taken,grown,frozen closed,List.append_nil]
    rfl
  unfold Reading.work
  simp only [same]

theorem read_closed (conn : Connection) (room n : Nat) : (conn.read room n).2.closed = conn.closed := by
  unfold Connection.read
  split_ifs <;> rfl

theorem step_closed (closed : r.conn.closed = true) (event : Event) : (r.step blake3 serde cap event).conn.closed = true := by
  cases event with
  | peer action => exact peer_closed closed action
  | proceed n =>
    show (r.proceed blake3 serde cap n).conn.closed = true
    unfold Reading.proceed
    split
    · exact closed
    · exact (read_closed r.conn _ n).trans closed
    · exact closed

theorem returned_of_work (done : r.work = 0) : ∃ result, r.reader = .returned result := by
  unfold Reading.work at done
  split at done
  · omega
  · omega
  · next result at_reader => exact ⟨result,at_reader⟩

theorem step_work (closed : r.conn.closed = true) (event : Event) :
    (r.step blake3 serde cap event).work + event.steps ≤ r.work ∨ (r.step blake3 serde cap event).work = 0 := by
  cases event with
  | peer action => exact .inl (Nat.le_of_eq (peer_work closed action))
  | proceed n => exact proceed_work blake3 serde cap (fun _ _ _ => .inl closed) n

/-- Once the peer has closed, every step but the last uses up some of the work that is left. -/
theorem closed_run (closed : r.conn.closed = true) (events : List Event) :
    (run (Reading.step blake3 serde cap) r events).work + (events.map Event.steps).sum ≤ r.work ∨ (run (Reading.step blake3 serde cap) r events).work = 0 := by
  induction events generalizing r with
  | nil => exact .inl (Nat.le_refl _)
  | cons event events ih =>
    have first := step_work blake3 serde cap closed event
    have later := ih (step_closed blake3 serde cap closed event)
    rw [List.map_cons,List.sum_cons]
    show (run _ (r.step blake3 serde cap event) events).work + _ ≤ _ ∨ (run _ (r.step blake3 serde cap event) events).work = 0
    omega

/-- A call whose peer has closed returns after two steps for every byte that is still to be read, and two more. -/
theorem closed_returns (closed : r.conn.closed = true) (events : List Event) (enough : r.work ≤ (events.map Event.steps).sum) :
    ∃ result, (run (Reading.step blake3 serde cap) r events).reader = .returned result := by
  apply returned_of_work
  rcases closed_run blake3 serde cap closed events with bound | zero
  · omega
  · exact zero

theorem work_le (r : Reading T) : r.work ≤ 2 * r.conn.pending.length + 2 := by
  unfold Reading.work
  split <;> omega

end

/-! ### What was written is read -/

section
variable {T : Type} {blake3 : Hash} {serde : JsonText T} {cap : Nat} {r : Reading T} {frame : Frame}

/-- Where the stream has a first frame, a call can return nothing but that frame's value, and waits for no bytes that are not there. -/
theorem Follows.settled (follows : Follows blake3 serde cap r) (first : FirstFrame blake3 cap r.conn.stream frame) (unbroken : r.conn.reset = false) :
    (∀ result, r.reader = .returned result → result = parse serde frame) ∧ ∀ bytes, r.reader = .receiving bytes → r.conn.pending ≠ [] := by
  have place := follows.place
  obtain ⟨rest,decoded⟩ := first
  constructor
  · intro result at_reader
    rw [at_reader] at place
    cases place with
    | frame other found =>
      obtain ⟨left,again⟩ := found
      rw [decoded] at again
      cases again
      rfl
    | garbled error garbled =>
      obtain ⟨left,again⟩ := garbled
      rw [decoded] at again
      cases again
    | closed closed unfinished =>
      obtain ⟨left,again⟩ := unfinished
      rw [decoded] at again
      cases again
    | reset reset => rw [unbroken] at reset; cases reset
  · intro bytes at_reader empty
    rw [at_reader] at place
    obtain ⟨-,undecided,stands⟩ := place
    have stream := stands.stream
    rw [empty,List.append_nil,undecided,decoded] at stream
    cases stream

theorem proceed_conn (blake3 : Hash) (serde : JsonText T) (cap : Nat) (r : Reading T) (n : Nat) :
    (r.proceed blake3 serde cap n).conn.stream = r.conn.stream ∧ (r.proceed blake3 serde cap n).conn.reset = r.conn.reset := by
  unfold Reading.proceed
  split
  · exact ⟨rfl,rfl⟩
  · next bytes at_reader =>
    unfold Connection.read
    split_ifs <;> exact ⟨rfl,rfl⟩
  · exact ⟨rfl,rfl⟩

theorem Follows.reads (admits : HEADER_SIZE < cap) (follows : Follows blake3 serde cap r) (first : FirstFrame blake3 cap r.conn.stream frame)
    (unbroken : r.conn.reset = false) (choices : List Nat) (enough : r.work ≤ choices.length) :
    (run (Reading.step blake3 serde cap) r (choices.map .proceed)).reader = .returned (parse serde frame) := by
  induction choices generalizing r with
  | nil =>
    obtain ⟨result,returned⟩ := returned_of_work (Nat.le_zero.mp enough)
    exact (follows.settled first unbroken).1 result returned ▸ returned
  | cons n choices ih =>
    obtain ⟨stream,reset⟩ := proceed_conn blake3 serde cap r n
    have waits := (follows.settled first unbroken).2
    have next := proceed_work blake3 serde cap (fun bytes at_reader empty => absurd empty (waits bytes at_reader)) n
    refine ih (follows.proceed admits n) (stream ▸ first) (reset.trans unbroken) ?_
    rw [List.length_cons] at enough
    show (r.proceed blake3 serde cap n).work ≤ choices.length
    omega

theorem data_verified (blake3 : Hash) (payload : Bytes) : (Frame.data blake3 1 payload).verify_checksum blake3 = true := by
  simp only [Frame.verify_checksum,Frame.data,Frame.new,Frame.compute_checksum,Frame.headerBytes,beq_self_eq_true]

/-- A value that fits is written in one frame. -/
theorem write_json_fits (blake3 : Hash) {value : T} {payload : Bytes} (text : serde.to_vec value = .ok payload) (fits : HEADER_SIZE + payload.length ≤ cap)
    (protocol : cap ≤ HEADER_SIZE + MAX_PAYLOAD_SIZE.toNat) :
    write_json blake3 serde cap value = .ok (Frame.data blake3 1 payload).encode_to_bytes ∧ Encodable blake3 ⟨cap⟩ (Frame.data blake3 1 payload) := by
  have small : payload.length ≤ MAX_PAYLOAD_SIZE.toNat := by omega
  have below : payload.length < UInt32.size := Nat.lt_of_le_of_lt small MAX_PAYLOAD_SIZE.toNat_lt
  have length : payload.length = (UInt32.ofNat payload.length).toNat := by rw [UInt32.toNat_ofNat_of_lt' below]
  have encodable : Encodable blake3 ⟨cap⟩ (Frame.data blake3 1 payload) :=
    { compatible := rfl
      payload := small
      total := fits
      length := length
      checksum := data_verified blake3 payload }
  refine ⟨?_,encodable⟩
  have encoded : (DdalCodec.mk cap).encode blake3 (Frame.data blake3 1 payload) [] = (.ok (),(Frame.data blake3 1 payload).encode_to_bytes) := by
    unfold DdalCodec.encode
    rw [if_neg (not_not.mpr encodable.compatible)]
    simp only
    rw [if_neg (not_or.mpr ⟨Nat.not_lt.mpr encodable.payload,Nat.not_lt.mpr encodable.total⟩),if_neg (not_not.mpr encodable.length),
      if_neg (not_not.mpr encodable.checksum),List.nil_append]
  unfold write_json
  rw [text]
  simp only
  rw [if_neg (by omega),encoded]

theorem parse_data (blake3 : Hash) {value : T} {payload : Bytes} (undoes : serde.from_slice payload = .ok value) :
    parse serde (Frame.data blake3 1 payload) = .ok value := by
  unfold parse
  rw [if_neg (by simp [Frame.data,Frame.new])]
  have same : (Frame.data blake3 1 payload).payload = payload := rfl
  rw [same,undoes]

end
end Daf.RemoteWire
