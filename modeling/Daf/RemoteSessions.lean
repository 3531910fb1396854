import Daf.LedgerTasks
import Daf.RemoteWire

/-!
The sessions of a remote worker. Each accepted connection carries one request: it is read, its credential
verified, its task authorised and executed, and the result written back. Sessions run beside each other,
each against a peer that may send anything, and may be dropped at any point.
-/
namespace Daf.RemoteSessions
open Daf.WireProtocol Daf.RemoteWire Daf.LedgerTasks Daf.UuidText Daf.Runs

/-- The SDK task ID is also the durable idempotency ID. -/
structure TaskEnvelope where
  task : SdkTaskSpec
  dependencies : List Uuid
deriving DecidableEq

/-- Maps a credential to a trusted canonical principal and says which tasks a principal may run. -/
structure CredentialVerifier where
  verify : String → Option String
  authorize : String → SdkTaskSpec → Bool

structure Request where
  credential : String
  task : TaskEnvelope
deriving DecidableEq

structure Response where
  result : Except String SdkTaskResult

structure RemoteWorkerConfig where
  loopback : Bool
  tls : Bool
  max_sessions : Nat
  max_frame_bytes : Nat
  /-- In nanoseconds, and whether the clock can represent the deadline. -/
  session_timeout : Nat
  representable : Bool
deriving DecidableEq,Repr

/-- What a worker is made of beside its listener. -/
structure Parts where
  blake3 : Hash
  requests : JsonText Request
  responses : JsonText Response
  verifier : CredentialVerifier
  observer : Bool

/-- Where a session is: at an await of its future, or done. A session is dropped by its deadline or with the worker. -/
inductive Phase where
  | accepting
  | reading (reader : Reader Request)
  | executing (principal : String) (request : Request)
  | observing (result : SdkTaskResult)
  | writing (bytes : Bytes)
  | closing
  | ended (outcome : Except RemoteError Unit)
  | dropped

/-- A session, its connection and the calls of the executor that it has made. -/
structure Session where
  conn : Connection := {}
  phase : Phase := .accepting
  executed : List (String × TaskEnvelope) := []

/-- What a session waits for: its handshake, a step of its reader, the executor, the observer, or its reply and the end of
    its connection. -/
inductive Turn where
  | accepted (ok : Bool)
  | proceed (n : Nat)
  | executed (outcome : Except String SdkTaskResult)
  | observed
  | wrote (ok : Bool)
  | closed (ok : Bool)

section
variable (p : Parts) (cap : Nat)

/-- Start to write the reply. -/
def Session.reply (s : Session) (result : Except String SdkTaskResult) : Session :=
  match write_json p.blake3 p.responses cap ⟨result⟩ with
  | .ok bytes => { s with phase := .writing bytes }
  | .error e => { s with phase := .ended (.error e) }

/-- Authenticate and authorise a request, and call the executor for it. -/
def Session.handle (s : Session) (request : Request) : Session :=
  match (p.verifier.verify request.credential).filter (fun principal => ¬ principal.isEmpty) with
  | none => s.reply p cap (.error "authentication rejected")
  | some principal =>
    if p.verifier.authorize principal request.task.task then
      { s with phase := .executing principal request, executed := s.executed ++ [(principal,request.task)] }
    else s.reply p cap (.error "task authorization rejected")

/-- What `read_json` has come to. -/
def Session.afterRead (s : Session) (r : Reading Request) : Session :=
  match r.reader with
  | .returned (.ok request) => { s with conn := r.conn }.handle p cap request
  | .returned (.error e) => { s with conn := r.conn, phase := .ended (.error e) }
  | reader => { s with conn := r.conn, phase := .reading reader }

def Session.turn (s : Session) : Turn → Session
  | .accepted ok =>
    match s.phase with
    | .accepting => { s with phase := if ok then .reading (.decoding []) else .ended (.error (.Protocol .connection)) }
    | _ => s
  | .proceed n =>
    match s.phase with
    | .reading reader => s.afterRead p cap ((⟨s.conn,reader⟩ : Reading Request).proceed p.blake3 p.requests cap n)
    | _ => s
  | .executed outcome =>
    match s.phase,outcome with
    | .executing _ _,.ok result => if p.observer then { s with phase := .observing result } else s.reply p cap (.ok result)
    | .executing _ _,.error _ => s.reply p cap (.error "execution rejected")
    | _,_ => s
  | .observed =>
    match s.phase with
    | .observing result => s.reply p cap (.ok result)
    | _ => s
  | .wrote ok =>
    match s.phase with
    | .writing _ => { s with phase := if ok then .closing else .ended (.error (.Protocol .connection)) }
    | _ => s
  | .closed ok =>
    match s.phase with
    | .closing => { s with phase := .ended (if ok then .ok () else .error (.Protocol .connection)) }
    | _ => s

/-- Dropping the future of a session; one that has ended keeps its outcome. -/
def Session.drop (s : Session) : Session :=
  match s.phase with
  | .ended _ => s
  | _ => { s with phase := .dropped }

def Session.finished (s : Session) : Bool :=
  match s.phase with
  | .ended _ | .dropped => true
  | _ => false

/-! ### The worker -/

/-- A running worker: every session it has admitted, in order, and those that it has not joined yet. -/
structure RemoteWorker where
  running : Bool := true
  sessions : List Session := []
  unjoined : List Nat := []

inductive Event where
  | accept
  | acceptFails
  | peer (session : Nat) (action : Peer)
  | turn (session : Nat) (turn : Turn)
  | deadline (session : Nat)
  | join (session : Nat)
  | shutdown

/-- Stop admission and drop the sessions. -/
def RemoteWorker.stop (w : RemoteWorker) : RemoteWorker := ⟨false,w.sessions.map Session.drop,[]⟩

def RemoteWorker.step (max_sessions : Nat) (w : RemoteWorker) : Event → RemoteWorker
  | .accept =>
    if w.running ∧ w.unjoined.length < max_sessions then
      { w with sessions := w.sessions ++ [{}], unjoined := w.unjoined ++ [w.sessions.length] }
    else w
  | .acceptFails => w.stop
  | .peer n action => { w with sessions := w.sessions.modify n fun s => { s with conn := s.conn.peer action } }
  | .turn n turn => { w with sessions := w.sessions.modify n fun s => s.turn p cap turn }
  | .deadline n => { w with sessions := w.sessions.modify n Session.drop }
  | .join n => if w.sessions[n]?.any Session.finished then { w with unjoined := w.unjoined.erase n } else w
  | .shutdown => w.stop

/-- A worker with these parts from its start, over any number of connections. -/
def RemoteWorker.run (config : RemoteWorkerConfig) (events : List Event) : RemoteWorker :=
  Runs.run (RemoteWorker.step p config.max_frame_bytes config.max_sessions) {} events

/-- What `RemoteWorker::bind` checks before it takes a configuration. -/
def RemoteWorkerConfig.bind (config : RemoteWorkerConfig) : Except RemoteError Unit :=
  match validate config.loopback config.tls config.session_timeout config.representable config.max_frame_bytes with
  | .error e => .error e
  | .ok () => if config.max_sessions = 0 then .error (.Configuration "max_sessions must be positive") else .ok ()

/-! ### What a session may execute -/

/-- A call of the executor that the first frame of the stream asks for and that the verifier lets through. -/
structure Granted (stream : Bytes) (principal : String) (task : TaskEnvelope) (frame : Frame) (request : Request) : Prop where
  first : FirstFrame p.blake3 cap stream frame
  frame_type : frame.frame_type = .Data
  stream_id : frame.stream_id = 1
  flags : frame.flags = 0
  parses : p.requests.from_slice frame.payload = .ok request
  verified : p.verifier.verify request.credential = some principal
  named : principal ≠ ""
  authorized : p.verifier.authorize principal task.task = true
  asked : request.task = task

/-- At most one call, and that one granted. -/
def Justified (stream : Bytes) (executed : List (String × TaskEnvelope)) : Prop :=
  executed = [] ∨ ∃ principal task frame request, executed = [(principal,task)] ∧ Granted p cap stream principal task frame request

/-- What is true of a session where it is. -/
structure Session.Ok (s : Session) : Prop where
  justified : Justified p cap s.conn.stream s.executed
  accepting : s.phase = .accepting → s.conn.taken = 0 ∧ s.executed = []
  reading : ∀ reader, s.phase = .reading reader → Follows p.blake3 p.requests cap ⟨s.conn,reader⟩ ∧ s.executed = []

end

section
variable {p : Parts} {cap : Nat} {s : Session}

theorem Granted.append {stream : Bytes} {principal : String} {task : TaskEnvelope} {frame : Frame} {request : Request}
    (granted : Granted p cap stream principal task frame request) (tail : Bytes) : Granted p cap (stream ++ tail) principal task frame request :=
  { granted with first := granted.first.append tail }

theorem Justified.append {stream : Bytes} {executed : List (String × TaskEnvelope)} (justified : Justified p cap stream executed) (tail : Bytes) :
    Justified p cap (stream ++ tail) executed := by
  rcases justified with none | ⟨principal,task,frame,request,one,granted⟩
  · exact .inl none
  · exact .inr ⟨principal,task,frame,request,one,granted.append tail⟩

/-- A phase behind the reading asks nothing of the connection. -/
theorem Session.Ok.later (justified : Justified p cap s.conn.stream s.executed) (accepting : s.phase ≠ .accepting)
    (reading : ∀ reader, s.phase ≠ .reading reader) : s.Ok p cap :=
  ⟨justified,fun here => absurd here accepting,fun reader here => absurd here (reading reader)⟩

theorem reply_ok (justified : Justified p cap s.conn.stream s.executed) (result : Except String SdkTaskResult) : (s.reply p cap result).Ok p cap := by
  unfold Session.reply
  split
  · exact .later justified nofun nofun
  · exact .later justified nofun nofun

theorem parse_ok {serde : JsonText Request} {frame : Frame} {request : Request} (parsed : parse serde frame = .ok request) :
    frame.frame_type = .Data ∧ frame.stream_id = 1 ∧ frame.flags = 0 ∧ serde.from_slice frame.payload = .ok request := by
  unfold parse at parsed
  split_ifs at parsed with unsupported
  simp only [ne_eq,not_or,not_not] at unsupported
  obtain ⟨data,stream,flags⟩ := unsupported
  cases read : serde.from_slice frame.payload with
  | error e => simp [read] at parsed
  | ok value =>
    simp only [read,Except.ok.injEq] at parsed
    exact ⟨data,stream,flags,parsed ▸ rfl⟩

/-- A call that has returned a value has parsed it from the first frame. -/
theorem returned_ok {serde : JsonText Request} {conn : Connection} {request : Request} {result : Except RemoteError Request}
    (returned : Returned p.blake3 serde cap conn result) (same : result = .ok request) :
    ∃ frame, FirstFrame p.blake3 cap conn.stream frame ∧ parse serde frame = .ok request := by
  cases returned with
  | frame frame first => exact ⟨frame,first,same⟩
  | garbled error garbled => cases same
  | closed closed unfinished => cases same
  | reset reset => cases same

theorem handle_ok {frame : Frame} {request : Request} (first : FirstFrame p.blake3 cap s.conn.stream frame)
    (parsed : parse p.requests frame = .ok request) (none : s.executed = []) : (s.handle p cap request).Ok p cap := by
  have justified : Justified p cap s.conn.stream s.executed := .inl none
  unfold Session.handle
  split
  · exact reply_ok justified _
  · next principal verified =>
    split_ifs with authorized
    · obtain ⟨data,stream,flags,read⟩ := parse_ok parsed
      obtain ⟨known,named⟩ := Option.filter_eq_some_iff.mp verified
      refine .later (.inr ⟨principal,request.task,frame,request,by simp [none],?_⟩) nofun nofun
      exact ⟨first,data,stream,flags,read,known,by rintro rfl; simp at named,authorized,rfl⟩
    · exact reply_ok justified _

theorem afterRead_ok {r : Reading Request} (follows : Follows p.blake3 p.requests cap r) (none : s.executed = []) : (s.afterRead p cap r).Ok p cap := by
  have place := follows.place
  have waits : ∀ reader, r.reader = reader → ({ s with conn := r.conn, phase := .reading reader } : Session).Ok p cap := by
    rintro reader rfl
    exact ⟨.inl none,nofun,fun reader here => by cases here; exact ⟨follows,none⟩⟩
  unfold Session.afterRead
  cases at_reader : r.reader with
  | decoding bytes => exact waits _ at_reader
  | receiving bytes => exact waits _ at_reader
  | returned result =>
    rw [at_reader] at place
    cases result with
    | error e => exact .later (.inl none) nofun nofun
    | ok request =>
      obtain ⟨frame,first,parsed⟩ := returned_ok place rfl
      exact handle_ok (s := { s with conn := r.conn }) first parsed none

theorem Session.Ok.turn (admits : HEADER_SIZE < cap) (ok : s.Ok p cap) (turn : Turn) : (s.turn p cap turn).Ok p cap := by
  cases turn with
  | accepted done =>
    simp only [Session.turn]
    split
    · next here =>
      obtain ⟨taken,none⟩ := ok.accepting here
      cases done with
      | false => exact .later ok.justified nofun nofun
      | true =>
        refine ⟨ok.justified,nofun,fun reader reading => ?_⟩
        cases reading
        refine ⟨⟨by show s.conn.taken ≤ _; omega,Nat.zero_le _,fun tail => ?_⟩,none⟩
        have nothing : s.conn.received = [] := by simp [Connection.received,taken]
        rw [nothing]
    · exact ok
  | proceed n =>
    simp only [Session.turn]
    split
    · next reader here =>
      obtain ⟨follows,none⟩ := ok.reading reader here
      exact afterRead_ok (follows.proceed admits n) none
    · exact ok
  | executed outcome =>
    simp only [Session.turn]
    split
    · split_ifs
      · exact .later ok.justified nofun nofun
      · exact reply_ok ok.justified _
    · exact reply_ok ok.justified _
    · exact ok
  | observed =>
    simp only [Session.turn]
    split
    · exact reply_ok ok.justified _
    · exact ok
  | wrote done =>
    simp only [Session.turn]
    split
    · cases done <;> exact .later ok.justified nofun nofun
    · exact ok
  | closed done =>
    simp only [Session.turn]
    split
    · exact .later ok.justified nofun nofun
    · exact ok

theorem Session.Ok.peer (ok : s.Ok p cap) (action : Peer) : ({ s with conn := s.conn.peer action } : Session).Ok p cap := by
  obtain ⟨tail,grown,-⟩ := peer_stream s.conn action
  refine ⟨?_,fun here => ?_,fun reader here => ?_⟩
  · show Justified p cap (s.conn.peer action).stream s.executed
    exact grown ▸ ok.justified.append tail
  · obtain ⟨taken,none⟩ := ok.accepting here
    exact ⟨(peer_taken s.conn action).trans taken,none⟩
  · obtain ⟨follows,none⟩ := ok.reading reader here
    exact ⟨follows.peer action,none⟩

theorem Session.Ok.drop (ok : s.Ok p cap) : s.drop.Ok p cap := by
  unfold Session.drop
  split
  · exact ok
  · exact .later ok.justified nofun nofun

theorem Session.Ok.start : ({} : Session).Ok p cap := ⟨.inl rfl,fun _ => ⟨rfl,rfl⟩,nofun⟩

theorem forall_modify {P : Session → Prop} {f : Session → Session} (keeps : ∀ s, P s → P (f s)) {sessions : List Session}
    (all : ∀ s ∈ sessions, P s) (n : Nat) : ∀ s ∈ sessions.modify n f, P s := by
  intro s member
  obtain ⟨i,found⟩ := List.mem_iff_getElem?.mp member
  rw [List.getElem?_modify] at found
  obtain ⟨before,there,rfl⟩ := Option.map_eq_some_iff.mp found
  have ok := all before (List.mem_iff_getElem?.mpr ⟨i,there⟩)
  split_ifs
  · exact keeps before ok
  · exact ok

theorem RemoteWorker.step_ok (admits : HEADER_SIZE < cap) (max_sessions : Nat) (w : RemoteWorker) (event : Event) (all : ∀ s ∈ w.sessions, s.Ok p cap) :
    ∀ s ∈ (w.step p cap max_sessions event).sessions, s.Ok p cap := by
  have stopped : ∀ s ∈ w.stop.sessions, s.Ok p cap := by
    intro s member
    obtain ⟨before,old,rfl⟩ := List.mem_map.mp member
    exact (all before old).drop
  cases event with
  | accept =>
    simp only [RemoteWorker.step]
    split_ifs
    · intro s member
      rcases List.mem_append.mp member with old | new
      · exact all s old
      · rw [List.mem_singleton.mp new]
        exact .start
    · exact all
  | acceptFails => exact stopped
  | peer n action => exact forall_modify (fun s ok => ok.peer action) all n
  | turn n turn => exact forall_modify (fun s ok => ok.turn admits turn) all n
  | deadline n => exact forall_modify (fun s ok => ok.drop) all n
  | join n =>
    simp only [RemoteWorker.step]
    split_ifs
    · exact all
    · exact all
  | shutdown => exact stopped

theorem RemoteWorker.run_ok (config : RemoteWorkerConfig) (admits : HEADER_SIZE < config.max_frame_bytes) (events : List Event) :
    ∀ s ∈ (RemoteWorker.run p config events).sessions, s.Ok p config.max_frame_bytes :=
  Runs.invariant (I := fun w : RemoteWorker => ∀ s ∈ w.sessions, s.Ok p config.max_frame_bytes)
    (fun w event all => w.step_ok admits config.max_sessions event all) (fun s none => by cases none) events

theorem validate_ok {loopback tls representable : Bool} {timeout cap : Nat} (accepted : validate loopback tls timeout representable cap = .ok ()) :
    HEADER_SIZE < cap ∧ cap ≤ HEADER_SIZE + MAX_PAYLOAD_SIZE.toNat := by
  unfold validate at accepted
  split_ifs at accepted with plain outside
  simp only [not_or,Nat.not_le,gt_iff_lt,Nat.not_lt] at outside
  exact outside.2.2

end

/-! ### Every session -/

/-- Under every frame limit that `validate` accepts, and whatever the peers send and do: a session calls the
    executor at most once and only as its first frame asks and the verifier grants; reading a value keeps
    its buffer within the limit, reads into slices that are not empty and returns once the peer has closed;
    and a value that was written is what is read back. -/
theorem remote_exchange (p : Parts) (config : RemoteWorkerConfig)
    (accepted : validate config.loopback config.tls config.session_timeout config.representable config.max_frame_bytes = .ok ()) :
    (∀ events : List Event, ∀ s ∈ (RemoteWorker.run p config events).sessions,
      s.executed.length ≤ 1 ∧
      (∀ principal task, (principal,task) ∈ s.executed →
        ∃ frame request, Granted p config.max_frame_bytes s.conn.stream principal task frame request) ∧
      ∀ reader, s.phase = .reading reader → Bounded config.max_frame_bytes reader) ∧
    (∀ (T : Type) (json : JsonText T) (events : List RemoteWire.Event),
      let call := read_json p.blake3 json config.max_frame_bytes
      Bounded config.max_frame_bytes (call events).reader ∧
      ((call events).conn.closed = true → ∀ later : List RemoteWire.Event,
        2 * (call events).conn.pending.length + 2 ≤ (later.map Event.steps).sum → ∃ result, (call (events ++ later)).reader = .returned result)) ∧
    ∀ (T : Type) (json : JsonText T) (value : T) (payload : Bytes), json.to_vec value = .ok payload →
      HEADER_SIZE + payload.length ≤ config.max_frame_bytes → json.from_slice payload = .ok value →
      let call := read_json p.blake3 json config.max_frame_bytes
      ∃ sent, write_json p.blake3 json config.max_frame_bytes value = .ok sent ∧
        ∀ events : List RemoteWire.Event, (call events).conn.stream = sent → (call events).conn.reset = false →
          (∀ result, (call events).reader = .returned result → result = .ok value) ∧
          ∀ choices : List Nat, 2 * sent.length + 2 ≤ choices.length → (call (events ++ choices.map .proceed)).reader = .returned (.ok value) := by
  obtain ⟨admits,protocol⟩ := validate_ok accepted
  refine ⟨?_,?_,?_⟩
  · intro events s member
    have ok := RemoteWorker.run_ok config admits events s member
    refine ⟨?_,?_,fun reader reading => (ok.reading reader reading).1.place.bounded⟩
    · rcases ok.justified with none | ⟨_,_,_,_,one,-⟩
      · simp [none]
      · simp [one]
    · intro principal task called
      rcases ok.justified with none | ⟨by_whom,what,frame,request,one,granted⟩
      · simp [none] at called
      · rw [one,List.mem_singleton] at called
        cases called
        exact ⟨frame,request,granted⟩
  · intro T json events call
    have follows := read_json_follows p.blake3 json admits events
    refine ⟨follows.place.bounded,fun closed later enough => ?_⟩
    have bound := work_le (call events)
    obtain ⟨result,ends⟩ := closed_returns p.blake3 json config.max_frame_bytes closed later (by omega)
    exact ⟨result,by rw [← ends,← read_json_append]⟩
  · intro T json value payload text fits undoes call
    obtain ⟨written,encodable⟩ := write_json_fits p.blake3 text fits protocol
    refine ⟨_,written,fun events stream unbroken => ?_⟩
    have follows := read_json_follows p.blake3 json admits events
    have first : FirstFrame p.blake3 config.max_frame_bytes (call events).conn.stream (Frame.data p.blake3 1 payload) := by
      rw [stream]
      exact ⟨[],by simpa using WireCodec.decode_encoded encodable []⟩
    have value_read := parse_data p.blake3 undoes
    constructor
    · intro result returned
      rw [(follows.settled first unbroken).1 result returned,value_read]
    · intro choices enough
      have bound := work_le (read_json p.blake3 json config.max_frame_bytes events)
      have part : (read_json p.blake3 json config.max_frame_bytes events).conn.pending.length ≤
          (Frame.data p.blake3 1 payload).encode_to_bytes.length := by
        rw [← stream,Connection.pending,List.length_drop]
        exact Nat.sub_le _ _
      have reads := follows.reads admits first unbroken choices (by omega)
      rw [value_read,← read_json_append] at reads
      exact reads

/-- A request, and a worker for it under a hash that is zero everywhere. -/
def errand : Request := ⟨"token",⟨⟨0,"echo","",.null,⟨1,0⟩,[],[]⟩,[]⟩⟩

def errandParts : Parts where
  blake3 _ _ := 0
  requests := ⟨fun _ => .ok [7],fun bytes => if bytes = [7] then .ok errand else .error "expected value"⟩
  responses := ⟨fun _ => .ok [8],fun _ => .error "expected value"⟩
  verifier := ⟨fun credential => if credential = "token" then some "ada" else none,fun principal task => principal == "ada" && task.name == "echo"⟩
  observer := false

def errandConfig : RemoteWorkerConfig := ⟨true,false,16,22,30,true⟩

/-- A frame of exactly the limit behind a byte of garbage, read in two parts. -/
def errandRun : List Event :=
  [.accept,.turn 0 (.accepted true),.turn 0 (.proceed 0),
    .peer 0 (.sends ([0] ++ (Frame.data errandParts.blake3 1 [7]).encode_to_bytes)),
    .turn 0 (.proceed 7),.turn 0 (.proceed 0),.turn 0 (.proceed 63),.turn 0 (.proceed 0),.turn 0 (.proceed 63),.turn 0 (.proceed 0)]

theorem errand_executed :
    ((RemoteWorker.run errandParts errandConfig errandRun).sessions.map Session.executed = [[("ada",errand.task)]]) ∧
    ∀ s ∈ (RemoteWorker.run errandParts errandConfig errandRun).sessions, s.executed.length ≤ 1 :=
  ⟨by decide,fun s member => ((remote_exchange errandParts errandConfig rfl).1 errandRun s member).1⟩

end Daf.RemoteSessions
