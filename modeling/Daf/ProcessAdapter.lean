import Daf.DottedPaths
import Daf.LedgerKeys

/-!
The execution of one process for a coding agent: its standard input is written and its two outputs are read at the
same time, until all is done, something fails or the deadline has passed.
-/
namespace Daf.ProcessAdapter
open Daf.DottedPaths Daf.LedgerKeys

abbrev Bytes := List UInt8

def MAX_REQUEST_BYTES : Nat := 1048576
def MAX_OUTPUT_BYTES : Nat := 1048576

structure Request where
  schema_version : Nat
  id : String
  argv : List String
  cwd : Option String
  stdin : Option String
  timeout_ms : Nat
  max_output_bytes : Nat
deriving DecidableEq,Repr

structure Outcome where
  schema_version : Nat
  id : String
  status : String
  exit_code : Option Int
  stdout : String
  stderr : String
  stdout_truncated : Bool
  stderr_truncated : Bool
deriving DecidableEq,Repr

/-- The JSON of a request, the directories, and the text of bytes that need not be UTF-8. -/
structure Environment where
  to_vec : Request → Except String Bytes
  is_dir : String → Bool
  from_utf8_lossy : Bytes → String

def Request.validate (env : Environment) (request : Request) : Except String Unit :=
  match env.to_vec request with
  | .error error => .error error
  | .ok bytes =>
    if MAX_REQUEST_BYTES < bytes.length then .error "request exceeds 1048576 bytes"
    else if request.schema_version ≠ 1 then .error "unsupported schema_version"
    else if (trim request.id.toList).isEmpty || 128 < request.id.utf8ByteSize then .error "id must contain 1..128 UTF-8 bytes"
    else if request.argv.isEmpty || request.argv.head? = some "" || 4096 < request.argv.length || request.argv.any fun s => s.toList.contains (Char.ofNat 0) then
      .error "argv must contain a nonempty executable and at most 4096 NUL-free arguments"
    else if ¬ (1 ≤ request.timeout_ms ∧ request.timeout_ms ≤ 3600000) then .error "timeout_ms must be 1..3600000"
    else if ¬ (1 ≤ request.max_output_bytes ∧ request.max_output_bytes ≤ MAX_OUTPUT_BYTES) then .error "max_output_bytes must be 1..1048576"
    else if request.cwd.any fun cwd => cwd.isEmpty || !env.is_dir cwd then .error "cwd must be an existing directory"
    else .ok ()

/-! ### What the child does -/

inductive Stream where
  | out | err
deriving DecidableEq,Repr

/-- What one read puts into the buffer; nothing at the end of the stream. -/
structure Chunk where
  bytes : Bytes
  fits : bytes.length ≤ 8192

structure ExitStatus where
  code : Option Int
deriving DecidableEq,Repr

def ExitStatus.success (status : ExitStatus) : Bool := status.code = some 0

inductive Event where
  /-- All input has been written. -/
  | written
  | write_error (broken_pipe : Bool) (message : String)
  | read (stream : Stream) (chunk : Chunk)
  | read_error (stream : Stream) (message : String)
  | exited (status : ExitStatus)
  | wait_error (message : String)
  | deadline

/-! ### Capturing -/

/-- A difference of sizes, `none` for an underflow. -/
def sub (a b : Nat) : Option Nat := if b ≤ a then some (a - b) else none

/-- The first bytes of a buffer, `none` for a range beyond it. -/
def front (bytes : Bytes) (length n : Nat) : Option Bytes := if n ≤ length then some (bytes.take n) else none

/-- One stream: what is retained of it, and all bytes that have been read from it, which only the specification looks at. -/
structure Capture where
  retained : Bytes
  truncated : Bool
  drained : Bool
  received : Bytes

def capture (limit : Nat) (c : Capture) (chunk : Chunk) : Option Capture :=
  if chunk.bytes = [] then some { c with drained := true }
  else do
    let room ← sub limit c.retained.length
    let keep := min chunk.bytes.length room
    let kept ← front chunk.bytes 8192 keep
    some ⟨c.retained ++ kept,c.truncated || decide (keep < chunk.bytes.length),false,c.received ++ chunk.bytes⟩

/-- How the race between the work and the deadline ends. -/
inductive Ending where
  | completed (status : ExitStatus)
  | failed (message : String)
  | timed_out
deriving DecidableEq,Repr

structure Work where
  written : Bool
  streams : Stream → Capture
  status : Option ExitStatus
  ending : Option Ending

/-- Without input there is nothing to write. -/
def Work.start (request : Request) : Work := ⟨request.stdin.isNone,fun _ => ⟨[],false,false,[]⟩,none,none⟩

/-- The work is complete when all four activities are. -/
def Work.join (w : Work) : Work :=
  match w.status with
  | some status => if w.written && (w.streams .out).drained && (w.streams .err).drained then { w with ending := some (.completed status) } else w
  | none => w

def Work.fail (w : Work) (message : String) : Work := { w with ending := some (.failed message) }

/-- One event. An activity that has ended goes on no more, and neither does any behind the ending. -/
def step (limit : Nat) (w : Work) (event : Event) : Option Work :=
  match w.ending with
  | some _ => some w
  | none =>
    match event with
    | .written => some (if w.written then w else { w with written := true }.join)
    | .write_error broken_pipe message =>
      -- a child may exit without reading all of its input
      some (if w.written then w else if broken_pipe then { w with written := true }.join else w.fail message)
    | .read stream chunk =>
      if (w.streams stream).drained then some w
      else (capture limit (w.streams stream) chunk).map fun c => { w with streams := fun s => if s = stream then c else w.streams s }.join
    | .read_error stream message => some (if (w.streams stream).drained then w else w.fail message)
    | .exited status => some (if w.status.isSome then w else { w with status := some status }.join)
    | .wait_error message => some (if w.status.isSome then w else w.fail message)
    | .deadline => some { w with ending := some .timed_out }

/-- What is returned, with the bytes behind its texts. -/
structure Finished where
  outcome : Outcome
  out_bytes : Bytes
  err_bytes : Bytes

section
variable (env : Environment) (request : Request)

/-- The outcome before anything has happened. -/
def Outcome.initial : Outcome := ⟨1,request.id,"failed",none,"","",false,false⟩

/-- The outcome when the process cannot be started. -/
def unspawned (message : String) : Option Finished := do
  let bytes := utf8 message.toList
  let kept ← front bytes bytes.length (min bytes.length request.max_output_bytes)
  some ⟨{ Outcome.initial request with stderr := env.from_utf8_lossy kept,stderr_truncated := decide (request.max_output_bytes < bytes.length) },[],kept⟩

def finish (w : Work) (ending : Ending) : Option Finished := do
  let outcome := { Outcome.initial request with stdout_truncated := (w.streams .out).truncated,stderr_truncated := (w.streams .err).truncated }
  let out_bytes := (w.streams .out).retained
  let (outcome,err_bytes) ←
    match ending with
    | .completed status =>
      some ({ outcome with exit_code := status.code,status := if status.success then "succeeded" else outcome.status },(w.streams .err).retained)
    | .failed message => do
      let bytes := utf8 message.toList
      let room ← sub request.max_output_bytes (w.streams .err).retained.length
      let keep := min room bytes.length
      let part ← front bytes bytes.length keep
      some ({ outcome with stderr_truncated := outcome.stderr_truncated || decide (keep < bytes.length) },(w.streams .err).retained ++ part)
    | .timed_out => some ({ outcome with status := "timed_out" },(w.streams .err).retained)
  some ⟨{ outcome with stdout := env.from_utf8_lossy out_bytes,stderr := outcome.stderr ++ env.from_utf8_lossy err_bytes },out_bytes,err_bytes⟩

/-- How a call ends: in a panic, not yet, with an error, or with an outcome and the work behind it. -/
inductive Run where
  | panicked
  | pending
  | refused (error : String)
  | returned (work : Option (Work × Ending)) (finished : Finished)

def execute (spawned : Except String Unit) (events : List Event) : Run :=
  match request.validate env with
  | .error error => .refused error
  | .ok _ =>
    match request.argv with
    | [] => .panicked
    | _ :: _ =>
      match spawned with
      | .error message =>
        match unspawned env request message with
        | some finished => .returned none finished
        | none => .panicked
      | .ok _ =>
        match events.foldlM (step request.max_output_bytes) (.start request) with
        | none => .panicked
        | some w =>
          match w.ending with
          | none => .pending
          | some ending =>
            match finish env request w ending with
            | some finished => .returned (some (w,ending)) finished
            | none => .panicked

end

/-! ### The specification -/

/-- What goes on at the same time. -/
inductive Activity where
  | write
  | read (stream : Stream)
  | wait
deriving DecidableEq,Repr

/-- The activity that ends with the event, and how. -/
def Event.ends : Event → Option (Activity × Except String Unit)
  | .written => some (.write,.ok ())
  | .write_error broken_pipe message => some (.write,if broken_pipe then .ok () else .error message)
  | .read stream chunk => if chunk.bytes = [] then some (.read stream,.ok ()) else none
  | .read_error stream message => some (.read stream,.error message)
  | .exited _ => some (.wait,.ok ())
  | .wait_error message => some (.wait,.error message)
  | .deadline => none

def Event.isDeadline : Event → Bool
  | .deadline => true
  | _ => false

def Event.exit : Event → Option ExitStatus
  | .exited status => some status
  | _ => none

/-- How the event ends this activity. -/
def Event.endsOf (activity : Activity) (event : Event) : Option (Except String Unit) :=
  event.ends.bind fun ended => if ended.1 = activity then some ended.2 else none

/-- How an activity ends: with its first event that ends it. -/
def result (request : Request) (activity : Activity) (events : List Event) : Option (Except String Unit) :=
  if activity = .write ∧ request.stdin.isNone then some (.ok ()) else events.findSome? (Event.endsOf activity)

/-- The input is written or refused, both pipes are drained, and the child has exited. -/
def Completed (request : Request) (events : List Event) : Prop := ∀ activity, result request activity events = some (.ok ())

/-- Some activity has failed. -/
def Broken (request : Request) (events : List Event) : Prop := ∃ activity message, result request activity events = some (.error message)

/-- The events before the deadline. -/
def inTime (events : List Event) : List Event := events.takeWhile fun event => !event.isDeadline

/-- The message that is appended to the standard error. -/
def Ending.message : Ending → Bytes
  | .failed message => utf8 message.toList
  | _ => []

/-- What the outcome is to be. -/
structure Exact (env : Environment) (request : Request) (events : List Event) (w : Work) (ending : Ending) (f : Finished) : Prop where
  out_bytes : f.out_bytes = (w.streams .out).received.take request.max_output_bytes
  err_bytes : f.err_bytes = ((w.streams .err).received ++ ending.message).take request.max_output_bytes
  stdout : f.outcome.stdout = env.from_utf8_lossy f.out_bytes
  stderr : f.outcome.stderr = env.from_utf8_lossy f.err_bytes
  stdout_truncated : f.outcome.stdout_truncated = true ↔ request.max_output_bytes < (w.streams .out).received.length
  stderr_truncated : f.outcome.stderr_truncated = true ↔ request.max_output_bytes < ((w.streams .err).received ++ ending.message).length
  succeeded : f.outcome.status = "succeeded" ↔ Completed request (inTime events) ∧ ∃ status, (inTime events).findSome? Event.exit = some status ∧ status.success = true
  timed_out : f.outcome.status = "timed_out" ↔ .deadline ∈ events ∧ ¬ Completed request (inTime events) ∧ ¬ Broken request (inTime events)

/-! ### Capturing within the limit -/

section
variable {limit : Nat} {c : Capture} {request : Request} {events : List Event} {w : Work}

/-- The first bytes of the stream are retained, and the flag says whether there were more. -/
structure Kept (limit : Nat) (c : Capture) : Prop where
  retained : c.retained = c.received.take limit
  truncated : c.truncated = true ↔ limit < c.received.length

/-- Bytes that are added within a limit to those that were. -/
theorem take_add (bytes more : Bytes) : bytes.take limit ++ more.take (min more.length (limit - (bytes.take limit).length)) = (bytes ++ more).take limit := by
  rw [List.take_append,List.length_take]
  congr 1
  rw [← List.take_take,List.take_of_length_le (by rw [List.length_take]; exact Nat.min_le_right _ _)]
  congr 1
  omega

theorem capture_spec (kept : Kept limit c) (chunk : Chunk) :
    ∃ c', capture limit c chunk = some c' ∧ Kept limit c' ∧ c'.drained = decide (chunk.bytes = []) := by
  unfold capture
  by_cases empty : chunk.bytes = []
  · rw [if_pos empty]
    exact ⟨_,rfl,⟨kept.retained,kept.truncated⟩,by simp [empty]⟩
  · have fits := chunk.fits
    have bounded : c.retained.length ≤ limit := by
      rw [kept.retained,List.length_take]
      exact Nat.min_le_left _ _
    have room : sub limit c.retained.length = some (limit - c.retained.length) := if_pos bounded
    have inside : front chunk.bytes 8192 (min chunk.bytes.length (limit - c.retained.length)) = some (chunk.bytes.take (min chunk.bytes.length (limit - c.retained.length))) :=
      if_pos (by omega)
    rw [if_neg empty,room]
    simp only [Option.bind_eq_bind,Option.bind_some,inside]
    refine ⟨_,rfl,⟨?_,?_⟩,by simp [empty]⟩
    · rw [kept.retained]
      exact take_add _ _
    · have length : c.retained.length = min limit c.received.length := by rw [kept.retained,List.length_take]
      simp only [Bool.or_eq_true,kept.truncated,decide_eq_true_eq,List.length_append,length]
      omega

/-! ### Activities -/

theorem result_snoc (activity : Activity) (events : List Event) (event : Event) :
    result request activity (events ++ [event]) = (result request activity events).or (event.endsOf activity) := by
  unfold result
  split
  · rfl
  · rw [List.findSome?_append]
    simp

theorem exit_snoc (events : List Event) (event : Event) : (events ++ [event]).findSome? Event.exit = (events.findSome? Event.exit).or event.exit := by
  rw [List.findSome?_append]
  simp

theorem Completed.snoc (completed : Completed request events) (event : Event) : Completed request (events ++ [event]) := by
  intro activity
  rw [result_snoc,completed activity]
  rfl

theorem Broken.snoc (broken : Broken request events) (event : Event) : Broken request (events ++ [event]) := by
  obtain ⟨activity,message,failed⟩ := broken
  exact ⟨activity,message,by rw [result_snoc,failed]; rfl⟩

theorem inTime_live (live : ∀ event ∈ events, event.isDeadline = false) : inTime events = events :=
  List.takeWhile_eq_self_iff.mpr fun event member => by simp [live event member]

theorem inTime_snoc (live : ∀ event ∈ events, event.isDeadline = false) (event : Event) :
    inTime (events ++ [event]) = if event.isDeadline then events else events ++ [event] := by
  rw [inTime,List.takeWhile_append_of_pos fun event member => by simp [live event member]]
  cases late : event.isDeadline <;> simp [late]

theorem inTime_passed (passed : ∃ event ∈ events, event.isDeadline = true) (event : Event) : inTime (events ++ [event]) = inTime events := by
  obtain ⟨late,member,deadline⟩ := passed
  induction events with
  | nil => cases member
  | cons first events ih =>
    cases here : first.isDeadline with
    | true => simp [inTime,here]
    | false =>
      have there : late ∈ events := (List.mem_cons.mp member).resolve_left fun same => by rw [same,here] at deadline; cases deadline
      have rest := ih there
      simpa [inTime,here] using rest

/-- The work knows of the events so far which activities have ended, and that none has failed. -/
structure Matches (request : Request) (events : List Event) (w : Work) : Prop where
  live : ∀ event ∈ events, event.isDeadline = false
  written : result request .write events = if w.written then some (.ok ()) else none
  drained : ∀ s, result request (.read s) events = if (w.streams s).drained then some (.ok ()) else none
  exited : result request .wait events = if w.status.isSome then some (.ok ()) else none
  status : events.findSome? Event.exit = w.status

/-- What the ending says of the events. -/
def Ended (request : Request) (events : List Event) : Ending → Prop
  | .completed status => Completed request (inTime events) ∧ (inTime events).findSome? Event.exit = some status
  | .failed _ => Broken request (inTime events)
  | .timed_out => .deadline ∈ events ∧ ¬ Completed request (inTime events) ∧ ¬ Broken request (inTime events)

structure Inv (request : Request) (events : List Event) (w : Work) : Prop where
  kept : ∀ s, Kept request.max_output_bytes (w.streams s)
  running : w.ending = none → Matches request events w ∧ ¬ Completed request events
  ended : ∀ ending ∈ w.ending, Ended request events ending

theorem Matches.unbroken (same : Matches request events w) : ¬ Broken request events := by
  rintro ⟨activity,message,failed⟩
  have some_ok : ∀ {b : Bool}, (if b then some (.ok ()) else none : Option (Except String Unit)) ≠ some (.error message) := by
    intro b
    cases b <;> simp
  cases activity with
  | write => exact some_ok (same.written ▸ failed)
  | read s => exact some_ok (same.drained s ▸ failed)
  | wait => exact some_ok (same.exited ▸ failed)

theorem Matches.completed_iff (same : Matches request events w) :
    Completed request events ↔ w.written = true ∧ (w.streams .out).drained = true ∧ (w.streams .err).drained = true ∧ w.status.isSome = true := by
  have some_ok : ∀ b : Bool, (if b then some (.ok ()) else none : Option (Except String Unit)) = some (.ok ()) ↔ b = true := by
    intro b
    cases b <;> simp
  constructor
  · intro completed
    refine ⟨(some_ok _).mp (same.written ▸ completed .write),?_,?_,(some_ok _).mp (same.exited ▸ completed .wait)⟩
    · exact (some_ok _).mp (same.drained .out ▸ completed (.read .out))
    · exact (some_ok _).mp (same.drained .err ▸ completed (.read .err))
  · rintro ⟨written,out,err,exited⟩ activity
    cases activity with
    | write => rw [same.written,written]; rfl
    | read s => cases s <;> simp [same.drained,out,err]
    | wait => rw [same.exited,exited]; rfl

/-- When an activity has ended well, the work is complete or goes on. -/
theorem inv_join (kept : ∀ s, Kept request.max_output_bytes (w.streams s)) (free : w.ending = none) (same : Matches request events w) :
    Inv request events w.join := by
  have time := inTime_live same.live
  have unchanged : ¬ Completed request events → Inv request events w := by
    intro unfinished
    refine ⟨kept,fun _ => ⟨same,unfinished⟩,fun ending there => ?_⟩
    rw [free] at there
    cases there
  unfold Work.join
  cases exited : w.status with
  | none =>
    refine unchanged fun completed => ?_
    have known := (same.completed_iff.mp completed).2.2.2
    rw [exited] at known
    cases known
  | some status =>
    dsimp only
    by_cases all : w.written && (w.streams .out).drained && (w.streams .err).drained
    · rw [if_pos all]
      simp only [Bool.and_eq_true] at all
      refine ⟨kept,nofun,fun ending there => ?_⟩
      rw [← Option.some.inj there]
      show Completed request (inTime events) ∧ (inTime events).findSome? Event.exit = some status
      rw [time,same.status]
      exact ⟨same.completed_iff.mpr ⟨all.1.1,all.1.2,all.2,by rw [exited]; rfl⟩,exited⟩
    · rw [if_neg all]
      refine unchanged fun completed => all ?_
      obtain ⟨written,out,err,-⟩ := same.completed_iff.mp completed
      simp [written,out,err]

/-- A failure ends the work. -/
theorem inv_fail {event : Event} (kept : ∀ s, Kept request.max_output_bytes (w.streams s)) (same : Matches request events w) (activity : Activity) (message : String)
    (fails : event.endsOf activity = some (.error message)) (in_time : event.isDeadline = false) (not_yet : result request activity events = none) :
    Inv request (events ++ [event]) (w.fail message) := by
  refine ⟨kept,nofun,fun ending there => ?_⟩
  rw [← Option.some.inj there]
  show Broken request (inTime (events ++ [event]))
  rw [inTime_snoc same.live,in_time]
  exact ⟨activity,message,by simp [result_snoc,not_yet,fails]⟩

/-- An event of an activity that has ended already, or one that ends none, leaves the results as they are. -/
theorem matches_idle {event : Event} (same : Matches request events w) (in_time : event.isDeadline = false) (no_exit : w.status.isSome ∨ event.exit = none)
    (idle : ∀ activity, event.endsOf activity = none ∨ result request activity events = some (.ok ())) :
    Matches request (events ++ [event]) w ∧ (Completed request (events ++ [event]) → Completed request events) := by
  have results : ∀ activity, result request activity (events ++ [event]) = result request activity events := by
    intro activity
    rw [result_snoc]
    rcases idle activity with none | ended
    · rw [none,Option.or_none]
    · rw [ended]
      rfl
  refine ⟨⟨?_,?_,?_,?_,?_⟩,fun completed activity => by rw [← results]; exact completed activity⟩
  · intro e member
    rcases List.mem_append.mp member with old | new
    · exact same.live e old
    · rw [List.mem_singleton.mp new]
      exact in_time
  · rw [results,same.written]
  · intro s
    rw [results,same.drained]
  · rw [results,same.exited]
  · rw [exit_snoc,same.status]
    rcases no_exit with known | none
    · obtain ⟨status,exited⟩ := Option.isSome_iff_exists.mp known
      rw [exited]
      rfl
    · rw [none,Option.or_none]

/-- When the activity of an event has ended well, the work knows of it. -/
theorem matches_ended {event : Event} {w' : Work} (same : Matches request events w) (in_time : event.isDeadline = false)
    (written : (if w.written then some (.ok ()) else none : Option (Except String Unit)).or (event.endsOf .write) = if w'.written then some (.ok ()) else none)
    (drained : ∀ s, (if (w.streams s).drained then some (.ok ()) else none : Option (Except String Unit)).or (event.endsOf (.read s)) =
      if (w'.streams s).drained then some (.ok ()) else none)
    (exited : (if w.status.isSome then some (.ok ()) else none : Option (Except String Unit)).or (event.endsOf .wait) = if w'.status.isSome then some (.ok ()) else none)
    (status : w.status.or event.exit = w'.status) : Matches request (events ++ [event]) w' := by
  refine ⟨?_,?_,?_,?_,?_⟩
  · intro e member
    rcases List.mem_append.mp member with old | new
    · exact same.live e old
    · rw [List.mem_singleton.mp new]
      exact in_time
  · rw [result_snoc,same.written,written]
  · intro s
    rw [result_snoc,same.drained,drained]
  · rw [result_snoc,same.exited,exited]
  · rw [exit_snoc,same.status,status]

theorem Ended.snoc {ending : Ending} (ended : Ended request events ending) (event : Event) : Ended request (events ++ [event]) ending := by
  by_cases passed : ∃ e ∈ events, e.isDeadline = true
  · have time := inTime_passed passed event
    cases ending with
    | completed status => exact ⟨time ▸ ended.1,time ▸ ended.2⟩
    | failed message =>
      have broken : Broken request (inTime events) := ended
      exact (time ▸ broken : Broken request (inTime (events ++ [event])))
    | timed_out => exact ⟨List.mem_append_left _ ended.1,time ▸ ended.2.1,time ▸ ended.2.2⟩
  · have live : ∀ e ∈ events, e.isDeadline = false := fun e member => by
      by_contra late
      exact passed ⟨e,member,by simpa using late⟩
    have time := inTime_live live
    have later := inTime_snoc live event
    cases ending with
    | timed_out => exact absurd ⟨.deadline,ended.1,rfl⟩ passed
    | completed status =>
      obtain ⟨completed,exited⟩ := ended
      rw [time] at completed exited
      show Completed request (inTime (events ++ [event])) ∧ (inTime (events ++ [event])).findSome? Event.exit = some status
      rw [later]
      split
      · exact ⟨completed,exited⟩
      · exact ⟨completed.snoc event,by rw [exit_snoc,exited]; rfl⟩
    | failed message =>
      have broken : Broken request (inTime events) := ended
      rw [time] at broken
      show Broken request (inTime (events ++ [event]))
      rw [later]
      split
      · exact broken
      · exact broken.snoc event

/-- The work goes on as it is where the activity that the event would end has ended already. -/
theorem inv_idle {event : Event} (inv : Inv request events w) (free : w.ending = none) (in_time : event.isDeadline = false)
    (no_exit : w.status.isSome ∨ event.exit = none)
    (idle : ∀ activity ended, event.ends = some (activity,ended) → result request activity events = some (.ok ())) : Inv request (events ++ [event]) w := by
  obtain ⟨same,unfinished⟩ := inv.running free
  have nothing : ∀ activity, event.endsOf activity = none ∨ result request activity events = some (.ok ()) := by
    intro activity
    unfold Event.endsOf
    cases ends : event.ends with
    | none => exact .inl rfl
    | some ended =>
      by_cases own : ended.1 = activity
      · exact .inr (own ▸ idle ended.1 ended.2 ends)
      · exact .inl (by simp [own])
  obtain ⟨next,before⟩ := matches_idle same in_time no_exit nothing
  refine ⟨inv.kept,fun _ => ⟨next,fun completed => unfinished (before completed)⟩,fun ending there => ?_⟩
  rw [free] at there
  cases there

/-- All input has been written, or what is left of it is not wanted. -/
theorem inv_written {event : Event} (inv : Inv request events w) (free : w.ending = none) (open_ : w.written = false)
    (ends : event.ends = some (.write,.ok ())) (in_time : event.isDeadline = false) (no_exit : event.exit = none) :
    Inv request (events ++ [event]) { w with written := true }.join := by
  obtain ⟨same,-⟩ := inv.running free
  have next : Matches request (events ++ [event]) { w with written := true } := by
    refine matches_ended same in_time ?_ (fun s => ?_) ?_ ?_
    · simp [open_,Event.endsOf,ends]
    · simp [Event.endsOf,ends]
    · simp [Event.endsOf,ends]
    · simp [no_exit]
  exact inv_join (w := { w with written := true }) inv.kept free next

/-- A chunk has been read, or the end of its stream. -/
theorem inv_read {stream : Stream} {chunk : Chunk} {c : Capture} (inv : Inv request events w) (free : w.ending = none)
    (open_ : (w.streams stream).drained = false) (received : Kept request.max_output_bytes c ∧ c.drained = decide (chunk.bytes = [])) :
    Inv request (events ++ [.read stream chunk]) { w with streams := fun s => if s = stream then c else w.streams s }.join := by
  obtain ⟨same,-⟩ := inv.running free
  obtain ⟨kept,drained⟩ := received
  have next : Matches request (events ++ [Event.read stream chunk]) { w with streams := fun s => if s = stream then c else w.streams s } := by
    refine matches_ended same rfl ?_ (fun s => ?_) ?_ ?_
    · by_cases empty : chunk.bytes = [] <;> simp [Event.endsOf,Event.ends,empty]
    · by_cases own : s = stream
      · subst own
        by_cases empty : chunk.bytes = [] <;> simp [Event.endsOf,Event.ends,empty,open_,drained]
      · by_cases empty : chunk.bytes = [] <;> simp [Event.endsOf,Event.ends,empty,own,Ne.symm own]
    · by_cases empty : chunk.bytes = [] <;> simp [Event.endsOf,Event.ends,empty]
    · simp [Event.exit]
  refine inv_join (w := { w with streams := fun s => if s = stream then c else w.streams s }) (fun s => ?_) free next
  show Kept _ (if s = stream then c else w.streams s)
  split
  · exact kept
  · exact inv.kept s

/-- The child has exited. -/
theorem inv_exited (inv : Inv request events w) (free : w.ending = none) (waiting : w.status = none) (status : ExitStatus) :
    Inv request (events ++ [.exited status]) { w with status := some status }.join := by
  obtain ⟨same,-⟩ := inv.running free
  have next : Matches request (events ++ [Event.exited status]) { w with status := some status } := by
    refine matches_ended same rfl ?_ (fun s => ?_) ?_ ?_
    · simp [Event.endsOf,Event.ends]
    · simp [Event.endsOf,Event.ends]
    · simp [waiting,Event.endsOf,Event.ends]
    · simp [waiting,Event.exit]
  exact inv_join (w := { w with status := some status }) inv.kept free next

/-- No step panics, and each keeps what the work knows. -/
theorem step_spec (inv : Inv request events w) (event : Event) :
    ∃ w', step request.max_output_bytes w event = some w' ∧ Inv request (events ++ [event]) w' := by
  cases free : w.ending with
  | some ending =>
    refine ⟨w,by simp [step,free],inv.kept,fun none => ?_,fun other there => ?_⟩
    · rw [free] at none
      cases none
    · exact (inv.ended other there).snoc event
  | none =>
    obtain ⟨same,unfinished⟩ := inv.running free
    cases event with
    | deadline =>
      refine ⟨{ w with ending := some .timed_out },by simp [step,free],inv.kept,nofun,fun ending there => ?_⟩
      rw [← Option.some.inj there]
      have time : inTime (events ++ [Event.deadline]) = events := by rw [inTime_snoc same.live]; rfl
      show Event.deadline ∈ events ++ [Event.deadline] ∧ ¬ Completed request (inTime (events ++ [Event.deadline])) ∧
          ¬ Broken request (inTime (events ++ [Event.deadline]))
      rw [time]
      exact ⟨by simp,unfinished,same.unbroken⟩
    | written =>
      cases known : w.written with
      | true =>
        refine ⟨w,by simp [step,free,known],inv_idle inv free rfl (.inr rfl) ?_⟩
        rintro _ _ ⟨⟩
        rw [same.written,known]
        rfl
      | false => exact ⟨{ w with written := true }.join,by simp [step,free,known],inv_written inv free known rfl rfl rfl⟩
    | write_error broken_pipe message =>
      cases known : w.written with
      | true =>
        refine ⟨w,by simp [step,free,known],inv_idle inv free rfl (.inr rfl) ?_⟩
        rintro _ _ ⟨⟩
        rw [same.written,known]
        rfl
      | false =>
        cases broken_pipe with
        | true => exact ⟨{ w with written := true }.join,by simp [step,free,known],inv_written inv free known rfl rfl rfl⟩
        | false =>
          refine ⟨w.fail message,by simp [step,free,known],inv_fail inv.kept same .write message rfl rfl ?_⟩
          rw [same.written,known]
          rfl
    | read stream chunk =>
      cases known : (w.streams stream).drained with
      | true =>
        refine ⟨w,by simp [step,free,known],inv_idle inv free rfl (.inr rfl) fun activity ended ends => ?_⟩
        have own : activity = .read stream := by
          by_cases empty : chunk.bytes = [] <;> simp [Event.ends,empty] at ends
          exact ends.1.symm
        rw [own,same.drained,known]
        rfl
      | false =>
        obtain ⟨c,captured,received⟩ := capture_spec (inv.kept stream) chunk
        exact ⟨_,by simp only [step,free,known,captured]; rfl,inv_read inv free known received⟩
    | read_error stream message =>
      cases known : (w.streams stream).drained with
      | true =>
        refine ⟨w,by simp [step,free,known],inv_idle inv free rfl (.inr rfl) ?_⟩
        rintro _ _ ⟨⟩
        rw [same.drained,known]
        rfl
      | false =>
        refine ⟨w.fail message,by simp [step,free,known],inv_fail inv.kept same (.read stream) message (by simp [Event.endsOf,Event.ends]) rfl ?_⟩
        rw [same.drained,known]
        rfl
    | exited status =>
      cases known : w.status with
      | some before =>
        refine ⟨w,by simp [step,free,known],inv_idle inv free rfl (.inl (by rw [known]; rfl)) ?_⟩
        rintro _ _ ⟨⟩
        rw [same.exited,known]
        rfl
      | none =>
        exact ⟨{ w with status := some status }.join,by simp [step,free,known],inv_exited inv free known status⟩
    | wait_error message =>
      cases known : w.status with
      | some before =>
        refine ⟨w,by simp [step,free,known],inv_idle inv free rfl (.inr rfl) ?_⟩
        rintro _ _ ⟨⟩
        rw [same.exited,known]
        rfl
      | none =>
        refine ⟨w.fail message,by simp [step,free,known],inv_fail inv.kept same .wait message rfl rfl ?_⟩
        rw [same.exited,known]
        rfl

theorem inv_start (request : Request) : Inv request [] (.start request) := by
  refine ⟨fun s => ⟨by simp [Work.start],by simp [Work.start]⟩,fun _ => ⟨⟨nofun,?_,fun s => rfl,rfl,rfl⟩,fun completed => ?_⟩,fun ending there => ?_⟩
  · cases given : request.stdin <;> simp [result,Work.start,given]
  · have waited := completed .wait
    cases waited
  · cases there

/-- A run never panics, and what the work knows is right behind it. -/
theorem run_spec (events : List Event) :
    ∀ (before : List Event) {w : Work}, Inv request before w →
      ∃ w', events.foldlM (step request.max_output_bytes) w = some w' ∧ Inv request (before ++ events) w' := by
  induction events with
  | nil =>
    intro before w inv
    exact ⟨w,rfl,by rwa [List.append_nil]⟩
  | cons event events ih =>
    intro before w inv
    obtain ⟨next,stepped,kept⟩ := step_spec inv event
    obtain ⟨last,ran,final⟩ := ih (before ++ [event]) kept
    refine ⟨last,?_,by simpa using final⟩
    rw [List.foldlM_cons,stepped]
    exact ran

/-- Work that goes on has not seen the deadline. -/
theorem Inv.no_deadline (inv : Inv request events w) (running : w.ending = none) : .deadline ∉ events := by
  intro passed
  have late := (inv.running running).1.live _ passed
  cases late

/-! ### The outcome -/

/-- What has been received, and a message behind it, is within the limit. -/
theorem message_fits (kept : Kept limit c) (message : Bytes) :
    ∃ keep part, sub limit c.retained.length = some (limit - c.retained.length) ∧ keep = min (limit - c.retained.length) message.length ∧
      front message message.length keep = some part ∧ c.retained ++ part = (c.received ++ message).take limit ∧
        ((c.truncated || decide (keep < message.length)) = true ↔ limit < (c.received ++ message).length) := by
  have length : c.retained.length = min limit c.received.length := by rw [kept.retained,List.length_take]
  refine ⟨_,_,if_pos (by omega),rfl,if_pos (Nat.min_le_right _ _),?_,?_⟩
  · rw [Nat.min_comm,kept.retained]
    exact take_add _ _
  · simp only [Bool.or_eq_true,kept.truncated,decide_eq_true_eq,List.length_append]
    omega

theorem Completed.unbroken (completed : Completed request events) : ¬ Broken request events := by
  rintro ⟨activity,message,failed⟩
  rw [completed activity] at failed
  cases failed

/-- Behind an ending there is an outcome, and it is exact. -/
theorem finish_spec (env : Environment) (inv : Inv request events w) {ending : Ending} (ended : w.ending = some ending) :
    ∃ f, finish env request w ending = some f ∧ Exact env request events w ending f := by
  have out := inv.kept .out
  have err := inv.kept .err
  have known := inv.ended ending ended
  cases ending with
  | completed status =>
    obtain ⟨completed,exited⟩ := known
    refine ⟨_,rfl,out.retained,by simpa [Ending.message] using err.retained,rfl,String.empty_append,out.truncated,
      by simpa [Ending.message] using err.truncated,?_,?_⟩
    · show (if status.success then "succeeded" else "failed") = "succeeded" ↔ _
      cases success : status.success with
      | true => exact iff_of_true rfl ⟨completed,status,exited,success⟩
      | false =>
        refine iff_of_false (by decide) ?_
        rintro ⟨-,other,first,good⟩
        rw [Option.some.inj (first.symm.trans exited),success] at good
        cases good
    · refine iff_of_false ?_ fun late => late.2.1 completed
      show ¬ (if status.success then "succeeded" else "failed") = "timed_out"
      split <;> decide
  | failed message =>
    have broken : Broken request (inTime events) := known
    obtain ⟨keep,part,room,same,inside,bytes,flag⟩ := message_fits err (utf8 message.toList)
    subst same
    unfold finish
    simp only [room,inside,Option.bind_eq_bind,Option.bind_some]
    refine ⟨_,rfl,out.retained,bytes,rfl,String.empty_append,out.truncated,flag,?_,?_⟩
    · exact iff_of_false (by simp [Outcome.initial]) fun good => good.1.unbroken broken
    · exact iff_of_false (by simp [Outcome.initial]) fun late => late.2.2 broken
  | timed_out =>
    refine ⟨_,rfl,out.retained,by simpa [Ending.message] using err.retained,rfl,String.empty_append,out.truncated,
      by simpa [Ending.message] using err.truncated,?_,iff_of_true rfl known⟩
    exact iff_of_false (by simp) fun good => known.2.1 good.1

/-- A process that cannot be started leaves its error within the limit. -/
theorem unspawned_spec (env : Environment) (request : Request) (message : String) :
    ∃ f, unspawned env request message = some f ∧ f.outcome.status = "failed" ∧ f.out_bytes = [] ∧ f.outcome.stdout = "" ∧ f.outcome.stdout_truncated = false ∧
      f.err_bytes = (utf8 message.toList).take request.max_output_bytes ∧ f.outcome.stderr = env.from_utf8_lossy f.err_bytes ∧
        (f.outcome.stderr_truncated = true ↔ request.max_output_bytes < (utf8 message.toList).length) := by
  have inside : front (utf8 message.toList) (utf8 message.toList).length (min (utf8 message.toList).length request.max_output_bytes) =
      some ((utf8 message.toList).take (min (utf8 message.toList).length request.max_output_bytes)) := if_pos (Nat.min_le_left _ _)
  unfold unspawned
  simp only [inside,Option.bind_eq_bind,Option.bind_some]
  refine ⟨_,rfl,rfl,rfl,rfl,rfl,?_,rfl,decide_eq_true_iff⟩
  rw [Nat.min_comm,← List.take_take,List.take_length]

theorem validate_argv {env : Environment} (valid : request.validate env = .ok ()) : request.argv ≠ [] := by
  intro empty
  unfold Request.validate at valid
  rw [empty] at valid
  cases encoded : env.to_vec request <;> simp only [encoded] at valid
  · cases valid
  · simp only [List.isEmpty_nil,Bool.true_or,↓reduceIte] at valid
    -- The checks before the one of the arguments fail as well.
    repeat' split at valid
    all_goals cases valid

/-- For a valid request a call never panics. It goes on as long as the deadline has not passed, and its outcome is exact: of each stream the first
bytes are retained, and the flags and the status say what has happened. -/
theorem execute_exact (env : Environment) (request : Request) (spawned : Except String Unit) (events : List Event) (valid : request.validate env = .ok ()) :
    (∃ message f, spawned = .error message ∧ execute env request spawned events = .returned none f ∧ f.outcome.status = "failed" ∧
      f.out_bytes = [] ∧ f.outcome.stdout = "" ∧ f.outcome.stdout_truncated = false ∧
        f.err_bytes = (utf8 message.toList).take request.max_output_bytes ∧ f.outcome.stderr = env.from_utf8_lossy f.err_bytes ∧
          (f.outcome.stderr_truncated = true ↔ request.max_output_bytes < (utf8 message.toList).length)) ∨
    (spawned = .ok () ∧ execute env request spawned events = .pending ∧ .deadline ∉ events) ∨
    (spawned = .ok () ∧ ∃ w ending f, execute env request spawned events = .returned (some (w,ending)) f ∧ Exact env request events w ending f) := by
  have named := validate_argv valid
  unfold execute
  rw [valid]
  cases argv : request.argv with
  | nil => exact absurd argv named
  | cons program arguments =>
    cases spawned with
    | error message =>
      obtain ⟨f,made,rest⟩ := unspawned_spec env request message
      exact .inl ⟨message,f,rfl,by simp only [made],rest⟩
    | ok =>
      obtain ⟨w,ran,inv⟩ := run_spec events [] (inv_start request)
      simp only [ran]
      cases ended : w.ending with
      | none => exact .inr (.inl ⟨trivial,rfl,inv.no_deadline ended⟩)
      | some ending =>
        obtain ⟨f,finished,exact⟩ := finish_spec env inv ended
        exact .inr (.inr ⟨trivial,w,ending,f,by simp only [finished],exact⟩)

end

/-! ### A silent program -/

def silentRequest : Request := ⟨1,"a",["p"],none,none,5,2⟩

def silentText : List Char :=
  "\x7b\"schema_version\":1,\"id\":\"a\",\"argv\":[\"p\"],\"cwd\":null,\"stdin\":null,\"timeout_ms\":5,\"max_output_bytes\":2\x7d".toList

/-- The JSON of that request, and the texts of bytes below 128. -/
def silentEnvironment : Environment where
  to_vec _ := .ok (silentText.map fun c => UInt8.ofNat c.toNat)
  is_dir _ := true
  from_utf8_lossy bytes := String.ofList (bytes.map fun byte => Char.ofNat byte.toNat)

/-- It writes three bytes, of which two are retained, and nothing more until the deadline. -/
theorem silent_exact :
    let events : List Event := [.read .out ⟨[1,2],by decide⟩,.read .out ⟨[3],by decide⟩,.deadline]
    silentRequest.validate silentEnvironment = .ok () ∧
      ∃ w ending f, execute silentEnvironment silentRequest (.ok ()) events = .returned (some (w,ending)) f ∧
        Exact silentEnvironment silentRequest events w ending f := by
  intro events
  have valid : silentRequest.validate silentEnvironment = .ok () := by
    have size : silentText.length = 102 := by
      unfold silentText
      rw [String.toList_ofList]
      rfl
    have named : ¬ trim ['a'] = [] := by decide
    have short : "a".utf8ByteSize = 1 := by decide
    simp [silentRequest,silentEnvironment,Request.validate,MAX_REQUEST_BYTES,MAX_OUTPUT_BYTES,size,named,short]
  refine ⟨valid,?_⟩
  rcases execute_exact silentEnvironment silentRequest (.ok ()) events valid with ⟨message,f,failed,-⟩ | ⟨-,-,passed⟩ | ⟨-,returned⟩
  · cases failed
  · exact absurd (by simp [events]) passed
  · exact returned

end Daf.ProcessAdapter
