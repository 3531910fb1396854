import Daf.JsonAccess
import Daf.ReviewRun
import Daf.TextLines

/-!
The event stream of a provider: lines of JSON that are folded into the attempt. What is captured of a stream can end
anywhere, also inside a line.
-/
namespace Daf.ProviderEvents
open Daf.Json Daf.TextLines Daf.ReviewRun

abbrev Bytes := List UInt8

def newline : UInt8 := 10

/-- The JSON in the bytes of a line, and in the text of a message. -/
structure Serde where
  from_slice : Bytes → Option Value
  from_str : String → Option Value

/-- What is retained of the chunks that are read; an empty one is the end of the stream. -/
def capture (cap : Nat) (out : Bytes) : List Bytes → Bytes × Except String Unit
  | [] => (out,.ok ())
  | chunk :: chunks =>
    if chunk = [] then (out,.ok ())
    else if cap < min (out.length + chunk.length) (2^64 - 1) then (out ++ chunk.take (cap - out.length),.error "provider output exceeded byte limit")
    else capture cap (out ++ chunk) chunks

/-- The field of an object, `null` where there is none. -/
def index (value : Value) (key : String) : Value := (value.get key).getD .null

/-- The counters of an object of usage. -/
def receipt : Value → Option Usage
  | .object fields =>
    let usage := Value.object fields
    some ⟨(usage.get "input_tokens").bind Value.as_u64,(usage.get "cached_input_tokens").bind Value.as_u64,(usage.get "output_tokens").bind Value.as_u64,
      "codex.turn.completed.usage"⟩
  | _ => none

structure Parse where
  response : ProviderAttempt
  completed : Bool
  ambiguous_usage : Bool

def Parse.start : Parse := ⟨⟨none,.default,none,true⟩,false,false⟩

section
variable (serde : Serde)

def Parse.read (p : Parse) (event : Value) : Parse :=
  match (index event "type").as_str with
  | some "turn.completed" =>
    let p := if p.completed then { p with response.error := some "multiple completed turns are unsupported",ambiguous_usage := true } else p
    let p := { p with completed := true,response.outcome_unknown := false }
    match (event.get "usage").bind receipt with
    | some usage => { p with response.usage := usage }
    | none => p
  | some "item.completed" =>
    if (index (index event "item") "type").as_str = some "agent_message" then
      match (index (index event "item") "text").as_str with
      | some text => { p with response.output := serde.from_str text }
      | none => p
    else p
  | some "turn.failed" => { p with response.error := some "provider reported failed turn",response.outcome_unknown := false }
  | some "error" => { p with response.error := some "provider reported error" }
  | _ => p

def Parse.line (p : Parse) (line : Bytes) : Parse :=
  if line = [] then p
  else
    match serde.from_slice line with
    | none => { p with response.error := some "invalid provider JSON event" }
    | some event => p.read serde event

def Usage.ambiguous : Usage := { Usage.default with source := "codex.multiple_completed_turns.unknown" }

def Parse.finish (p : Parse) : ProviderAttempt :=
  let response := p.response
  -- the last receipt need not be the complete cost
  let response := if p.ambiguous_usage then { response with usage := Usage.ambiguous } else response
  let response := if !p.completed && response.error.isNone then { response with error := some "provider did not complete a turn" } else response
  if response.output.isNone && response.error.isNone then { response with error := some "provider final response is not JSON" } else response

def parse_codex_events (bytes : Bytes) : ProviderAttempt := ((split newline bytes).foldl (Parse.line serde) .start).finish

end

/-! ### The events of a stream -/

def typed (name : String) (event : Value) : Bool := decide ((index event "type").as_str = some name)

/-- The turn has ended, well or not. -/
def ended (event : Value) : Bool := typed "turn.completed" event || typed "turn.failed" event

/-- The text of a message of the agent. -/
def message (event : Value) : Option String :=
  if typed "item.completed" event && decide ((index (index event "item") "type").as_str = some "agent_message") then (index (index event "item") "text").as_str
  else none

/-- The usage that is to be reported for the completed turns. -/
def reported : List Value → Usage
  | [] => .default
  | [event] => ((event.get "usage").bind receipt).getD .default
  | _ => Usage.ambiguous

def turns (events : List Value) : List Value := events.filter (typed "turn.completed")
def messages (events : List Value) : List String := events.filterMap message

/-- No event reports an error or a failed turn. -/
def Clean (events : List Value) : Prop := ∀ event ∈ events, typed "turn.failed" event = false ∧ typed "error" event = false

section
variable (serde : Serde)

def records (lines : List Bytes) : List Bytes := lines.filter fun line => decide (line ≠ [])
def events (lines : List Bytes) : List Value := (records lines).filterMap serde.from_slice

/-- All lines that are not empty are JSON. -/
def Sound (lines : List Bytes) : Prop := ∀ line ∈ records lines, (serde.from_slice line).isSome = true

/-- The line ends the turn. -/
def EndsTurn (line : Bytes) : Prop := line ≠ [] ∧ ∃ event, serde.from_slice line = some event ∧ ended event = true

/-- The classification of the lines of a stream. -/
structure Exact (lines : List Bytes) (response : ProviderAttempt) : Prop where
  accepted : response.error = none ↔ Sound serde lines ∧ (turns (events serde lines)).length = 1 ∧ Clean (events serde lines) ∧
    ∃ text output, (messages (events serde lines)).getLast? = some text ∧ serde.from_str text = some output
  output : response.output = (messages (events serde lines)).getLast?.bind serde.from_str
  known : response.outcome_unknown = false ↔ ∃ event ∈ events serde lines, ended event = true
  usage : response.usage = reported (turns (events serde lines))

/-- The first text ends inside a line whose beginning ends the turn, while the whole line does not. -/
def Torn (text more : Bytes) : Prop :=
  EndsTurn serde (cut newline text).2 ∧ ¬ EndsTurn serde ((cut newline text).2 ++ more.takeWhile fun byte => decide (byte ≠ newline))

end

/-! ### Reading -/

section
variable {serde : Serde} {lines : List Bytes} {sound : Prop} {seen : List Value} {p : Parse}

theorem capture_prefix (cap : Nat) (chunks : List Bytes) (out : Bytes) : (capture cap out chunks).1 <+: out ++ chunks.flatten := by
  induction chunks generalizing out with
  | nil => simp [capture]
  | cons chunk chunks ih =>
    rw [capture]
    split_ifs with last beyond
    · exact List.prefix_append _ _
    · rw [List.flatten_cons,← List.append_assoc]
      exact ((List.prefix_append_right_inj out).mpr (List.take_prefix _ _)).trans (List.prefix_append _ _)
    · rw [List.flatten_cons,← List.append_assoc]
      exact ih (out ++ chunk)

/-- What one event does to each part of the state. -/
theorem read_spec (serde : Serde) (p : Parse) (event : Value) :
    (p.read serde event).completed = (p.completed || typed "turn.completed" event) ∧
      (p.read serde event).ambiguous_usage = (p.ambiguous_usage || (p.completed && typed "turn.completed" event)) ∧
        (p.read serde event).response.usage =
          (if typed "turn.completed" event then ((event.get "usage").bind receipt).getD p.response.usage else p.response.usage) ∧
        (p.read serde event).response.output = ((message event).map serde.from_str).getD p.response.output ∧
      (p.read serde event).response.outcome_unknown = (p.response.outcome_unknown && !ended event) ∧
    ((p.read serde event).response.error = none ↔
      p.response.error = none ∧ (p.completed && typed "turn.completed" event) = false ∧ typed "turn.failed" event = false ∧ typed "error" event = false) := by
  unfold Parse.read
  split
  next kind =>
    cases p.completed <;> cases (event.get "usage").bind receipt <;> simp [typed,ended,message,kind]
  next kind =>
    by_cases agent : (index (index event "item") "type").as_str = some "agent_message"
    · cases text : (index (index event "item") "text").as_str <;> simp [typed,ended,message,kind,agent,text]
    · simp [typed,ended,message,kind,agent]
  next kind => simp [typed,ended,message,kind]
  next kind => simp [typed,ended,message,kind]
  next completed item failed error =>
    have other : typed "turn.completed" event = false ∧ typed "item.completed" event = false ∧ typed "turn.failed" event = false ∧ typed "error" event = false := by
      simp only [typed,decide_eq_false_iff_not]
      exact ⟨completed,item,failed,error⟩
    simp [other,ended,message]

/-- What is known behind some events. -/
structure Inv (serde : Serde) (sound : Prop) (seen : List Value) (p : Parse) : Prop where
  completed : p.completed = true ↔ 1 ≤ (turns seen).length
  ambiguous : p.ambiguous_usage = true ↔ 2 ≤ (turns seen).length
  usage : (turns seen).length ≤ 1 → p.response.usage = reported (turns seen)
  output : p.response.output = (messages seen).getLast?.bind serde.from_str
  known : p.response.outcome_unknown = false ↔ ∃ event ∈ seen, ended event = true
  error : p.response.error = none ↔ sound ∧ (turns seen).length ≤ 1 ∧ Clean seen

theorem Inv.start (serde : Serde) : Inv serde (Sound serde []) (events serde []) .start := by
  constructor <;> simp [Parse.start,Sound,Clean,turns,messages,events,records,reported]

theorem turns_snoc (seen : List Value) (event : Value) : turns (seen ++ [event]) = turns seen ++ if typed "turn.completed" event then [event] else [] := by
  cases turn : typed "turn.completed" event <;> simp [turns,turn]

theorem clean_snoc (seen : List Value) (event : Value) :
    Clean (seen ++ [event]) ↔ Clean seen ∧ typed "turn.failed" event = false ∧ typed "error" event = false := by
  simp [Clean,or_imp,forall_and]
  tauto

/-- An event that is read comes behind those before it. -/
theorem Inv.read (inv : Inv serde sound seen p) (event : Value) : Inv serde sound (seen ++ [event]) (p.read serde event) := by
  obtain ⟨completed,ambiguous,usage,output,known,error⟩ := read_spec serde p event
  have before := inv.completed
  refine ⟨?_,?_,?_,?_,?_,?_⟩
  · rw [completed,turns_snoc]
    cases typed "turn.completed" event <;> simp [before]
  · rw [ambiguous,turns_snoc,Bool.or_eq_true,inv.ambiguous,Bool.and_eq_true,before]
    cases typed "turn.completed" event <;> simp
    omega
  · rw [usage,turns_snoc]
    cases typed "turn.completed" event with
    | false => simpa using inv.usage
    | true =>
      intro single
      have none : turns seen = [] := by
        apply List.eq_nil_of_length_eq_zero
        rw [List.length_append] at single
        simpa using single
      have default := inv.usage (by simp [none])
      simp [default,none,reported]
  · rw [output,messages,List.filterMap_append]
    cases said : message event with
    | none =>
      rw [List.filterMap_cons_none said,List.filterMap_nil,List.append_nil]
      exact inv.output
    | some text => simp [said]
  · have earlier := inv.known
    rw [known]
    cases stop : ended event with
    | true => simp [stop]
    | false =>
      rw [Bool.not_false,Bool.and_true,earlier]
      simp [stop]
  · have counted : (turns (seen ++ [event])).length ≤ 1 ↔ (turns seen).length ≤ 1 ∧ (p.completed && typed "turn.completed" event) = false := by
      rw [turns_snoc,Bool.and_eq_false_iff,← Bool.not_eq_true,before]
      cases typed "turn.completed" event with
      | false => simp
      | true =>
        simp only [if_true,List.length_append,List.length_singleton,Bool.true_eq_false,or_false]
        omega
    rw [error,inv.error,counted,clean_snoc]
    tauto

/-- One line, empty, invalid or an event. -/
theorem Inv.line (inv : Inv serde (Sound serde lines) (events serde lines) p) (line : Bytes) :
    Inv serde (Sound serde (lines ++ [line])) (events serde (lines ++ [line])) (p.line serde line) := by
  unfold Parse.line
  split
  next empty =>
    have same : records (lines ++ [line]) = records lines := by simp [records,empty]
    rw [Sound,events,same]
    exact inv
  next filled =>
    have recorded : records (lines ++ [line]) = records lines ++ [line] := by simp [records,filled]
    cases valid : serde.from_slice line with
    | some event =>
      have listed : events serde (lines ++ [line]) = events serde lines ++ [event] := by simp [events,recorded,valid]
      have still : Sound serde (lines ++ [line]) ↔ Sound serde lines := by simp [Sound,recorded,or_imp,forall_and,valid]
      rw [listed,still]
      exact inv.read event
    | none =>
      have listed : events serde (lines ++ [line]) = events serde lines := by simp [events,recorded,valid]
      have broken : ¬ Sound serde (lines ++ [line]) := fun all => by simpa [valid] using all line (by simp [recorded])
      rw [listed]
      exact ⟨inv.completed,inv.ambiguous,inv.usage,inv.output,inv.known,iff_of_false (by simp) fun whole => broken whole.1⟩

theorem inv_lines (serde : Serde) (lines : List Bytes) : Inv serde (Sound serde lines) (events serde lines) (lines.foldl (Parse.line serde) .start) := by
  induction lines using List.reverseRecOn with
  | nil => exact Inv.start serde
  | append_singleton lines line ih =>
    rw [List.foldl_append]
    exact ih.line line

/-- What is completed behind the last line. -/
theorem finish_spec (p : Parse) :
    p.finish.output = p.response.output ∧ p.finish.outcome_unknown = p.response.outcome_unknown ∧
      p.finish.usage = (if p.ambiguous_usage then Usage.ambiguous else p.response.usage) ∧
        (p.finish.error = none ↔ p.response.error = none ∧ p.completed = true ∧ p.response.output.isSome = true) := by
  unfold Parse.finish
  cases p.ambiguous_usage <;> cases p.completed <;> cases error : p.response.error <;> cases output : p.response.output <;> simp [error,output]

theorem Inv.finish (inv : Inv serde (Sound serde lines) (events serde lines) p) : Exact serde lines p.finish := by
  obtain ⟨output,known,usage,error⟩ := finish_spec p
  refine ⟨?_,output.trans inv.output,?_,?_⟩
  · have answered : p.response.output.isSome = true ↔ ∃ text output, (messages (events serde lines)).getLast? = some text ∧ serde.from_str text = some output := by
      rw [inv.output]
      cases (messages (events serde lines)).getLast? with
      | none => simp
      | some text => simp [Option.isSome_iff_exists]
    rw [error,inv.error,inv.completed,answered]
    constructor
    · rintro ⟨⟨sound,most,clean⟩,least,answer⟩
      exact ⟨sound,by omega,clean,answer⟩
    · rintro ⟨sound,single,clean,answer⟩
      exact ⟨⟨sound,by omega,clean⟩,by omega,answer⟩
  · rw [known]
    exact inv.known
  · rw [usage]
    split
    next twice =>
      have many := inv.ambiguous.mp twice
      match turns (events serde lines),many with
      | _ :: _ :: _,_ => rfl
    next once =>
      have few := mt inv.ambiguous.mpr once
      exact inv.usage (by omega)

/-! ### Streams that are cut -/

theorem known_iff (serde : Serde) (lines : List Bytes) : (∃ event ∈ events serde lines, ended event = true) ↔ ∃ line ∈ lines, EndsTurn serde line := by
  constructor
  · rintro ⟨event,member,stop⟩
    obtain ⟨line,recorded,valid⟩ := List.mem_filterMap.mp member
    obtain ⟨there,filled⟩ := List.mem_filter.mp recorded
    exact ⟨line,there,of_decide_eq_true filled,event,valid,stop⟩
  · rintro ⟨line,there,filled,event,valid,stop⟩
    exact ⟨event,List.mem_filterMap.mpr ⟨line,List.mem_filter.mpr ⟨there,decide_eq_true filled⟩,valid⟩,stop⟩

/-- What ends the turn in the first part of a stream is in the whole stream, unless its line is cut. -/
theorem ends_prefix {text more : Bytes} (known : ∃ line ∈ split newline text, EndsTurn serde line) :
    (∃ line ∈ split newline (text ++ more), EndsTurn serde line) ∨ Torn serde text more := by
  obtain ⟨line,there,stop⟩ := known
  rw [split_append]
  rcases List.mem_append.mp there with whole | last
  · exact .inl ⟨line,List.mem_append_left _ whole,stop⟩
  · rw [List.mem_singleton.mp last] at stop
    obtain ⟨pieces,first⟩ := split_free (rest_free newline text) more
    rw [first]
    by_cases still : EndsTurn serde ((cut newline text).2 ++ more.takeWhile fun byte => decide (byte ≠ newline))
    · exact .inl ⟨_,by simp,still⟩
    · exact .inr ⟨stop,still⟩

theorem parse_exact (serde : Serde) (bytes : Bytes) : Exact serde (split newline bytes) (parse_codex_events serde bytes) :=
  (inv_lines serde _).finish

theorem known_first_part {text : Bytes} (known : (parse_codex_events serde text).outcome_unknown = false) (more : Bytes) :
    (parse_codex_events serde (text ++ more)).outcome_unknown = false ∨ Torn serde text more := by
  have here := (parse_exact serde text).known
  have there := (parse_exact serde (text ++ more)).known
  rw [known_iff] at here there
  rw [there]
  exact ends_prefix (here.mp known)

/-- What is known of the captured output is so of all the output, unless the limit has cut the line. -/
theorem captured_known (serde : Serde) (cap : Nat) (chunks : List Bytes) (known : (parse_codex_events serde (capture cap [] chunks).1).outcome_unknown = false) :
    (parse_codex_events serde chunks.flatten).outcome_unknown = false ∨ ∃ more, Torn serde (capture cap [] chunks).1 more := by
  obtain ⟨more,whole⟩ := capture_prefix cap chunks []
  rw [List.nil_append] at whole
  rw [← whole]
  exact (known_first_part known more).imp_right fun torn => ⟨more,torn⟩

/-- A stream is classified exactly. A turn that has ended in a first part of it has ended in the whole, unless the part ends inside the line that
ends the turn and the whole line does not; and a part in which no turn has ended is no success. -/
theorem parse_codex_events_exact (serde : Serde) (bytes : Bytes) :
    Exact serde (split newline bytes) (parse_codex_events serde bytes) ∧
      ∀ text more, text ++ more = bytes →
        ((parse_codex_events serde text).outcome_unknown = false → (parse_codex_events serde bytes).outcome_unknown = false ∨ Torn serde text more) ∧
        ((parse_codex_events serde text).outcome_unknown = true → (parse_codex_events serde text).error ≠ none) := by
  refine ⟨parse_exact serde bytes,fun text more whole => ⟨fun known => ?_,fun unknown accepted => ?_⟩⟩
  · rw [← whole]
    exact known_first_part known more
  · obtain ⟨-,single,-,-⟩ := (parse_exact serde text).accepted.mp accepted
    obtain ⟨event,turn⟩ := List.length_eq_one_iff.mp single
    have member : event ∈ turns (events serde (split newline text)) := by simp [turn]
    obtain ⟨there,completed⟩ := List.mem_filter.mp member
    have known := (parse_exact serde text).known.mpr ⟨event,there,by simp [ended,completed]⟩
    rw [unknown] at known
    cases known

/-- A completed turn at the end of a line is known to have ended, and no more when the line goes on. -/
theorem torn_line_unknown :
    let line : Bytes := [123,34,116,121,112,101,34,58,34,116,117,114,110,46,99,111,109,112,108,101,116,101,100,34,125]
    let serde : Serde := ⟨fun bytes => if bytes = line then some (.object [("type",.string "turn.completed")]) else none,fun _ => none⟩
    (parse_codex_events serde line).outcome_unknown = false ∧ (parse_codex_events serde (line ++ [120])).outcome_unknown = true := by
  decide

end

end Daf.ProviderEvents
