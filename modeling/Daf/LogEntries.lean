import Daf.Json
import Daf.MissionPlan
import Daf.UuidText
import Mathlib.Data.List.Infix

/-!
The entries of the conversation log. The text of a value, the hash and the lower case of a text are left
to what is outside.
-/
namespace Daf.LogEntries
open Daf.Json Daf.UuidText
open Daf.MissionPlan (AgentId)

abbrev Bytes := List UInt8

inductive LogLevel where
  | Trace | Debug | Info | Warn | Error
deriving DecidableEq,Repr

/-- The levels are compared in the order in which they are declared. -/
def LogLevel.severity : LogLevel → Nat
  | .Trace => 0
  | .Debug => 1
  | .Info => 2
  | .Warn => 3
  | .Error => 4

inductive ContentType where
  | Text | Binary | Structured
deriving DecidableEq,Repr

structure LogEntry where
  id : Uuid
  timestamp : Int
  source_agent : AgentId
  target_agent : Option AgentId
  conversation_id : Uuid
  turn_number : UInt64
  content_type : ContentType
  content : Value
  metadata : Value
  tags : List String
  level : LogLevel
  content_hash : String
deriving DecidableEq

/-- The JSON of a value, and the hash of bytes in hexadecimal digits. -/
structure Digest where
  to_vec : Value → Bytes
  hash : Bytes → String

def Digest.of (digest : Digest) (content : Value) : String := digest.hash (digest.to_vec content)

/-- A new entry, with its id and the time from outside. -/
def LogEntry.new (digest : Digest) (id : Uuid) (timestamp : Int) (source_agent : AgentId) (target_agent : Option AgentId) (conversation_id : Uuid)
    (turn_number : UInt64) (content_type : ContentType) (content : Value) (level : LogLevel) : LogEntry :=
  { id,timestamp,source_agent,target_agent,conversation_id,turn_number,content_type,content,level
    metadata := .object []
    tags := []
    content_hash := digest.of content }

def LogEntry.with_tag (entry : LogEntry) (tag : String) : LogEntry := { entry with tags := entry.tags ++ [tag] }

def LogEntry.with_metadata (entry : LogEntry) (metadata : Value) : LogEntry := { entry with metadata }

def LogEntry.verify_integrity (digest : Digest) (entry : LogEntry) : Bool := decide (digest.of entry.content = entry.content_hash)

structure ConversationLog where
  conversation_id : Uuid
  entries : List LogEntry

/-- A text contains a pattern. -/
def contains (text pattern : String) : Bool := decide (pattern.toList <:+: text.toList)

end Daf.LogEntries
