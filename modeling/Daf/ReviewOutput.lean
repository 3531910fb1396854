import Daf.Json
import Mathlib.Data.List.Basic

/-!
The findings of a review and their validation against the changed files: the schema as
the deserializer accepts it, the constraints on paths, lines and texts, and the removal
of exact duplicates.
-/
namespace Daf.ReviewOutput
open Daf.Json

inductive Severity where
  | Low | Medium | High | Critical
deriving DecidableEq,Repr

structure Finding where
  path : String
  line : UInt32
  severity : Severity
  title : String
  body : String
deriving DecidableEq,Repr

/-- The changed files with their numbers of lines. -/
abbrev Files := List (String × Nat)

/-! ### The schema -/

/-- The fields of a record in declaration order: by name from an object without other
    fields, or by position from an array. -/
def structFields (names : List String) : Value → Option (List Value)
  | .object fields => if fields.all (fun f => names.contains f.1) then names.mapM (fun name => fields.lookup name) else none
  | .array items => if items.length = names.length then some items else none
  | _ => none

def stringFrom : Value → Option String
  | .string s => some s
  | _ => none

def u32From : Value → Option UInt32
  | .number (.int n) => if 0 ≤ n ∧ n ≤ 4294967295 then some (UInt32.ofNat n.toNat) else none
  | _ => none

def severityNamed : String → Option Severity
  | "low" => some .Low
  | "medium" => some .Medium
  | "high" => some .High
  | "critical" => some .Critical
  | _ => none

/-- The name of a variant, or an object from the name to null. -/
def severityFrom : Value → Option Severity
  | .string s => severityNamed s
  | .object [(s,.null)] => severityNamed s
  | _ => none

def findingFrom (v : Value) : Option Finding :=
  match structFields ["path","line","severity","title","body"] v with
  | some [path,line,severity,title,body] => do
    let path ← stringFrom path
    let line ← u32From line
    let severity ← severityFrom severity
    let title ← stringFrom title
    let body ← stringFrom body
    pure ⟨path,line,severity,title,body⟩
  | _ => none

def outputFrom (v : Value) : Option (List Finding) :=
  match structFields ["findings"] v with
  | some [.array items] => items.mapM findingFrom
  | _ => none

def Severity.toValue : Severity → Value
  | .Low => .string "low"
  | .Medium => .string "medium"
  | .High => .string "high"
  | .Critical => .string "critical"

def Finding.toValue (f : Finding) : Value :=
  .object [("body",.string f.body),("line",.number (.int f.line.toNat)),("path",.string f.path),("severity",f.severity.toValue),
    ("title",.string f.title)]

/-- The output that has these findings. -/
def outputOf (findings : List Finding) : Value := .object [("findings",.array (findings.map Finding.toValue))]

theorem findingFrom_toValue (f : Finding) : findingFrom f.toValue = some f := by
  have line : u32From (.number (.int f.line.toNat)) = some f.line := by
    have low := f.line.toNat_lt
    have bound : (0 : Int) ≤ f.line.toNat ∧ (f.line.toNat : Int) ≤ 4294967295 := by omega
    rw [u32From,if_pos bound]
    simp
  have fields : structFields ["path","line","severity","title","body"] f.toValue =
      some [.string f.path,.number (.int f.line.toNat),f.severity.toValue,.string f.title,.string f.body] := rfl
  have severity : severityFrom f.severity.toValue = some f.severity := by
    cases f.severity <;> rfl
  simp [findingFrom,fields,line,severity,stringFrom]

theorem mapM_findingFrom (findings : List Finding) : (findings.map Finding.toValue).mapM findingFrom = some findings := by
  induction findings with
  | nil => rfl
  | cons f later ih => simp [findingFrom_toValue,ih]

theorem outputFrom_outputOf (findings : List Finding) : outputFrom (outputOf findings) = some findings := by
  have fields : structFields ["findings"] (outputOf findings) = some [.array (findings.map Finding.toValue)] := rfl
  simp only [outputFrom,fields]
  exact mapM_findingFrom findings

/-! ### Validation -/

/-- The white space of Unicode. -/
def isWhitespace (c : Char) : Bool :=
  (9 ≤ c.toNat && c.toNat ≤ 13) || [0x20,0x85,0xA0,0x1680,0x2028,0x2029,0x202F,0x205F,0x3000].contains c.toNat ||
    (0x2000 ≤ c.toNat && c.toNat ≤ 0x200A)

/-- The text is empty but for white space at its ends. -/
def blank (s : String) : Bool := s.toList.all isWhitespace

/-- Texts that the standard library and the deserializer produce. -/
structure Texts where
  debug : String → String
  schemaError : Value → String

/-- The path is not relative, or has a component that is not a name. -/
def invalidPath (path : String) : Bool :=
  path.toList.head? = some '/' || path.toList.contains '\\' ||
    (path.toList.splitOn '/').any (fun p => p = [] || p = ['.'] || p = ['.','.'])

def validateFinding (texts : Texts) (files : Files) (finding : Finding) : Except String Unit :=
  if invalidPath finding.path then .error ("invalid relative finding path: " ++ texts.debug finding.path)
  else
    match files.lookup finding.path with
    | none => .error ("finding path is not a changed reviewable file: " ++ texts.debug finding.path)
    | some lines =>
      if finding.line.toNat = 0 ∨ lines < finding.line.toNat then
        .error ("finding line " ++ toString finding.line.toNat ++ " outside " ++ texts.debug finding.path ++ " (1..=" ++
          toString lines ++ ")")
      else if blank finding.title ∨ 500 < finding.title.utf8ByteSize ∨ blank finding.body ∨ 16384 < finding.body.utf8ByteSize then
        .error "finding title/body must be nonempty and bounded (500/16384 bytes)"
      else .ok ()

def validateAll (texts : Texts) (files : Files) : List Finding → Except String Unit
  | [] => .ok ()
  | f :: later =>
    match validateFinding texts files f with
    | .error e => .error e
    | .ok () => validateAll texts files later

/-- Keep the first of each group of equal findings. -/
def deduplicateFrom (seen : List Finding) : List Finding → List Finding
  | [] => []
  | f :: later => if f ∈ seen then deduplicateFrom seen later else f :: deduplicateFrom (f :: seen) later

def deduplicate (findings : List Finding) : List Finding := deduplicateFrom [] findings

def validate_output (texts : Texts) (value : Value) (files : Files) : Except String (List Finding) :=
  match outputFrom value with
  | none => .error ("invalid review schema: " ++ texts.schemaError value)
  | some findings =>
    if 1000 < findings.length then .error "too many findings (maximum 1000)"
    else
      match validateAll texts files findings with
      | .error e => .error e
      | .ok () => .ok (deduplicate findings)

theorem deduplicateFrom_sublist (seen findings : List Finding) : (deduplicateFrom seen findings).Sublist findings := by
  induction findings generalizing seen with
  | nil => exact List.Sublist.refl []
  | cons f later ih =>
    rw [deduplicateFrom]
    split_ifs
    · exact (ih seen).cons f
    · exact (ih (f :: seen)).cons_cons f

theorem validateAll_ok {texts : Texts} {files : Files} {findings : List Finding} :
    validateAll texts files findings = .ok () ↔ ∀ f ∈ findings, validateFinding texts files f = .ok () := by
  induction findings with
  | nil => simp [validateAll]
  | cons f later ih =>
    rw [validateAll,List.forall_mem_cons]
    cases verdict : validateFinding texts files f with
    | error e => simp
    | ok _ => simpa using ih

/-- Validated findings pass the validation again. -/
theorem validate_again {texts : Texts} {value : Value} {files : Files} {findings : List Finding}
    (valid : validate_output texts value files = .ok findings) : ∃ again, validate_output texts (outputOf findings) files = .ok again := by
  unfold validate_output at valid
  split at valid
  · cases valid
  · rename_i all _
    split_ifs at valid with many
    split at valid
    · cases valid
    · rename_i checked
      cases valid
      have sub := deduplicateFrom_sublist [] all
      have few : ¬ 1000 < (deduplicate all).length := by
        have shorter := sub.length_le
        unfold deduplicate
        omega
      have still : validateAll texts files (deduplicate all) = .ok () :=
        validateAll_ok.mpr (fun f member => validateAll_ok.mp checked f (sub.subset member))
      refine ⟨deduplicate (deduplicate all),?_⟩
      simp only [validate_output,outputFrom_outputOf,few,if_false,still]

end Daf.ReviewOutput
