import Mathlib.Data.List.AList
import Mathlib.Data.List.TakeWhile
import Daf.JsonAccess
import Daf.Search

/-!
The variables of a playbook: dotted paths into their values, texts without the white space at their ends,
and the serializer of values.
-/
namespace Daf.DottedPaths
open Daf.Json

abbrev Vars := AList (fun _ : String => Value)

/-- Follow the fields of objects. -/
def walk : Value → List (List Char) → Option Value
  | current,[] => some current
  | .object fields,part :: parts => (Value.get (.object fields) (String.ofList part)).bind (walk · parts)
  | _,_ :: _ => none

/-- The value at a path: a variable, and the fields below it. -/
def resolve (vars : Vars) (path : List Char) : Option Value :=
  match path.splitOn '.' with
  | [] => none
  | root :: parts => (vars.lookup (String.ofList root)).bind (walk · parts)

/-- The characters that are white space. -/
def is_whitespace (c : Char) : Bool :=
  let n := c.toNat
  (9 ≤ n && n ≤ 13) || n == 32 || n == 133 || n == 160 || n == 5760 || (8192 ≤ n && n ≤ 8202) || n == 8232 || n == 8233 || n == 8239 || n == 8287 || n == 12288

def trim (text : List Char) : List Char := ((text.dropWhile is_whitespace).reverse.dropWhile is_whitespace).reverse

/-- The text of a value, and the value that is read in a text. -/
structure Serde where
  to_string : Value → List Char
  from_str : List Char → Option Value

theorem forall_of_all {p : Char → Prop} [DecidablePred p] {text : List Char} (all : text.all fun c => decide (p c)) : ∀ c ∈ text, p c := by
  simpa using all

theorem trim_of_ends {text : List Char} (first : ∀ c ∈ text.head?, is_whitespace c = false) (last : ∀ c ∈ text.getLast?, is_whitespace c = false) :
    trim text = text := by
  have front : text.dropWhile is_whitespace = text := by
    cases text with
    | nil => rfl
    | cons c text => rw [List.dropWhile_cons_of_neg (by simp [first c rfl])]
  have back : text.reverse.dropWhile is_whitespace = text.reverse := by
    cases reversed : text.reverse with
    | nil => rfl
    | cons c rest =>
      have end_ : text.getLast? = some c := by rw [List.getLast?_eq_head?_reverse,reversed]; rfl
      rw [List.dropWhile_cons_of_neg (by simp [last c end_])]
  rw [trim,front,back,List.reverse_reverse]

theorem trim_of_none {text : List Char} (none_there : ∀ c ∈ text, is_whitespace c = false) : trim text = text :=
  trim_of_ends (fun c there => none_there c (List.mem_of_mem_head? there)) (fun c there => none_there c (List.mem_of_getLast? there))

/-- White space around a text is cut off with its own. -/
theorem trim_around {before text after : List Char} (blank : ∀ c ∈ before, is_whitespace c) (blank' : ∀ c ∈ after, is_whitespace c) :
    trim (before ++ text ++ after) = trim text := by
  rw [trim,List.append_assoc,List.dropWhile_append_of_pos blank,List.dropWhile_append]
  cases inner : text.dropWhile is_whitespace with
  | nil =>
    have none_left : after.dropWhile is_whitespace = [] := List.dropWhile_eq_nil_iff.mpr blank'
    rw [none_left,trim,inner]
    rfl
  | cons c rest =>
    have back : ∀ d ∈ after.reverse, is_whitespace d := fun d inside => blank' d (List.mem_reverse.mp inside)
    rw [if_neg (by simp),List.reverse_append,List.dropWhile_append_of_pos back,trim,inner]

/-- A path without dots is the name of a variable. -/
theorem resolve_plain (vars : Vars) {path : List Char} (plain : '.' ∉ path) : resolve vars path = vars.lookup (String.ofList path) := by
  rw [resolve,List.splitOn_eq_singleton plain]
  show (vars.lookup (String.ofList path)).bind some = _
  exact Option.bind_fun_some _

end Daf.DottedPaths
