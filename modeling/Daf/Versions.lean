import Mathlib.Algebra.Group.Nat.Defs
import Mathlib.Data.Char
import Daf.DottedPaths

/-!
Versions of capabilities: their order, the constraints on them, and both as text.
-/
namespace Daf.Versions
open Daf.DottedPaths

structure SemVer where
  major : Nat
  minor : Nat
  patch : Nat
  /-- Identifiers with dots between them; none for a release. -/
  pre_release : Option (List Char)
  /-- Ignored in comparisons. -/
  build_metadata : Option (List Char)
deriving DecidableEq,Repr

/-- The order of texts, by their characters. -/
def text_cmp : List Char → List Char → Ordering := List.compareLex compare

namespace SemVer

def new (major minor patch : Nat) : SemVer := ⟨major,minor,patch,none,none⟩

def is_compatible_with (v other : SemVer) : Bool :=
  if v.major ≠ other.major then false
  else if v.major = 0 then v.minor = other.minor
  else true

def eq (v other : SemVer) : Bool :=
  v.major = other.major && v.minor = other.minor && v.patch = other.patch && v.pre_release = other.pre_release

/-- The numbers compared one after the other. -/
def numeric_cmp (v other : SemVer) : Ordering := (compare v.major other.major).then ((compare v.minor other.minor).then (compare v.patch other.patch))

def cmp (v other : SemVer) : Ordering :=
  match v.numeric_cmp other with
  | .eq =>
    match v.pre_release,other.pre_release with
    | none,none => .eq
    | some _,none => .lt
    | none,some _ => .gt
    | some a,some b => text_cmp a b
  | ord => ord

end SemVer

inductive VersionConstraint where
  | Exact (target : SemVer)
  | Gte (min : SemVer)
  | Lt (max : SemVer)
  | Caret (base : SemVer)
  | Tilde (base : SemVer)
  | Range (low high : SemVer)
  | Any
deriving DecidableEq,Repr

def VersionConstraint.satisfies (v : SemVer) : VersionConstraint → Bool
  | .Exact target => v.eq target
  | .Gte min => v.cmp min ≠ .lt
  | .Lt max => v.cmp max = .lt
  | .Caret base =>
    if v.cmp base = .lt then false
    else if base.major = 0 then
      if base.minor = 0 then v.major = 0 && v.minor = 0 && v.patch = base.patch
      else v.major = 0 && v.minor = base.minor
    else v.major = base.major
  | .Tilde base =>
    if v.cmp base = .lt then false
    else v.major = base.major && v.minor = base.minor
  | .Range low high => v.cmp low ≠ .lt && v.cmp high = .lt
  | .Any => true

/-! ### Text -/

structure VersionParseError where
  text : List Char
deriving DecidableEq,Repr

/-- What stands before and behind the first place of a character. -/
def split_once (c : Char) (s : List Char) : Option (List Char × List Char) := s.dropInfix? [c]

/-- What stands before and behind the last place of a character. -/
def rsplit_once (c : Char) (s : List Char) : Option (List Char × List Char) :=
  (split_once c s.reverse).map fun parts => (parts.2.reverse,parts.1.reverse)

def without_plus : List Char → List Char
  | '+' :: digits => digits
  | digits => digits

/-- A number of 64 bits, with a plus sign or without. -/
def parse_u64 (s : List Char) : Option Nat :=
  let digits := without_plus s
  if digits ≠ [] ∧ digits.all Char.isDigit ∧ Nat.ofDigitChars 10 digits 0 < 2^64 then some (Nat.ofDigitChars 10 digits 0) else none

/-- A part of a version as a number; the error says which part it is. -/
def number (what : String) (part : List Char) : Except VersionParseError Nat :=
  match parse_u64 part with
  | some n => .ok n
  | none => .error ⟨what.toList ++ part ++ ['\'']⟩

/-- Build metadata is split off first, behind the last plus sign. -/
def split_build (s : List Char) : List Char × Option (List Char) :=
  match rsplit_once '+' s with
  | some (vp,bm) => (vp,some bm)
  | none => (s,none)

/-- A pre-release stands behind the first dash. -/
def split_pre (version_pre : List Char) : List Char × Option (List Char) :=
  match split_once '-' version_pre with
  | some (v,pr) => (v,some pr)
  | none => (version_pre,none)

/-- Two numbers or three, with a dot between them. -/
def numbers (s version : List Char) : Except VersionParseError (Nat × Nat × Nat) :=
  match version.splitOn '.' with
  | [major,minor] => do
    let major ← number "invalid major: '" major
    let minor ← number "invalid minor: '" minor
    return (major,minor,0)
  | [major,minor,patch] => do
    let major ← number "invalid major: '" major
    let minor ← number "invalid minor: '" minor
    let patch ← number "invalid patch: '" patch
    return (major,minor,patch)
  | _ => .error ⟨"expected MAJOR.MINOR[.PATCH], got '".toList ++ s ++ ['\'']⟩

def SemVer.from_str (s : List Char) : Except VersionParseError SemVer := do
  let s := trim s
  let (version_pre,build_metadata) := split_build s
  let (version,pre_release) := split_pre version_pre
  let (major,minor,patch) ← numbers s version
  return ⟨major,minor,patch,pre_release,build_metadata⟩

/-- A version as it is displayed. -/
def SemVer.to_text (v : SemVer) : List Char :=
  Nat.toDigits 10 v.major ++ '.' :: Nat.toDigits 10 v.minor ++ '.' :: Nat.toDigits 10 v.patch ++
    v.pre_release.elim [] (fun pre => '-' :: pre) ++ v.build_metadata.elim [] (fun build => '+' :: build)

namespace VersionConstraint

def parse (s : List Char) : Except VersionParseError VersionConstraint :=
  match trim s with
  | [] => .ok .Any
  | ['*'] => .ok .Any
  | '^' :: rest => .Caret <$> SemVer.from_str rest
  | '~' :: rest => .Tilde <$> SemVer.from_str rest
  | '>' :: '=' :: rest => .Gte <$> SemVer.from_str (trim rest)
  | '<' :: rest => .Lt <$> SemVer.from_str (trim rest)
  | '=' :: rest => .Exact <$> SemVer.from_str (trim rest)
  | s => .Exact <$> SemVer.from_str s

/-- A constraint as it is displayed. -/
def to_text : VersionConstraint → List Char
  | .Exact v => '=' :: v.to_text
  | .Gte v => '>' :: '=' :: v.to_text
  | .Lt v => '<' :: v.to_text
  | .Caret v => '^' :: v.to_text
  | .Tilde v => '~' :: v.to_text
  | .Range low high => '>' :: '=' :: low.to_text ++ ", <".toList ++ high.to_text
  | .Any => ['*']

end VersionConstraint
end Daf.Versions
