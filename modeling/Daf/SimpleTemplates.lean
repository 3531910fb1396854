import Daf.Disagreements
import Daf.TemplatePieces

/-!
The template engine of the modules beside the one of the variables: where the two give the same text.
-/
namespace Daf.SimpleTemplates
open Daf.Json Daf.Search Daf.DottedPaths Daf.Variables Daf.Templates Daf.TemplatePieces Daf.Disagreements

/-- The text for what stands between braces. -/
def replacement (serde : Serde) (vars : Vars) (raw : List Char) : List Char :=
  match vars.lookup (String.ofList (trim raw)) with
  | some (.string s) => s.toList
  | some .null => []
  | some other => serde.to_string other
  | none => opens ++ raw ++ closes

def render_simple_template (serde : Serde) (vars : Vars) (template : List Char) : List Char :=
  match _start : template.dropInfix? opens with
  | none => template
  | some (before,after) =>
    match _end : after.dropInfix? closes with
    | some (raw,remaining) => before ++ replacement serde vars raw ++ render_simple_template serde vars remaining
    | none => before ++ opens ++ render_simple_template serde vars after
termination_by template.length
decreasing_by
  all_goals
    have sizes := found_length _start
    have some_left : opens.length = 2 := rfl
    try have sizes' := found_length _end
    omega

/-- Truth values are written as JSON writes them. -/
def Bools (serde : Serde) : Prop := ∀ b, serde.to_string (.bool b) = (if b then "true" else "false").toList

/-- The reference is not one to a secret. -/
def NoSecret (p : Piece) : Prop := (trim p.raw).dropPrefix? vault = none

/-- What is put for the reference, with the text before it. -/
def simple_text (serde : Serde) (vars : Vars) (p : Piece) : List Char := p.literal ++ replacement serde vars p.raw

def manager_text (serde : Serde) (vars : Vars) (vault_resolver : VaultResolver) (p : Piece) : List Char :=
  p.literal ++ resolve_template_key serde vars vault_resolver (trim p.raw)

/-- The two engines give the same text for the reference. -/
def Agrees (serde : Serde) (vars : Vars) (p : Piece) : Prop :=
  let key := trim p.raw
  match vars.lookup (String.ofList key),resolve vars key with
  | some value,some other => value_to_string serde value = value_to_string serde other
  | some value,none => value_to_string serde value = reference key
  | none,some other => p.written = value_to_string serde other
  -- the other engine writes one space on each side of the key
  | none,none => p.raw = ' ' :: key ++ [' ']

/-- The key is written with one space on each side and has no dot. -/
def Plain (p : Piece) : Prop := '.' ∉ trim p.raw ∧ p.raw = ' ' :: trim p.raw ++ [' ']

section
variable {serde : Serde} {vars : Vars} {vault_resolver : VaultResolver} {template last : List Char} {pieces : List Piece} {p : Piece}

theorem simple_divides (divides : Divides template pieces last) :
    render_simple_template serde vars template = pieces.flatMap (simple_text serde vars) ++ last := by
  fun_induction render_simple_template serde vars template generalizing pieces last with
  | case1 template absent =>
    obtain ⟨rfl,rfl⟩ := divides_absent divides absent
    rfl
  | case2 template before after start raw remaining closed ih =>
    obtain ⟨pieces,rfl,remains⟩ := divides_found divides start closed
    rw [ih remains]
    simp [simple_text]
  | case3 template before after start absent ih =>
    obtain ⟨rfl,rfl⟩ := divides_unclosed divides start absent
    have none_left : Unclosed after := fun other behind split inside =>
      absent_iff.mp absent (inside.trans (split ▸ (List.suffix_append _ _).isInfix))
    rw [ih (divides_nil none_left)]
    simp [(found_iff.mp start).1]

theorem manager_divides (divides : Divides template pieces last) :
    render_template_with_vars serde vars vault_resolver template = pieces.flatMap (manager_text serde vars vault_resolver) ++ last := by
  rw [← render_asking_fst,render_divides divides]
  rfl

/-! ### One reference -/

theorem replacement_text (bools : Bools serde) (raw : List Char) :
    replacement serde vars raw = ((vars.lookup (String.ofList (trim raw))).map (value_to_string serde)).getD (opens ++ raw ++ closes) := by
  rw [replacement]
  cases vars.lookup (String.ofList (trim raw)) with
  | none => rfl
  | some value =>
    cases value with
    | bool b => exact bools b
    | null | number | string | array | object => rfl

theorem reference_iff (p : Piece) (key : List Char) : p.written = reference key ↔ p.raw = ' ' :: key ++ [' '] := by
  rw [Piece.written,reference,List.append_cancel_right_eq,List.append_cancel_left_eq]

theorem agrees_iff (bools : Bools serde) (no_secret : NoSecret p) :
    simple_text serde vars p = manager_text serde vars vault_resolver p ↔ Agrees serde vars p := by
  have secret : (trim p.raw).dropPrefix? vault = none := no_secret
  rw [simple_text,manager_text,List.append_cancel_left_eq,replacement_text bools,resolve_template_key,secret,Agrees]
  cases vars.lookup (String.ofList (trim p.raw)) with
  | some value =>
    cases resolve vars (trim p.raw) with
    | some other => rfl
    | none => rfl
  | none =>
    cases resolve vars (trim p.raw) with
    | some other => rfl
    | none => exact reference_iff p _

theorem Plain.agrees (plain : Plain p) (serde : Serde) (vars : Vars) : Agrees serde vars p := by
  rw [Agrees,resolve_plain vars plain.1]
  cases vars.lookup (String.ofList (trim p.raw)) with
  | some value => rfl
  | none => exact plain.2

/-! ### Variables that tell the engines apart -/

theorem resolve_empty (key : List Char) : resolve ∅ key = none := by
  rw [resolve]
  cases key.splitOn '.' with
  | nil => rfl
  | cons root parts =>
    show ((∅ : Vars).lookup (String.ofList root)).bind (walk · parts) = none
    rw [AList.lookup_empty,Option.bind_none]

/-- A variable with a dot in its name, which no path leads to. -/
def dotted (name : List Char) : Vars := AList.insert (String.ofList name) .null ∅

theorem lookup_dotted (name key : List Char) : (dotted name).lookup (String.ofList key) = if key = name then some .null else none := by
  rw [dotted]
  split
  next same => rw [same,AList.lookup_insert]
  next other => rw [AList.lookup_insert_ne fun same => other (String.ofList_injective same),AList.lookup_empty]

theorem resolve_dotted {name : List Char} (dot : '.' ∈ name) (key : List Char) : resolve (dotted name) key = none := by
  by_cases plain : '.' ∈ key
  · obtain ⟨root,path,rfl,clear⟩ := List.eq_append_cons_of_mem plain
    have other : root ≠ name := fun same => clear (same ▸ dot)
    rw [resolve,List.splitOn_append_cons_self_of_not_mem clear]
    simp only
    rw [lookup_dotted,if_neg other,Option.bind_none]
  · have other : key ≠ name := fun same => plain (same ▸ dot)
    rw [resolve_plain _ plain,lookup_dotted,if_neg other]

theorem manager_unresolved (no_secret : NoSecret p) (unresolved : resolve vars (trim p.raw) = none) :
    manager_text serde vars vault_resolver p = p.literal ++ reference (trim p.raw) := by
  have secret : (trim p.raw).dropPrefix? vault = none := no_secret
  rw [manager_text,resolve_template_key,secret,unresolved]

/-- Without variables all references stay, the other engine's with one space on each side. -/
theorem spaced_of_agree (divides : Divides template pieces last) (no_secrets : ∀ p ∈ pieces, NoSecret p)
    (agree : render_simple_template serde ∅ template = render_template_with_vars serde ∅ none template) :
    ∀ p ∈ pieces, p.raw = ' ' :: trim p.raw ++ [' '] := by
  have unresolved : ∀ p ∈ pieces, key_text serde ∅ none (trim p.raw) = none := by
    intro p member
    have secret : (trim p.raw).dropPrefix? vault = none := no_secrets p member
    rw [key_text,secret]
    simp only
    rw [resolve_empty]
    rfl
  have whole : rendered serde ∅ none pieces last = expected serde ∅ none pieces last := by
    rw [simple_divides divides,manager_divides divides] at agree
    rw [expected]
    refine agree.symm.trans (congrArg (· ++ last) (List.flatMap_congr fun p member => ?_))
    rw [unresolved p member]
    rfl
  intro p member
  have spaced := (rendered_iff last divides.clear).mp whole p member (unresolved p member)
  have secret : (trim p.raw).dropPrefix? vault = none := no_secrets p member
  rw [TemplatePieces.norm,secret] at spaced
  exact spaced

theorem undotted_of_agree (divides : Divides template pieces last) (no_secrets : ∀ p ∈ pieces, NoSecret p)
    (spaced : ∀ p ∈ pieces, p.raw = ' ' :: trim p.raw ++ [' ']) {p : Piece} (member : p ∈ pieces)
    (agree : render_simple_template serde (dotted (trim p.raw)) template = render_template_with_vars serde (dotted (trim p.raw)) none template) :
    '.' ∉ trim p.raw := by
  intro dot
  rw [simple_divides divides,manager_divides divides,List.append_cancel_right_eq] at agree
  have kept : ∀ q ∈ pieces, manager_text serde (dotted (trim p.raw)) none q = q.literal ++ q.written := by
    intro q there
    rw [manager_unresolved (no_secrets q there) (resolve_dotted dot _),(reference_iff q _).mpr (spaced q there)]
  have simple : ∀ q : Piece, simple_text serde (dotted (trim p.raw)) q = q.literal ++ if trim q.raw = trim p.raw then [] else q.written := by
    intro q
    rw [simple_text,replacement,lookup_dotted]
    by_cases same : trim q.raw = trim p.raw
    · rw [if_pos same,if_pos same]
    · rw [if_neg same,if_neg same]
      rfl
  refine flatMap_ne (fun q there => ?_) member ?_ agree
  · rw [simple,kept q there]
    split <;> simp
  · rw [simple,kept p member,if_pos rfl]
    simp [Piece.written,opens]

end

/-- For every template without secrets and all variables the two engines give the same text exactly where they agree on all references, or where
those on which they do not make up for each other. They do for all variables exactly where each reference is a key without dots, with one space
on each side. -/
theorem engines_agree (serde : Serde) (bools : Bools serde) (template : List Char) :
    (∃ pieces last, Divides template pieces last) ∧
    ∀ pieces last, Divides template pieces last → (∀ p ∈ pieces, NoSecret p) →
      (∀ vars vault_resolver, render_simple_template serde vars template = render_template_with_vars serde vars vault_resolver template ↔
        (∀ p ∈ pieces, Agrees serde vars p) ∨ Compensates (simple_text serde vars) (manager_text serde vars vault_resolver) pieces) ∧
      ((∀ vars vault_resolver, render_simple_template serde vars template = render_template_with_vars serde vars vault_resolver template) ↔
        ∀ p ∈ pieces, Plain p) := by
  refine ⟨divides_exists template,fun pieces last divides no_secrets => ⟨fun vars vault_resolver => ?_,fun agree p member => ?_,fun plain vars vault_resolver => ?_⟩⟩
  · rw [simple_divides divides,manager_divides divides,List.append_cancel_right_eq,flatMap_eq_iff]
    exact or_congr (forall₂_congr fun p member => agrees_iff bools (no_secrets p member)) Iff.rfl
  · have spaced := spaced_of_agree divides no_secrets (agree ∅ none)
    exact ⟨undotted_of_agree divides no_secrets spaced member (agree _ none),spaced p member⟩
  · rw [simple_divides divides,manager_divides divides]
    exact congrArg (· ++ last) (List.flatMap_congr fun p member => (agrees_iff bools (no_secrets p member)).mpr ((plain p member).agrees serde vars))

/-! ### References that the engines treat alike, and others -/

/-- The serializer on strings and truth values. -/
def strings : Serde := ⟨fun v => match v with | .bool b => (if b then "true" else "false").toList | _ => [],fun _ => none⟩

theorem spaced_agrees : render_simple_template strings ∅ ("a{{ x }}".toList) = render_template_with_vars strings ∅ none ("a{{ x }}".toList) := by
  have divides : Divides ("a{{ x }}".toList) [⟨['a'],[' ','x',' ']⟩] [] := ⟨rfl,by simpa using Piece.Clear.mk (by decide) (by decide),unclosed_of_absent rfl⟩
  refine ((engines_agree strings (fun _ => rfl) ("a{{ x }}".toList)).2 _ _ divides ?_).2.mpr ?_ ∅ none
  · intro p member
    rw [List.mem_singleton.mp member]
    rfl
  · intro p member
    rw [List.mem_singleton.mp member]
    exact ⟨by decide,rfl⟩

/-- A reference without spaces to a variable that is not there, and a path into a variable. -/
theorem engines_differ :
    render_simple_template strings ∅ ("{{x}}".toList) ≠ render_template_with_vars strings ∅ none ("{{x}}".toList) ∧
      let vars : Vars := AList.insert "a" (.object [("b",.string "1")]) ∅
      render_simple_template strings vars ("{{ a.b }}".toList) ≠ render_template_with_vars strings vars none ("{{ a.b }}".toList) := by
  have path : Divides ("{{ a.b }}".toList) [⟨[],[' ','a','.','b',' ']⟩] [] := ⟨rfl,by simpa using Piece.Clear.mk (by decide) (by decide),unclosed_of_absent rfl⟩
  constructor
  · rw [simple_divides divides_unspaced,manager_divides divides_unspaced]
    decide
  · intro vars
    rw [simple_divides path,manager_divides path]
    decide

end Daf.SimpleTemplates
