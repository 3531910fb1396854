import Daf.LedgerTasks
import Daf.Search
import Daf.Variables

/-!
Templates in texts and values. A reference is replaced by the text of the value it names; where a text
is one reference, what it is replaced by is read as JSON again, if it can be.
-/
namespace Daf.Templates
open Daf.Json Daf.Search Daf.DottedPaths Daf.Variables

def opens : List Char := ['{','{']
def closes : List Char := ['}','}']

/-- The secrets of a vault, if there is one. -/
abbrev VaultResolver := Option (List Char → Option (List Char))

def value_to_string (serde : Serde) : Value → List Char
  | .string s => s.toList
  | .null => []
  | .bool b => (if b then "true" else "false").toList
  | v => serde.to_string v

/-- A name between braces, as a reference to it is written. -/
def reference (name : List Char) : List Char := opens ++ (' ' :: name ++ [' ']) ++ closes

def vault : List Char := "vault:".toList

def resolve_template_key (serde : Serde) (vars : Vars) (vault_resolver : VaultResolver) (key : List Char) : List Char :=
  match key.dropPrefix? vault with
  | some secret_name =>
    match vault_resolver.bind fun resolver => resolver (trim secret_name) with
    | some value => value
    | none => reference (vault ++ trim secret_name)
  | none =>
    match resolve vars key with
    | some value => value_to_string serde value
    | none => reference key

def render_template_with_vars (serde : Serde) (vars : Vars) (vault_resolver : VaultResolver) (template : List Char) : List Char :=
  match _start : template.dropInfix? opens with
  | none => template
  | some (before,after_open) =>
    match _end : after_open.dropInfix? closes with
    | some (raw_key,remaining) =>
      before ++ resolve_template_key serde vars vault_resolver (trim raw_key) ++ render_template_with_vars serde vars vault_resolver remaining
    | none => before ++ opens ++ render_template_with_vars serde vars vault_resolver after_open
termination_by template.length
decreasing_by
  all_goals
    have sizes := found_length _start
    have some_left : opens.length = 2 := rfl
    try have sizes' := found_length _end
    omega

/-- A text that begins and ends as a reference does, and with no other beginning of one. -/
def lone (s : List Char) : Bool := opens.isPrefixOf s && closes.isSuffixOf s && count opens s == 1

mutual

def render_value_recursive (serde : Serde) (vars : Vars) (vault_resolver : VaultResolver) : Value → Value
  | .string s =>
    let rendered := render_template_with_vars serde vars vault_resolver s.toList
    if lone s.toList then (serde.from_str rendered).getD (.string (String.ofList rendered)) else .string (String.ofList rendered)
  | .array arr => .array (render_items serde vars vault_resolver arr)
  | .object map => .object (render_fields serde vars vault_resolver map [])
  | other => other

def render_items (serde : Serde) (vars : Vars) (vault_resolver : VaultResolver) : List Value → List Value
  | [] => []
  | v :: later => render_value_recursive serde vars vault_resolver v :: render_items serde vars vault_resolver later

/-- The fields are collected one after the other, under their keys as they are rendered. -/
def render_fields (serde : Serde) (vars : Vars) (vault_resolver : VaultResolver) : List (String × Value) → List (String × Value) → List (String × Value)
  | [],collected => collected
  | (k,v) :: later,collected =>
    render_fields serde vars vault_resolver later
      (LedgerTasks.insertField (String.ofList (render_template_with_vars serde vars vault_resolver k.toList))
        (render_value_recursive serde vars vault_resolver v) collected)

end

def render_template (serde : Serde) (m : VarManager) (template : List Char) (vault_resolver : VaultResolver) : List Char :=
  render_template_with_vars serde m.merged vault_resolver template

def render_value (serde : Serde) (m : VarManager) (value : Value) (vault_resolver : VaultResolver) : Value :=
  render_value_recursive serde m.merged vault_resolver value

/-! ### One reference -/

section
variable {serde : Serde} {vars : Vars} {vault_resolver : VaultResolver} {k : List Char}

theorem opens_ne_nil : opens ≠ [] := nofun

theorem closes_ne_nil : closes ≠ [] := nofun

theorem reference_split (k : List Char) : reference k = [] ++ opens ++ (' ' :: k ++ [' '] ++ closes) := by simp [reference]

/-- A reference begins at its own braces. -/
theorem reference_opens (k : List Char) : (reference k).dropInfix? opens = some ([],' ' :: k ++ [' '] ++ closes) :=
  (first_iff opens_ne_nil).mpr ⟨reference_split k,by decide⟩

/-- White space around a name adds no braces to it. -/
theorem spaced_closes (closed : ¬ closes <:+: k) : ¬ closes <:+: ' ' :: k ++ [' '] ++ closes.dropLast := by
  have split : ' ' :: k ++ [' '] ++ closes.dropLast = [' '] ++ k ++ [' ','}'] := by simp [closes]
  rw [split,closes,pair_append,pair_append]
  rintro ((left | inside | ⟨impossible,-⟩) | right | ⟨-,first⟩)
  · exact absurd left (by decide)
  · exact closed inside
  · exact absurd impossible (by decide)
  · exact absurd right (by decide)
  · exact absurd first (by decide)

/-- A reference to a name without closing braces ends at its own. -/
theorem reference_closes (closed : ¬ closes <:+: k) : (' ' :: k ++ [' '] ++ closes).dropInfix? closes = some (' ' :: k ++ [' '],[]) :=
  (first_iff closes_ne_nil).mpr ⟨(List.append_nil _).symm,spaced_closes closed⟩

theorem spaced_opens : opens <:+: ' ' :: k ++ [' '] ++ closes ↔ opens <:+: k := by
  have split : ' ' :: k ++ [' '] ++ closes = [' '] ++ k ++ [' ','}','}'] := by simp [closes]
  rw [split,opens,pair_append,pair_append]
  constructor
  · rintro ((left | inside | ⟨impossible,-⟩) | right | ⟨-,first⟩)
    · exact absurd left (by decide)
    · exact inside
    · exact absurd impossible (by decide)
    · exact absurd right (by decide)
    · exact absurd first (by decide)
  · exact fun inside => .inl (.inr (.inl inside))

theorem render_nil : render_template_with_vars serde vars vault_resolver [] = [] := by
  rw [render_template_with_vars]
  rfl

/-- A reference is replaced as a whole. -/
theorem render_reference (closed : ¬ closes <:+: k) :
    render_template_with_vars serde vars vault_resolver (reference k) = resolve_template_key serde vars vault_resolver (trim k) := by
  have spaces : trim ([' '] ++ k ++ [' ']) = trim k := trim_around (forall_of_all (by decide)) (forall_of_all (by decide))
  rw [render_template_with_vars]
  split
  case h_1 absent => exact nomatch absent.symm.trans (reference_opens k)
  case h_2 before after_open found =>
    obtain ⟨rfl,rfl⟩ := Prod.mk.inj (Option.some.inj (found.symm.trans (reference_opens k)))
    split
    case h_1 raw_key remaining found' =>
      obtain ⟨rfl,rfl⟩ := Prod.mk.inj (Option.some.inj (found'.symm.trans (reference_closes closed)))
      rw [render_nil,List.append_nil,List.nil_append]
      exact congrArg _ spaces
    case h_2 absent => exact nomatch absent.symm.trans (reference_closes closed)

/-- A reference is alone unless the name has another beginning of one in it. -/
theorem lone_reference_iff (k : List Char) : lone (reference k) ↔ ¬ opens <:+: k := by
  have begins : opens <+: reference k := ⟨_,(reference_split k).symm⟩
  have ends : closes <:+ reference k := ⟨_,rfl⟩
  have one : count opens (reference k) = count opens (' ' :: k ++ [' '] ++ closes) + 1 := by
    rw [reference_split]
    exact count_first opens_ne_nil (by decide)
  simp only [lone,Bool.and_eq_true,List.isPrefixOf_iff_prefix,List.isSuffixOf_iff_suffix,beq_iff_eq,begins,ends,true_and,one]
  rw [Nat.add_eq_right,count_eq_zero opens_ne_nil,spaced_opens]

end

/-! ### The value of a reference -/

/-- What a name stands for: a secret, a variable, or the reference to it as a string. -/
def named (vars : Vars) (vault_resolver : VaultResolver) (key : List Char) : Value :=
  match key.dropPrefix? vault with
  | some secret_name =>
    .string (String.ofList ((vault_resolver.bind fun resolver => resolver (trim secret_name)).getD (reference (vault ++ trim secret_name))))
  | none => (resolve vars key).getD (.string (String.ofList (reference key)))

/-- A string in which no other JSON value is read, or another value that is read in its text. -/
def Survives (serde : Serde) : Value → Prop
  | .string s => ∀ p, serde.from_str s.toList = some p → p = .string s
  | v => serde.from_str (value_to_string serde v) = some v

/-- A value is read in the text of another, or it is that text as a string. -/
def Reread (serde : Serde) (other v : Value) : Prop :=
  (serde.from_str (value_to_string serde other)).getD (.string (String.ofList (value_to_string serde other))) = v

/-- The reference ends at its own braces, and the text of what the name without white space stands for is the value,
read again if there is no other beginning of a reference. -/
structure Faithful (serde : Serde) (vars : Vars) (vault_resolver : VaultResolver) (k : List Char) (v : Value) : Prop where
  closed : ¬ closes <:+: k
  alone : ¬ opens <:+: k → Reread serde (named vars vault_resolver (trim k)) v
  nested : opens <:+: k → v = .string (String.ofList (value_to_string serde (named vars vault_resolver (trim k))))

/-- A name without braces, without white space at its ends, and not one of a secret. -/
structure Plain (k : List Char) : Prop where
  opened : ¬ opens <:+: k
  closed : ¬ closes <:+: k
  trimmed : trim k = k
  no_secret : k.dropPrefix? vault = none

section
variable {serde : Serde} {vars : Vars} {vault_resolver : VaultResolver} {k : List Char} {v : Value}

theorem resolve_named (key : List Char) : resolve_template_key serde vars vault_resolver key = value_to_string serde (named vars vault_resolver key) := by
  rw [named,resolve_template_key]
  cases key.dropPrefix? vault with
  | some secret_name =>
    simp only [value_to_string,String.toList_ofList]
    cases vault_resolver.bind fun resolver => resolver (trim secret_name) with
    | some value => rfl
    | none => rfl
  | none =>
    simp only
    cases resolve vars key with
    | some value => rfl
    | none => simp [value_to_string]

theorem render_lone (closed : ¬ closes <:+: k) :
    render_value_recursive serde vars vault_resolver (.string (String.ofList (reference k))) = v ↔ Faithful serde vars vault_resolver k v := by
  rw [render_value_recursive,String.toList_ofList,render_reference closed,resolve_named]
  by_cases inside : opens <:+: k
  · have other : ¬ lone (reference k) := fun single => (lone_reference_iff k).mp single inside
    rw [if_neg other]
    exact ⟨fun same => ⟨closed,fun clear => absurd inside clear,fun _ => same.symm⟩,fun faithful => (faithful.nested inside).symm⟩
  · rw [if_pos ((lone_reference_iff k).mpr inside)]
    exact ⟨fun same => ⟨closed,fun _ => same,fun there => absurd there inside⟩,fun faithful => faithful.alone inside⟩

/-- Only a string can be the text that is not read again. -/
theorem reread_other (other : ∀ s, v ≠ .string s) : Reread serde v v ↔ serde.from_str (value_to_string serde v) = some v := by
  rw [Reread]
  cases serde.from_str (value_to_string serde v) with
  | none => exact ⟨fun same => absurd same.symm (other _),nofun⟩
  | some p => exact ⟨congrArg some,Option.some.inj⟩

theorem reread_self : Reread serde v v ↔ Survives serde v := by
  cases v with
  | string s =>
    rw [Reread,value_to_string,String.ofList_toList,Survives]
    cases serde.from_str s.toList with
    | none => simp
    | some p => simp
  | null => exact reread_other nofun
  | bool b => exact reread_other nofun
  | number n => exact reread_other nofun
  | array items => exact reread_other nofun
  | object fields => exact reread_other nofun

theorem Plain.named (plain : Plain k) (found : resolve vars k = some v) : named vars vault_resolver (trim k) = v := by
  rw [Templates.named,plain.trimmed,plain.no_secret,found]
  rfl

end

/-- The serializer on the number 123. -/
def digits : Serde := ⟨fun _ => "123".toList,fun text => if text = "123".toList then some (.number (.int 123)) else none⟩

def holding (v : Value) : VarManager := VarManager.new.set .Global "x" v

theorem resolve_holding (v : Value) : resolve (holding v).merged ['x'] = some v := by
  rw [resolve_plain _ (by decide),← get_merged]
  simp [holding,VarManager.set,VarManager.setLast,VarManager.new,VarManager.push_layer,VarManager.get,-AList.insert_empty]

theorem plain_x : Plain ['x'] := ⟨by decide,by decide,by decide,by decide⟩

end Daf.Templates
