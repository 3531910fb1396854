import Daf.Expansion
import Daf.ProvisionPlan

/-!
The outputs of a topology, and the references in them to other outputs and to the outputs of resources.
A string that is one reference becomes the value; the references of another string are replaced by text,
the first one first, until none is left, so that it may go on for ever.
-/
namespace Daf.OutputReferences
open Daf.Json Daf.Search Daf.Expansion
open Daf.MissionPlan (DafError)
open Daf.ProvisionPlan (ProvisionState Resource)

structure Output where
  name : String
  value : Value
  sensitive : Bool
  description : String

abbrev Snapshot := AList (fun _ : String => Value)

/-- What references are looked up in, and the serializer of values. -/
structure Env where
  state : ProvisionState
  snapshot : Snapshot
  to_string : Value → String

def get_output (resource : Resource) (key : String) : Option Value := resource.outputs.lookup key

def lookup_reference (env : Env) (ref_path : List Char) : Except DafError Value :=
  match env.snapshot.lookup (String.ofList ref_path) with
  | some value => .ok value
  | none =>
    match ref_path.dropInfix? ['.'] with
    | none => .error (.NotFound "output reference" (String.ofList ref_path))
    | some (resource_name,output_key) =>
      match (env.state.get_resource (String.ofList resource_name)).bind (get_output · (String.ofList output_key)) with
      | some value => .ok value
      | none => .error (.NotFound "output reference" (String.ofList ref_path))

/-- The text that replaces a reference. -/
def replacement (env : Env) : Value → List Char
  | .string s => s.toList
  | other => (env.to_string other).toList

def resolve_loop (env : Env) : Nat → List Char → Option (Except DafError (List Char))
  | 0,_ => none
  | fuel+1,result =>
    match next result with
    | none => some (.ok result)
    | some (before,ref_path,after) =>
      match lookup_reference env ref_path with
      | .error e => some (.error e)
      | .ok resolved => resolve_loop env fuel (before ++ replacement env resolved ++ after)

/-- Whether the whole string passes for one reference. -/
def lone (s : List Char) : Bool := opens.isPrefixOf s && closes.isSuffixOf s && count opens s == 1

def loneRef (s : List Char) : List Char := (s.drop opens.length).dropLast

def resolve_string_references (env : Env) (fuel : Nat) (s : List Char) : Option (Except DafError Value) :=
  if lone s then some (lookup_reference env (loneRef s))
  else (resolve_loop env fuel s).map fun result => result.map fun text => .string (String.ofList text)

mutual

def resolve_references (env : Env) (fuel : Nat) : Value → Option (Except DafError Value)
  | .string s => resolve_string_references env fuel s.toList
  | .array items => (resolveItems env fuel items).map fun result => result.map .array
  | .object fields => (resolveFields env fuel fields).map fun result => result.map .object
  | other => some (.ok other)

/-- The items in order, up to the first that fails. -/
def resolveItems (env : Env) (fuel : Nat) : List Value → Option (Except DafError (List Value))
  | [] => some (.ok [])
  | value :: later =>
    match resolve_references env fuel value with
    | none => none
    | some (.error e) => some (.error e)
    | some (.ok value) => (resolveItems env fuel later).map fun result => result.map fun values => value :: values

def resolveFields (env : Env) (fuel : Nat) : List (String × Value) → Option (Except DafError (List (String × Value)))
  | [] => some (.ok [])
  | (key,value) :: later =>
    match resolve_references env fuel value with
    | none => none
    | some (.error e) => some (.error e)
    | some (.ok value) => (resolveFields env fuel later).map fun result => result.map fun fields => (key,value) :: fields

end

/-- The outputs in order; where one fails, those before it keep their new values. -/
def resolveOutputs (env : Env) (fuel : Nat) : List Output → Option (List Output × Except DafError Unit)
  | [] => some ([],.ok ())
  | output :: later =>
    match resolve_references env fuel output.value with
    | none => none
    | some (.error e) => some (output :: later,.error e)
    | some (.ok value) => (resolveOutputs env fuel later).map fun rest => ({ output with value } :: rest.1,rest.2)

structure OutputCollector where
  outputs : List Output

/-- The values by name; of outputs with one name the last. -/
def OutputCollector.snapshot (collector : OutputCollector) : Snapshot := collector.outputs.foldl (fun map output => map.insert output.name output.value) ∅

def OutputCollector.env (collector : OutputCollector) (to_string : Value → String) (state : ProvisionState) : Env := ⟨state,collector.snapshot,to_string⟩

def OutputCollector.resolve (collector : OutputCollector) (to_string : Value → String) (fuel : Nat) (state : ProvisionState) :
    Option (OutputCollector × Except DafError Unit) :=
  (resolveOutputs (collector.env to_string state) fuel collector.outputs).map fun result => (⟨result.1⟩,result.2)

/-! ### The strings of a value -/

mutual

/-- The strings in which references are resolved, in that order. -/
def strings : Value → List (List Char)
  | .string s => [s.toList]
  | .array items => stringsOfItems items
  | .object fields => stringsOfFields fields
  | _ => []

def stringsOfItems : List Value → List (List Char)
  | [] => []
  | value :: later => strings value ++ stringsOfItems later

def stringsOfFields : List (String × Value) → List (List Char)
  | [] => []
  | (_,value) :: later => strings value ++ stringsOfFields later

end

def OutputCollector.strings (collector : OutputCollector) : List (List Char) := collector.outputs.flatMap fun output => OutputReferences.strings output.value

/-- Whether strings that are resolved in order all are, up to the first that fails, with what there is of fuel. -/
def outcome (env : Env) (fuel : Nat) : List (List Char) → Option Bool
  | [] => some true
  | s :: later =>
    match resolve_string_references env fuel s with
    | none => none
    | some (.error _) => some false
    | some (.ok _) => outcome env fuel later

theorem outcome_append (env : Env) (fuel : Nat) (a b : List (List Char)) :
    outcome env fuel (a ++ b) = (outcome env fuel a).bind fun ok => if ok then outcome env fuel b else some false := by
  induction a with
  | nil => rfl
  | cons s a ih =>
    simp only [List.cons_append,outcome]
    cases resolve_string_references env fuel s with
    | none => rfl
    | some result => cases result <;> simp [ih]

mutual

theorem resolve_outcome (env : Env) (fuel : Nat) : ∀ value, (resolve_references env fuel value).map Except.isOk = outcome env fuel (strings value)
  | .string s => by
    simp only [resolve_references,strings,outcome]
    cases resolve_string_references env fuel s.toList with
    | none => rfl
    | some result => cases result <;> rfl
  | .array items => by
    rw [strings,← items_outcome env fuel items,resolve_references,Option.map_map]
    congr 1
    funext result
    cases result <;> rfl
  | .object fields => by
    rw [strings,← fields_outcome env fuel fields,resolve_references,Option.map_map]
    congr 1
    funext result
    cases result <;> rfl
  | .null | .bool _ | .number _ => rfl

theorem items_outcome (env : Env) (fuel : Nat) : ∀ items, (resolveItems env fuel items).map Except.isOk = outcome env fuel (stringsOfItems items)
  | [] => rfl
  | value :: later => by
    rw [stringsOfItems,outcome_append,← resolve_outcome env fuel value,← items_outcome env fuel later,resolveItems]
    cases resolve_references env fuel value with
    | none => rfl
    | some result =>
      cases result with
      | error e => rfl
      | ok value =>
        cases resolveItems env fuel later with
        | none => rfl
        | some rest => cases rest <;> rfl

theorem fields_outcome (env : Env) (fuel : Nat) : ∀ fields, (resolveFields env fuel fields).map Except.isOk = outcome env fuel (stringsOfFields fields)
  | [] => rfl
  | (key,value) :: later => by
    rw [stringsOfFields,outcome_append,← resolve_outcome env fuel value,← fields_outcome env fuel later,resolveFields]
    cases resolve_references env fuel value with
    | none => rfl
    | some result =>
      cases result with
      | error e => rfl
      | ok value =>
        cases resolveFields env fuel later with
        | none => rfl
        | some rest => cases rest <;> rfl

end

theorem outputs_outcome (env : Env) (fuel : Nat) (outputs : List Output) :
    (resolveOutputs env fuel outputs).map (·.2.isOk) = outcome env fuel (outputs.flatMap fun output => strings output.value) := by
  induction outputs with
  | nil => rfl
  | cons output later ih =>
    rw [List.flatMap_cons,outcome_append,← resolve_outcome env fuel output.value,← ih,resolveOutputs]
    cases resolve_references env fuel output.value with
    | none => rfl
    | some result =>
      cases result with
      | error e => rfl
      | ok value => cases resolveOutputs env fuel later <;> rfl

/-! ### When one string is resolved -/

/-- The texts of the references that are found. -/
def Env.table (env : Env) (ref_path : List Char) : Option (List Char) := (lookup_reference env ref_path).toOption.map (replacement env)

theorem table_ok {env : Env} {ref_path : List Char} {value : Value} (found : lookup_reference env ref_path = .ok value) :
    env.table ref_path = some (replacement env value) := by
  rw [Env.table,found]
  rfl

theorem table_error {env : Env} {ref_path : List Char} {e : DafError} (missing : lookup_reference env ref_path = .error e) : env.table ref_path = none := by
  rw [Env.table,missing]
  rfl

theorem table_some {env : Env} {ref_path text : List Char} (known : env.table ref_path = some text) :
    ∃ value, lookup_reference env ref_path = .ok value ∧ text = replacement env value := by
  cases found : lookup_reference env ref_path with
  | error e => cases (table_error found).symm.trans known
  | ok value => exact ⟨value,rfl,Option.some.inj (known.symm.trans (table_ok found))⟩

/-- A reference that is found names an output, or an output of a resource. -/
theorem lookup_reference_ok {env : Env} {ref_path : List Char} {value : Value} (found : lookup_reference env ref_path = .ok value) :
    env.snapshot.lookup (String.ofList ref_path) = some value ∨
      ∃ resource_name output_key resource, ref_path = resource_name ++ '.' :: output_key ∧
        env.state.get_resource (String.ofList resource_name) = some resource ∧ get_output resource (String.ofList output_key) = some value := by
  unfold lookup_reference at found
  split at found
  case h_1 there => exact .inl (Except.ok.inj found ▸ there)
  case h_2 =>
    split at found
    case h_1 => cases found
    case h_2 resource_name output_key parts =>
      split at found
      case h_2 => cases found
      case h_1 other there =>
        cases found
        obtain ⟨resource,recorded,output⟩ := Option.bind_eq_some_iff.mp there
        exact .inr ⟨resource_name,output_key,resource,by rw [(found_iff.mp parts).1]; simp,recorded,output⟩

/-- Only finitely many references can be found. -/
theorem table_finite (env : Env) : {p | env.table p ≠ none}.Finite := by
  let qualified (resource : Sigma fun _ : String => Resource) := resource.2.outputs.keys.map fun key => resource.1.toList ++ '.' :: key.toList
  refine Set.Finite.subset (List.finite_toSet (env.snapshot.keys.map String.toList ++ env.state.resources.entries.flatMap qualified)) fun p known => ?_
  obtain ⟨text,known⟩ := Option.ne_none_iff_exists'.mp known
  obtain ⟨value,found,-⟩ := table_some known
  refine List.mem_append.mpr ?_
  rcases lookup_reference_ok found with there | ⟨resource_name,output_key,resource,rfl,recorded,output⟩
  · exact .inl (List.mem_map.mpr ⟨_,AList.lookup_isSome.mp (Option.isSome_of_eq_some there),String.toList_ofList⟩)
  · have key : String.ofList output_key ∈ resource.outputs := AList.lookup_isSome.mp (Option.isSome_of_eq_some output)
    exact .inr (List.mem_flatMap.mpr ⟨⟨_,resource⟩,AList.mem_lookup_iff.mp recorded,List.mem_map.mpr ⟨_,key,by simp⟩⟩)

/-- The references of a string end, or it is one reference itself. -/
def Resolves (env : Env) (s : List Char) : Prop := lone s ∨ Ends env.table s

/-- The string has a reference, when its turn comes, that is not found. -/
def Fails (env : Env) (s : List Char) : Prop :=
  if lone s then env.table (loneRef s) = none else ∃ x p r, Meets env.table s x p r ∧ env.table p = none

theorem resolve_loop_mono {env : Env} {fuel more : Nat} {s : List Char} {result : Except DafError (List Char)} (done : resolve_loop env fuel s = some result)
    (enough : fuel ≤ more) : resolve_loop env more s = some result := by
  induction fuel generalizing s more with
  | zero => cases done
  | succ fuel ih =>
    obtain ⟨more,rfl⟩ : ∃ k, more = k + 1 := ⟨more - 1,by omega⟩
    unfold resolve_loop at done ⊢
    split
    case h_1 halts => simpa [halts] using done
    case h_2 before path after first =>
      simp only [first] at done ⊢
      split
      case h_1 missing => simpa [missing] using done
      case h_2 resolved found =>
        simp only [found] at done
        exact ih done (by omega)

theorem resolve_loop_ends {env : Env} {s : List Char} (ends : Ends env.table s) : ∃ fuel result, resolve_loop env fuel s = some result := by
  induction ends with
  | @halts text halts =>
    refine ⟨1,?_⟩
    unfold resolve_loop
    cases first : next text with
    | none => exact ⟨_,rfl⟩
    | some parts =>
      rw [step_next first,Option.map_eq_none_iff] at halts
      cases found : lookup_reference env parts.2.1 with
      | error e =>
        refine ⟨.error e,?_⟩
        simp only [found]
      | ok value => cases (table_ok found).symm.trans halts
  | @goes text later goes _ ih =>
    obtain ⟨fuel,result,done⟩ := ih
    obtain ⟨x,p,r,value,first,known,rfl⟩ := step_iff.mp goes
    refine ⟨fuel + 1,result,?_⟩
    unfold resolve_loop
    cases found : lookup_reference env p with
    | error e => cases (table_error found).symm.trans known
    | ok resolved =>
      cases Option.some.inj ((table_ok found).symm.trans known)
      simp only [first,found]
      exact done

theorem resolve_loop_done {env : Env} {fuel : Nat} {s : List Char} {result : Except DafError (List Char)} (done : resolve_loop env fuel s = some result) :
    Ends env.table s ∧ (result.isOk = false ↔ ∃ x p r, Meets env.table s x p r ∧ env.table p = none) := by
  induction fuel generalizing s with
  | zero => cases done
  | succ fuel ih =>
    unfold resolve_loop at done
    split at done
    case h_1 plain =>
      cases done
      refine ⟨.halts (by simp [step,plain]),iff_of_false nofun ?_⟩
      rintro ⟨x,p,r,meets,-⟩
      exact not_meets_plain plain meets
    case h_2 before path after first =>
      cases found : lookup_reference env path with
      | error e =>
        simp only [found,Option.some.injEq] at done
        subst done
        exact ⟨.halts (by rw [step_next first,table_error found]; rfl),iff_of_true rfl ⟨before,path,after,⟨s,.refl,first⟩,table_error found⟩⟩
      | ok resolved =>
        simp only [found] at done
        have goes : step env.table s = some (before ++ replacement env resolved ++ after) := by
          rw [step_next first,table_ok found]
          rfl
        obtain ⟨ends,fails⟩ := ih done
        refine ⟨.goes goes ends,fails.trans ?_⟩
        exact exists_congr fun x => exists_congr fun p => exists_congr fun r => and_congr_left fun unknown => (meets_step goes unknown).symm

theorem table_none {env : Env} {ref_path : List Char} : env.table ref_path = none ↔ (lookup_reference env ref_path).isOk = false := by
  rw [Env.table,Option.map_eq_none_iff]
  cases lookup_reference env ref_path <;> simp [Except.toOption,Except.isOk,Except.toBool]

theorem resolve_string_mono {env : Env} {fuel more : Nat} {s : List Char} {result : Except DafError Value}
    (done : resolve_string_references env fuel s = some result) (enough : fuel ≤ more) : resolve_string_references env more s = some result := by
  unfold resolve_string_references at done ⊢
  split
  case isTrue single => simpa [single] using done
  case isFalse embedded =>
    rw [if_neg embedded] at done
    obtain ⟨text,loop,same⟩ := Option.map_eq_some_iff.mp done
    rw [resolve_loop_mono loop enough]
    exact congrArg some same

theorem resolve_string_ends {env : Env} {s : List Char} (resolves : Resolves env s) : ∃ fuel result, resolve_string_references env fuel s = some result := by
  unfold resolve_string_references
  split
  case isTrue => exact ⟨0,_,rfl⟩
  case isFalse embedded =>
    obtain ⟨fuel,result,done⟩ := resolve_loop_ends (resolves.resolve_left embedded)
    exact ⟨fuel,_,by rw [done]; rfl⟩

theorem resolve_string_done {env : Env} {fuel : Nat} {s : List Char} {result : Except DafError Value}
    (done : resolve_string_references env fuel s = some result) : Resolves env s ∧ (result.isOk = false ↔ Fails env s) := by
  unfold resolve_string_references at done
  unfold Resolves Fails
  split at done
  case isTrue single =>
    cases done
    rw [if_pos single]
    exact ⟨.inl single,table_none.symm⟩
  case isFalse embedded =>
    obtain ⟨text,loop,rfl⟩ := Option.map_eq_some_iff.mp done
    obtain ⟨ends,fails⟩ := resolve_loop_done loop
    rw [if_neg embedded]
    refine ⟨.inr ends,Iff.trans ?_ fails⟩
    cases text <;> rfl

mutual

theorem resolve_mono {env : Env} {fuel more : Nat} (enough : fuel ≤ more) :
    ∀ {value result}, resolve_references env fuel value = some result → resolve_references env more value = some result
  | .string _,_,done => resolve_string_mono done enough
  | .array _,_,done => by
    obtain ⟨items,some_items,rfl⟩ := Option.map_eq_some_iff.mp done
    exact Option.map_eq_some_iff.mpr ⟨items,items_mono enough some_items,rfl⟩
  | .object _,_,done => by
    obtain ⟨fields,some_fields,rfl⟩ := Option.map_eq_some_iff.mp done
    exact Option.map_eq_some_iff.mpr ⟨fields,fields_mono enough some_fields,rfl⟩
  | .null,_,done | .bool _,_,done | .number _,_,done => done

theorem items_mono {env : Env} {fuel more : Nat} (enough : fuel ≤ more) :
    ∀ {items result}, resolveItems env fuel items = some result → resolveItems env more items = some result
  | [],_,done => done
  | value :: later,result,done => by
    rw [resolveItems] at done ⊢
    cases first : resolve_references env fuel value with
    | none => simp [first] at done
    | some found =>
      rw [resolve_mono enough first]
      rw [first] at done
      cases found with
      | error e => exact done
      | ok value =>
        obtain ⟨rest,some_rest,rfl⟩ := Option.map_eq_some_iff.mp done
        exact Option.map_eq_some_iff.mpr ⟨rest,items_mono enough some_rest,rfl⟩

theorem fields_mono {env : Env} {fuel more : Nat} (enough : fuel ≤ more) :
    ∀ {fields result}, resolveFields env fuel fields = some result → resolveFields env more fields = some result
  | [],_,done => done
  | (key,value) :: later,result,done => by
    rw [resolveFields] at done ⊢
    cases first : resolve_references env fuel value with
    | none => simp [first] at done
    | some found =>
      rw [resolve_mono enough first]
      rw [first] at done
      cases found with
      | error e => exact done
      | ok value =>
        obtain ⟨rest,some_rest,rfl⟩ := Option.map_eq_some_iff.mp done
        exact Option.map_eq_some_iff.mpr ⟨rest,fields_mono enough some_rest,rfl⟩

end

/-- A value is resolved in one way, whatever the fuel. -/
theorem resolve_result {env : Env} {n m : Nat} {value : Value} {a b : Except DafError Value} (first : resolve_references env n value = some a)
    (second : resolve_references env m value = some b) : a = b := by
  have one := resolve_mono (Nat.le_max_left n m) first
  have two := resolve_mono (Nat.le_max_right n m) second
  exact Option.some.inj (one.symm.trans two)

/-! ### When all outputs are resolved -/

/-- What is true of the strings in order, up to the first that fails. -/
def Followed (env : Env) (good : List Char → Prop) : List (List Char) → Prop
  | [] => True
  | s :: later => good s ∧ (Fails env s ∨ Followed env good later)

theorem Followed.mono {env : Env} {good better : List Char → Prop} (implies : ∀ s, good s → better s) {strings : List (List Char)}
    (followed : Followed env good strings) : Followed env better strings := by
  induction strings with
  | nil => trivial
  | cons s later ih => exact ⟨implies s followed.1,followed.2.imp_right ih⟩

theorem outcome_mono {env : Env} {fuel more : Nat} {strings : List (List Char)} {ok : Bool} (done : outcome env fuel strings = some ok) (enough : fuel ≤ more) :
    outcome env more strings = some ok := by
  induction strings with
  | nil => exact done
  | cons s later ih =>
    unfold outcome at done ⊢
    cases first : resolve_string_references env fuel s with
    | none => simp [first] at done
    | some result =>
      rw [resolve_string_mono first enough]
      rw [first] at done
      cases result with
      | error e => exact done
      | ok value => exact ih done

theorem outcome_iff {env : Env} {strings : List (List Char)} : (∃ fuel ok, outcome env fuel strings = some ok) ↔ Followed env (Resolves env) strings := by
  induction strings with
  | nil => exact iff_of_true ⟨0,true,rfl⟩ trivial
  | cons s later ih =>
    rw [Followed,← ih]
    constructor
    · rintro ⟨fuel,ok,done⟩
      unfold outcome at done
      cases first : resolve_string_references env fuel s with
      | none => simp [first] at done
      | some result =>
        obtain ⟨resolves,fails⟩ := resolve_string_done first
        refine ⟨resolves,?_⟩
        rw [first] at done
        cases result with
        | error e => exact .inl (fails.mp rfl)
        | ok value => exact .inr ⟨fuel,ok,done⟩
    · rintro ⟨resolves,rest⟩
      obtain ⟨fuel,result,first⟩ := resolve_string_ends resolves
      cases result with
      | error e => exact ⟨fuel,false,by simp only [outcome,first]⟩
      | ok value =>
        have right : ¬ Fails env s := fun fails => nomatch (resolve_string_done first).2.mpr fails
        obtain ⟨enough,ok,done⟩ := rest.resolve_left right
        refine ⟨max fuel enough,ok,?_⟩
        simp only [outcome,resolve_string_mono first (Nat.le_max_left ..)]
        exact outcome_mono done (Nat.le_max_right ..)

/-- With enough fuel the collector returns, with a result or an error. -/
def Terminates (to_string : Value → String) (collector : OutputCollector) (state : ProvisionState) : Prop :=
  ∃ fuel result, collector.resolve to_string fuel state = some result

theorem terminates_iff {to_string : Value → String} {collector : OutputCollector} {state : ProvisionState} :
    Terminates to_string collector state ↔
      Followed (collector.env to_string state) (Resolves (collector.env to_string state)) collector.strings := by
  rw [← outcome_iff]
  refine exists_congr fun fuel => ?_
  rw [OutputCollector.strings,← outputs_outcome,OutputCollector.resolve]
  cases resolveOutputs (collector.env to_string state) fuel collector.outputs <;> simp

/-- No chain of references, each met inside the text that replaces the one before it, goes on for ever. -/
def WellNested (env : Env) (s : List Char) : Prop := lone s ∨ ∀ x p r, Meets env.table s x p r → Acc (Inside env.table) (x,p)

/-- No reference that is met comes back out of its own text. -/
def Returnless (env : Env) (s : List Char) : Prop := lone s ∨ ∀ x p r, Meets env.table s x p r → ¬ Returns env.table x p

/-- A reference that is met comes back out of its own text with as many dollar signs before it as it had. -/
def Repeats (env : Env) (s : List Char) : Prop :=
  ¬ lone s ∧ ∃ x p r value y r', Meets env.table s x p r ∧ env.table p = some value ∧ Meets env.table (x ++ value) y p r' ∧ dollars y = dollars x

/-- Everything is resolved exactly where the references are nested well in every string up to the first that
fails. They are where no reference comes back out of its own text, and not where one comes back as it was. -/
theorem resolve_terminates (to_string : Value → String) (collector : OutputCollector) (state : ProvisionState) :
    (Terminates to_string collector state ↔
        Followed (collector.env to_string state) (WellNested (collector.env to_string state)) collector.strings) ∧
      (∀ s, Returnless (collector.env to_string state) s → WellNested (collector.env to_string state) s) ∧
      ∀ s, Repeats (collector.env to_string state) s → ¬ WellNested (collector.env to_string state) s := by
  have nested (s : List Char) : Resolves (collector.env to_string state) s ↔ WellNested (collector.env to_string state) s := or_congr Iff.rfl ends_iff
  refine ⟨terminates_iff.trans ⟨Followed.mono fun s => (nested s).mp,Followed.mono fun s => (nested s).mpr⟩,fun s returnless => ?_,fun s repeats => ?_⟩
  · rw [← nested]
    exact returnless.imp_right (ends_of_no_return (table_finite _))
  · rw [← nested]
    obtain ⟨embedded,x,p,r,value,y,r',meets,known,back,same⟩ := repeats
    rintro (single | ends)
    · exact embedded single
    · exact not_ends_of_return meets known back same ends

/-! ### An output that contains itself -/

/-- An output whose value is a text with a reference to that output. -/
def selfish : OutputCollector := ⟨[⟨"a",.string "x${a}",false,""⟩]⟩

theorem selfish_never_ends : ¬ ∀ (to_string : Value → String) (collector : OutputCollector) (state : ProvisionState), Terminates to_string collector state := by
  intro claim
  have terminates := claim (fun _ => "") selfish .new
  rw [terminates_iff] at terminates
  have resolves : Resolves (selfish.env (fun _ => "") .new) "x${a}".toList := terminates.1
  rcases resolves with single | ends
  · exact absurd single (by decide)
  · have known : (selfish.env (fun _ => "") .new).table ['a'] = some "x${a}".toList := by
      rfl
    have first : next "x${a}".toList = some (['x'],['a'],[]) := by decide
    have back : next (['x'] ++ "x${a}".toList) = some (['x','x'],['a'],[]) := by decide
    exact not_ends_of_return ⟨_,.refl,first⟩ known ⟨_,.refl,back⟩ (by decide) ends

end Daf.OutputReferences
