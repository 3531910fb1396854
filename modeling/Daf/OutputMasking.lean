import Daf.ReferenceSyntax

/-!
Outputs marked sensitive are masked where outputs are displayed. Other outputs may refer to them, and show
what they refer to.
-/
namespace Daf.OutputMasking
open Daf.Json Daf.Search Daf.Expansion Daf.OutputReferences Daf.ReferenceSyntax
open Daf.MissionPlan (DafError)
open Daf.ProvisionPlan (ProvisionState)

def display_value (to_string : Value → String) (output : Output) : String :=
  if output.sensitive then "(sensitive)"
  else
    match output.value with
    | .string s => "\"" ++ s ++ "\""
    | other => to_string other

def display (to_string : Value → String) (output : Output) : String :=
  output.name ++ " = " ++ display_value to_string output ++ " # " ++ output.description

def public_outputs (collector : OutputCollector) : List Output := collector.outputs.filter fun output => !output.sensitive

def display_all (to_string : Value → String) (collector : OutputCollector) : String :=
  if collector.outputs.isEmpty then "No outputs.\n"
  else collector.outputs.foldl (fun out output => out ++ "  " ++ display to_string output ++ "\n") "Outputs:\n\n"

/-- Two outputs that differ at most in a value marked sensitive. -/
structure Alike (a b : Output) : Prop where
  name : a.name = b.name
  sensitive : a.sensitive = b.sensitive
  description : a.description = b.description
  value : a.sensitive = false → a.value = b.value

/-- Collectors that differ at most in the values of outputs marked sensitive. -/
def AllAlike (a b : OutputCollector) : Prop := List.Forall₂ Alike a.outputs b.outputs

/-- What is displayed of two collectors, and the values of their public outputs, are the same. -/
structure SameDisplay (to_string : Value → String) (a b : OutputCollector) : Prop where
  display : display_all to_string a = display_all to_string b
  values : (public_outputs a).map (·.value) = (public_outputs b).map (·.value)

/-- The output that a name stands for: the last one of that name. -/
def owner (collector : OutputCollector) (name : String) : Option Output := collector.outputs.reverse.find? (·.name = name)

def Reveals (collector : OutputCollector) (ref_path : List Char) : Prop := ∃ output, owner collector (String.ofList ref_path) = some output ∧ output.sensitive

/-- The reference is followed while the string is resolved. -/
def Reads (env : Env) (s ref_path : List Char) : Prop := if lone s then ref_path = loneRef s else ∃ x r, Meets env.table s x ref_path r

/-- No reference that is followed while a public output is resolved names a sensitive one. -/
def Discreet (to_string : Value → String) (state : ProvisionState) (collector : OutputCollector) : Prop :=
  ∀ output ∈ collector.outputs, output.sensitive = false → ∀ s ∈ strings output.value, ∀ ref_path,
    Reads (collector.env to_string state) s ref_path → ¬ Reveals collector ref_path

/-! ### What references find -/

theorem snapshot_lookup (outputs : List Output) (start : Snapshot) (name : String) :
    (outputs.foldl (fun map output => map.insert output.name output.value) start).lookup name =
      ((outputs.reverse.find? (·.name = name)).map (·.value)).or (start.lookup name) := by
  induction outputs generalizing start with
  | nil => rfl
  | cons output later ih =>
    rw [List.foldl_cons,ih,List.reverse_cons,List.find?_append]
    by_cases same : output.name = name
    · subst same
      cases later.reverse.find? (·.name = output.name) <;> simp
    · have other : AList.lookup name (start.insert output.name output.value) = start.lookup name := AList.lookup_insert_ne (Ne.symm same)
      cases later.reverse.find? (·.name = name) <;> simp [same,other]

theorem snapshot_owner (collector : OutputCollector) (name : String) : collector.snapshot.lookup name = (owner collector name).map (·.value) := by
  rw [OutputCollector.snapshot,snapshot_lookup]
  simp [owner]

theorem owner_alike {a b : OutputCollector} (alike : AllAlike a b) (name : String) :
    owner a name = none ∧ owner b name = none ∨ ∃ x y, owner a name = some x ∧ owner b name = some y ∧ Alike x y := by
  have reversed : List.Forall₂ Alike a.outputs.reverse b.outputs.reverse := List.rel_reverse alike
  unfold owner
  generalize a.outputs.reverse = xs at reversed ⊢
  generalize b.outputs.reverse = ys at reversed ⊢
  induction reversed with
  | nil => exact .inl ⟨rfl,rfl⟩
  | @cons x y xs ys like _ ih =>
    by_cases same : x.name = name
    · exact .inr ⟨x,y,by simp [same],by simp [← like.name,same],like⟩
    · have other : y.name ≠ name := like.name ▸ same
      simpa [same,other] using ih

/-- References that do not name a sensitive output find the same in both. -/
theorem lookup_alike {a b : OutputCollector} (alike : AllAlike a b) (to_string : Value → String) (state : ProvisionState) {ref_path : List Char}
    (hidden : ¬ Reveals a ref_path) : lookup_reference (a.env to_string state) ref_path = lookup_reference (b.env to_string state) ref_path := by
  have same : a.snapshot.lookup (String.ofList ref_path) = b.snapshot.lookup (String.ofList ref_path) := by
    rw [snapshot_owner,snapshot_owner]
    rcases owner_alike alike (String.ofList ref_path) with ⟨left,right⟩ | ⟨x,y,left,right,like⟩
    · rw [left,right]
    · have plain : x.sensitive = false := by
        by_contra sensitive
        exact hidden ⟨x,left,by simpa using sensitive⟩
      rw [left,right,Option.map_some,Option.map_some,like.value plain]
  unfold lookup_reference OutputCollector.env
  simp only [same]

/-! ### What is resolved -/

/-- Two ways to look up references that agree on those that are followed. -/
structure Agree (env env' : Env) (s : List Char) : Prop where
  to_string : env.to_string = env'.to_string
  found : ∀ ref_path, Reads env s ref_path → lookup_reference env ref_path = lookup_reference env' ref_path

theorem replacement_same {env env' : Env} (same : env.to_string = env'.to_string) (value : Value) : replacement env value = replacement env' value := by
  cases value <;> simp [replacement,same]

theorem loop_same {env env' : Env} (same : env.to_string = env'.to_string) {s : List Char}
    (found : ∀ x p r, Meets env.table s x p r → lookup_reference env p = lookup_reference env' p) (fuel : Nat) :
    resolve_loop env fuel s = resolve_loop env' fuel s := by
  induction fuel generalizing s with
  | zero => rfl
  | succ fuel ih =>
    rw [resolve_loop,resolve_loop]
    cases first : next s with
    | none => rfl
    | some parts =>
      obtain ⟨x,p,r⟩ := parts
      have here := found x p r ⟨s,.refl,first⟩
      simp only [← here,replacement_same same]
      cases known : lookup_reference env p with
      | error e => rfl
      | ok value =>
        have goes : step env.table s = some (x ++ replacement env value ++ r) := by rw [step_next first,table_ok known]; rfl
        rw [replacement_same same] at goes
        refine ih fun y q r' meets => ?_
        obtain ⟨now,comes,there⟩ := meets
        exact found y q r' ⟨now,.head goes comes,there⟩

theorem string_same {env env' : Env} {s : List Char} (agree : Agree env env' s) (fuel : Nat) :
    resolve_string_references env fuel s = resolve_string_references env' fuel s := by
  have found := agree.found
  unfold Reads at found
  unfold resolve_string_references
  split
  case isTrue single =>
    simp only [single,↓reduceIte] at found
    rw [found _ rfl]
  case isFalse embedded =>
    simp only [embedded,Bool.false_eq_true,↓reduceIte] at found
    rw [loop_same agree.to_string fun x p r meets => found p ⟨x,r,meets⟩]

mutual

theorem value_same {env env' : Env} {fuel : Nat} :
    ∀ {value}, (∀ s ∈ strings value, Agree env env' s) → resolve_references env fuel value = resolve_references env' fuel value
  | .string s,agree => string_same (agree _ List.mem_cons_self) fuel
  | .array items,agree => by rw [resolve_references,resolve_references,items_same agree]
  | .object fields,agree => by rw [resolve_references,resolve_references,fields_same agree]
  | .null,_ | .bool _,_ | .number _,_ => rfl

theorem items_same {env env' : Env} {fuel : Nat} :
    ∀ {items}, (∀ s ∈ stringsOfItems items, Agree env env' s) → resolveItems env fuel items = resolveItems env' fuel items
  | [],_ => rfl
  | value :: later,agree => by
    rw [resolveItems,resolveItems,value_same fun s member => agree s (List.mem_append_left _ member),
      items_same fun s member => agree s (List.mem_append_right _ member)]

theorem fields_same {env env' : Env} {fuel : Nat} :
    ∀ {fields}, (∀ s ∈ stringsOfFields fields, Agree env env' s) → resolveFields env fuel fields = resolveFields env' fuel fields
  | [],_ => rfl
  | (key,value) :: later,agree => by
    rw [resolveFields,resolveFields,value_same fun s member => agree s (List.mem_append_left _ member),
      fields_same fun s member => agree s (List.mem_append_right _ member)]

end

/-- An output before and after its value is resolved. -/
structure Resolved (env : Env) (before after : Output) : Prop where
  name : after.name = before.name
  sensitive : after.sensitive = before.sensitive
  description : after.description = before.description
  value : ∃ fuel, resolve_references env fuel before.value = some (.ok after.value)

theorem outputs_resolved {env : Env} {fuel : Nat} {before after : List Output} (done : resolveOutputs env fuel before = some (after,.ok ())) :
    List.Forall₂ (Resolved env) before after := by
  induction before generalizing after with
  | nil =>
    cases done
    exact .nil
  | cons output later ih =>
    rw [resolveOutputs] at done
    cases first : resolve_references env fuel output.value with
    | none => simp [first] at done
    | some result =>
      cases result with
      | error e => simp [first] at done
      | ok value =>
        rw [first] at done
        obtain ⟨rest,some_rest,same⟩ := Option.map_eq_some_iff.mp done
        obtain ⟨rfl,ok⟩ := Prod.mk.inj same
        have finished : resolveOutputs env fuel later = some (rest.1,.ok ()) := by rw [some_rest,← ok]
        exact .cons ⟨rfl,rfl,rfl,fuel,first⟩ (ih finished)

theorem collector_resolved {collector result : OutputCollector} {to_string : Value → String} {fuel : Nat} {state : ProvisionState}
    (done : collector.resolve to_string fuel state = some (result,.ok ())) :
    List.Forall₂ (Resolved (collector.env to_string state)) collector.outputs result.outputs := by
  obtain ⟨outputs,finished,same⟩ := Option.map_eq_some_iff.mp done
  obtain ⟨rfl,ok⟩ := Prod.mk.inj same
  exact outputs_resolved (by rw [finished,← ok])

/-! ### What is displayed -/

theorem display_alike {a b : Output} (alike : Alike a b) (to_string : Value → String) : display to_string a = display to_string b := by
  have values : display_value to_string a = display_value to_string b := by
    unfold display_value
    rw [← alike.sensitive]
    split
    case isTrue => rfl
    case isFalse plain => rw [alike.value (by simpa using plain)]
  rw [display,display,alike.name,alike.description,values]

theorem same_display {a b : OutputCollector} (alike : AllAlike a b) (to_string : Value → String) : SameDisplay to_string a b where
  display := by
    have lines (out : String) : a.outputs.foldl (fun out output => out ++ "  " ++ display to_string output ++ "\n") out =
        b.outputs.foldl (fun out output => out ++ "  " ++ display to_string output ++ "\n") out := by
      unfold AllAlike at alike
      generalize a.outputs = xs at alike ⊢
      generalize b.outputs = ys at alike ⊢
      induction alike generalizing out with
      | nil => rfl
      | cons like _ ih => rw [List.foldl_cons,List.foldl_cons,display_alike like,ih]
    have empty : a.outputs.isEmpty = b.outputs.isEmpty := by
      unfold AllAlike at alike
      generalize a.outputs = xs at alike ⊢
      generalize b.outputs = ys at alike ⊢
      cases alike <;> rfl
    rw [display_all,display_all,lines,empty]
  values := by
    unfold AllAlike at alike
    unfold public_outputs
    generalize a.outputs = xs at alike ⊢
    generalize b.outputs = ys at alike ⊢
    induction alike with
    | nil => rfl
    | @cons x y _ _ like _ ih =>
      have masks := like.sensitive
      cases plain : x.sensitive with
      | true => simpa [plain,← masks] using ih
      | false => simpa [plain,← masks,like.value plain] using ih

/-- An output of each collector that stand at the same place, and what they become. -/
theorem resolved_alike {env env' : Env} {x y r s : Output} (alike : Alike x y) (left : Resolved env x r) (right : Resolved env' y s)
    (agree : x.sensitive = false → ∀ s ∈ strings x.value, Agree env env' s) : Alike r s where
  name := by rw [left.name,right.name,alike.name]
  sensitive := by rw [left.sensitive,right.sensitive,alike.sensitive]
  description := by rw [left.description,right.description,alike.description]
  value plain := by
    rw [left.sensitive] at plain
    obtain ⟨n,first⟩ := left.value
    obtain ⟨m,second⟩ := right.value
    rw [value_same (agree plain),alike.value plain] at first
    exact Except.ok.inj (resolve_result first second)

theorem results_alike {env env' : Env} {xs ys rs ss : List Output} (alike : List.Forall₂ Alike xs ys) (left : List.Forall₂ (Resolved env) xs rs)
    (right : List.Forall₂ (Resolved env') ys ss) (agree : ∀ output ∈ xs, output.sensitive = false → ∀ s ∈ strings output.value, Agree env env' s) :
    List.Forall₂ Alike rs ss := by
  induction alike generalizing rs ss with
  | nil =>
    cases left
    cases right
    exact .nil
  | cons like _ ih =>
    cases left with
    | cons first left =>
      cases right with
      | cons second right =>
        exact .cons (resolved_alike like first second (agree _ List.mem_cons_self))
          (ih left right fun output member => agree output (List.mem_cons_of_mem _ member))

/-- Public outputs that show the same values were resolved to the same. -/
theorem values_same {env env' : Env} {xs ys rs ss : List Output} (alike : List.Forall₂ Alike xs ys) (left : List.Forall₂ (Resolved env) xs rs)
    (right : List.Forall₂ (Resolved env') ys ss)
    (values : (rs.filter fun output => !output.sensitive).map (·.value) = (ss.filter fun output => !output.sensitive).map (·.value)) :
    ∀ output ∈ xs, output.sensitive = false → ∃ n m result, resolve_references env n output.value = some result ∧
      resolve_references env' m output.value = some result := by
  induction alike generalizing rs ss with
  | nil => nofun
  | @cons x y _ _ like _ ih =>
    cases left with
    | @cons _ r _ _ first left =>
      cases right with
      | @cons _ s _ _ second right =>
        have masks : s.sensitive = r.sensitive := by rw [first.sensitive,second.sensitive,like.sensitive]
        rw [List.filter_cons,List.filter_cons,masks] at values
        intro output member public_
        cases plain : r.sensitive with
        | true =>
          simp only [plain,Bool.not_true,Bool.false_eq_true,↓reduceIte] at values
          rcases List.mem_cons.mp member with rfl | later
          · rw [first.sensitive,public_] at plain
            cases plain
          · exact ih left right values output later public_
        | false =>
          simp only [plain,Bool.not_false,↓reduceIte,List.map_cons,List.cons.injEq] at values
          rcases List.mem_cons.mp member with rfl | later
          · obtain ⟨n,one⟩ := first.value
            obtain ⟨m,two⟩ := second.value
            exact ⟨n,m,_,one,by rw [like.value public_,two,values.1]⟩
          · exact ih left right values.2 output later public_

/-- Where no public output refers to a sensitive one, what is displayed does not depend on the sensitive values.
Where it does not, public strings of which the references are parsed do not show them either. -/
theorem display_masked (to_string : Value → String) (state : ProvisionState) (a b ra rb : OutputCollector) (n m : Nat) (alike : AllAlike a b)
    (left : a.resolve to_string n state = some (ra,.ok ())) (right : b.resolve to_string m state = some (rb,.ok ())) :
    (Discreet to_string state a → SameDisplay to_string ra rb) ∧
      (SameDisplay to_string ra rb → ∀ output ∈ a.outputs, output.sensitive = false → ∀ s pieces last, output.value = .string s → s.toList = source pieces last →
        Parsed (a.env to_string state) pieces last → Parsed (b.env to_string state) pieces last →
          expected (a.env to_string state) pieces last = expected (b.env to_string state) pieces last) := by
  have first := collector_resolved left
  have second := collector_resolved right
  constructor
  · intro discreet
    refine same_display (results_alike alike first second fun output member public_ s inside => ⟨rfl,fun ref_path reads => ?_⟩) to_string
    exact lookup_alike alike to_string state (discreet output member public_ s inside ref_path reads)
  · intro same output member public_ s pieces last value text parsed parsed'
    obtain ⟨i,j,result,one,two⟩ := values_same alike first second same.values output member public_
    rw [value] at one two
    obtain ⟨k,done⟩ := parsed
    obtain ⟨l,done'⟩ := parsed'
    rw [← text] at done done'
    have shown := resolve_result one done
    have shown' := resolve_result two done'
    exact Except.ok.inj (shown.symm.trans shown')

/-! ### A public output that refers to a sensitive one -/

/-- A sensitive output, and a public one. -/
def tokenAnd (secret url : String) : OutputCollector := ⟨[⟨"token",.string secret,true,"API token"⟩,⟨"url",.string url,false,"The URL"⟩]⟩

theorem url_one : (tokenAnd "one" "key=${token}").resolve (fun _ => "") 3 .new = some (tokenAnd "one" "key=one",.ok ()) := rfl

theorem url_two : (tokenAnd "two" "key=${token}").resolve (fun _ => "") 3 .new = some (tokenAnd "two" "key=two",.ok ()) := rfl

theorem tokens_alike (url : String) : AllAlike (tokenAnd "one" url) (tokenAnd "two" url) := .cons ⟨rfl,rfl,rfl,nofun⟩ (.cons ⟨rfl,rfl,rfl,fun _ => rfl⟩ .nil)

theorem token_leaks : ¬ ∀ (to_string : Value → String) (state : ProvisionState) (a b ra rb : OutputCollector) (n m : Nat), AllAlike a b →
    a.resolve to_string n state = some (ra,.ok ()) → b.resolve to_string m state = some (rb,.ok ()) → SameDisplay to_string ra rb := by
  intro claim
  have same := claim (fun _ => "") .new _ _ _ _ 3 3 (tokens_alike _) url_one url_two
  exact absurd same.values (by decide)

theorem none_one : (tokenAnd "one" "none").resolve (fun _ => "") 1 .new = some (tokenAnd "one" "none",.ok ()) := rfl

theorem none_two : (tokenAnd "two" "none").resolve (fun _ => "") 1 .new = some (tokenAnd "two" "none",.ok ()) := rfl

/-- A public output without references, beside a sensitive one. -/
theorem token_masked : SameDisplay (fun _ => "") (tokenAnd "one" "none") (tokenAnd "two" "none") := by
  refine (display_masked (fun _ => "") .new _ _ _ _ 1 1 (tokens_alike "none") none_one none_two).1 ?_
  intro output member public_ s inside ref_path reads
  simp only [tokenAnd,List.mem_cons,List.not_mem_nil,or_false] at member
  rcases member with rfl | rfl
  · cases public_
  · cases List.mem_singleton.mp inside
    obtain ⟨x,r,meets⟩ := reads
    exact absurd meets (not_meets_plain (by decide))

end Daf.OutputMasking
