import Daf.DottedPaths

/-!
Conditions on the variables of a playbook, as structures and as expressions in a text. An expression is
split at the first operator that occurs anywhere in it, in the order of a table of operators.
-/
namespace Daf.Conditions
open Daf.Json Daf.Search Daf.DottedPaths

inductive Condition where
  | Equals (key : String) (expected : Value)
  | NotEquals (key : String) (expected : Value)
  | Contains (key : String) (needle : Value)
  | Defined (key : String)
  | Undefined (key : String)
  | And (conds : List Condition)
  | Or (conds : List Condition)
  | Not (inner : Condition)
  | Expression (expr : String)

def value_contains : Value → Value → Bool
  | .string h,.string n => (h.toList.dropInfix? n.toList).isSome
  | .array arr,needle => arr.any fun item => item.eq needle
  | _,_ => false

/-- A JSON text, or the text itself as a string. -/
def parse_value (serde : Serde) (raw : List Char) : Value :=
  match serde.from_str (trim raw) with
  | some v => v
  | none => .string (String.ofList (trim raw))

def is_truthy : Value → Bool
  | .null => false
  | .bool b => b
  | .number (.int n) => n != 0
  | .number (.float bits) => bits <<< 1 != 0
  | .string s => !s.toList.isEmpty
  | .array a => !a.isEmpty
  | .object o => !o.isEmpty

/-- A word as an operator between two operands. -/
def operator (word : String) : List Char := ' ' :: (word.toList ++ [' '])

def is_defined : List Char := " is defined".toList
def is_undefined : List Char := " is undefined".toList

/-- The words of the operators, in the order in which they are looked for. -/
def ops : List (String × (Value → Value → Bool)) := [("==",Value.eq),("!=",fun a b => !a.eq b),("contains",value_contains)]

/-- Compare the variable before an operator to the value after it. -/
def compare (serde : Serde) (vars : Vars) (before after : List Char) (handler : Value → Value → Bool) : Bool :=
  ((resolve vars (trim before)).map fun v => handler v (parse_value serde (trim after))).getD false

/-- The first operator of the table that occurs. -/
def binary (serde : Serde) (vars : Vars) (expr : List Char) : List (String × (Value → Value → Bool)) → Option Bool
  | [] => none
  | (word,handler) :: later =>
    match expr.dropInfix? (operator word) with
    | some (before,after) => some (compare serde vars before after handler)
    | none => binary serde vars expr later

def evaluate_expression (serde : Serde) (expr : List Char) (vars : Vars) : Bool :=
  match (trim expr).dropSuffix? is_defined with
  | some key => (resolve vars (trim key)).isSome
  | none =>
    match (trim expr).dropSuffix? is_undefined with
    | some key => (resolve vars (trim key)).isNone
    | none =>
      match binary serde vars (trim expr) ops with
      | some result => result
      | none => ((resolve vars (trim expr)).map is_truthy).getD false

mutual

def Condition.evaluate (serde : Serde) (vars : Vars) : Condition → Bool
  | .Equals key expected => ((resolve vars key.toList).map fun v => v.eq expected).getD false
  | .NotEquals key expected => ((resolve vars key.toList).map fun v => !v.eq expected).getD true
  | .Contains key needle => ((resolve vars key.toList).map fun v => value_contains v needle).getD false
  | .Defined key => (resolve vars key.toList).isSome
  | .Undefined key => (resolve vars key.toList).isNone
  | .And conds => every serde vars conds
  | .Or conds => some_of serde vars conds
  | .Not inner => !inner.evaluate serde vars
  | .Expression expr => evaluate_expression serde expr.toList vars

def every (serde : Serde) (vars : Vars) : List Condition → Bool
  | [] => true
  | cond :: later => cond.evaluate serde vars && every serde vars later

def some_of (serde : Serde) (vars : Vars) : List Condition → Bool
  | [] => false
  | cond :: later => cond.evaluate serde vars || some_of serde vars later

end

/-! ### The two forms of a condition -/

/-- The conditions that have an expression too. -/
inductive Form where
  | equals
  | not_equals
  | contains
  | defined
  | undefined
deriving DecidableEq,Repr

def Form.structured (form : Form) (key : String) (v : Value) : Condition :=
  match form with
  | .equals => .Equals key v
  | .not_equals => .NotEquals key v
  | .contains => .Contains key v
  | .defined => .Defined key
  | .undefined => .Undefined key

def Form.expression (form : Form) (serde : Serde) (key : String) (v : Value) : Condition :=
  .Expression (String.ofList (key.toList ++
    match form with
    | .equals => operator "==" ++ serde.to_string v
    | .not_equals => operator "!=" ++ serde.to_string v
    | .contains => operator "contains" ++ serde.to_string v
    | .defined => is_defined
    | .undefined => is_undefined))

def Agrees (serde : Serde) (vars : Vars) (key : String) (v : Value) : Prop :=
  ∀ form : Form, (form.expression serde key v).evaluate serde vars = (form.structured key v).evaluate serde vars

/-- A text as JSON is written: it begins with a bracket, a quote, a sign, a digit or the name of a constant, and ends like one. -/
structure JsonText (text : List Char) : Prop where
  first : ∃ c ∈ "[\x7b\"-0123456789tfn".toList, text.head? = some c
  last : ∃ c ∈ "]\x7d\"0123456789el".toList, text.getLast? = some c

/-- What an expression is taken for where an operator that is looked for earlier occurs in the text of its value. -/
def taken (serde : Serde) (vars : Vars) (before text : List Char) : List (String × (Value → Value → Bool)) → Option Bool
  | [] => none
  | (word,handler) :: later =>
    match text.dropInfix? (operator word) with
    | some (a,b) => some (compare serde vars (before ++ a) b handler)
    | none => taken serde vars before text later

/-- The value that is read back compares like the value, the variable is there where it is compared with `!=`, and no
operator that is looked for earlier occurs in the text, or what the expression is then taken for is the same. -/
structure Faithful (serde : Serde) (vars : Vars) (key : String) (v : Value) : Prop where
  equals : ∀ x, resolve vars key.toList = some x → x.eq (parse_value serde (serde.to_string v)) = x.eq v
  not_equals :
    match taken serde vars (key.toList ++ operator "!=") (serde.to_string v) (ops.take 1) with
    | some result => result = (Condition.NotEquals key v).evaluate serde vars
    | none => (resolve vars key.toList).isSome
  contains :
    match taken serde vars (key.toList ++ operator "contains") (serde.to_string v) (ops.take 2) with
    | some result => result = (Condition.Contains key v).evaluate serde vars
    | none => ∀ x, resolve vars key.toList = some x → value_contains x (parse_value serde (serde.to_string v)) = value_contains x v

/-! ### Where operators are found -/

/-- Two texts split at their first spaces. -/
theorem first_space {a b c d : List Char} (plain : ' ' ∉ a) (plain' : ' ' ∉ c) (same : a ++ ' ' :: b = c ++ ' ' :: d) : a = c ∧ b = d := by
  rcases List.append_eq_append_iff.mp same with ⟨z,rfl,rest⟩ | ⟨z,rfl,rest⟩
  · cases z with
    | nil => simpa using rest
    | cons e z =>
      obtain ⟨rfl,-⟩ := List.cons.inj rest
      simp at plain'
  · cases z with
    | nil => simpa using rest.symm
    | cons e z =>
      obtain ⟨rfl,-⟩ := List.cons.inj rest
      simp at plain

/-- A text cut at some space, before or after its first one. -/
theorem later_space {a b c d : List Char} (plain : ' ' ∉ c) (same : a ++ ' ' :: b = c ++ ' ' :: d) : a = c ∧ b = d ∨ ∃ z, a = c ++ ' ' :: z ∧ z ++ ' ' :: b = d := by
  rcases List.append_eq_append_iff.mp same with ⟨z,rfl,rest⟩ | ⟨z,rfl,rest⟩
  · cases z with
    | nil => exact .inl (by simpa using rest)
    | cons e z =>
      obtain ⟨rfl,-⟩ := List.cons.inj rest
      simp at plain
  · cases z with
    | nil => exact .inl (by simpa [eq_comm] using rest)
    | cons e z =>
      obtain ⟨rfl,tail⟩ := List.cons.inj rest
      exact .inr ⟨z,rfl,tail.symm⟩

structure Word (word : String) : Prop where
  plain : ' ' ∉ word.toList
  nonempty : word.toList ≠ []

theorem operator_ne_nil (word : String) : operator word ≠ [] := nofun

/-- An operator after a key without spaces is the first one of its kind. -/
theorem found_own {key : List Char} (plain : ' ' ∉ key) (word : String) (text : List Char) :
    (key ++ operator word ++ text).dropInfix? (operator word) = some (key,text) := by
  refine (first_iff (operator_ne_nil word)).mpr ⟨rfl,?_⟩
  rintro ⟨p,s,occurs⟩
  have sizes := congrArg List.length occurs
  have own : (operator word).length ≠ 0 := by simp [operator]
  simp only [List.length_append,List.length_dropLast] at sizes
  have inside : p ++ [' '] <+: key := by
    refine List.prefix_of_prefix_length_le ?_ (List.prefix_append key (operator word).dropLast) (by simp; omega)
    exact ⟨word.toList ++ [' '] ++ s,by rw [← occurs]; simp [operator]⟩
  exact plain (inside.subset (by simp))

/-- Another operator occurs in the text after it, or not at all. -/
theorem found_later {key : List Char} (plain : ' ' ∉ key) {word other : String} (own : Word word) (wanted : Word other) (different : word.toList ≠ other.toList)
    {text : List Char} (begins : text.head? ≠ other.toList.head?) :
    (key ++ operator word ++ text).dropInfix? (operator other) =
      (text.dropInfix? (operator other)).map fun parts => (key ++ operator word ++ parts.1,parts.2) := by
  have beyond : ∀ p s, key ++ operator word ++ text = p ++ operator other ++ s → ∃ y, p = key ++ operator word ++ y ∧ text = y ++ operator other ++ s := by
    intro p s occurs
    have cut : p ++ ' ' :: (other.toList ++ ' ' :: s) = key ++ ' ' :: (word.toList ++ ' ' :: text) := by simpa [operator] using occurs.symm
    rcases later_space plain cut with ⟨rfl,rest⟩ | ⟨z,rfl,rest⟩
    · exact absurd (first_space wanted.plain own.plain rest).1.symm different
    · rcases later_space own.plain rest with ⟨rfl,tail⟩ | ⟨y,rfl,tail⟩
      · obtain ⟨c,w,letters⟩ := List.exists_cons_of_ne_nil wanted.nonempty
        refine absurd ?_ begins
        rw [← tail,letters]
        rfl
      · exact ⟨y,by simp [operator],by rw [← tail]; simp [operator]⟩
  cases found : text.dropInfix? (operator other) with
  | none =>
    rw [Option.map_none,absent_iff]
    rintro ⟨p,s,occurs⟩
    obtain ⟨y,-,inside⟩ := beyond p s occurs.symm
    exact absent_iff.mp found ⟨y,s,inside.symm⟩
  | some parts =>
    obtain ⟨split,first⟩ := found_iff.mp found
    refine found_iff.mpr ⟨by rw [split]; simp,fun p s occurs => ?_⟩
    obtain ⟨y,rfl,inside⟩ := beyond p s occurs
    have least := first y s inside
    simp only [List.length_append]
    omega

/-! ### Expressions -/

section
variable {serde : Serde} {vars : Vars} {key text : List Char}

theorem JsonText.nonempty (json : JsonText text) : text ≠ [] := by
  rintro rfl
  obtain ⟨c,-,impossible⟩ := json.first
  cases impossible

theorem json_first : ∀ c ∈ "[\x7b\"-0123456789tfn".toList, is_whitespace c = false ∧ c ≠ '=' ∧ c ≠ '!' := forall_of_all (by decide)

theorem json_last : ∀ c ∈ "]\x7d\"0123456789el".toList, is_whitespace c = false ∧ c ≠ 'd' := forall_of_all (by decide)

theorem JsonText.last_of (json : JsonText text) : ∀ c ∈ text.getLast?, is_whitespace c = false ∧ c ≠ 'd' := by
  obtain ⟨d,ends,last⟩ := json.last
  intro c there
  rw [last] at there
  cases there
  exact json_last d ends

theorem JsonText.first_of (json : JsonText text) : ∀ c ∈ text.head?, is_whitespace c = false ∧ c ≠ '=' ∧ c ≠ '!' := by
  obtain ⟨d,begins,first⟩ := json.first
  intro c there
  rw [first] at there
  cases there
  exact json_first d begins

theorem JsonText.trimmed (json : JsonText text) : trim text = text :=
  trim_of_ends (fun c there => (json.first_of c there).1) fun c there => (json.last_of c there).1

/-- A key of a condition: some characters, and none of them white space. -/
structure Key (key : List Char) : Prop where
  nonempty : key ≠ []
  spaceless : ∀ c ∈ key, is_whitespace c = false

theorem Key.plain (named : Key key) : ' ' ∉ key := fun inside => absurd (named.spaceless ' ' inside) (by decide)

theorem Key.trimmed (named : Key key) : trim key = key := trim_of_none named.spaceless

theorem Key.expression (named : Key key) (rest : List Char) (nonempty : rest ≠ []) (last : ∀ c ∈ rest.getLast?, is_whitespace c = false) :
    trim (key ++ rest) = key ++ rest := by
  obtain ⟨c,letters,rfl⟩ := List.exists_cons_of_ne_nil named.nonempty
  refine trim_of_ends (fun d there => ?_) fun d there => ?_
  · cases there
    exact named.spaceless c List.mem_cons_self
  · rw [List.getLast?_append_of_ne_nil _ nonempty] at there
    exact last d there

/-- An expression ends in "is defined" or "is undefined" only where its last letter is theirs. -/
theorem no_suffix {suffix : List Char} (ends : suffix.getLast? = some 'd') {expr : List Char} (other : ∀ c ∈ expr.getLast?, c ≠ 'd') :
    expr.dropSuffix? suffix = none := by
  cases found : expr.dropSuffix? suffix with
  | none => rfl
  | some before =>
    obtain ⟨same,split,equal⟩ := List.dropSuffix?_eq_some_iff.mp found
    rw [beq_iff_eq.mp equal] at split
    refine absurd rfl (other 'd' ?_)
    rw [split,List.getLast?_append,ends]
    rfl

theorem own_suffix (expr suffix : List Char) : (expr ++ suffix).dropSuffix? suffix = some expr :=
  List.dropSuffix?_eq_some_iff.mpr ⟨suffix,rfl,beq_self_eq_true suffix⟩

/-- What an operator before the own one of the expression is. -/
structure Earlier (word other : String) (text : List Char) : Prop where
  wanted : Word other
  different : word.toList ≠ other.toList
  begins : text.head? ≠ other.toList.head?

theorem binary_eq (named : Key key) {word : String} (own : Word word) (handler : Value → Value → Bool) (later : List (String × (Value → Value → Bool)))
    {earlier : List (String × (Value → Value → Bool))} (before : ∀ entry ∈ earlier, Earlier word entry.1 text) :
    binary serde vars (key ++ operator word ++ text) (earlier ++ (word,handler) :: later) =
      some ((taken serde vars (key ++ operator word) text earlier).getD (compare serde vars key text handler)) := by
  induction earlier with
  | nil =>
    rw [List.nil_append,binary,found_own named.plain]
    rfl
  | cons entry earlier ih =>
    have first := before entry List.mem_cons_self
    rw [List.cons_append,binary,found_later named.plain own first.wanted first.different first.begins,taken]
    cases text.dropInfix? (operator entry.1) with
    | none => exact ih fun other member => before other (List.mem_cons_of_mem _ member)
    | some parts => rfl

/-- An expression with an operator, and the text of a value after it. -/
theorem evaluate_binary (named : Key key) (json : JsonText text) {word : String} (own : Word word) {handler : Value → Value → Bool}
    (earlier later : List (String × (Value → Value → Bool))) (split : ops = earlier ++ (word,handler) :: later)
    (before : ∀ entry ∈ earlier, Earlier word entry.1 text) :
    evaluate_expression serde (key ++ (operator word ++ text)) vars = (taken serde vars (key ++ operator word) text earlier).getD
      (((resolve vars key).map fun v => handler v (parse_value serde text)).getD false) := by
  have nonempty : operator word ++ text ≠ [] := nofun
  have last : (operator word ++ text).getLast? = text.getLast? := List.getLast?_append_of_ne_nil _ json.nonempty
  have whole : (key ++ (operator word ++ text)).getLast? = text.getLast? := (List.getLast?_append_of_ne_nil _ nonempty).trans last
  have trimmed := named.expression _ nonempty (last ▸ fun c there => (json.last_of c there).1)
  have other : ∀ c ∈ (key ++ (operator word ++ text)).getLast?, c ≠ 'd' := whole ▸ fun c there => (json.last_of c there).2
  have operands : compare serde vars key text handler = ((resolve vars key).map fun v => handler v (parse_value serde text)).getD false := by
    rw [compare,named.trimmed,json.trimmed]
  rw [evaluate_expression,trimmed,no_suffix (by decide) other,no_suffix (by decide) other,
    ← List.append_assoc,split,binary_eq named own handler later before,operands]

theorem last_letter {suffix : List Char} (ends : suffix.getLast? = some 'd') : ∀ c ∈ suffix.getLast?, is_whitespace c = false := by
  intro c there
  rw [ends] at there
  cases there
  decide

theorem evaluate_defined (named : Key key) : evaluate_expression serde (key ++ is_defined) vars = (resolve vars key).isSome := by
  have trimmed := named.expression is_defined (by decide) (last_letter (by decide))
  rw [evaluate_expression,trimmed,own_suffix]
  simp only [named.trimmed]

theorem undefined_not_defined (key : List Char) : (key ++ is_undefined).dropSuffix? is_defined = none := by
  cases found : (key ++ is_undefined).dropSuffix? is_defined with
  | none => rfl
  | some before =>
    obtain ⟨same,split,equal⟩ := List.dropSuffix?_eq_some_iff.mp found
    have parts : is_undefined = " i".toList ++ "s undefined".toList := by decide
    rw [beq_iff_eq.mp equal,parts,← List.append_assoc] at split
    exact absurd (List.append_inj' split (by decide)).2 (by decide)

theorem evaluate_undefined (named : Key key) : evaluate_expression serde (key ++ is_undefined) vars = (resolve vars key).isNone := by
  have trimmed := named.expression is_undefined (by decide) (last_letter (by decide))
  rw [evaluate_expression,trimmed,undefined_not_defined,own_suffix]
  simp only [named.trimmed]

theorem equal_word : Word "==" := ⟨by decide,by decide⟩

theorem unequal_word : Word "!=" := ⟨by decide,by decide⟩

theorem contains_word : Word "contains" := ⟨by decide,by decide⟩

theorem JsonText.not_equal (json : JsonText text) : text.head? ≠ "==".toList.head? := fun same => (json.first_of '=' same).2.1 rfl

theorem JsonText.not_unequal (json : JsonText text) : text.head? ≠ "!=".toList.head? := fun same => (json.first_of '!' same).2.2 rfl

theorem evaluate_equals (named : Key key) (json : JsonText text) : evaluate_expression serde (key ++ (operator "==" ++ text)) vars =
    ((resolve vars key).map fun v => v.eq (parse_value serde text)).getD false :=
  evaluate_binary named json equal_word [] (ops.drop 1) rfl nofun

theorem evaluate_not_equals (named : Key key) (json : JsonText text) : evaluate_expression serde (key ++ (operator "!=" ++ text)) vars =
    (taken serde vars (key ++ operator "!=") text (ops.take 1)).getD (((resolve vars key).map fun v => !v.eq (parse_value serde text)).getD false) := by
  refine evaluate_binary named json unequal_word (ops.take 1) (ops.drop 2) rfl fun entry member => ?_
  cases List.mem_singleton.mp member
  exact ⟨equal_word,by decide,json.not_equal⟩

theorem evaluate_contains (named : Key key) (json : JsonText text) : evaluate_expression serde (key ++ (operator "contains" ++ text)) vars =
    (taken serde vars (key ++ operator "contains") text (ops.take 2)).getD
      (((resolve vars key).map fun v => value_contains v (parse_value serde text)).getD false) := by
  refine evaluate_binary named json contains_word (ops.take 2) [] rfl fun entry member => ?_
  rcases List.mem_cons.mp member with rfl | later
  · exact ⟨equal_word,by decide,json.not_equal⟩
  · cases List.mem_singleton.mp later
    exact ⟨unequal_word,by decide,json.not_unequal⟩

theorem evaluate_text (expr : List Char) : (Condition.Expression (String.ofList expr)).evaluate serde vars = evaluate_expression serde expr vars := by
  rw [Condition.evaluate,String.toList_ofList]

/-- A test of the variable gives the same for two values where it does for the variable there is. -/
theorem test_same {found : Option Value} {f g : Value → Bool} {absent : Bool} :
    (found.map f).getD absent = (found.map g).getD absent ↔ ∀ x, found = some x → f x = g x := by
  cases found <;> simp

end

/-- The expression agrees with the structured condition exactly where it is read back faithfully. -/
theorem expressions_agree (serde : Serde) (vars : Vars) (key : String) (v : Value) (named : Key key.toList) (json : JsonText (serde.to_string v)) :
    Agrees serde vars key v ↔ Faithful serde vars key v := by
  have equals : (Form.equals.expression serde key v).evaluate serde vars = (Form.equals.structured key v).evaluate serde vars ↔
      ∀ x, resolve vars key.toList = some x → x.eq (parse_value serde (serde.to_string v)) = x.eq v := by
    rw [Form.expression,Form.structured,evaluate_text,evaluate_equals named json,Condition.evaluate]
    exact test_same
  have not_equals (same : ∀ x, resolve vars key.toList = some x → x.eq (parse_value serde (serde.to_string v)) = x.eq v) :
      (Form.not_equals.expression serde key v).evaluate serde vars = (Form.not_equals.structured key v).evaluate serde vars ↔
        match taken serde vars (key.toList ++ operator "!=") (serde.to_string v) (ops.take 1) with
        | some result => result = (Condition.NotEquals key v).evaluate serde vars
        | none => (resolve vars key.toList).isSome := by
    rw [Form.expression,Form.structured,evaluate_text,evaluate_not_equals named json]
    cases taken serde vars (key.toList ++ operator "!=") (serde.to_string v) (ops.take 1) with
    | some result => rfl
    | none =>
      rw [Condition.evaluate]
      cases found : resolve vars key.toList with
      | none => simp
      | some x => simp [same x found]
  have contains : (Form.contains.expression serde key v).evaluate serde vars = (Form.contains.structured key v).evaluate serde vars ↔
      match taken serde vars (key.toList ++ operator "contains") (serde.to_string v) (ops.take 2) with
      | some result => result = (Condition.Contains key v).evaluate serde vars
      | none => ∀ x, resolve vars key.toList = some x → value_contains x (parse_value serde (serde.to_string v)) = value_contains x v := by
    rw [Form.expression,Form.structured,evaluate_text,evaluate_contains named json]
    cases taken serde vars (key.toList ++ operator "contains") (serde.to_string v) (ops.take 2) with
    | some result => rfl
    | none =>
      rw [Condition.evaluate]
      exact test_same
  constructor
  · intro agrees
    have same := equals.mp (agrees .equals)
    exact ⟨same,(not_equals same).mp (agrees .not_equals),contains.mp (agrees .contains)⟩
  · intro faithful form
    cases form with
    | equals => exact equals.mpr faithful.equals
    | not_equals => exact (not_equals faithful.equals).mpr faithful.not_equals
    | contains => exact contains.mpr faithful.contains
    | defined =>
      rw [Form.expression,Form.structured,evaluate_text,Condition.evaluate]
      exact evaluate_defined named
    | undefined =>
      rw [Form.expression,Form.structured,evaluate_text,Condition.evaluate]
      exact evaluate_undefined named

/-! ### A variable that is there, and one that is not -/

/-- The serializer on the number 42. -/
def fortyTwo : Serde := ⟨fun _ => "42".toList,fun text => if text = "42".toList then some (.number (.int 42)) else none⟩

def counted : Vars := AList.insert "count" (.number (.int 42)) ∅

theorem forty_two_text : JsonText "42".toList := ⟨⟨'4',by decide,rfl⟩,⟨'2',by decide,rfl⟩⟩

theorem count_agrees : Agrees fortyTwo counted "count" (.number (.int 42)) := by
  have named : Key "count".toList := ⟨by decide,forall_of_all (by decide)⟩
  have there : resolve counted "count".toList = some (.number (.int 42)) := rfl
  refine (expressions_agree fortyTwo counted "count" (.number (.int 42)) named forty_two_text).mpr ⟨fun x found => ?_,?_,fun x found => ?_⟩
  · cases found.symm.trans there
    rfl
  · exact congrArg Option.isSome there
  · cases found.symm.trans there
    rfl

/-- A variable that is not there is different from every value, but not in an expression. -/
theorem missing_disagrees : ¬ ∀ (serde : Serde) (vars : Vars) (key : String) (v : Value), Key key.toList → JsonText (serde.to_string v) →
    Agrees serde vars key v := by
  intro claim
  have agrees := claim fortyTwo ∅ "missing" (.number (.int 42)) ⟨by decide,forall_of_all (by decide)⟩ forty_two_text .not_equals
  exact absurd agrees (by decide)

end Daf.Conditions
