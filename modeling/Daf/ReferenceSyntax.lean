import Daf.OutputReferences

/-!
Strings made of literals and references, and what becomes of them: each reference is replaced by the text
of its value, unless the string passes for one reference or a literal and a text together begin another.
-/
namespace Daf.ReferenceSyntax
open Daf.Json Daf.Search Daf.Expansion Daf.OutputReferences
open Daf.MissionPlan (DafError)

/-- The references of a string, each with the literal before it. -/
abbrev Pieces := List (List Char × List Char)

def source : Pieces → List Char → List Char
  | [],last => last
  | (literal,path) :: later,last => literal ++ opens ++ path ++ closes ++ source later last

def valueOf (env : Env) (path : List Char) : Value := (lookup_reference env path).toOption.getD .null

def textOf (env : Env) (path : List Char) : List Char := replacement env (valueOf env path)

/-- The literals with the texts of the references between them. -/
def expectedText (env : Env) : Pieces → List Char → List Char
  | [],last => last
  | (literal,path) :: later,last => literal ++ textOf env path ++ expectedText env later last

/-- The value of the reference when there is nothing else, and the text otherwise. -/
def expected (env : Env) (pieces : Pieces) (last : List Char) : Value :=
  match pieces,last with
  | [([],path)],[] => valueOf env path
  | _,_ => .string (String.ofList (expectedText env pieces last))

/-- Literals without a reference, and references that are found with a text without one. -/
structure WellFormed (env : Env) (pieces : Pieces) (last : List Char) : Prop where
  literal : ∀ piece ∈ pieces, ¬ opens <:+: piece.1
  path : ∀ piece ∈ pieces, '}' ∉ piece.2
  found : ∀ piece ∈ pieces, ∃ value, lookup_reference env piece.2 = .ok value
  text : ∀ piece ∈ pieces, ¬ opens <:+: textOf env piece.2
  last : ¬ opens <:+: last

def Parsed (env : Env) (pieces : Pieces) (last : List Char) : Prop :=
  ∃ fuel, resolve_string_references env fuel (source pieces last) = some (.ok (expected env pieces last))

/-- The text before the last reference once those before it are replaced. -/
def upTo (env : Env) : Pieces → List Char
  | [] => []
  | [(literal,_)] => literal
  | (literal,path) :: later => literal ++ textOf env path ++ upTo env later

/-- One reference and a literal that ends in a brace, so that the string ends like a reference. -/
structure Bracketed (pieces : Pieces) (last path inner : List Char) : Prop where
  pieces : pieces = [([],path)]
  last : last = inner ++ closes
  path : ¬ opens <:+: path

/-- No literal and text together begin a reference before the last one, nor one that ends; and a string that is
one reference whose path looks like another has a string for its value. -/
structure Seamless (env : Env) (pieces : Pieces) (last : List Char) : Prop where
  before : ¬ opens <:+: upTo env pieces
  after : next (expectedText env pieces last) = none
  single : ∀ path, pieces = [([],path)] → last = [] → opens <:+: path → ∃ s, valueOf env path = .string s

structure Clear (env : Env) (pieces : Pieces) (last : List Char) : Prop where
  bracketed : ∀ path inner, Bracketed pieces last path inner → lookup_reference env (path ++ closes ++ inner) = .ok (expected env pieces last)
  other : (¬ ∃ path inner, Bracketed pieces last path inner) → Seamless env pieces last

/-! ### Strings that pass for one reference -/

theorem opens_nil : ¬ opens <:+: [] := by decide

theorem opens_closes {path text : List Char} : opens <:+: path ++ closes ++ text ↔ opens <:+: path ∨ opens <:+: text := by
  rw [List.append_assoc,opens_append,closes,List.singleton_append,opens,pair_cons]
  simp

theorem opens_front {literal rest : List Char} (plain : ¬ opens <:+: literal) : opens <+: literal ++ opens ++ rest ↔ literal = [] := by
  constructor
  · intro front
    cases literal with
    | nil => rfl
    | cons c literal =>
      cases literal with
      | nil => simp [opens,List.cons_prefix_cons] at front
      | cons d literal =>
        simp only [opens,List.cons_append,List.cons_prefix_cons] at front
        obtain ⟨rfl,rfl,-⟩ := front
        exact absurd ⟨[],literal,rfl⟩ plain
  · rintro rfl
    exact ⟨rest,by simp⟩

theorem source_closes (path last : List Char) : closes <:+ opens ++ path ++ closes ++ last ↔ last = [] ∨ ∃ inner, last = inner ++ closes := by
  rcases List.eq_nil_or_concat last with rfl | ⟨inner,c,rfl⟩
  · rw [List.append_nil]
    exact iff_of_true (List.suffix_append _ _) (.inl rfl)
  · rw [List.concat_eq_append,← List.append_assoc]
    constructor
    · rintro ⟨front,same⟩
      obtain ⟨-,ends⟩ := List.append_inj' same rfl
      exact .inr ⟨inner,by rw [← ends]⟩
    · rintro (impossible | ⟨other,same⟩)
      · simp at impossible
      · obtain ⟨-,ends⟩ := List.append_inj' same rfl
        rw [ends]
        exact List.suffix_append _ _

theorem lone_iff {env : Env} {pieces : Pieces} {last : List Char} (well : WellFormed env pieces last) :
    lone (source pieces last) ↔ ∃ path, pieces = [([],path)] ∧ ¬ opens <:+: path ∧ (last = [] ∨ ∃ inner, last = inner ++ closes) := by
  simp only [lone,Bool.and_eq_true,List.isPrefixOf_iff_prefix,List.isSuffixOf_iff_suffix,beq_iff_eq]
  cases pieces with
  | nil =>
    refine iff_of_false ?_ (by simp)
    rintro ⟨⟨front,-⟩,-⟩
    exact well.last front.isInfix
  | cons piece later =>
    obtain ⟨literal,path⟩ := piece
    have plain := well.literal _ List.mem_cons_self
    have whole : source ((literal,path) :: later) last = literal ++ opens ++ (path ++ closes ++ source later last) := by simp [source]
    have clear : ¬ opens <:+: literal ++ opens.dropLast := mt opens_dollar.mp plain
    rw [whole,opens_front plain,count_first (by decide) clear,Nat.add_eq_right,count_eq_zero (by decide),opens_closes]
    cases later with
    | nil =>
      constructor
      · rintro ⟨⟨rfl,back⟩,single⟩
        refine ⟨path,rfl,fun inside => single (.inl inside),(source_closes path last).mp ?_⟩
        simpa [source] using back
      · rintro ⟨other,same,clear,ends⟩
        obtain ⟨rfl,rfl⟩ : literal = [] ∧ path = other := by simpa using same
        refine ⟨⟨rfl,?_⟩,fun inside => inside.elim clear well.last⟩
        simpa [source] using (source_closes path last).mpr ends
    | cons second later =>
      refine iff_of_false ?_ (by simp)
      rintro ⟨-,single⟩
      refine single (.inr ?_)
      simp only [source]
      exact ⟨second.1,second.2 ++ closes ++ source later last,by simp⟩

/-! ### The loop on a string -/

/-- With enough fuel the loop returns the result. -/
def Loops (env : Env) (s : List Char) (result : Except DafError (List Char)) : Prop := ∃ fuel, resolve_loop env fuel s = some result

theorem loops_plain {env : Env} {s : List Char} (plain : next s = none) : Loops env s (.ok s) := ⟨1,by simp [resolve_loop,plain]⟩

theorem loops_step {env : Env} {s later : List Char} {result : Except DafError (List Char)} (goes : step env.table s = some later) :
    Loops env s result ↔ Loops env later result := by
  obtain ⟨x,p,r,text,first,known,rfl⟩ := step_iff.mp goes
  obtain ⟨value,found,rfl⟩ := table_some known
  have unfolded (fuel : Nat) : resolve_loop env (fuel + 1) s = resolve_loop env fuel (x ++ replacement env value ++ r) := by
    rw [resolve_loop]
    simp only [first,found]
  constructor
  · rintro ⟨fuel,done⟩
    cases fuel with
    | zero => cases done
    | succ fuel => exact ⟨fuel,unfolded fuel ▸ done⟩
  · rintro ⟨fuel,done⟩
    exact ⟨fuel + 1,(unfolded fuel).trans done⟩

/-- A text that the loop returns has no reference that ends. -/
theorem Loops.final {env : Env} {s text : List Char} (loops : Loops env s (.ok text)) : next text = none := by
  obtain ⟨fuel,done⟩ := loops
  induction fuel generalizing s with
  | zero => cases done
  | succ fuel ih =>
    rw [resolve_loop] at done
    split at done
    case h_1 plain =>
      cases done
      exact plain
    case h_2 =>
      split at done
      case h_1 => cases done
      case h_2 => exact ih done

theorem loops_missing {env : Env} {s x p r : List Char} {text : List Char} (first : next s = some (x,p,r)) (missing : env.table p = none) :
    ¬ Loops env s (.ok text) := by
  rintro ⟨fuel,done⟩
  cases fuel with
  | zero => cases done
  | succ fuel =>
    rw [resolve_loop] at done
    cases found : lookup_reference env p with
    | error e => simp [first,found] at done
    | ok value => cases missing.symm.trans (table_ok found)

theorem WellFormed.later {env : Env} {piece : List Char × List Char} {later : Pieces} {last : List Char} (well : WellFormed env (piece :: later) last) :
    WellFormed env later last where
  literal := fun other member => well.literal other (List.mem_cons_of_mem _ member)
  path := fun other member => well.path other (List.mem_cons_of_mem _ member)
  found := fun other member => well.found other (List.mem_cons_of_mem _ member)
  text := fun other member => well.text other (List.mem_cons_of_mem _ member)
  last := well.last

theorem WellFormed.known {env : Env} {piece : List Char × List Char} {later : Pieces} {last : List Char} (well : WellFormed env (piece :: later) last) :
    lookup_reference env piece.2 = .ok (valueOf env piece.2) := by
  obtain ⟨value,found⟩ := well.found piece List.mem_cons_self
  rw [valueOf,found]
  rfl

/-- The loop replaces the first reference where nothing before it begins another one. -/
theorem first_step {env : Env} {x literal path last : List Char} {later : Pieces} (well : WellFormed env ((literal,path) :: later) last)
    (plain : ¬ opens <:+: x ++ literal) :
    step env.table (x ++ source ((literal,path) :: later) last) = some (x ++ literal ++ textOf env path ++ source later last) :=
  step_iff.mpr ⟨x ++ literal,path,source later last,textOf env path,
    next_iff.mpr ⟨by simp [source],plain,well.path _ List.mem_cons_self⟩,table_ok well.known,by simp⟩

theorem upTo_pair (env : Env) (literal path : List Char) (second : List Char × List Char) (later : Pieces) :
    upTo env ((literal,path) :: second :: later) = literal ++ textOf env path ++ upTo env (second :: later) := rfl

theorem upTo_cons (env : Env) (literal path : List Char) (later : Pieces) : literal <+: upTo env ((literal,path) :: later) := by
  cases later with
  | nil => exact List.prefix_refl _
  | cons second later => exact ⟨textOf env path ++ upTo env (second :: later),by simp [upTo]⟩

/-- What the loop makes of a string in which nothing before the last reference begins another one. -/
theorem loops_pieces {env : Env} {pieces : Pieces} {last : List Char} (well : WellFormed env pieces last) (x : List Char)
    (plain : ¬ opens <:+: x ++ upTo env pieces) {result : Except DafError (List Char)} :
    Loops env (x ++ source pieces last) result ↔ Loops env (x ++ expectedText env pieces last) result := by
  induction pieces generalizing x with
  | nil => exact Iff.rfl
  | cons piece later ih =>
    obtain ⟨literal,path⟩ := piece
    have clear : ¬ opens <:+: x ++ literal := fun inside =>
      plain (inside.trans ((List.prefix_append_right_inj x).mpr (upTo_cons env literal path later)).isInfix)
    rw [loops_step (first_step well clear)]
    cases later with
    | nil => simp [source,expectedText]
    | cons second later =>
      have rest : ¬ opens <:+: x ++ literal ++ textOf env path ++ upTo env (second :: later) := by
        rwa [upTo_pair,← List.append_assoc,← List.append_assoc] at plain
      have whole : x ++ literal ++ textOf env path ++ expectedText env (second :: later) last = x ++ expectedText env ((literal,path) :: second :: later) last := by
        simp [expectedText]
      rw [ih well.later _ rest,whole]

/-- A text with the beginning of a reference that does not end, and one that ends. -/
theorem opens_split {text : List Char} (inside : opens <:+: text) : ∃ y z, text = y ++ opens ++ z ∧ ¬ opens <:+: y ∧
    ('}' ∉ z ∨ ∃ path rest, z = path ++ closes ++ rest ∧ '}' ∉ path) := by
  obtain ⟨parts,found⟩ := Option.ne_none_iff_exists'.mp (mt absent_iff.mp (not_not_intro inside))
  obtain ⟨split,plain⟩ := (first_iff (by decide)).mp found
  refine ⟨parts.1,parts.2,split,fun before => plain (opens_dollar.mpr before),?_⟩
  by_cases closed : '}' ∈ parts.2
  · obtain ⟨path,rest,same,unclosed⟩ := List.eq_append_cons_of_mem closed
    exact .inr ⟨path,rest,by rw [same]; simp [closes],unclosed⟩
  · exact .inl closed

/-- Where no reference is found whose path begins another, the loop returns the expected text only where nothing
before the last reference begins another one. -/
theorem before_of_loops {env : Env} (named : ∀ p, opens <:+: p → env.table p = none) {pieces : Pieces} {last : List Char} (well : WellFormed env pieces last)
    (x : List Char) (loops : Loops env (x ++ source pieces last) (.ok (x ++ expectedText env pieces last))) :
    pieces = [] ∨ ¬ opens <:+: x ++ upTo env pieces := by
  induction pieces generalizing x with
  | nil => exact .inl rfl
  | cons piece later ih =>
    obtain ⟨literal,path⟩ := piece
    right
    by_cases seam : opens <:+: x ++ literal
    · exfalso
      obtain ⟨y,z,split,plain,unclosed | ⟨inner,rest,rfl,unclosed⟩⟩ := opens_split seam
      · have misread : next (x ++ source ((literal,path) :: later) last) = some (y,z ++ opens ++ path,source later last) := by
          refine next_iff.mpr ⟨?_,plain,?_⟩
          · simp only [source,← List.append_assoc]
            rw [split]
          · simpa [opens,unclosed] using well.path _ List.mem_cons_self
        exact loops_missing misread (named _ ⟨z,path,rfl⟩) loops
      · have ended : next (x ++ expectedText env ((literal,path) :: later) last) =
            some (y,inner,rest ++ textOf env path ++ expectedText env later last) := by
          refine next_iff.mpr ⟨?_,plain,unclosed⟩
          simp only [expectedText,← List.append_assoc]
          rw [split]
          simp
        cases ended.symm.trans loops.final
    · have whole : x ++ literal ++ textOf env path ++ expectedText env later last = x ++ expectedText env ((literal,path) :: later) last := by
        simp [expectedText]
      rw [loops_step (first_step well seam),← whole] at loops
      cases later with
      | nil => exact seam
      | cons second later =>
        have rest := (ih well.later _ loops).resolve_left (List.cons_ne_nil _ _)
        rwa [upTo_pair,← List.append_assoc,← List.append_assoc]

/-! ### The whole of it -/

theorem loops_iff {env : Env} {pieces : Pieces} {last : List Char} (embedded : ¬ lone (source pieces last)) {value : Value} :
    (∃ fuel, resolve_string_references env fuel (source pieces last) = some (.ok value)) ↔
      ∃ text, Loops env (source pieces last) (.ok text) ∧ value = .string (String.ofList text) := by
  constructor
  · rintro ⟨fuel,done⟩
    rw [resolve_string_references,if_neg embedded] at done
    obtain ⟨result,loop,same⟩ := Option.map_eq_some_iff.mp done
    cases result with
    | error e => cases same
    | ok text => exact ⟨text,⟨fuel,loop⟩,(Except.ok.inj same).symm⟩
  · rintro ⟨text,⟨fuel,loop⟩,rfl⟩
    exact ⟨fuel,by rw [resolve_string_references,if_neg embedded,loop]; rfl⟩

theorem expected_eq (env : Env) (pieces : Pieces) (last : List Char) :
    expected env pieces last = .string (String.ofList (expectedText env pieces last)) ∨ ∃ path, pieces = [([],path)] ∧ last = [] := by
  unfold expected
  split
  case h_1 path => exact .inr ⟨path,rfl,rfl⟩
  case h_2 => exact .inl rfl

/-- A value whose text is that of a string is that string. -/
theorem textOf_string {env : Env} {path : List Char} {s : String} (value : valueOf env path = .string s) :
    valueOf env path = .string (String.ofList (textOf env path)) := by
  simp [textOf,value,replacement]

theorem expected_single {env : Env} {path : List Char} : expected env [([],path)] [] = valueOf env path := rfl

theorem expectedText_single {env : Env} {path : List Char} : expectedText env [([],path)] [] = textOf env path := by simp [expectedText]

theorem resolve_bracketed (env : Env) (fuel : Nat) {path inner : List Char} (plain : lone (source [([],path)] (inner ++ closes))) :
    resolve_string_references env fuel (source [([],path)] (inner ++ closes)) = some (lookup_reference env (path ++ closes ++ inner)) := by
  rw [resolve_string_references,if_pos plain]
  congr 2
  show (path ++ closes ++ (inner ++ closes)).dropLast = _
  rw [← List.append_assoc]
  exact List.dropLast_concat

theorem resolve_single (env : Env) (fuel : Nat) {path : List Char} (plain : lone (source [([],path)] [])) :
    resolve_string_references env fuel (source [([],path)] []) = some (lookup_reference env path) := by
  rw [resolve_string_references,if_pos plain]
  congr 2
  show (path ++ closes ++ []).dropLast = _
  rw [List.append_nil]
  exact List.dropLast_concat

theorem bracketed_lone {env : Env} {pieces : Pieces} {last path inner : List Char} (well : WellFormed env pieces last)
    (bracketed : Bracketed pieces last path inner) : lone (source pieces last) :=
  (lone_iff well).mpr ⟨path,bracketed.pieces,bracketed.path,.inr ⟨inner,bracketed.last⟩⟩

/-- A string that passes for one reference. -/
theorem lone_parsed {env : Env} {pieces : Pieces} {last : List Char} (well : WellFormed env pieces last) (single : lone (source pieces last)) :
    Clear env pieces last ↔ Parsed env pieces last := by
  obtain ⟨path,rfl,plain,rfl | ⟨inner,rfl⟩⟩ := (lone_iff well).mp single
  · refine iff_of_true ⟨fun _ inner bracketed => ?_,fun _ => ⟨opens_nil,?_,?_⟩⟩ ⟨0,?_⟩
    · exact absurd bracketed.last (by simp [closes])
    · rw [expectedText_single]
      have text := well.text _ List.mem_cons_self
      simp [next,absent_iff.mpr text]
    · rintro other same - inside
      cases same
      exact absurd inside plain
    · rw [resolve_single env 0 single,well.known]
      rfl
  · have bracketed : Bracketed [([],path)] (inner ++ closes) path inner := ⟨rfl,rfl,plain⟩
    constructor
    · intro clear
      exact ⟨0,by rw [resolve_bracketed env 0 single,clear.bracketed path inner bracketed]⟩
    · rintro ⟨fuel,done⟩
      rw [resolve_bracketed env fuel single] at done
      refine ⟨fun other rest also => ?_,fun other => absurd ⟨path,inner,bracketed⟩ other⟩
      cases also.pieces
      cases List.append_cancel_right also.last
      exact Option.some.inj done

/-- A string whose references the loop replaces. -/
theorem seamless_parsed {env : Env} {pieces : Pieces} {last : List Char} (well : WellFormed env pieces last) (embedded : ¬ lone (source pieces last))
    (seamless : Seamless env pieces last) : Parsed env pieces last := by
  rw [Parsed,loops_iff embedded]
  refine ⟨expectedText env pieces last,?_,?_⟩
  · exact (loops_pieces well [] seamless.before).mpr (loops_plain seamless.after)
  · rcases expected_eq env pieces last with text | ⟨path,rfl,rfl⟩
    · exact text
    · have inside : opens <:+: path := by
        by_contra plain
        exact embedded ((lone_iff well).mpr ⟨path,rfl,plain,.inl rfl⟩)
      obtain ⟨s,value⟩ := seamless.single path rfl rfl inside
      rw [expected_single,expectedText_single]
      exact textOf_string value

theorem parsed_seamless {env : Env} {pieces : Pieces} {last : List Char} (well : WellFormed env pieces last) (embedded : ¬ lone (source pieces last))
    (named : ∀ p, opens <:+: p → env.table p = none) (parsed : Parsed env pieces last) : Seamless env pieces last := by
  obtain ⟨text,loops,value⟩ := (loops_iff embedded).mp parsed
  have same : text = expectedText env pieces last := by
    rcases expected_eq env pieces last with other | ⟨path,rfl,rfl⟩
    · have equal := Value.string.inj (value.symm.trans other)
      simpa using congrArg String.toList equal
    · rw [expectedText_single,textOf,← expected_single,value]
      simp [replacement]
  subst same
  refine ⟨?_,loops.final,?_⟩
  · rcases before_of_loops named well [] loops with rfl | plain
    · exact opens_nil
    · exact plain
  · rintro path rfl rfl -
    exact ⟨_,value⟩

/-- A string of literals and references becomes what it should where it does not pass for one reference and no
literal and text together begin another; and only there, where no path that begins a reference is found. -/
theorem references_parsed (env : Env) (pieces : Pieces) (last : List Char) (well : WellFormed env pieces last) :
    (Clear env pieces last → Parsed env pieces last) ∧
      ((∀ p, opens <:+: p → env.table p = none) → Parsed env pieces last → Clear env pieces last) := by
  by_cases single : lone (source pieces last)
  · exact ⟨(lone_parsed well single).mp,fun _ => (lone_parsed well single).mpr⟩
  · have unbracketed : ¬ ∃ path inner, Bracketed pieces last path inner := fun ⟨_,_,bracketed⟩ => single (bracketed_lone well bracketed)
    exact ⟨fun clear => seamless_parsed well single (clear.other unbracketed),
      fun named parsed => ⟨fun path inner bracketed => absurd ⟨path,inner,bracketed⟩ unbracketed,fun _ => parsed_seamless well single named parsed⟩⟩

/-! ### Two strings -/

/-- Two outputs: a text and the number 5. -/
def poolEnv : Env := ⟨.new,((∅ : Snapshot).insert "id" (.string "pool-abc")).insert "count" (.number (.int 5)),fun _ => "5"⟩

theorem pool_id : lookup_reference poolEnv "id".toList = .ok (.string "pool-abc") := rfl

theorem pool_count : lookup_reference poolEnv "count".toList = .ok (.number (.int 5)) := rfl

/-- The string "Pool is ${id} with count ${count}". -/
theorem pool_parsed : Parsed poolEnv [("Pool is ".toList,"id".toList),(" with count ".toList,"count".toList)] [] := by
  have well : WellFormed poolEnv [("Pool is ".toList,"id".toList),(" with count ".toList,"count".toList)] [] :=
    { literal := by decide, path := by decide, found := ?_, text := ?_, last := opens_nil }
  · refine (references_parsed _ _ _ well).1 ⟨fun path inner bracketed => absurd bracketed.pieces nofun,fun _ => ⟨?_,?_,nofun⟩⟩
    · decide
    · decide
  · simp only [List.forall_mem_cons]
    exact ⟨⟨_,pool_id⟩,⟨_,pool_count⟩,by simp⟩
  · decide

/-- The string "${count} {x}" passes for one reference. -/
theorem brace_misread : ¬ ∀ (env : Env) (pieces : Pieces) (last : List Char), WellFormed env pieces last → Parsed env pieces last := by
  intro claim
  have well : WellFormed poolEnv [([],"count".toList)] " {x}".toList :=
    { literal := by decide, path := by decide, found := ?_, text := by decide, last := by decide }
  · obtain ⟨fuel,done⟩ := claim _ _ _ well
    have missing : resolve_string_references poolEnv fuel
      (source [([],"count".toList)] " {x}".toList) = some (.error (.NotFound "output reference" "count\x7d \x7bx")) := rfl
    cases missing.symm.trans done
  · simp only [List.forall_mem_cons]
    exact ⟨⟨_,pool_count⟩,by simp⟩

end Daf.ReferenceSyntax
