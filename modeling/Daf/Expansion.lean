import Mathlib.Data.Set.Finite.Lattice
import Mathlib.Logic.Relation
import Mathlib.Order.Preorder.Finite
import Mathlib.Order.WellFounded
import Daf.Search

/-!
Texts with references in braces, each replaced by its text from a table, the first one first and again
until there is none that the table knows: when this ends.
-/
namespace Daf.Expansion
open Daf.Search

/-- What begins a reference. -/
def opens : List Char := ['$','{']

/-- What ends a reference. -/
def closes : List Char := ['}']

/-- The first reference of a text, between what comes before it and after it. -/
def next (text : List Char) : Option (List Char × List Char × List Char) :=
  match text.dropInfix? opens with
  | none => none
  | some (before,rest) =>
    match rest.dropInfix? closes with
    | none => none
    | some (path,after) => some (before,path,after)

def step (table : List Char → Option (List Char)) (text : List Char) : Option (List Char) :=
  match next text with
  | none => none
  | some (before,path,after) => (table path).map fun value => before ++ value ++ after

/-- The replacements come to an end. -/
inductive Ends (table : List Char → Option (List Char)) : List Char → Prop where
  | halts {text : List Char} (halts : step table text = none) : Ends table text
  | goes {text later : List Char} (goes : step table text = some later) (ends : Ends table later) : Ends table text

def Comes (table : List Char → Option (List Char)) : List Char → List Char → Prop := Relation.ReflTransGen fun a b => step table a = some b

/-- The text comes to a reference that is the first one there. -/
def Meets (table : List Char → Option (List Char)) (text before path after : List Char) : Prop :=
  ∃ now, Comes table text now ∧ next now = some (before,path,after)

/-- The one reference, with what comes before it, is met in the text that replaces the other. -/
def Inside (table : List Char → Option (List Char)) (inner outer : List Char × List Char) : Prop :=
  ∃ value, table outer.2 = some value ∧ ∃ after, Meets table (outer.1 ++ value) inner.1 inner.2 after

/-- The reference comes back out of the text that replaces it, with nothing after that text. -/
def Returns (table : List Char → Option (List Char)) (before path : List Char) : Prop :=
  ∃ value, table path = some value ∧ ∃ y after, Meets table (before ++ value) y path after

/-! ### Where references begin -/

theorem opens_append {x a : List Char} : opens <:+: x ++ a ↔ opens <:+: x ∨ opens <:+: a ∨ x.getLast? = some '$' ∧ a.head? = some '{' := pair_append

theorem opens_dollar {x : List Char} : opens <:+: x ++ ['$'] ↔ opens <:+: x := by
  rw [opens_append]
  have none_in : ¬ opens <:+: ['$'] := by decide
  simp [none_in]

theorem closes_iff {text : List Char} : closes <:+: text ↔ '}' ∈ text := List.singleton_infix_iff ..

theorem next_iff {text x p r : List Char} :
    next text = some (x,p,r) ↔ text = x ++ opens ++ p ++ closes ++ r ∧ ¬ opens <:+: x ∧ '}' ∉ p := by
  have opened {x rest : List Char} : text.dropInfix? opens = some (x,rest) ↔ text = x ++ opens ++ rest ∧ ¬ opens <:+: x := by
    rw [first_iff (by decide)]
    exact and_congr_right fun _ => not_congr opens_dollar
  have closed {rest p r : List Char} : rest.dropInfix? closes = some (p,r) ↔ rest = p ++ closes ++ r ∧ '}' ∉ p := by
    rw [first_iff (by decide)]
    exact and_congr_right fun _ => not_congr (by rw [closes_iff]; simp [closes])
  unfold next
  constructor
  · intro found
    split at found
    case h_1 => cases found
    case h_2 before rest first =>
      split at found
      case h_1 => cases found
      case h_2 path after second =>
        obtain ⟨rfl,rfl,rfl⟩ := found
        obtain ⟨split,plain⟩ := opened.mp first
        obtain ⟨rfl,unclosed⟩ := closed.mp second
        exact ⟨by rw [split]; simp,plain,unclosed⟩
  · rintro ⟨split,plain,unclosed⟩
    have first : text.dropInfix? opens = some (x,p ++ closes ++ r) := opened.mpr ⟨by rw [split]; simp,plain⟩
    have second : (p ++ closes ++ r).dropInfix? closes = some (p,r) := closed.mpr ⟨rfl,unclosed⟩
    simp only [first,second]

section
variable {table : List Char → Option (List Char)} {text x p r value : List Char}

theorem step_next (first : next text = some (x,p,r)) : step table text = (table p).map fun value => x ++ value ++ r := by
  simp only [step,first]

theorem step_iff {later : List Char} : step table text = some later ↔ ∃ x p r value, next text = some (x,p,r) ∧ table p = some value ∧ later = x ++ value ++ r := by
  constructor
  · intro goes
    cases first : next text with
    | none => simp [step,first] at goes
    | some parts =>
      rw [step_next first,Option.map_eq_some_iff] at goes
      obtain ⟨value,known,same⟩ := goes
      exact ⟨parts.1,parts.2.1,parts.2.2,value,rfl,known,same.symm⟩
  · rintro ⟨x,p,r,value,first,known,rfl⟩
    rw [step_next first,known]
    rfl

/-- What comes after the first reference may be left out. -/
theorem next_left {w after : List Char} (first : next (w ++ after) = some (x,p,r ++ after)) : next w = some (x,p,r) := by
  obtain ⟨split,plain,unclosed⟩ := Iff.mp next_iff first
  rw [← List.append_assoc] at split
  exact Iff.mpr next_iff ⟨List.append_cancel_right split,plain,unclosed⟩

theorem next_right (first : next text = some (x,p,r)) (after : List Char) : next (text ++ after) = some (x,p,r ++ after) := by
  obtain ⟨split,plain,unclosed⟩ := Iff.mp next_iff first
  exact Iff.mpr next_iff ⟨by rw [split]; simp,plain,unclosed⟩

theorem step_right {later : List Char} (goes : step table text = some later) (after : List Char) : step table (text ++ after) = some (later ++ after) := by
  obtain ⟨x,p,r,value,first,known,rfl⟩ := Iff.mp step_iff goes
  exact Iff.mpr step_iff ⟨x,p,r ++ after,value,next_right first after,known,by simp⟩

theorem comes_right {later : List Char} (comes : Comes table text later) (after : List Char) : Comes table (text ++ after) (later ++ after) := by
  induction comes with
  | refl => exact .refl
  | tail _ goes ih => exact ih.tail (step_right goes after)

theorem Meets.right (meets : Meets table text x p r) (after : List Char) : Meets table (text ++ after) x p (r ++ after) := by
  obtain ⟨now,comes,first⟩ := meets
  exact ⟨now ++ after,comes_right comes after,next_right first after⟩

/-- A reference that the table does not know is met before a step or after it. -/
theorem meets_step {later : List Char} (goes : step table text = some later) (unknown : table p = none) : Meets table text x p r ↔ Meets table later x p r := by
  constructor
  · rintro ⟨now,comes,first⟩
    rcases Relation.ReflTransGen.cases_head comes with rfl | ⟨other,goes',rest⟩
    · rw [step_next first,unknown] at goes
      cases goes
    · exact ⟨now,Option.some.inj (goes'.symm.trans goes) ▸ rest,first⟩
  · rintro ⟨now,comes,first⟩
    exact ⟨now,.head goes comes,first⟩

theorem not_meets_plain (plain : next text = none) : ¬ Meets table text x p r := by
  rintro ⟨now,comes,first⟩
  rcases Relation.ReflTransGen.cases_head comes with rfl | ⟨other,goes,-⟩
  · cases plain.symm.trans first
  · simp [step,plain] at goes

/-! ### A text that goes on for ever -/

/-- The texts of replacements without end, and what each replaces. -/
structure Endless (table : List Char → Option (List Char)) (text : List Char) where
  at_ : Nat → List Char
  before : Nat → List Char
  path : Nat → List Char
  after : Nat → List Char
  value : Nat → List Char
  start : at_ 0 = text
  first : ∀ i, next (at_ i) = some (before i,path i,after i)
  known : ∀ i, table (path i) = some (value i)
  goes : ∀ i, at_ (i + 1) = before i ++ value i ++ after i

theorem endless_of_not_ends (endless : ¬ Ends table text) : Nonempty (Endless table text) := by
  have forever : ∀ now : {now // ¬ Ends table now}, ∃ later : {now // ¬ Ends table now}, step table now = some later := by
    rintro ⟨now,never⟩
    cases goes : step table now with
    | none => exact absurd (.halts goes) never
    | some later => exact ⟨⟨later,fun ends => never (.goes goes ends)⟩,rfl⟩
  choose later goes using forever
  have parts : ∀ i, ∃ x p r value, next (later^[i] ⟨text,endless⟩).1 = some (x,p,r) ∧ table p = some value ∧
      (later^[i + 1] ⟨text,endless⟩).1 = x ++ value ++ r := by
    intro i
    rw [Function.iterate_succ_apply']
    exact step_iff.mp (goes _)
  choose before path after value first known goes using parts
  exact ⟨⟨fun i => (later^[i] ⟨text,endless⟩).1,before,path,after,value,rfl,first,known,goes⟩⟩

theorem Endless.comes (run : Endless table text) (i k : Nat) : Comes table (run.at_ i) (run.at_ (i + k)) := by
  induction k with
  | zero => exact .refl
  | succ k ih => exact ih.tail (step_iff.mpr ⟨_,_,_,_,run.first _,run.known _,run.goes _⟩)

theorem Endless.met (run : Endless table text) (i : Nat) : Meets table text (run.before i) (run.path i) (run.after i) := by
  have comes := run.comes 0 i
  rw [run.start,Nat.zero_add] at comes
  exact ⟨run.at_ i,comes,run.first i⟩

/-- From a time on nothing reaches into what was left after the reference of that time. -/
def Endless.Lowest (run : Endless table text) (i : Nat) : Prop := ∀ j, i ≤ j → (run.after i).length ≤ (run.after j).length

theorem Endless.lowest (run : Endless table text) (n : Nat) : ∃ i, n ≤ i ∧ run.Lowest i := by
  obtain ⟨i,late,least⟩ := WellFounded.has_min (measure fun i => (run.after i).length).wf {i | n ≤ i} ⟨n,Nat.le_refl n⟩
  exact ⟨i,late,fun j later => Nat.le_of_not_lt (least j (Nat.le_trans late later))⟩

/-- After such a time the text that replaced the reference goes its own way. -/
theorem Endless.alone (run : Endless table text) {i : Nat} (lowest : run.Lowest i) (k : Nat) :
    ∃ w, run.at_ (i + 1 + k) = w ++ run.after i ∧ Comes table (run.before i ++ run.value i) w := by
  induction k with
  | zero => exact ⟨_,run.goes i,.refl⟩
  | succ k ih =>
    obtain ⟨w,split,comes⟩ := ih
    obtain ⟨whole,-,-⟩ := next_iff.mp (run.first (i + 1 + k))
    have tail : run.after i <:+ run.after (i + 1 + k) :=
      List.suffix_of_suffix_length_le ⟨w,split.symm⟩ ⟨_,whole.symm⟩ (lowest _ (by omega))
    obtain ⟨rest,same⟩ := tail
    have first := run.first (i + 1 + k)
    rw [split,← same] at first
    refine ⟨run.before (i + 1 + k) ++ run.value (i + 1 + k) ++ rest,?_,comes.tail (step_iff.mpr ⟨_,_,_,_,next_left first,run.known _,rfl⟩)⟩
    rw [← Nat.add_assoc,run.goes,← same]
    simp

theorem Endless.meets (run : Endless table text) {i j : Nat} (lowest : run.Lowest i) (later : i < j) :
    ∃ r, Meets table (run.before i ++ run.value i) (run.before j) (run.path j) r := by
  obtain ⟨k,rfl⟩ : ∃ k, j = i + 1 + k := ⟨j - (i + 1),by omega⟩
  obtain ⟨w,split,comes⟩ := run.alone lowest k
  obtain ⟨whole,-,-⟩ := next_iff.mp (run.first (i + 1 + k))
  obtain ⟨rest,same⟩ : run.after i <:+ run.after (i + 1 + k) :=
    List.suffix_of_suffix_length_le ⟨w,split.symm⟩ ⟨_,whole.symm⟩ (lowest _ (by omega))
  have first := run.first (i + 1 + k)
  rw [split,← same] at first
  exact ⟨rest,w,comes,next_left first⟩

theorem Endless.returns (run : Endless table text) {i j : Nat} (lowest : run.Lowest i) (later : i < j) (same : run.path i = run.path j) :
    Returns table (run.before i) (run.path i) := by
  obtain ⟨r,meets⟩ := run.meets lowest later
  exact ⟨run.value i,run.known i,run.before j,r,same ▸ meets⟩

theorem Ends.acc (ends : Ends table text) (meets : Meets table text x p r) : Acc (Inside table) (x,p) := by
  induction ends generalizing x p r with
  | halts halts =>
    obtain ⟨now,comes,first⟩ := meets
    refine ⟨_,fun inner ⟨value,known,_⟩ => ?_⟩
    rcases Relation.ReflTransGen.cases_head comes with rfl | ⟨other,goes,-⟩
    · rw [step_next first,known] at halts
      cases halts
    · cases halts.symm.trans goes
  | goes goes _ ih =>
    obtain ⟨now,comes,first⟩ := meets
    rcases Relation.ReflTransGen.cases_head comes with rfl | ⟨other,goes',rest⟩
    · refine ⟨_,fun inner ⟨value,known,after,inside⟩ => ?_⟩
      rw [step_next first,known] at goes
      cases goes
      exact ih (inside.right r)
    · exact ih ⟨now,Option.some.inj (goes'.symm.trans goes) ▸ rest,first⟩

/-- The replacements end exactly where no references are met each inside the one before it without end. -/
theorem ends_iff : Ends table text ↔ ∀ x p r, Meets table text x p r → Acc (Inside table) (x,p) := by
  refine ⟨fun ends x p r => ends.acc,fun nested => ?_⟩
  by_contra endless
  obtain ⟨run⟩ := endless_of_not_ends endless
  have deeper : ∀ reference, Acc (Inside table) reference → ∀ i, run.Lowest i → (run.before i,run.path i) ≠ reference := by
    intro reference acc
    induction acc with
    | intro reference _ ih =>
      rintro i low rfl
      obtain ⟨j,later,low'⟩ := run.lowest (i + 1)
      obtain ⟨after,inside⟩ := run.meets low later
      exact ih _ ⟨run.value i,run.known i,after,inside⟩ j low' rfl
  obtain ⟨i,-,low⟩ := run.lowest 0
  exact deeper _ (nested _ _ _ (run.met i)) i low rfl

/-- Where no reference comes back out of its own text, the replacements end. -/
theorem ends_of_no_return (keys : {p | table p ≠ none}.Finite) (never : ∀ x p r, Meets table text x p r → ¬ Returns table x p) : Ends table text := by
  by_contra endless
  obtain ⟨run⟩ := endless_of_not_ends endless
  have lows : {i | run.Lowest i}.Infinite := by
    refine Set.infinite_of_forall_exists_gt fun n => ?_
    obtain ⟨i,late,lowest⟩ := run.lowest (n + 1)
    exact ⟨i,lowest,late⟩
  have paths : Set.MapsTo run.path {i | run.Lowest i} {p | table p ≠ none} := fun i _ => by
    show table (run.path i) ≠ none
    rw [run.known]
    nofun
  obtain ⟨i,low,j,low',other,same⟩ := lows.exists_ne_map_eq_of_mapsTo paths keys
  rcases Nat.lt_or_gt_of_ne other with later | later
  · exact never _ _ _ (run.met i) (run.returns low later same)
  · exact never _ _ _ (run.met j) (run.returns low' later same.symm)

/-! ### A reference that comes back the same way -/

/-- How many dollar signs a text ends with. -/
def dollars (text : List Char) : Nat := (text.reverse.takeWhile (· = '$')).length

theorem dollars_snoc (x : List Char) (c : Char) : dollars (x ++ [c]) = if c = '$' then dollars x + 1 else 0 := by
  rw [dollars,List.reverse_append,List.reverse_singleton,List.singleton_append,List.takeWhile_cons]
  by_cases dollar : c = '$' <;> simp [dollar,dollars]

theorem dollars_pos {x : List Char} : 0 < dollars x ↔ x.getLast? = some '$' := by
  rcases List.eq_nil_or_concat x with rfl | ⟨x,c,rfl⟩
  · simp [dollars]
  · rw [List.concat_eq_append,dollars_snoc]
    by_cases dollar : c = '$' <;> simp [dollar]

theorem dollars_append {x x' : List Char} (same : dollars x = dollars x') (a : List Char) : dollars (x ++ a) = dollars (x' ++ a) := by
  induction a using List.reverseRecOn with
  | nil => simpa using same
  | append_singleton a c ih => rw [← List.append_assoc,← List.append_assoc,dollars_snoc,dollars_snoc,ih]

/-- Two beginnings of texts that differ in nothing that matters to what follows. -/
structure Alike (x x' : List Char) : Prop where
  left : ¬ opens <:+: x
  right : ¬ opens <:+: x'
  dollars : dollars x = dollars x'

theorem Alike.symm {x x' : List Char} (alike : Alike x x') : Alike x' x := ⟨alike.right,alike.left,alike.dollars.symm⟩

theorem Alike.trans {x y z : List Char} (alike : Alike x y) (further : Alike y z) : Alike x z := ⟨alike.left,further.right,alike.dollars.trans further.dollars⟩

theorem Alike.refl {x y : List Char} (alike : Alike y x) : Alike x x := ⟨alike.right,alike.right,rfl⟩

theorem Alike.append {x x' a : List Char} (alike : Alike x x') (plain : ¬ opens <:+: x ++ a) : Alike (x ++ a) (x' ++ a) where
  left := plain
  right := by
    rw [opens_append] at plain ⊢
    rintro (inside | inside | ⟨last,head⟩)
    · exact alike.right inside
    · exact plain (.inr (.inl inside))
    · refine plain (.inr (.inr ⟨?_,head⟩))
      rwa [← dollars_pos,alike.dollars,dollars_pos]
  dollars := dollars_append alike.dollars a

theorem Alike.dropLast {y x' : List Char} (alike : Alike (y ++ ['$']) x') : ∃ y', x' = y' ++ ['$'] ∧ Alike y y' := by
  have ends : x'.getLast? = some '$' := by
    rw [← dollars_pos,← alike.dollars,dollars_snoc]
    simp
  obtain ⟨y',rfl⟩ := List.getLast?_eq_some_iff.mp ends
  have same := alike.dollars
  rw [dollars_snoc,dollars_snoc] at same
  exact ⟨y',rfl,fun inside => alike.left (opens_dollar.mpr inside),fun inside => alike.right (opens_dollar.mpr inside),by simpa using same⟩

/-- The first reference does not depend on which of two alike beginnings a text has. -/
theorem Alike.next {x x' u y p r : List Char} (alike : Alike x x') (first : next (x ++ u) = some (y,p,r)) :
    ∃ y', Expansion.next (x' ++ u) = some (y',p,r) ∧ Alike y y' := by
  obtain ⟨split,plain,unclosed⟩ := next_iff.mp first
  have cut : x ++ u = y ++ '$' :: '{' :: (p ++ closes ++ r) := by rw [split]; simp [opens]
  rcases List.append_eq_append_iff.mp cut with ⟨a,rfl,rest⟩ | ⟨b,same,rest⟩
  · have longer := alike.append plain
    exact ⟨x' ++ a,next_iff.mpr ⟨by rw [rest]; simp [opens],longer.right,unclosed⟩,longer⟩
  · cases b with
    | nil =>
      rw [List.append_nil] at same
      rw [List.nil_append] at rest
      subst same
      exact ⟨x',next_iff.mpr ⟨by rw [← rest]; simp [opens],alike.right,unclosed⟩,alike⟩
    | cons c b =>
      obtain ⟨dollar,after⟩ := List.cons.inj rest
      cases b with
      | nil =>
        subst dollar
        replace after : '{' :: (p ++ closes ++ r) = u := after
        rw [same] at alike
        obtain ⟨y',rfl,shorter⟩ := alike.dropLast
        exact ⟨y',next_iff.mpr ⟨by rw [← after]; simp [opens],shorter.right,unclosed⟩,shorter⟩
      | cons d b =>
        obtain ⟨brace,-⟩ := List.cons.inj after
        refine absurd ?_ alike.left
        rw [same,← dollar,← brace]
        exact ⟨y,b,by simp [opens]⟩

theorem Alike.meets {x x' u y p r : List Char} (alike : Alike x x') (meets : Meets table (x ++ u) y p r) :
    ∃ y', Meets table (x' ++ u) y' p r ∧ Alike y y' := by
  obtain ⟨now,comes,first⟩ := meets
  generalize same : x ++ u = start at comes
  induction comes using Relation.ReflTransGen.head_induction_on generalizing x x' u with
  | refl =>
    subst same
    obtain ⟨y',first,alike⟩ := alike.next first
    exact ⟨y',⟨_,.refl,first⟩,alike⟩
  | head goes _ ih =>
    subst same
    obtain ⟨z,q,after,value,here,known,rfl⟩ := step_iff.mp goes
    obtain ⟨z',here',alike⟩ := alike.next here
    obtain ⟨y',⟨now',comes,first⟩,like⟩ := ih alike (List.append_assoc ..).symm
    rw [← List.append_assoc] at comes
    exact ⟨y',⟨now',.head (step_iff.mpr ⟨_,_,_,_,here',known,rfl⟩) comes,first⟩,like⟩

/-- A reference that comes back with as many dollar signs before it as it had comes back for ever. -/
theorem not_ends_of_return {y r' : List Char} (meets : Meets table text x p r) (known : table p = some value) (back : Meets table (x ++ value) y p r')
    (same : dollars y = dollars x) : ¬ Ends table text := by
  have plain {z q after other : List Char} (meets : Meets table other z q after) : ¬ opens <:+: z := by
    obtain ⟨_,_,first⟩ := meets
    exact (next_iff.mp first).2.1
  have alike : Alike y x := ⟨plain back,plain meets,same⟩
  have again : ∀ now, Ends table now → ∀ later, Comes table now later → ∀ z after, Expansion.next later = some (z,p,after) → ¬ Alike x z := by
    intro now ends
    induction ends with
    | halts halts =>
      intro later comes z after first _
      rcases Relation.ReflTransGen.cases_head comes with rfl | ⟨other,goes,-⟩
      · rw [step_next first,known] at halts
        cases halts
      · cases halts.symm.trans goes
    | goes goes _ ih =>
      intro later comes z after first like
      rcases Relation.ReflTransGen.cases_head comes with rfl | ⟨other,goes',rest⟩
      · rw [step_next first,known] at goes
        obtain ⟨y',meets',like'⟩ := like.meets back
        obtain ⟨later',comes',first'⟩ := meets'.right after
        exact ih later' (Option.some.inj goes ▸ comes') y' (r' ++ after) first' (alike.symm.trans like')
      · exact ih later (Option.some.inj (goes.symm.trans goes') ▸ rest) z after first like
  intro ends
  obtain ⟨now,comes,first⟩ := meets
  exact again text ends now comes x r first alike.refl

end
end Daf.Expansion
