import Daf.AgentInventory

/-!
Patterns of agent names. The matching of playbooks is exact; a selection from the inventory agrees with it
on the patterns with stars at their ends only.
-/
namespace Daf.AgentPatterns
open Daf.Search Daf.DottedPaths Daf.Wildcards Daf.AgentInventory

/-! ### Matching in playbooks -/

theorem strip_start_iff {first remaining rest : List Char} : strip_start first remaining = some rest ↔ remaining = first ++ rest := by
  rw [strip_start]
  by_cases empty : first = []
  · simp [empty]
  · rw [if_neg empty]
    by_cases front : first <+: remaining
    · rw [if_pos front,Option.some.injEq,← List.prefix_iff_eq_append.mp front,List.drop_left,List.append_cancel_left_eq,eq_comm]
    · rw [if_neg front]
      exact ⟨nofun,fun split => absurd ⟨rest,split.symm⟩ front⟩

theorem strip_end_iff {last remaining rest : List Char} : strip_end last remaining = some rest ↔ remaining = rest ++ last := by
  rw [strip_end]
  by_cases empty : last = []
  · simp [empty]
  · rw [if_neg empty]
    by_cases back : last <:+ remaining
    · have split := List.suffix_iff_eq_append.mp back
      rw [if_pos back,Option.some.injEq]
      constructor
      · rintro rfl
        exact split.symm
      · rintro rfl
        simp
    · rw [if_neg back]
      exact ⟨nofun,fun split => absurd ⟨rest,split.symm⟩ back⟩

theorem find_each_iff (parts : List (List Char)) (text : List Char) : find_each parts text ↔ Scattered parts text := by
  induction parts generalizing text with
  | nil => simp [find_each,Scattered]
  | cons part parts ih =>
    rw [find_each]
    by_cases empty : part = []
    · rw [if_pos empty,ih,empty]
      constructor
      · exact fun scattered => ⟨[],text,rfl,scattered⟩
      · rintro ⟨filler,rest,rfl,scattered⟩
        exact scattered_more (filler ++ []) scattered
    · rw [if_neg empty]
      cases found : text.dropInfix? part with
      | none =>
        refine ⟨nofun,?_⟩
        rintro ⟨filler,rest,rfl,-⟩
        exact absurd ⟨filler,rest,rfl⟩ (absent_iff.mp found)
      | some split =>
        simp only
        rw [ih,scattered_first found]

/-- A name matches a pattern when it is the pattern with each star replaced by some text. -/
theorem glob_match_iff (pattern text : List Char) : glob_match pattern text ↔ Expands '*' pattern text := by
  rw [glob_match]
  by_cases star : pattern = ['*']
  · rw [if_pos star,star,expands_star]
    exact ⟨fun _ => ⟨text,[],by simp,.nil⟩,fun _ => rfl⟩
  · rw [if_neg star,expands_joined]
    obtain ⟨first,parts,split⟩ := List.exists_cons_of_ne_nil (List.splitOn_ne_nil '*' pattern)
    rcases List.eq_nil_or_concat parts with rfl | ⟨middle,last,rfl⟩
    · have whole : first = pattern := by
        have joined : ['*'].intercalate (pattern.splitOn '*') = pattern := List.intercalate_splitOn '*'
        simpa [split] using joined
      have alone : Wildcards.Joined (pattern.splitOn '*') text ↔ pattern = text := by
        rw [split,whole]
        exact ⟨Eq.symm,Eq.symm⟩
      rw [alone]
      simp [split,whole]
    · rw [List.concat_eq_append] at split
      have several : ¬ (first :: (middle ++ [last])).length = 1 := by simp
      have ends : (first :: (middle ++ [last])).getLastD [] = last := List.getLastD_concat (l := first :: middle) ..
      simp only [split,if_neg several,ends,List.headD_cons,List.tail_cons,List.dropLast_concat]
      rw [joined_ends]
      cases stripped : (strip_start first text).bind (strip_end last) with
      | some inner =>
        obtain ⟨rest,front,back⟩ := Option.bind_eq_some_iff.mp stripped
        obtain rfl := strip_start_iff.mp front
        obtain rfl := strip_end_iff.mp back
        rw [find_each_iff]
        constructor
        · exact fun scattered => ⟨inner,by simp,scattered⟩
        · rintro ⟨other,same,scattered⟩
          simp only [← List.append_assoc,List.append_cancel_right_eq,List.append_cancel_left_eq] at same
          exact same ▸ scattered
      | none =>
        refine ⟨nofun,?_⟩
        rintro ⟨inner,rfl,-⟩
        have front : strip_start first (first ++ inner ++ last) = some (inner ++ last) := strip_start_iff.mpr (List.append_assoc ..)
        rw [front,Option.bind_some,strip_end_iff.mpr rfl] at stripped
        exact nomatch stripped

/-! ### Patterns of a selection -/

/-- Patterns with a star that are not read as something else. -/
structure Glob (pattern : List Char) : Prop where
  star : '*' ∈ pattern
  one : ',' ∉ pattern
  trimmed : trim pattern = pattern
  no_group : pattern.dropPrefix? "group:".toList = none
  no_kind : pattern.dropPrefix? "kind:".toList = none
  no_tag : pattern.dropPrefix? "tag:".toList = none

/-- The stars stand at the ends. -/
def Outer (pattern : List Char) : Prop := ∃ before inner after, pattern = List.replicate before '*' ++ inner ++ List.replicate after '*' ∧ '*' ∉ inner

section
variable {pattern inner : List Char}

theorem select_glob (i : Inventory) (glob : Glob pattern) (proper : pattern ≠ ['*']) :
    i.select pattern = (values i.agents).filter fun a => Inventory.accepts pattern (pattern.filter (· ≠ '*')) a.name.toList := by
  have not_all : pattern ≠ "all".toList := by
    rintro rfl
    exact absurd glob.star (by decide)
  rw [Inventory.select]
  simp only [glob.trimmed,glob.no_group,glob.no_kind,glob.no_tag,not_all,proper,or_self,if_false,if_neg glob.one,if_pos glob.star]

/-- Where the stars at the ends are, for a pattern that is more than stars. -/
theorem star_ends (starless : '*' ∉ inner) (empty : inner ≠ []) (before after : Nat) :
    ((List.replicate before '*' ++ inner ++ List.replicate after '*').head? = some '*' ↔ before ≠ 0) ∧
    ((List.replicate before '*' ++ inner ++ List.replicate after '*').getLast? = some '*' ↔ after ≠ 0) := by
  have head : inner.head? ≠ some '*' := fun here => starless (List.mem_of_mem_head? here)
  have last : inner.getLast? ≠ some '*' := fun here => starless (List.mem_of_getLast? here)
  constructor
  · cases before <;> simp [List.replicate_succ,List.head?_append_of_ne_nil _ empty,head]
  · cases after <;> simp [List.getLast?_append_of_ne_nil _ empty,List.getLast?_replicate,last]

theorem stars_accept (n : Nat) (name : List Char) : Inventory.accepts (List.replicate (n+1) '*') [] name := by
  have starry : (List.replicate (n+1) '*').head? = some '*' ∧ (List.replicate (n+1) '*').getLast? = some '*' :=
    ⟨rfl,by simp [List.getLast?_replicate]⟩
  rw [Inventory.accepts,if_pos starry]
  simp

/-- With stars at the ends only, a selection matches exactly. -/
theorem outer_accepts (outer : Outer pattern) (star : '*' ∈ pattern) (name : List Char) :
    Inventory.accepts pattern (pattern.filter (· ≠ '*')) name ↔ Expands '*' pattern name := by
  obtain ⟨before,inner,after,rfl,starless⟩ := outer
  have stripped : (List.replicate before '*' ++ inner ++ List.replicate after '*').filter (· ≠ '*') = inner := by
    have other : ∀ c ∈ inner, ¬ c = '*' := fun c member same => starless (same ▸ member)
    simpa [List.filter_append] using other
  rw [stripped]
  by_cases empty : inner = []
  · subst empty
    obtain ⟨n,many⟩ : ∃ n, before+after = n+1 := Nat.exists_eq_succ_of_ne_zero (by rintro none_there; simp [Nat.add_eq_zero_iff.mp none_there] at star)
    rw [List.append_nil,List.replicate_append_replicate,many]
    exact iff_of_true (stars_accept n name) (expands_ends n name)
  · obtain ⟨headed,ended⟩ := star_ends starless empty before after
    simp only [Inventory.accepts,headed,ended]
    rcases before with _ | before <;> rcases after with _ | after
    · exact absurd (by simpa using star) starless
    · rw [List.replicate_zero,List.nil_append,expands_front starless]
      simp
    · rw [List.replicate_zero,List.append_nil,expands_back starless]
      simp
    · rw [List.append_assoc,expands_within starless]
      simp

/-! ### Patterns with a star in the middle -/

theorem leading (text : List Char) : ∃ before rest, text = List.replicate before '*' ++ rest ∧ rest.head? ≠ some '*' := by
  induction text with
  | nil => exact ⟨0,[],rfl,nofun⟩
  | cons c text ih =>
    by_cases star : c = '*'
    · obtain ⟨before,rest,rfl,other⟩ := ih
      exact ⟨before+1,rest,by rw [star]; rfl,other⟩
    · exact ⟨0,c :: text,rfl,by simpa using star⟩

/-- A star between other characters has a text before it and more characters behind it. -/
theorem inner_star (inside : ¬ Outer pattern) :
    ∃ before x y, pattern = List.replicate before '*' ++ (x ++ '*' :: y) ∧ '*' ∉ x ∧ x ≠ [] ∧ y.filter (· ≠ '*') ≠ [] := by
  obtain ⟨before,rest,rfl,other⟩ := leading pattern
  by_cases star : '*' ∈ rest
  · obtain ⟨x,y,rfl,starless⟩ := List.eq_append_cons_of_mem star
    refine ⟨before,x,y,rfl,starless,fun empty => other (by simp [empty]),fun only_stars => inside ?_⟩
    have stars : y = List.replicate y.length '*' := by
      refine List.eq_replicate_of_mem fun c member => ?_
      simpa using List.filter_eq_nil_iff.mp only_stars c member
    refine ⟨before,x,y.length+1,?_,starless⟩
    rw [List.replicate_succ,← stars,List.append_assoc]
  · exact absurd ⟨before,rest,0,by simp,star⟩ inside

/-- A text moved by one place is all of one character. -/
theorem moved_same {c d : Char} {x : List Char} (same : d :: x = x ++ [c]) : d = c := by
  induction x generalizing d with
  | nil => simpa using same
  | cons a x ih =>
    obtain ⟨rfl,rest⟩ := List.cons.inj same
    exact ih rest

/-- One more character between two texts, other than their first ones, and the two texts do not occur together. -/
theorem parted {x y : List Char} {c : Char} (nonempty : x ≠ []) (first : x.head? ≠ some c) (second : y.head? ≠ some c) (nonempty' : y ≠ []) :
    ¬ x ++ y <:+: x ++ c :: y := by
  rintro ⟨front,back,split⟩
  have sizes := congrArg List.length split
  simp only [List.length_append,List.length_cons] at sizes
  rcases front with _ | ⟨d,front⟩
  · obtain ⟨e,y,rfl⟩ := List.exists_cons_of_ne_nil nonempty'
    rw [List.nil_append,List.append_assoc,List.append_cancel_left_eq] at split
    exact second (congrArg some (List.cons.inj split).1)
  · obtain rfl : front = [] := List.eq_nil_of_length_eq_zero (by simp at sizes; omega)
    obtain rfl : back = [] := List.eq_nil_of_length_eq_zero (by simp at sizes; omega)
    have moved : (d :: x) ++ y = (x ++ [c]) ++ y := by simpa using split
    have same := List.append_cancel_right moved
    obtain ⟨a,x,rfl⟩ := List.exists_cons_of_ne_nil nonempty
    exact first (congrArg some ((List.cons.inj same).1.symm.trans (moved_same same)))

theorem other_char (a b : Option Char) : ∃ c, a ≠ some c ∧ b ≠ some c := by
  have three : ∀ a : Option Char, a ≠ some '0' ∧ a ≠ some '1' ∨ a ≠ some '0' ∧ a ≠ some '2' ∨ a ≠ some '1' ∧ a ≠ some '2' := by
    intro a
    by_cases zero : a = some '0'
    · exact .inr (.inr ⟨by simp [zero],by simp [zero]⟩)
    · by_cases one : a = some '1'
      · exact .inr (.inl ⟨zero,by simp [one]⟩)
      · exact .inl ⟨zero,one⟩
  rcases three a with ⟨p,q⟩ | ⟨p,q⟩ | ⟨p,q⟩ <;> rcases three b with ⟨r,s⟩ | ⟨r,s⟩ | ⟨r,s⟩
  all_goals first | exact ⟨_,p,r⟩ | exact ⟨_,p,s⟩ | exact ⟨_,q,r⟩ | exact ⟨_,q,s⟩

/-- A pattern with a star in the middle matches a text in which it does not occur without its stars. -/
theorem inner_differs (inside : ¬ Outer pattern) : ∃ text, Expands '*' pattern text ∧ ¬ pattern.filter (· ≠ '*') <:+: text := by
  obtain ⟨before,x,y,rfl,starless,nonempty,more⟩ := inner_star inside
  obtain ⟨c,first,second⟩ := other_char x.head? (y.filter (· ≠ '*')).head?
  have other : ∀ c ∈ x, ¬ c = '*' := fun c member same => starless (same ▸ member)
  have stripped : (List.replicate before '*' ++ (x ++ '*' :: y)).filter (· ≠ '*') = x ++ y.filter (· ≠ '*') := by
    simpa [List.filter_append] using other
  refine ⟨x ++ c :: y.filter (· ≠ '*'),?_,stripped ▸ parted nonempty first second more⟩
  have tail : Expands '*' (x ++ '*' :: y) (x ++ c :: y.filter (· ≠ '*')) :=
    (expands_append starless).mpr ⟨_,rfl,.wild [c] (expands_stripped y)⟩
  cases before with
  | zero => exact tail
  | succ before => exact (expands_stars before).mpr ⟨[],_,rfl,tail⟩

/-- Wherever the stars stand, a selection finds the pattern without them. -/
theorem accepts_inside {pat name : List Char} (accepted : Inventory.accepts pattern pat name) : pat <:+: name := by
  rw [Inventory.accepts] at accepted
  split_ifs at accepted
  · exact of_decide_eq_true accepted
  · exact (of_decide_eq_true accepted : pat <:+ name).isInfix
  · exact (of_decide_eq_true accepted : pat <+: name).isInfix
  · exact of_decide_eq_true accepted

end

def sole (name : List Char) : Inventory := Inventory.new.add_agent (.new "a" (String.ofList name) .Worker)

theorem sole_agents (name : List Char) : values (sole name).agents = [.new "a" (String.ofList name) .Worker] := rfl

/-- The matching of playbooks is exact, and selections agree with it for all inventories on the patterns with no star between other characters. -/
theorem glob_and_select (pattern : List Char) : (∀ text, glob_match pattern text ↔ Expands '*' pattern text) ∧
    (∀ name groups, AgentSelector.matches name groups (.Pattern (String.ofList pattern)) ↔ Expands '*' pattern name.toList) ∧
    (Glob pattern →
      ((∀ i : Inventory, i.select pattern = (values i.agents).filter fun a => glob_match pattern a.name.toList) ↔ Outer pattern)) := by
  refine ⟨glob_match_iff pattern,fun name groups => ?_,fun glob => ⟨fun agree => ?_,fun outer i => ?_⟩⟩
  · rw [AgentSelector.matches,glob_match_iff,String.toList_ofList]
  · by_contra inside
    have proper : pattern ≠ ['*'] := fun same => inside ⟨1,[],0,same,List.not_mem_nil⟩
    obtain ⟨text,expands,apart⟩ := inner_differs inside
    have selected := agree (sole text)
    rw [select_glob _ glob proper,sole_agents] at selected
    have matched : AgentEntry.new "a" (String.ofList text) .Worker ∈
        [AgentEntry.new "a" (String.ofList text) .Worker].filter fun a => glob_match pattern a.name.toList :=
      List.mem_filter.mpr ⟨List.mem_cons_self,by simpa [AgentEntry.new] using (glob_match_iff pattern text).mpr expands⟩
    rw [← selected] at matched
    have accepted : Inventory.accepts pattern (pattern.filter (· ≠ '*')) text := by
      simpa only [AgentEntry.new,String.toList_ofList] using (List.mem_filter.mp matched).2
    exact apart (accepts_inside accepted)
  · by_cases proper : pattern = ['*']
    · subst proper
      have everyone : (fun a : AgentEntry => glob_match ['*'] a.name.toList) = fun _ => true := rfl
      rw [everyone,List.filter_true]
      rfl
    · rw [select_glob i glob proper]
      refine List.filter_congr fun a _ => ?_
      rw [Bool.eq_iff_iff,outer_accepts outer glob.star,glob_match_iff]

theorem glob_leading : Glob ['a','*'] := ⟨by decide,by decide,by decide,by decide,by decide,by decide⟩

theorem glob_and_select_leading : (sole ['a','b']).select ['a','*'] = (values (sole ['a','b']).agents).filter fun a => glob_match ['a','*'] a.name.toList :=
  ((glob_and_select _).2.2 glob_leading).mpr ⟨0,['a'],1,rfl,by decide⟩ _

/-- The name axb matches a*b in a playbook, and is not selected. -/
theorem star_inside_differs : ¬ ((∀ pattern text, glob_match pattern text ↔ Expands '*' pattern text) ∧
    ∀ pattern, Glob pattern → ∀ i : Inventory, i.select pattern = (values i.agents).filter fun a => glob_match pattern a.name.toList) := by
  intro claim
  have glob : Glob ['a','*','b'] := ⟨by decide,by decide,by decide,by decide,by decide,by decide⟩
  have selected := congrArg List.length (claim.2 _ glob (sole ['a','x','b']))
  rw [select_glob _ glob (by decide),sole_agents] at selected
  exact absurd selected (by decide)

end Daf.AgentPatterns
