import Mathlib.Data.List.Basic
import Mathlib.Data.List.Perm.Basic

/-!
Greedy absorption. A list is visited in order, and what is still there when it is visited takes in the later elements that it
covers. The elements that are left are those that one scan keeps: an element stays unless one that stayed before covers it.
-/
namespace Daf.Absorption

section
variable {α : Type} (takes : α → α → Bool)

/-- What an element leaves of those behind it. -/
def uncovered (first : α) (rest : List α) : List α := rest.filter fun other => !takes first other

theorem uncovered_shorter (first : α) (rest : List α) : (uncovered takes first rest).length < (first :: rest).length :=
  Nat.lt_succ_of_le (List.length_filter_le _ rest)

/-- What is taken in, each with the element that takes it in, as the visits find them. -/
def absorptions : List α → List (α × α)
  | [] => []
  | first :: rest => (rest.filter (takes first)).map (first,·) ++ absorptions (uncovered takes first rest)
termination_by elements => elements.length
decreasing_by exact uncovered_shorter takes first rest

/-- The elements that nothing takes in. -/
def keepers : List α → List α
  | [] => []
  | first :: rest => first :: keepers (uncovered takes first rest)
termination_by elements => elements.length
decreasing_by exact uncovered_shorter takes first rest

/-- One scan, behind the elements that have stayed so far. -/
def scan (kept : List α) : List α → List α
  | [] => kept
  | next :: rest => scan (if kept.any (takes · next) then kept else kept ++ [next]) rest

variable {takes}

theorem scan_eq (kept elements : List α) : scan takes kept elements = kept ++ keepers takes (elements.filter fun next => !kept.any (takes · next)) := by
  induction elements generalizing kept with
  | nil => simp [scan,keepers]
  | cons next rest ih =>
    rw [scan,ih]
    cases covered : kept.any (takes · next) with
    | true => simp [covered]
    | false =>
      rw [if_neg Bool.false_ne_true,List.filter_cons_of_pos (by simp [covered]),keepers,uncovered,List.filter_filter,List.append_assoc,List.singleton_append]
      congr 4
      funext other
      rw [List.any_append,List.any_cons,List.any_nil,Bool.or_false,Bool.not_or,Bool.and_comm]

/-- The visits keep what the scan keeps. -/
theorem scan_keepers (elements : List α) : scan takes [] elements = keepers takes elements := by
  rw [scan_eq,List.nil_append]
  simp

/-- Every element is taken in once or kept. -/
theorem absorptions_perm (elements : List α) : ((absorptions takes elements).map Prod.snd ++ keepers takes elements).Perm elements := by
  induction elements using absorptions.induct takes with
  | case1 => simp [absorptions,keepers]
  | case2 first rest ih =>
    rw [absorptions,keepers,List.map_append,List.map_map,List.append_assoc]
    have same : (Prod.snd ∘ fun other => (first,other)) = (id : α → α) := rfl
    rw [same,List.map_id]
    refine (List.Perm.append_left _ List.perm_middle).trans (List.perm_middle.trans (List.Perm.cons first ?_))
    exact (List.Perm.append_left _ ih).trans (List.filter_append_perm (takes first) rest)

/-- What takes in another element is kept itself. -/
theorem keeper_of_absorption {elements : List α} {i j : α} (absorbed : (i,j) ∈ absorptions takes elements) :
    i ∈ keepers takes elements ∧ takes i j = true := by
  induction elements using absorptions.induct takes with
  | case1 => simp [absorptions] at absorbed
  | case2 first rest ih =>
    rw [absorptions,List.mem_append] at absorbed
    rw [keepers]
    rcases absorbed with now | later
    · obtain ⟨other,member,same⟩ := List.mem_map.mp now
      cases same
      exact ⟨List.mem_cons_self,(List.mem_filter.mp member).2⟩
    · obtain ⟨kept,covers⟩ := ih later
      exact ⟨List.mem_cons_of_mem _ kept,covers⟩

theorem mem_of_absorption {elements : List α} {i j : α} (absorbed : (i,j) ∈ absorptions takes elements) : i ∈ elements ∧ j ∈ elements :=
  ⟨(absorptions_perm elements).subset (List.mem_append_right _ (keeper_of_absorption absorbed).1),
    (absorptions_perm elements).subset (List.mem_append_left _ (List.mem_map_of_mem (f := Prod.snd) absorbed))⟩

/-- Of distinct elements those are kept that are not taken in. -/
theorem mem_keepers {elements : List α} (distinct : elements.Nodup) {j : α} (member : j ∈ elements) :
    j ∈ keepers takes elements ↔ j ∉ (absorptions takes elements).map Prod.snd := by
  have whole : ((absorptions takes elements).map Prod.snd ++ keepers takes elements).Perm elements := absorptions_perm elements
  have apart := (List.nodup_append.mp (whole.nodup_iff.mpr distinct)).2.2
  constructor
  · intro kept absorbed
    exact apart j absorbed j kept rfl
  · intro free
    exact (List.mem_append.mp (whole.mem_iff.mpr member)).resolve_left free

end
end Daf.Absorption
