import Mathlib.Data.Finset.Card
import Mathlib.Data.Finset.Union
import Mathlib.Logic.Relation

/-!
A walk through a graph that goes into each node once: a node that has been seen is left at once. It ends on
every graph with finitely many nodes that have edges, and what it has seen is what can be reached.
-/
namespace Daf.DepthFirst

section
variable {α : Type} (next : α → List α)

def Reach : α → α → Prop := Relation.ReflTransGen fun a b => b ∈ next a

/-- From some nodes on, all that can be reached without those seen before has been seen, and nothing else. -/
structure Explores (seen : Finset α) (roots : List α) (after : Finset α) : Prop where
  grows : seen ⊆ after
  visited : ∀ a ∈ roots, a ∈ after
  reached : ∀ b ∈ after, b ∈ seen ∨ ∃ a ∈ roots, Reach next a b
  closed : ∀ b ∈ after, b ∉ seen → ∀ c ∈ next b, c ∈ after

variable {next} {seen between after : Finset α} {roots : List α} {a : α}

theorem Explores.none (seen : Finset α) : Explores next seen [] seen :=
  ⟨Finset.Subset.refl _,nofun,fun _ member => .inl member,fun _ member fresh => absurd member fresh⟩

theorem Explores.old (member : a ∈ seen) : Explores next seen [a] seen :=
  ⟨Finset.Subset.refl _,by simpa using member,fun _ member => .inl member,fun _ member fresh => absurd member fresh⟩

theorem Explores.trans (first : Explores next seen [a] between) (later : Explores next between roots after) : Explores next seen (a :: roots) after := by
  refine ⟨first.grows.trans later.grows,List.forall_mem_cons.mpr ⟨later.grows (first.visited a List.mem_cons_self),later.visited⟩,?_,?_⟩
  · intro b member
    rcases later.reached b member with before | ⟨root,here,path⟩
    · rcases first.reached b before with old | ⟨root,here,path⟩
      · exact .inl old
      · exact .inr ⟨root,List.mem_cons.mpr (.inl (List.mem_singleton.mp here)),path⟩
    · exact .inr ⟨root,List.mem_cons_of_mem _ here,path⟩
  · intro b member fresh c edge
    by_cases before : b ∈ between
    · exact later.grows (first.closed b before fresh c edge)
    · exact later.closed b member before c edge

variable {σ : Type} [DecidableEq α] {enter : α → σ → σ} {keys : Finset α} {fuel : Nat}

/-- Go into a node and below it; what is found on the way is kept beside the nodes that have been seen. -/
def visit (next : α → List α) (enter : α → σ → σ) : Nat → α → σ × Finset α → σ × Finset α
  | 0,_,s => s
  | fuel+1,a,s => if a ∈ s.2 then s else (next a).foldl (fun s b => visit next enter fuel b s) (enter a s.1,insert a s.2)

/-- With all below it, a node that is entered has been explored. -/
theorem Explores.below (below : Explores next (insert a seen) (next a) after) : Explores next seen [a] after := by
  refine ⟨(Finset.subset_insert a seen).trans below.grows,?_,?_,?_⟩
  · simpa using below.grows (Finset.mem_insert_self a seen)
  · intro b member
    rcases below.reached b member with before | ⟨root,edge,path⟩
    · rcases Finset.mem_insert.mp before with rfl | old
      · exact .inr ⟨b,List.mem_cons_self,.refl⟩
      · exact .inl old
    · exact .inr ⟨a,List.mem_cons_self,.head edge path⟩
  · intro b member fresh c edge
    by_cases own : b = a
    · exact below.visited c (own ▸ edge)
    · exact below.closed b member (fun before => (Finset.mem_insert.mp before).elim own fresh) c edge

/-- Entering a node with edges leaves fewer of them unseen. -/
theorem unseen_lt (bounded : ∀ a, next a ≠ [] → a ∈ keys) (fresh : a ∉ seen) (edges : next a ≠ []) (enough : (keys \ seen).card < fuel+1) :
    (keys \ insert a seen).card < fuel := by
  have smaller : keys \ insert a seen ⊂ keys \ seen := by
    refine Finset.ssubset_iff_subset_ne.mpr ⟨Finset.sdiff_subset_sdiff Finset.Subset.rfl (Finset.subset_insert a seen),fun same => ?_⟩
    have here : a ∈ keys \ seen := Finset.mem_sdiff.mpr ⟨bounded a edges,fresh⟩
    rw [← same] at here
    exact (Finset.mem_sdiff.mp here).2 (Finset.mem_insert_self a seen)
  have fewer := Finset.card_lt_card smaller
  omega

theorem unseen_mono (grows : seen ⊆ after) (enough : (keys \ seen).card < fuel) : (keys \ after).card < fuel :=
  (Finset.card_le_card (Finset.sdiff_subset_sdiff Finset.Subset.rfl grows)).trans_lt enough

/-- One node after the other, if each of them is explored. -/
theorem fold_explores {step : σ × Finset α → α → σ × Finset α} (one : ∀ a s, (keys \ s.2).card < fuel → Explores next s.2 [a] (step s a).2)
    (roots : List α) (s : σ × Finset α) (enough : (keys \ s.2).card < fuel) : Explores next s.2 roots (roots.foldl step s).2 := by
  induction roots generalizing s with
  | nil => exact .none _
  | cons a roots ih =>
    have first := one a s enough
    exact first.trans (ih (step s a) (unseen_mono first.grows enough))

theorem visit_explores (bounded : ∀ a, next a ≠ [] → a ∈ keys) (fuel : Nat) (a : α) (s : σ × Finset α) (enough : (keys \ s.2).card < fuel) :
    Explores next s.2 [a] (visit next enter fuel a s).2 := by
  induction fuel generalizing a s with
  | zero => exact absurd enough (Nat.not_lt_zero _)
  | succ fuel ih =>
    rw [visit]
    by_cases before : a ∈ s.2
    · rw [if_pos before]
      exact .old before
    · rw [if_neg before]
      refine .below ?_
      by_cases edges : next a = []
      · rw [edges]
        exact .none _
      · exact fold_explores (fun b s => ih b s) (next a) (enter a s.1,insert a s.2) (unseen_lt bounded before edges enough)

/-- What has been seen in the end is what can be reached. -/
theorem visit_reach (bounded : ∀ a, next a ≠ [] → a ∈ keys) (enough : keys.card < fuel) (a : α) (found : σ) (b : α) :
    b ∈ (visit next enter fuel a (found,∅)).2 ↔ Reach next a b := by
  have explores : Explores next ∅ [a] (visit next enter fuel a (found,∅)).2 := visit_explores bounded fuel a (found,∅) (by simpa using enough)
  constructor
  · intro member
    rcases explores.reached b member with impossible | ⟨root,here,path⟩
    · simp at impossible
    · exact List.mem_singleton.mp here ▸ path
  · intro path
    induction path with
    | refl => exact explores.visited a List.mem_cons_self
    | tail _ edge ih => exact explores.closed _ ih (by simp) _ edge

/-- The walk comes to its end: more fuel changes nothing. -/
theorem visit_fuel (bounded : ∀ a, next a ≠ [] → a ∈ keys) (fuel : Nat) (a : α) (s : σ × Finset α) (enough : (keys \ s.2).card < fuel) :
    visit next enter (fuel+1) a s = visit next enter fuel a s := by
  induction fuel generalizing a s with
  | zero => exact absurd enough (Nat.not_lt_zero _)
  | succ fuel ih =>
    rw [visit,visit]
    by_cases before : a ∈ s.2
    · rw [if_pos before,if_pos before]
    · rw [if_neg before,if_neg before]
      by_cases edges : next a = []
      · rw [edges]
        rfl
      · have folds : ∀ (roots : List α) (s : σ × Finset α), (keys \ s.2).card < fuel →
            roots.foldl (fun s b => visit next enter (fuel+1) b s) s = roots.foldl (fun s b => visit next enter fuel b s) s := by
          intro roots
          induction roots with
          | nil => exact fun _ _ => rfl
          | cons b roots rest =>
            intro s enough
            rw [List.foldl_cons,List.foldl_cons,ih b s enough]
            exact rest _ (unseen_mono (visit_explores bounded fuel b s enough).grows enough)
        exact folds (next a) _ (unseen_lt bounded before edges enough)

theorem visit_more (bounded : ∀ a, next a ≠ [] → a ∈ keys) (enough : keys.card < fuel) (more : Nat) (a : α) (found : σ) :
    visit next enter (fuel+more) a (found,∅) = visit next enter fuel a (found,∅) := by
  induction more with
  | zero => rfl
  | succ more ih =>
    have still_enough : (keys \ (found,∅).2).card < fuel+more := by simpa using enough.trans_le (Nat.le_add_right _ _)
    rw [← Nat.add_assoc,visit_fuel bounded _ _ _ still_enough,ih]

/-- What holds of what has been found and seen, whenever a node is entered. -/
theorem visit_keeps {I : σ → Finset α → Prop} (keeps : ∀ a found seen, a ∉ seen → I found seen → I (enter a found) (insert a seen))
    (fuel : Nat) (a : α) (s : σ × Finset α) (holds : I s.1 s.2) : I (visit next enter fuel a s).1 (visit next enter fuel a s).2 := by
  induction fuel generalizing a s with
  | zero => exact holds
  | succ fuel ih =>
    rw [visit]
    split
    case isTrue => exact holds
    case isFalse fresh =>
      have folds : ∀ (roots : List α) (s : σ × Finset α), I s.1 s.2 →
          I (roots.foldl (fun s b => visit next enter fuel b s) s).1 (roots.foldl (fun s b => visit next enter fuel b s) s).2 := by
        intro roots
        induction roots with
        | nil => exact fun _ holds => holds
        | cons b roots rest => exact fun s holds => rest _ (ih b s holds)
      exact folds (next a) _ (keeps a s.1 s.2 fresh holds)

end
end Daf.DepthFirst
