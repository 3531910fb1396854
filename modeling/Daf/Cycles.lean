import Mathlib.Data.Fintype.Card
import Mathlib.Data.List.Basic
import Mathlib.Data.Set.Finite.List
import Mathlib.Logic.Relation
import Mathlib.Order.WellFounded

/-!
Acyclic relations with finitely many related elements: every nonempty list has
an element without a predecessor in the list (`exists_source`), the relation is
well-founded (`wellFounded`), and repeatedly dropping the elements without a
predecessor empties a list of vertices exactly when the relation on it has no
cycle (`peel_nil_iff`).
-/
namespace Daf.Cycles
universe u v
variable {α : Type u} {β : Type v}

/-- No element reaches itself in one or more steps. -/
def Acyclic (r : α → α → Prop) : Prop := ∀ a, ¬ Relation.TransGen r a a

/-- A relation that maps into an acyclic one is acyclic. -/
theorem Acyclic.of_map {r : α → α → Prop} {s : β → β → Prop} (acyclic : Acyclic s) (f : α → β)
    (map : ∀ a b, r a b → s (f a) (f b)) : Acyclic r :=
  fun a cycle => acyclic (f a) (cycle.lift f map)

/-- Some element of a nonempty list has no predecessor in the list. -/
theorem Acyclic.exists_source {r : α → α → Prop} (acyclic : Acyclic r) {list : List α} (nonempty : list ≠ []) :
    ∃ a ∈ list, ∀ b ∈ list, ¬ r b a := by
  let inner : {a // a ∈ list} → {a // a ∈ list} → Prop := Relation.TransGen (fun a b => r a.1 b.1)
  have irreflexive : Std.Irrefl inner := ⟨fun a cycle => acyclic a.1 (cycle.lift Subtype.val (fun _ _ step => step))⟩
  have transitive : IsTrans _ inner := ⟨fun _ _ _ => Relation.TransGen.trans⟩
  have finite : Finite {a // a ∈ list} := list.finite_toSet
  have wf : WellFounded inner := Finite.wellFounded_of_trans_of_irrefl inner
  obtain ⟨head,member⟩ := List.exists_mem_of_ne_nil list nonempty
  obtain ⟨least,_,minimal⟩ := wf.has_min Set.univ ⟨⟨head,member⟩,trivial⟩
  exact ⟨least.1,least.2,fun b inside step => minimal ⟨b,inside⟩ trivial (.single step)⟩

/-- An acyclic relation whose predecessors all stand in a list is well-founded. -/
theorem Acyclic.wellFounded {r : α → α → Prop} (acyclic : Acyclic r) (support : List α)
    (covers : ∀ a b, r a b → a ∈ support) : WellFounded r := by
  classical
  refine ⟨fun a => ?_⟩
  by_contra outside
  -- An element that is not accessible has a predecessor that is not, and so on without end.
  have step : ∀ b, ¬ Acc r b → ∃ c ∈ support.filter (fun c => ¬ Acc r c), r c b := by
    intro b stuck
    by_contra none
    refine stuck ⟨b,fun c related => ?_⟩
    by_contra deeper
    exact none ⟨c,by simp [covers c b related,deeper],related⟩
  obtain ⟨first,member,_⟩ := step a outside
  obtain ⟨source,inside,minimal⟩ := acyclic.exists_source (List.ne_nil_of_mem member)
  obtain ⟨before,earlier,related⟩ := step source (by simpa using (List.mem_filter.mp inside).2)
  exact minimal before earlier related

/-! ### Deciding acyclicity -/

section Peel
variable (pred : α → α → Bool)

/-- Drop the vertices without a predecessor among the remaining ones, a given
    number of times. -/
def peel : Nat → List α → List α
  | 0,remaining => remaining
  | rounds+1,remaining => peel rounds (remaining.filter (fun v => remaining.any (fun u => pred u v)))

theorem peel_length (acyclic : Acyclic (fun u v => pred u v = true)) (rounds : Nat) (remaining : List α)
    (enough : remaining.length ≤ rounds) : peel pred rounds remaining = [] := by
  induction rounds generalizing remaining with
  | zero => exact List.length_eq_zero_iff.mp (Nat.le_zero.mp enough)
  | succ rounds ih =>
    rw [peel]
    apply ih
    by_cases empty : remaining = []
    · simp [empty]
    · obtain ⟨source,member,minimal⟩ := acyclic.exists_source empty
      have dropped : (remaining.filter (fun v => remaining.any (fun u => pred u v))).length < remaining.length := by
        apply List.length_filter_lt_length_iff_exists.mpr
        refine ⟨source,member,?_⟩
        simpa using minimal
      omega

/-- Vertices that each have a predecessor among them are never dropped. -/
theorem peel_keeps {kept : α → Prop} (supported : ∀ v, kept v → ∃ u, kept u ∧ pred u v = true) (rounds : Nat)
    (remaining : List α) (inside : ∀ v, kept v → v ∈ remaining) (v : α) (member : kept v) :
    v ∈ peel pred rounds remaining := by
  induction rounds generalizing remaining with
  | zero => exact inside v member
  | succ rounds ih =>
    apply ih
    intro w keptW
    obtain ⟨u,keptU,related⟩ := supported w keptW
    simp only [List.mem_filter,List.any_eq_true]
    exact ⟨inside w keptW,u,inside u keptU,related⟩

/-- On a list that holds every related vertex, peeling as often as the list is
    long leaves nothing exactly when there is no cycle. -/
theorem peel_nil_iff (vertices : List α) (covers : ∀ u v, pred u v = true → u ∈ vertices ∧ v ∈ vertices) :
    peel pred vertices.length vertices = [] ↔ Acyclic (fun u v => pred u v = true) := by
  constructor
  · intro empty a cycle
    -- The vertices on cycles each have a predecessor on a cycle.
    have supported : ∀ v, Relation.TransGen (fun u v => pred u v = true) v v →
        ∃ u, Relation.TransGen (fun u v => pred u v = true) u u ∧ pred u v = true := by
      intro v around
      obtain ⟨u,path,last⟩ := Relation.TransGen.tail'_iff.mp around
      exact ⟨u,Relation.TransGen.head' last path,last⟩
    have inside : ∀ v, Relation.TransGen (fun u v => pred u v = true) v v → v ∈ vertices := by
      intro v around
      obtain ⟨u,_,last⟩ := supported v around
      exact (covers u v last).2
    have stays := peel_keeps pred supported vertices.length vertices inside a cycle
    simp [empty] at stays
  · intro acyclic
    exact peel_length pred acyclic vertices.length vertices (le_refl _)

end Peel
end Daf.Cycles
