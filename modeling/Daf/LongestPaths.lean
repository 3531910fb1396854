import Daf.Cycles
import Mathlib.Algebra.BigOperators.Group.List.Basic
import Mathlib.Algebra.Order.Monoid.Canonical.Defs
import Mathlib.Data.List.Chain

/-!
Longest paths along a relation without cycles, by the sum of the weights of their nodes. The nodes are gone through in an order in which
those that lead to a node stand before it; each node keeps the greatest sum of a path to it, and the node before it on such a path.
-/
namespace Daf.LongestPaths
open Daf.Cycles
universe u v

/-! ### Orders along the relation -/

section
variable {α : Type u}

/-- Every node stands before those that it leads to. -/
def Sorted (r : α → α → Prop) (list : List α) : Prop := list.Pairwise fun a b => ¬ r b a

variable {r : α → α → Prop} {path : List α}

/-- Without cycles no path comes to a node twice. -/
theorem chain_nodup (acyclic : Acyclic r) (chain : path.IsChain r) : path.Nodup := by
  have longer : path.IsChain (Relation.TransGen r) := chain.imp fun _ _ edge => .single edge
  refine longer.pairwise.imp fun {a b} leads same => ?_
  exact acyclic a (same ▸ leads)

variable [DecidableEq α] (pred : α → α → Bool)

/-- Put the first node that no other one leads to in front, as often as there are nodes; on a cycle there is none. -/
def arrange : Nat → List α → Option (List α)
  | _,[] => some []
  | 0,_ :: _ => none
  | rounds+1,remaining =>
    match remaining.find? fun v => !remaining.any (fun u => pred u v) with
    | none => none
    | some v => (arrange rounds (remaining.erase v)).map (v :: ·)

variable {pred} {rounds : Nat} {remaining list : List α}

theorem arrange_sorted (arranged : arrange pred rounds remaining = some list) : list.Perm remaining ∧ Sorted (fun u v => pred u v = true) list := by
  induction rounds generalizing remaining list with
  | zero =>
    cases remaining with
    | nil => cases arranged; exact ⟨.refl _,.nil⟩
    | cons => cases arranged
  | succ rounds ih =>
    cases remaining with
    | nil => cases arranged; exact ⟨.refl _,.nil⟩
    | cons head rest =>
      rw [arrange] at arranged
      split at arranged
      · cases arranged
      · next v found =>
        obtain ⟨later,inner,rfl⟩ := Option.map_eq_some_iff.mp arranged
        obtain ⟨perm,sorted⟩ := ih inner
        have member := List.mem_of_find?_eq_some found
        have whole := (perm.cons v).trans (List.perm_cons_erase member).symm
        refine ⟨whole,List.pairwise_cons.mpr ⟨fun b there edge => ?_,sorted⟩⟩
        have free := List.find?_some found
        simp only [Bool.not_eq_true',List.any_eq_false] at free
        exact free b (whole.mem_iff.mp (List.mem_cons_of_mem v there)) edge
      · simp

theorem arrange_some (acyclic : Acyclic (fun u v => pred u v = true)) (enough : remaining.length ≤ rounds) :
    (arrange pred rounds remaining).isSome = true := by
  induction rounds generalizing remaining with
  | zero =>
    rw [List.length_eq_zero_iff.mp (Nat.le_zero.mp enough)]
    rfl
  | succ rounds ih =>
    cases remaining with
    | nil => rfl
    | cons head rest =>
      obtain ⟨source,member,minimal⟩ := acyclic.exists_source (List.cons_ne_nil head rest)
      have free : (!(head :: rest).any (fun u => pred u source)) = true := by simpa using minimal
      have found : ((head :: rest).find? fun v => !(head :: rest).any (fun u => pred u v)).isSome = true :=
        List.find?_isSome.mpr ⟨source,member,free⟩
      obtain ⟨v,first⟩ := Option.isSome_iff_exists.mp found
      have fewer : ((head :: rest).erase v).length ≤ rounds := by
        rw [List.length_erase_of_mem (List.mem_of_find?_eq_some first)]
        exact Nat.pred_le_of_le_succ enough
      rw [arrange,first]
      · simpa using ih fewer
      · simp

end

/-! ### The greatest of some distances -/

section
variable {α : Type u} {M : Type v} [LinearOrder M]

/-- Keep the greater distance, with the node that it is that of; among equal ones, the one that was kept. -/
def improve (far : α → M) (best : M × Option α) (p : α) : M × Option α := if best.1 < far p then (far p,some p) else best

theorem foldl_improve (far : α → M) (ps : List α) (best : M × Option α) :
    best.1 ≤ (ps.foldl (improve far) best).1 ∧ (∀ p ∈ ps, far p ≤ (ps.foldl (improve far) best).1) ∧
    (ps.foldl (improve far) best = best ∨ ∃ p ∈ ps, ps.foldl (improve far) best = (far p,some p)) := by
  induction ps generalizing best with
  | nil => exact ⟨le_refl _,fun _ member => absurd member List.not_mem_nil,.inl rfl⟩
  | cons p later ih =>
    rw [List.foldl_cons]
    obtain ⟨kept,all,which⟩ := ih (improve far best p)
    have least : best.1 ≤ (improve far best p).1 ∧ far p ≤ (improve far best p).1 := by
      rw [improve]
      split_ifs with farther
      · exact ⟨farther.le,le_refl _⟩
      · exact ⟨le_refl _,not_lt.mp farther⟩
    refine ⟨least.1.trans kept,List.forall_mem_cons.mpr ⟨least.2.trans kept,all⟩,?_⟩
    rcases which with same | ⟨q,member,same⟩
    · rw [same,improve]
      split_ifs
      · exact .inr ⟨p,List.mem_cons_self,rfl⟩
      · exact .inl rfl
    · exact .inr ⟨q,List.mem_cons_of_mem p member,same⟩

end

/-! ### Distances and the nodes before -/

section
variable {α : Type u} {M : Type v} [AddCommMonoid M]

def weight (w : α → M) (path : List α) : M := (path.map w).sum

@[simp] theorem weight_append (w : α → M) (path : List α) (a : α) : weight w (path ++ [a]) = weight w path + w a := by
  simp [weight]

variable [LinearOrder M]

/-- The path to a node from one node before to the next. -/
inductive Traced (back : α → Option α) : α → List α → Prop where
  | first {a : α} (none : back a = none) : Traced back a [a]
  | step {a p : α} {path : List α} (before : back a = some p) (front : Traced back p path) : Traced back a (path ++ [a])

/-- Of the nodes that are done, the distance is the greatest sum of a path to the node, and that of the path from one node before to
    the next. -/
structure Solved (r : α → α → Prop) (w : α → M) (done : List α) (far : α → Option M) (back : α → Option α) : Prop where
  known : ∀ a, (far a).isSome = true ↔ a ∈ done
  backed : ∀ a, a ∉ done → back a = none
  traced : ∀ a d, far a = some d → ∃ path, Traced back a path ∧ path.IsChain r ∧ path ⊆ done ∧ weight w path = d
  longest : ∀ a d, far a = some d → ∀ path, path.IsChain r → path.getLast? = some a → weight w path ≤ d

variable {r : α → α → Prop} {w : α → M} {done : List α} {far : α → Option M} {back : α → Option α} {a : α} {path : List α}

theorem Traced.last (traced : Traced back a path) : path.getLast? = some a := by
  cases traced <;> simp

/-- A node that is not on the path does not matter. -/
theorem Traced.update [DecidableEq α] {b : α} (traced : Traced back a path) (off : b ∉ path) (x : Option α) :
    Traced (Function.update back b x) a path := by
  induction traced with
  | first none =>
    refine .first ?_
    rw [Function.update_of_ne (fun same => off (by simp [same]))]
    exact none
  | step before _ ih =>
    refine .step ?_ (ih fun inside => off (List.mem_append_left _ inside))
    rw [Function.update_of_ne (fun same => off (by simp [same]))]
    exact before

theorem Solved.nil (r : α → α → Prop) (w : α → M) : Solved r w [] (fun _ => none) (fun _ => none) where
  known _ := by simp
  backed _ _ := rfl
  traced _ _ found := absurd found (by simp)
  longest _ _ found := absurd found (by simp)

/-- The distances with that of one more node, whose best node before is given where it has one. -/
def extended [DecidableEq α] (far : α → Option M) (a : α) (d : M) : α → Option M := Function.update far a (some d)
def linked [DecidableEq α] (back : α → Option α) (a : α) (best : Option α) : α → Option α := if best.isSome then Function.update back a best else back

section
variable [DecidableEq α]

theorem linked_other {b : α} (apart : b ≠ a) (best : Option α) : linked back a best b = back b := by
  rw [linked]
  split_ifs
  · exact Function.update_of_ne apart best back
  · rfl

theorem Traced.linked {b : α} (traced : Traced back b path) (off : a ∉ path) (best : Option α) : Traced (linked back a best) b path := by
  rw [LongestPaths.linked]
  split_ifs
  · exact traced.update off best
  · exact traced

/-- A node that has no node before it is traced by itself. -/
theorem Solved.traced_alone (solved : Solved r w done far back) (new : a ∉ done) :
    ∃ path, Traced (linked back a none) a path ∧ path.IsChain r ∧ path ⊆ done ++ [a] ∧ weight w path = w a := by
  have unlinked : linked back a none a = none := by
    rw [linked]
    simpa using solved.backed a new
  exact ⟨[a],.first unlinked,.singleton a,by simp,by simp [weight]⟩

/-- A node is traced through the node before it that it is linked to. -/
theorem Solved.traced_through (solved : Solved r w done far back) (new : a ∉ done) {p : α} (edge : r p a) (inside : p ∈ done) :
    ∃ path, Traced (linked back a (some p)) a path ∧ path.IsChain r ∧ path ⊆ done ++ [a] ∧ weight w path = (far p).getD 0 + w a := by
  obtain ⟨d,at_p⟩ := Option.isSome_iff_exists.mp ((solved.known p).mpr inside)
  obtain ⟨path,traced,chain,within,sum⟩ := solved.traced p d at_p
  have before : linked back a (some p) a = some p := by
    rw [linked]
    simp
  refine ⟨path ++ [a],.step before (traced.linked (fun there => new (within there)) (some p)),?_,?_,?_⟩
  · refine chain.append (.singleton a) fun x last y first => ?_
    rw [traced.last] at last
    cases last
    cases first
    exact edge
  · exact List.append_subset.mpr ⟨fun x there => List.mem_append_left _ (within there),by simp⟩
  · rw [weight_append,sum,at_p,Option.getD_some]

end

variable [IsOrderedAddMonoid M] [CanonicallyOrderedAdd M]

/-- A path to the next node is not longer than the best one to a node before it, and the next node. -/
theorem Solved.bound (solved : Solved r w done far back) {ps : List α} (before : ∀ p, r p a → p ∈ ps ∧ p ∈ done)
    (chain : path.IsChain r) (ends : path.getLast? = some a) :
    weight w path ≤ (ps.foldl (improve fun p => (far p).getD 0) (0,none)).1 + w a := by
  obtain ⟨front,rfl⟩ := List.getLast?_eq_some_iff.mp ends
  rw [weight_append]
  refine add_le_add_left ?_ (w a)
  cases last : front.getLast? with
  | none =>
    rw [List.getLast?_eq_none_iff.mp last]
    exact zero_le
  | some p =>
    obtain ⟨firsts,-,edge⟩ := List.isChain_append.mp chain
    obtain ⟨listed,inside⟩ := before p (edge p last a rfl)
    obtain ⟨d,found⟩ := Option.isSome_iff_exists.mp ((solved.known p).mpr inside)
    have small := (foldl_improve (fun p => (far p).getD 0) ps (0,none)).2.1 p listed
    simp only [found,Option.getD_some] at small
    exact (solved.longest p d found front firsts last).trans small

variable [DecidableEq α]

/-- With the nodes before it done, the next node is done by the best of them. -/
theorem Solved.extend (solved : Solved r w done far back) (new : a ∉ done) {ps : List α} (listed : ∀ p, p ∈ ps ↔ r p a)
    (before : ∀ p, r p a → p ∈ done) (best : M × Option α) (found : ps.foldl (improve fun p => (far p).getD 0) (0,none) = best) :
    Solved r w (done ++ [a]) (extended far a (best.1 + w a)) (linked back a best.2) := by
  have bound : ∀ path : List α, path.IsChain r → path.getLast? = some a → weight w path ≤ best.1 + w a := by
    intro path chain ends
    rw [← found]
    exact solved.bound (fun p edge => ⟨(listed p).mpr edge,before p edge⟩) chain ends
  have traced : ∃ path, Traced (linked back a best.2) a path ∧ path.IsChain r ∧ path ⊆ done ++ [a] ∧ weight w path = best.1 + w a := by
    have which := (foldl_improve (fun p => (far p).getD 0) ps (0,none)).2.2
    rw [found] at which
    rcases which with rfl | ⟨p,member,rfl⟩
    · -- No node before it has a distance above zero.
      rw [zero_add]
      exact solved.traced_alone new
    · have edge := (listed p).mp member
      exact solved.traced_through new edge (before p edge)
  refine ⟨fun b => ?_,fun b out => ?_,fun b d there => ?_,fun b d there path chain ends => ?_⟩
  · rw [extended]
    by_cases same : b = a
    · simp [same]
    · simp [solved.known b,same]
  · rw [List.mem_append,List.mem_singleton,not_or] at out
    rw [linked_other out.2,solved.backed b out.1]
  · by_cases same : b = a
    · subst same
      rw [extended,Function.update_self,Option.some.injEq] at there
      exact there ▸ traced
    · rw [extended,Function.update_of_ne same] at there
      obtain ⟨path,traced,chain,inside,sum⟩ := solved.traced b d there
      exact ⟨path,traced.linked (fun there => new (inside there)) best.2,chain,fun x member => List.mem_append_left _ (inside member),sum⟩
  · by_cases same : b = a
    · subst same
      rw [extended,Function.update_self,Option.some.injEq] at there
      rw [← there]
      exact bound path chain ends
    · rw [extended,Function.update_of_ne same] at there
      exact solved.longest b d there path chain ends

end

/-! ### Going back -/

section
variable {α : Type u} (back : α → Option α)

/-- Put the nodes before in front, from one to the next, as long as there is one. -/
def trace : Nat → α → List α → Option (List α)
  | 0,_,_ => none
  | fuel+1,current,path =>
    match back current with
    | none => some path
    | some pred => trace fuel pred (pred :: path)

variable {back} {a : α} {path : List α}

theorem Traced.trace (traced : Traced back a path) {fuel : Nat} (enough : path.length ≤ fuel) (behind : List α) :
    trace back fuel a (a :: behind) = some (path ++ behind) := by
  induction traced generalizing fuel behind with
  | first none =>
    obtain ⟨fuel,rfl⟩ := Nat.exists_eq_add_of_le' (show 1 ≤ fuel by simpa using enough)
    rw [LongestPaths.trace,none]
    rfl
  | step before _ ih =>
    rw [List.length_append,List.length_singleton] at enough
    obtain ⟨fuel,rfl⟩ := Nat.exists_eq_add_of_le' (Nat.le_of_add_left_le enough)
    rw [LongestPaths.trace,before]
    simp only
    rw [ih (by omega),List.append_assoc]
    rfl

end

/-! ### The last of the greatest -/

section
variable {α : Type u} {M : Type v} [LinearOrder M]

def greater (key : α → M) : Option α → α → Option α
  | none,a => some a
  | some b,a => if key b ≤ key a then some a else some b

/-- The last element with the greatest key. -/
def max_by_key (key : α → M) (list : List α) : Option α := list.foldl (greater key) none

theorem foldl_greater (key : α → M) (list : List α) (b : α) : ∃ a, list.foldl (greater key) (some b) = some a ∧ (a = b ∨ a ∈ list) ∧
    key b ≤ key a ∧ ∀ c ∈ list, key c ≤ key a := by
  induction list generalizing b with
  | nil => exact ⟨b,rfl,.inl rfl,le_refl _,fun _ member => absurd member List.not_mem_nil⟩
  | cons c later ih =>
    rw [List.foldl_cons,greater]
    split_ifs with larger
    · obtain ⟨a,found,which,least,all⟩ := ih c
      refine ⟨a,found,.inr (which.elim (fun same => same ▸ List.mem_cons_self) (List.mem_cons_of_mem c)),larger.trans least,?_⟩
      exact List.forall_mem_cons.mpr ⟨least,all⟩
    · obtain ⟨a,found,which,least,all⟩ := ih b
      refine ⟨a,found,which.imp_right (List.mem_cons_of_mem c),least,?_⟩
      exact List.forall_mem_cons.mpr ⟨(le_of_not_ge larger).trans least,all⟩

theorem max_by_key_some (key : α → M) {list : List α} (filled : list ≠ []) :
    ∃ a ∈ list, max_by_key key list = some a ∧ ∀ c ∈ list, key c ≤ key a := by
  cases list with
  | nil => exact absurd rfl filled
  | cons b later =>
    obtain ⟨a,found,which,least,all⟩ := foldl_greater key later b
    exact ⟨a,which.elim (fun same => same ▸ List.mem_cons_self) (List.mem_cons_of_mem b),found,List.forall_mem_cons.mpr ⟨least,all⟩⟩

end
end Daf.LongestPaths
