import Daf.Cycles
import Daf.DepthFirst

/-!
Sorting the nodes of a graph by a walk into the depth: a node is listed after all that it leads to. A node that
is met again on the way down to it closes a cycle, and ends the walk.
-/
namespace Daf.DepthFirstOrder
open Daf.Cycles

/-- The nodes that are done, those on the way to the current one, and the list so far. -/
structure Walk (α : Type) [DecidableEq α] where
  visited : Finset α
  in_stack : Finset α
  order : List α

section
variable {α : Type} [DecidableEq α]

/-- One after the other, up to the first that fails. `none` when the depth was not enough. -/
def each (step : α → Walk α → Option (Except α (Walk α))) : List α → Walk α → Option (Except α (Walk α))
  | [],w => some (.ok w)
  | a :: rest,w =>
    match step a w with
    | some (.ok w) => each step rest w
    | failed => failed

/-- All that a node leads to, and then the node itself. -/
def visit (next : α → List α) : Nat → α → Walk α → Option (Except α (Walk α))
  | 0,_,_ => none
  | depth+1,a,w =>
    if a ∈ w.in_stack then some (.error a)
    else if a ∈ w.visited then some (.ok w)
    else
      match each (visit next depth) (next a) { w with in_stack := insert a w.in_stack } with
      | some (.ok w) => some (.ok ⟨insert a w.visited,w.in_stack.erase a,w.order ++ [a]⟩)
      | failed => failed

/-- The nodes that the roots lead to, in order. -/
def sort (next : α → List α) (depth : Nat) (roots : List α) : Option (Except α (List α)) :=
  match each (fun a w => if a ∉ w.visited then visit next depth a w else some (.ok w)) roots ⟨∅,∅,[]⟩ with
  | some (.ok w) => some (.ok w.order)
  | some (.error a) => some (.error a)
  | none => none

variable (next : α → List α)

def Edge (a b : α) : Prop := b ∈ next a

/-- Every node stands behind all that it leads to. -/
def Sorted (order : List α) : Prop := ∀ before a after, order = before ++ a :: after → ∀ b ∈ next a, b ∈ before

structure Valid (w : Walk α) : Prop where
  same : ∀ a, a ∈ w.visited ↔ a ∈ w.order
  apart : ∀ a ∈ w.in_stack, a ∉ w.order
  distinct : w.order.Nodup
  sorted : Sorted next w.order

/-- The list has grown by the roots and by what they lead to; the way down is the same. -/
structure Extends (w : Walk α) (roots : List α) (later : Walk α) : Prop where
  stack : later.in_stack = w.in_stack
  kept : w.order <+: later.order
  placed : ∀ a ∈ roots, a ∈ later.order
  reached : ∀ b ∈ later.order, b ∈ w.order ∨ ∃ a ∈ roots, Relation.ReflTransGen (Edge next) a b
  valid : Valid next later

/-- A cycle was found, or the list has grown. -/
def Answer (w : Walk α) (roots : List α) : Option (Except α (Walk α)) → Prop
  | none => False
  | some (.error a) => Relation.TransGen (Edge next) a a
  | some (.ok later) => Extends next w roots later

variable {next} {w : Walk α} {a : α} {roots order : List α} {keys : Finset α} {depth : Nat}

theorem Extends.none (valid : Valid next w) : Extends next w [] w :=
  ⟨rfl,List.prefix_refl _,nofun,fun _ member => .inl member,valid⟩

theorem Extends.old (valid : Valid next w) (member : a ∈ w.order) : Extends next w [a] w :=
  ⟨rfl,List.prefix_refl _,by simpa using member,fun _ member => .inl member,valid⟩

theorem Extends.trans {between later : Walk α} (first : Extends next w [a] between) (rest : Extends next between roots later) :
    Extends next w (a :: roots) later := by
  refine ⟨rest.stack.trans first.stack,first.kept.trans rest.kept,?_,?_,rest.valid⟩
  · refine List.forall_mem_cons.mpr ⟨rest.kept.subset (first.placed a List.mem_cons_self),rest.placed⟩
  · intro b member
    rcases rest.reached b member with before | ⟨root,here,path⟩
    · rcases first.reached b before with old | ⟨root,here,path⟩
      · exact .inl old
      · exact .inr ⟨root,List.mem_cons.mpr (.inl (List.mem_singleton.mp here)),path⟩
    · exact .inr ⟨root,List.mem_cons_of_mem _ here,path⟩

/-- Step by step, if each step answers: all on the stack lead to all of the roots. -/
theorem each_spec {step : α → Walk α → Option (Except α (Walk α))} {stack : Finset α}
    (one : ∀ a w, w.in_stack = stack → Valid next w → (∀ c ∈ stack, Relation.TransGen (Edge next) c a) → Answer next w [a] (step a w))
    (roots : List α) (w : Walk α) (here : w.in_stack = stack) (valid : Valid next w)
    (lead : ∀ c ∈ stack, ∀ a ∈ roots, Relation.TransGen (Edge next) c a) : Answer next w roots (each step roots w) := by
  induction roots generalizing w with
  | nil => exact .none valid
  | cons a roots ih =>
    have first := one a w here valid fun c member => lead c member a List.mem_cons_self
    rw [each]
    cases met : step a w with
    | none =>
      rw [met] at first
      exact first.elim
    | some result =>
      rw [met] at first
      cases result with
      | error found => exact first
      | ok between =>
        have rest := ih between (first.stack.trans here) first.valid fun c member b later => lead c member b (List.mem_cons_of_mem _ later)
        show Answer next w (a :: roots) (each step roots between)
        cases outcome : each step roots between with
        | none =>
          rw [outcome] at rest
          exact rest
        | some result =>
          rw [outcome] at rest
          cases result with
          | error found => exact rest
          | ok later => exact first.trans rest

omit [DecidableEq α] in
theorem sorted_snoc (sorted : Sorted next order) (placed : ∀ b ∈ next a, b ∈ order) : Sorted next (order ++ [a]) := by
  intro before c after split b edge
  rcases List.eq_nil_or_concat after with rfl | ⟨rest,last,rfl⟩
  · obtain ⟨rfl,same⟩ := List.append_inj' split rfl
    rw [List.singleton_inj.mp same] at placed
    exact placed b edge
  · rw [List.concat_eq_append,← List.cons_append,← List.append_assoc] at split
    obtain ⟨front,-⟩ := List.append_inj' split rfl
    exact sorted before c rest front b edge

/-- With all that it leads to, a node has been listed. -/
theorem Extends.finish {later : Walk α} (fresh : a ∉ w.in_stack) (below : Extends next { w with in_stack := insert a w.in_stack } (next a) later) :
    Extends next w [a] ⟨insert a later.visited,later.in_stack.erase a,later.order ++ [a]⟩ := by
  have stack : later.in_stack = insert a w.in_stack := below.stack
  have unlisted : a ∉ later.order := below.valid.apart a (stack ▸ Finset.mem_insert_self a _)
  refine ⟨?_,below.kept.trans (List.prefix_append _ _),by simp,?_,?_⟩
  · show later.in_stack.erase a = w.in_stack
    rw [stack,Finset.erase_insert fresh]
  · intro b member
    rcases List.mem_append.mp member with before | own
    · rcases below.reached b before with old | ⟨root,edge,path⟩
      · exact .inl old
      · exact .inr ⟨a,List.mem_cons_self,.head edge path⟩
    · exact .inr ⟨a,List.mem_cons_self,List.mem_singleton.mp own ▸ .refl⟩
  · refine ⟨fun b => ?_,fun b member => ?_,?_,sorted_snoc below.valid.sorted below.placed⟩
    · rw [Finset.mem_insert,below.valid.same,List.mem_append,List.mem_singleton,or_comm]
    · obtain ⟨other,there⟩ := Finset.mem_erase.mp member
      simpa [other] using below.valid.apart b there
    · rw [List.nodup_append]
      exact ⟨below.valid.distinct,List.nodup_singleton a,fun b member c own same => unlisted (List.mem_singleton.mp own ▸ same ▸ member)⟩

theorem visit_spec (bounded : ∀ a, next a ≠ [] → a ∈ keys) (depth : Nat) (a : α) (w : Walk α) (enough : (keys \ w.in_stack).card < depth)
    (valid : Valid next w) (lead : ∀ c ∈ w.in_stack, Relation.TransGen (Edge next) c a) : Answer next w [a] (visit next depth a w) := by
  induction depth generalizing a w with
  | zero => exact absurd enough (Nat.not_lt_zero _)
  | succ depth ih =>
    rw [visit]
    by_cases again : a ∈ w.in_stack
    · rw [if_pos again]
      exact lead a again
    · rw [if_neg again]
      by_cases done : a ∈ w.visited
      · rw [if_pos done]
        exact .old valid ((valid.same a).mp done)
      · rw [if_neg done]
        have unlisted : a ∉ w.order := fun member => done ((valid.same a).mpr member)
        have entered : Valid next { w with in_stack := insert a w.in_stack } := by
          refine ⟨valid.same,fun b member => ?_,valid.distinct,valid.sorted⟩
          rcases Finset.mem_insert.mp member with rfl | old
          · exact unlisted
          · exact valid.apart b old
        have below : Answer next { w with in_stack := insert a w.in_stack } (next a) (each (visit next depth) (next a) { w with in_stack := insert a w.in_stack }) := by
          by_cases edges : next a = []
          · rw [edges]
            exact .none entered
          · have deeper := DepthFirst.unseen_lt bounded again edges enough
            refine each_spec (fun b v stack valid lead => ih b v (by rw [stack]; exact deeper) valid (by rw [stack]; exact lead)) _ _ rfl entered ?_
            intro c member b edge
            rcases Finset.mem_insert.mp member with rfl | old
            · exact .single edge
            · exact .tail (lead c old) edge
        cases outcome : each (visit next depth) (next a) { w with in_stack := insert a w.in_stack } with
        | none =>
          rw [outcome] at below
          exact below
        | some result =>
          rw [outcome] at below
          cases result with
          | error found => exact below
          | ok later => exact .finish again below

/-- A graph whose nodes with edges are sorted has no cycle. -/
theorem acyclic_of_sorted (sorted : Sorted next order) (all : ∀ a, next a ≠ [] → a ∈ order) : Acyclic (Edge next) := by
  have down : ∀ a b, Edge next a b → order.idxOf b < order.idxOf a := by
    intro a b edge
    have here : a ∈ order := all a (List.ne_nil_of_mem edge)
    obtain ⟨before,after,split,fresh⟩ := List.eq_append_cons_of_mem here
    have earlier := sorted before a after split b edge
    rw [split,List.idxOf_append_of_mem earlier,List.idxOf_append_of_notMem fresh,List.idxOf_cons_self,Nat.add_zero]
    exact List.idxOf_lt_length_of_mem earlier
  intro a cycle
  have less : ∀ b, Relation.TransGen (Edge next) a b → order.idxOf b < order.idxOf a := by
    intro b path
    induction path with
    | single edge => exact down _ _ edge
    | tail _ edge ih => exact (down _ _ edge).trans ih
  exact Nat.lt_irrefl _ (less a cycle)

/-- With enough depth the walk ends: with a cycle, or with the nodes that the roots lead to, each once and sorted. -/
theorem sort_spec (bounded : ∀ a, next a ≠ [] → a ∈ keys) (enough : keys.card < depth) (roots : List α) :
    (∃ a, sort next depth roots = some (.error a) ∧ Relation.TransGen (Edge next) a a) ∨
    ∃ order, sort next depth roots = some (.ok order) ∧ order.Nodup ∧ Sorted next order ∧
      ∀ b, b ∈ order ↔ ∃ a ∈ roots, Relation.ReflTransGen (Edge next) a b := by
  have start : Valid next ⟨∅,∅,[]⟩ := ⟨fun a => by simp,fun a member => by simp at member,List.nodup_nil,fun before a after split => by simp at split⟩
  have answer : Answer next ⟨∅,∅,[]⟩ roots (each (fun a w => if a ∉ w.visited then visit next depth a w else some (.ok w)) roots ⟨∅,∅,[]⟩) := by
    refine each_spec (fun a w stack valid lead => ?_) roots _ rfl start fun c member => by simp at member
    by_cases done : a ∈ w.visited
    · rw [if_neg (not_not.mpr done)]
      exact .old valid ((valid.same a).mp done)
    · rw [if_pos done]
      exact visit_spec bounded depth a w (by rw [stack]; simpa using enough) valid (by rw [stack]; exact lead)
  unfold sort
  cases outcome : each (fun a w => if a ∉ w.visited then visit next depth a w else some (.ok w)) roots ⟨∅,∅,[]⟩ with
  | none =>
    rw [outcome] at answer
    exact answer.elim
  | some result =>
    rw [outcome] at answer
    cases result with
    | error a => exact .inl ⟨a,rfl,answer⟩
    | ok w =>
      refine .inr ⟨w.order,rfl,answer.valid.distinct,answer.valid.sorted,fun b => ⟨fun member => ?_,?_⟩⟩
      · exact (answer.reached b member).resolve_left (by simp)
      · rintro ⟨a,root,path⟩
        induction path with
        | refl => exact answer.placed a root
        | tail _ edge ih =>
          obtain ⟨before,after,split⟩ := List.append_of_mem ih
          rw [split]
          exact List.mem_append_left _ (answer.valid.sorted before _ after split _ edge)

end
end Daf.DepthFirstOrder
