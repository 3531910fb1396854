import Daf.Cycles
import Mathlib.Data.List.Chain
import Mathlib.Data.List.Induction
import Mathlib.Data.List.Perm.Basic

/-!
Layers of nodes that need each other. A greedy layering puts every node into the first layer by which all that it needs is placed; the layer of a
node is then the length of the longest chain of needs below it, no layering has fewer layers, and the nodes that are left over are those of cycles
and what needs them.
-/
namespace Daf.Layers
open Daf.Cycles

section
variable {α : Type} (needs : α → α → Prop)

/-- A chain of needs down from the node. -/
def Below (a : α) (path : List α) : Prop := (a :: path).IsChain needs

structure Longest (a : α) (n : Nat) : Prop where
  reached : ∃ path, Below needs a path ∧ path.length = n
  bound : ∀ path, Below needs a path → path.length ≤ n

/-- Every node is in one layer, and what it needs is in earlier ones. -/
structure Layering (nodes : List α) (layers : List (List α)) : Prop where
  once : layers.flatten.Perm nodes
  earlier : ∀ before layer after, layers = before ++ layer :: after → ∀ a ∈ layer, ∀ b, needs a b → b ∈ before.flatten

/-- A layer holds the nodes that were not placed although they could not be placed before. -/
def Fits (nodes done layer : List α) : Prop := ∀ a, a ∈ layer ↔ a ∈ nodes ∧ a ∉ done ∧ ∀ b, needs a b → b ∈ done

structure Greedy (nodes : List α) (layers : List (List α)) : Prop where
  filled : ∀ layer ∈ layers, layer ≠ []
  fits : ∀ before layer after, layers = before ++ layer :: after → Fits needs nodes before.flatten layer

variable {needs} {nodes : List α} {layers : List (List α)}

theorem Greedy.nil : Greedy needs nodes [] := ⟨nofun,fun before layer after split => by simp at split⟩

theorem Greedy.concat (greedy : Greedy needs nodes layers) {layer : List α} (filled : layer ≠ []) (fits : Fits needs nodes layers.flatten layer) :
    Greedy needs nodes (layers ++ [layer]) := by
  constructor
  · intro other member
    rcases List.mem_append.mp member with old | new
    · exact greedy.filled other old
    · rw [List.mem_singleton.mp new]
      exact filled
  · intro before other after split
    rcases List.eq_nil_or_concat after with rfl | ⟨after,last,rfl⟩
    · obtain ⟨rfl,same⟩ := List.append_inj' split rfl
      cases same
      exact fits
    · have inner : layers ++ [layer] = (before ++ other :: after) ++ [last] := by simpa using split
      exact greedy.fits before other after (List.append_inj' inner rfl).1

/-- Where a placed node is. -/
theorem placed {a : α} (there : a ∈ layers.flatten) : ∃ before layer after, layers = before ++ layer :: after ∧ a ∈ layer := by
  obtain ⟨layer,listed,member⟩ := List.mem_flatten.mp there
  obtain ⟨before,after,split⟩ := List.append_of_mem listed
  exact ⟨before,layer,after,split,member⟩

theorem below_cons {a b : α} {path : List α} : Below needs a (b :: path) ↔ needs a b ∧ Below needs b path := List.isChain_cons_cons

/-- No chain goes through more layers than there are before its node. -/
theorem chain_le (earlier : ∀ before layer after, layers = before ++ layer :: after → ∀ a ∈ layer, ∀ b, needs a b → b ∈ before.flatten) :
    ∀ (path : List α) (before : List (List α)) (layer : List α) (after : List (List α)) (a : α), layers = before ++ layer :: after → a ∈ layer →
      Below needs a path → path.length ≤ before.length := by
  intro path
  induction path with
  | nil => exact fun before _ _ _ _ _ _ => Nat.zero_le before.length
  | cons b path ih =>
    intro before layer after a split member below
    obtain ⟨here,later⟩ := Iff.mp below_cons below
    obtain ⟨before',layer',after',rfl,inside⟩ := placed (earlier before layer after split a member b here)
    have shorter := ih before' layer' (after' ++ layer :: after) b (by rw [split]; simp) inside later
    simp only [List.length_cons,List.length_append] at shorter ⊢
    omega

theorem Greedy.earlier (greedy : Greedy needs nodes layers) (before : List (List α)) (layer : List α) (after : List (List α))
    (split : layers = before ++ layer :: after) (a : α) (member : a ∈ layer) (b : α) (need : needs a b) : b ∈ before.flatten :=
  ((greedy.fits before layer after split a).mp member).2.2 b need

/-- A node of a later layer needs one of the layer just before it. -/
theorem Greedy.chain (greedy : Greedy needs nodes layers) (before : List (List α)) :
    ∀ (layer : List α) (after : List (List α)) (a : α), layers = before ++ layer :: after → a ∈ layer →
      ∃ path, Below needs a path ∧ path.length = before.length := by
  induction before using List.reverseRecOn with
  | nil => exact fun _ _ a _ _ => ⟨[],.singleton a,rfl⟩
  | append_singleton before last ih =>
    intro layer after a split member
    have listed : layers = before ++ last :: (layer :: after) := by rw [split]; simp
    obtain ⟨node,fresh,ready⟩ := (greedy.fits _ _ _ split a).mp member
    have late : ¬ ∀ b, needs a b → b ∈ before.flatten := by
      intro early
      have outside : a ∉ before.flatten := fun inside => fresh (by rw [List.flatten_append]; exact List.mem_append_left _ inside)
      have inside := (greedy.fits before last _ listed a).mpr ⟨node,outside,early⟩
      exact fresh (by rw [List.flatten_append,List.flatten_singleton]; exact List.mem_append_right _ inside)
    push Not at late
    obtain ⟨b,need,outside⟩ := late
    have here : b ∈ last := by
      have somewhere := ready b need
      rw [List.flatten_append,List.flatten_singleton] at somewhere
      exact (List.mem_append.mp somewhere).resolve_left outside
    obtain ⟨path,below,length⟩ := ih last (layer :: after) b listed here
    exact ⟨b :: path,below_cons.mpr ⟨need,below⟩,by rw [List.length_cons,length,List.length_append,List.length_singleton]⟩

theorem Greedy.longest (greedy : Greedy needs nodes layers) {before : List (List α)} {layer : List α} {after : List (List α)} {a : α}
    (split : layers = before ++ layer :: after) (member : a ∈ layer) : Longest needs a before.length :=
  ⟨greedy.chain before layer after a split member,fun path below => chain_le greedy.earlier path before layer after a split member below⟩

theorem Greedy.layering (greedy : Greedy needs nodes layers) (once : layers.flatten.Perm nodes) : Layering needs nodes layers := ⟨once,greedy.earlier⟩

/-- No layering of the nodes has fewer layers. -/
theorem Greedy.minimal (greedy : Greedy needs nodes layers) {other : List (List α)} (layering : Layering needs nodes other) :
    layers.length ≤ other.length := by
  rcases List.eq_nil_or_concat layers with rfl | ⟨before,layer,split⟩
  · exact Nat.zero_le _
  · rw [List.concat_eq_append] at split
    obtain ⟨a,member⟩ := List.exists_mem_of_ne_nil layer (greedy.filled layer (by simp [split]))
    obtain ⟨path,below,length⟩ := greedy.chain before layer [] a split member
    have node := ((greedy.fits before layer [] split a).mp member).1
    obtain ⟨before',layer',after',rfl,inside⟩ := placed (layering.once.mem_iff.mpr node)
    have shorter := chain_le layering.earlier path before' layer' after' a rfl inside below
    rw [split]
    simp only [List.length_append,List.length_cons,List.length_nil]
    omega

/-- What a placed node leads to is placed in earlier layers. -/
theorem Greedy.transGen (greedy : Greedy needs nodes layers) {a b : α} (leads : Relation.TransGen needs a b) :
    ∀ (before : List (List α)) (layer : List α) (after : List (List α)), layers = before ++ layer :: after → a ∈ layer → b ∈ before.flatten := by
  induction leads using Relation.TransGen.head_induction_on with
  | single need => exact fun before layer after split member => greedy.earlier before layer after split _ member b need
  | head need _ ih =>
    intro before layer after split member
    obtain ⟨before',layer',after',rfl,inside⟩ := placed (greedy.earlier before layer after split _ member _ need)
    have found := ih before' layer' (after' ++ layer :: after) (by rw [split]; simp) inside
    rw [List.flatten_append]
    exact List.mem_append_left _ found

/-- When no further layer can be filled, all nodes are placed exactly when none of them needs itself. -/
theorem Greedy.complete_iff (greedy : Greedy needs nodes layers) (inside : ∀ a b, needs a b → a ∈ nodes ∧ b ∈ nodes)
    (stuck : Fits needs nodes layers.flatten []) : (∀ a ∈ nodes, a ∈ layers.flatten) ↔ Acyclic needs := by
  classical
  constructor
  · intro all a cycle
    obtain ⟨b,need,-⟩ := Relation.TransGen.head'_iff.mp cycle
    obtain ⟨before,layer,after,split,member⟩ := placed (all a (inside a b need).1)
    exact ((greedy.fits before layer after split a).mp member).2.1 (greedy.transGen cycle before layer after split member)
  · intro acyclic a node
    by_contra outside
    have reversed : Acyclic fun b c => needs c b := fun c cycle => acyclic c (Relation.transGen_swap.mp cycle)
    have some_left : nodes.filter (fun c => c ∉ layers.flatten) ≠ [] := List.ne_nil_of_mem (List.mem_filter.mpr ⟨node,by simpa using outside⟩)
    obtain ⟨first,there,minimal⟩ := reversed.exists_source some_left
    obtain ⟨listed,left⟩ := List.mem_filter.mp there
    refine List.not_mem_nil ((stuck first).mpr ⟨listed,by simpa using left,fun b need => ?_⟩)
    by_contra unplaced
    exact minimal b (List.mem_filter.mpr ⟨(inside first b need).2,by simpa using unplaced⟩) need

end
end Daf.Layers
