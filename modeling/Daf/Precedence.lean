import Daf.Runs
import Daf.Variables

/-!
Which value a variable has after any run of a manager of variables. Each scope is a stack of layers of its own,
moved by the requests of that scope alone; the value is the one of the highest scope with the variable in it, of
the layer pushed last there.
-/
namespace Daf.Precedence
open Daf.Json Daf.DottedPaths Daf.Variables Daf.Runs

inductive Request where
  | push_layer (scope : VarScope) (label : String) (values : Vars)
  | set (scope : VarScope) (key : String) (value : Value)
  | pop_scope (scope : VarScope)
  | register_result (name : String) (output : Value)

def Request.scope : Request → VarScope
  | .push_layer scope _ _ => scope
  | .set scope _ _ => scope
  | .pop_scope scope => scope
  | .register_result _ _ => .Task

def perform (m : VarManager) : Request → VarManager
  | .push_layer scope label values => m.push_layer scope label values
  | .set scope key value => m.set scope key value
  | .pop_scope scope => m.pop_scope scope
  | .register_result name output => m.register_result name output

/-! ### The stacks of the scopes -/

/-- A variable is written into the layer pushed last, which is made if there is none. -/
def writeTop (key : String) (value : Value) : List Vars → List Vars
  | [] => [AList.insert key value ∅]
  | top :: lower => top.insert key value :: lower

/-- What a request does to the stack of its own scope. -/
def moved (stack : List Vars) : Request → List Vars
  | .push_layer _ _ values => values :: stack
  | .set _ key value => writeTop key value stack
  | .pop_scope _ => []
  | .register_result name output => writeTop name output stack

/-- The layers of a scope after the requests, the one pushed last first: only the requests of the scope count. -/
def stack (requests : List Request) (scope : VarScope) : List Vars := (requests.filter (·.scope = scope)).foldl moved []

/-- The value is that of the scope: no higher scope has the variable, and of its layers the first with the variable in it has this value. -/
structure Prevails (piles : VarScope → List Vars) (key : String) (value : Value) (scope : VarScope) : Prop where
  highest : ∀ above, scope.rank < above.rank → ∀ layer ∈ piles above, layer.lookup key = none
  latest : ∃ newer layer older, piles scope = newer ++ layer :: older ∧ layer.lookup key = some value ∧ ∀ other ∈ newer, other.lookup key = none

/-- The manager holds the stacks, in the order of their scopes. -/
structure Holds (m : VarManager) (piles : VarScope → List Vars) : Prop where
  ordered : m.layers.Pairwise fun a b => a.scope.rank ≤ b.scope.rank
  layers : ∀ scope, ((m.layers.filter (·.scope = scope)).map VarLayer.values).reverse = piles scope

theorem rank_injective : Function.Injective VarScope.rank := by
  intro a b same
  cases a <;> cases b <;> first | rfl | exact nomatch same

section
variable {m : VarManager} {piles : VarScope → List Vars}

/-! ### What each request does -/

/-- Sorting by the ranks leaves the layers of each scope in their order. -/
theorem filter_sorted (layers : List VarLayer) (scope : VarScope) :
    (layers.mergeSort fun a b => a.scope.rank ≤ b.scope.rank).filter (·.scope = scope) = layers.filter (·.scope = scope) := by
  have trans : ∀ a b c : VarLayer, decide (a.scope.rank ≤ b.scope.rank) → decide (b.scope.rank ≤ c.scope.rank) → decide (a.scope.rank ≤ c.scope.rank) := by
    simp only [decide_eq_true_eq]
    exact fun a b c => Nat.le_trans
  have total : ∀ a b : VarLayer, decide (a.scope.rank ≤ b.scope.rank) || decide (b.scope.rank ≤ a.scope.rank) := by
    intro a b
    simpa using Nat.le_total a.scope.rank b.scope.rank
  have alike : (layers.filter (·.scope = scope)).Pairwise fun a b => decide (a.scope.rank ≤ b.scope.rank) := by
    refine List.Pairwise.imp_of_mem (fun {a b} first second _ => ?_) (List.pairwise_of_forall (R := fun _ _ => True) fun _ _ => trivial)
    have here : a.scope = scope := by simpa using (List.mem_filter.mp first).2
    have there : b.scope = scope := by simpa using (List.mem_filter.mp second).2
    simp [here,there]
  have inside := (List.sublist_mergeSort trans total alike List.filter_sublist).filter (fun l => decide (l.scope = scope))
  rw [List.filter_filter] at inside
  simp only [Bool.and_self] at inside
  refine (inside.eq_of_length ?_).symm
  exact (((List.mergeSort_perm layers _).filter _).length_eq).symm

theorem push_holds (holds : Holds m piles) (scope : VarScope) (label : String) (values : Vars) :
    Holds (m.push_layer scope label values) (Function.update piles scope (values :: piles scope)) := by
  refine ⟨?_,fun other => ?_⟩
  · have sorted : (m.push_layer scope label values).layers.Pairwise fun a b => decide (a.scope.rank ≤ b.scope.rank) :=
      List.pairwise_mergeSort (fun a b c => by simpa using Nat.le_trans) (fun a b => by simpa using Nat.le_total _ _) _
    exact sorted.imp fun below => of_decide_eq_true below
  · rw [VarManager.push_layer,filter_sorted,List.filter_append]
    by_cases same : scope = other
    · subst same
      simp [← holds.layers]
    · rw [Function.update_of_ne (Ne.symm same),← holds.layers other]
      simp [same]

theorem pop_holds (holds : Holds m piles) (scope : VarScope) : Holds (m.pop_scope scope) (Function.update piles scope []) := by
  refine ⟨holds.ordered.sublist List.filter_sublist,fun other => ?_⟩
  rw [VarManager.pop_scope,List.filter_filter]
  by_cases same : other = scope
  · subst same
    simp
  · rw [Function.update_of_ne same,← holds.layers other]
    congr 2
    refine List.filter_congr fun layer _ => ?_
    by_cases here : layer.scope = other
    · simp [here,same]
    · simp [here]

/-- `set` writes into the last layer of the scope, and finds none only where there is none. -/
theorem setLast_cases (scope : VarScope) (key : String) (value : Value) (layers : List VarLayer) :
    (VarManager.setLast scope key value layers = none ∧ ∀ layer ∈ layers, layer.scope ≠ scope) ∨
    ∃ before layer after, layers = before ++ layer :: after ∧ layer.scope = scope ∧ (∀ other ∈ after, other.scope ≠ scope) ∧
      VarManager.setLast scope key value layers = some (before ++ { layer with values := layer.values.insert key value } :: after) := by
  induction layers with
  | nil => exact .inl ⟨rfl,nofun⟩
  | cons first later ih =>
    rcases ih with ⟨absent,others⟩ | ⟨before,layer,after,rfl,own,others,written⟩
    · by_cases here : first.scope = scope
      · exact .inr ⟨[],first,later,rfl,here,others,by simp [VarManager.setLast,absent,here]⟩
      · exact .inl ⟨by simp [VarManager.setLast,absent,here],List.forall_mem_cons.mpr ⟨here,others⟩⟩
    · exact .inr ⟨first :: before,layer,after,rfl,own,others,by simp [VarManager.setLast,written]⟩

theorem set_holds (holds : Holds m piles) (scope : VarScope) (key : String) (value : Value) :
    Holds (m.set scope key value) (Function.update piles scope (writeTop key value (piles scope))) := by
  rcases setLast_cases scope key value m.layers with ⟨absent,others⟩ | ⟨before,layer,after,split,own,others,written⟩
  · have empty : piles scope = [] := by
      rw [← holds.layers scope,List.filter_eq_nil_iff.mpr (by simpa using others)]
      rfl
    rw [VarManager.set,absent,empty]
    simpa only [empty,writeTop] using push_holds holds scope scope.label (AList.insert key value ∅)
  · rw [VarManager.set,written]
    have clear : after.filter (·.scope = scope) = [] := List.filter_eq_nil_iff.mpr (by simpa using others)
    refine ⟨?_,fun other => ?_⟩
    · have ordered := holds.ordered
      rw [split] at ordered
      simpa [List.pairwise_append] using ordered
    · by_cases same : other = scope
      · subst same
        rw [Function.update_self,← holds.layers other,split]
        simp [own,clear,writeTop]
      · rw [Function.update_of_ne same,← holds.layers other,split]
        have apart : layer.scope ≠ other := own ▸ Ne.symm same
        simp [List.filter_append,apart]

/-- Every request moves the stack of its own scope and no other. -/
theorem perform_holds (holds : Holds m piles) (request : Request) :
    Holds (perform m request) (Function.update piles request.scope (moved (piles request.scope) request)) := by
  cases request with
  | push_layer scope label values => exact push_holds holds scope label values
  | set scope key value => exact set_holds holds scope key value
  | pop_scope scope => exact pop_holds holds scope
  | register_result name output => exact set_holds holds .Task name output

theorem stack_snoc (requests : List Request) (request : Request) :
    stack (requests ++ [request]) = Function.update (stack requests) request.scope (moved (stack requests request.scope) request) := by
  funext scope
  rw [stack,List.filter_append,List.foldl_append]
  by_cases same : scope = request.scope
  · subst same
    simp [stack]
  · simp [Ne.symm same,Function.update_of_ne same,stack]

theorem run_holds (requests : List Request) : Holds (run perform VarManager.new requests) (stack requests) := by
  induction requests using List.reverseRecOn with
  | nil => exact ⟨List.Pairwise.nil,fun _ => rfl⟩
  | append_singleton requests request ih =>
    rw [run_snoc,stack_snoc]
    exact perform_holds ih request

/-! ### The value that is found -/

/-- What `get` finds prevails in the stacks. -/
theorem prevails_of_get (holds : Holds m piles) {key : String} {value : Value} (found : m.get key = some value) :
    ∃ scope, Prevails piles key value scope := by
  obtain ⟨above,layer,below,split,here,absent⟩ := List.findSome?_eq_some_iff.mp found
  have ordered := List.pairwise_reverse.mpr holds.ordered
  rw [split] at ordered
  have lower := (List.pairwise_cons.mp (List.pairwise_append.mp ordered).2.1).1
  have layers (scope : VarScope) : piles scope = ((above ++ layer :: below).filter (·.scope = scope)).map VarLayer.values := by
    rw [← holds.layers scope,← split,List.filter_reverse,List.map_reverse]
  refine ⟨layer.scope,⟨fun higher greater values member => ?_,?_⟩⟩
  · rw [layers higher] at member
    obtain ⟨other,inside,rfl⟩ := List.mem_map.mp member
    obtain ⟨there,tagged⟩ := List.mem_filter.mp inside
    have own : other.scope = higher := of_decide_eq_true tagged
    rcases List.mem_append.mp there with first | rest
    · exact absent other first
    · rcases List.mem_cons.mp rest with rfl | later
      · exact absurd greater (own ▸ Nat.lt_irrefl _)
      · exact absurd greater (Nat.not_lt.mpr (own ▸ lower other later))
  · refine ⟨(above.filter (·.scope = layer.scope)).map VarLayer.values,layer.values,
      (below.filter (·.scope = layer.scope)).map VarLayer.values,?_,here,fun other member => ?_⟩
    · rw [layers]
      simp [List.filter_append]
    · obtain ⟨newer,inside,rfl⟩ := List.mem_map.mp member
      exact absent newer (List.mem_filter.mp inside).1

/-- At most one value prevails. -/
theorem Prevails.unique {key : String} {value other : Value} {scope scope' : VarScope} (prevails : Prevails piles key value scope)
    (prevails' : Prevails piles key other scope') : value = other := by
  obtain ⟨newer,layer,older,split,here,absent⟩ := prevails.latest
  obtain ⟨newer',layer',older',split',here',absent'⟩ := prevails'.latest
  rcases Nat.lt_trichotomy scope.rank scope'.rank with less | same | greater
  · exact nomatch (prevails.highest scope' less layer' (split' ▸ by simp)).symm.trans here'
  · obtain rfl := rank_injective same
    have first : (piles scope).findSome? (fun layer => layer.lookup key) = some value :=
      List.findSome?_eq_some_iff.mpr ⟨newer,layer,older,split,here,absent⟩
    have first' : (piles scope).findSome? (fun layer => layer.lookup key) = some other :=
      List.findSome?_eq_some_iff.mpr ⟨newer',layer',older',split',here',absent'⟩
    exact Option.some.inj (first.symm.trans first')
  · exact nomatch (prevails'.highest scope greater layer (split ▸ by simp)).symm.trans here

theorem get_iff (holds : Holds m piles) (key : String) (value : Value) : m.get key = some value ↔ ∃ scope, Prevails piles key value scope := by
  refine ⟨prevails_of_get holds,fun ⟨scope,prevails⟩ => ?_⟩
  obtain ⟨newer,layer,older,split,here,-⟩ := prevails.latest
  cases found : m.get key with
  | none =>
    have member : layer ∈ piles scope := split ▸ by simp
    rw [← holds.layers scope,List.mem_reverse] at member
    obtain ⟨there,inside,rfl⟩ := List.mem_map.mp member
    have missing := List.findSome?_eq_none_iff.mp found there (List.mem_reverse.mpr (List.mem_filter.mp inside).1)
    exact nomatch missing.symm.trans here
  | some other =>
    obtain ⟨_,prevails'⟩ := prevails_of_get holds found
    rw [prevails.unique prevails']

end

/-- After any run a variable has the value that prevails in the stacks of the scopes, the merged variables say the same,
and runs with the same requests for each scope give the same, however these are mixed. -/
theorem precedence (requests : List Request) (key : String) :
    (run perform VarManager.new requests).get key = (run perform VarManager.new requests).merged.lookup key ∧
    (∀ value, (run perform VarManager.new requests).get key = some value ↔ ∃ scope, Prevails (stack requests) key value scope) ∧
    ∀ mixed : List Request, (∀ scope, mixed.filter (·.scope = scope) = requests.filter (·.scope = scope)) →
      (run perform VarManager.new mixed).get key = (run perform VarManager.new requests).get key := by
  refine ⟨get_merged _ key,get_iff (run_holds requests) key,fun mixed same => ?_⟩
  have piles : stack mixed = stack requests := funext fun scope => by rw [stack,stack,same scope]
  refine Option.ext fun value => ?_
  rw [get_iff (run_holds mixed),get_iff (run_holds requests),piles]

/-- A layer of a play and one of a task give the same in either order. -/
theorem precedence_mixed : (run perform VarManager.new [.push_layer .Task "t" ∅,.push_layer .Play "p" ∅]).get "x" =
    (run perform VarManager.new [.push_layer .Play "p" ∅,.push_layer .Task "t" ∅]).get "x" :=
  (precedence [.push_layer .Play "p" ∅,.push_layer .Task "t" ∅] "x").2.2 _ fun scope => by cases scope <;> rfl

end Daf.Precedence
