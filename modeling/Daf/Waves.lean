import Daf.Layers
import Mathlib.Data.List.Count
import Mathlib.Data.List.Perm.Subperm
import Mathlib.Data.List.Nodup
import Mathlib.Data.List.Range

/-!
Topological sorting in waves. The nodes are the numbers below the length of a list
that gives for each node the nodes it waits for, with repetitions. Each node counts
what it still waits for, and joins the next wave when its count reaches zero.
-/
namespace Daf.Waves

/-! ### The graph -/

/-- Node `i` waits for node `j`: one more in its count, and one more dependent of `j`. -/
def addEdge (i : Nat) (graph : List Nat × List (List Nat)) (j : Nat) : List Nat × List (List Nat) :=
  (graph.1.modify i (· + 1),graph.2.modify j (· ++ [i]))

def addNode (graph : List Nat × List (List Nat)) (node : List Nat × Nat) : List Nat × List (List Nat) :=
  node.1.foldl (addEdge node.2) graph

/-- The counts and the dependents of all nodes. -/
def build (waits : List (List Nat)) : List Nat × List (List Nat) :=
  waits.zipIdx.foldl addNode (List.replicate waits.length 0,List.replicate waits.length [])

theorem getD_modify {α : Type} (l : List α) (i k : Nat) (f : α → α) (d : α) (inside : i < l.length) :
    (l.modify i f).getD k d = if k = i then f (l.getD k d) else l.getD k d := by
  rw [List.getD_eq_getElem?_getD,List.getD_eq_getElem?_getD,List.getElem?_modify]
  by_cases same : k = i
  · subst same
    simp [List.getElem?_eq_getElem inside]
  · simp [same,Ne.symm same]

/-- What the graph of the nodes below a bound knows about the first of them. -/
structure Linked (n : Nat) (graph : List Nat × List (List Nat)) (waits : List (List Nat)) : Prop where
  counts : graph.1.length = n
  dependents : graph.2.length = n
  degree : ∀ k, graph.1.getD k 0 = (waits.getD k []).length
  edges : ∀ k m, m < n → (graph.2.getD m []).count k = (waits.getD k []).count m

/-- A change of the last node does not show at the others. -/
theorem getD_concat_ne (waits : List (List Nat)) (node : List Nat) {k : Nat} (other : k ≠ waits.length) :
    (waits ++ [node]).getD k [] = waits.getD k [] := by
  rw [List.getD_eq_getElem?_getD,List.getD_eq_getElem?_getD]
  by_cases old : k < waits.length
  · rw [List.getElem?_append_left old]
  · rw [List.getElem?_eq_none (by simp; omega),List.getElem?_eq_none (by omega)]

theorem getD_concat_self (waits : List (List Nat)) (node : List Nat) : (waits ++ [node]).getD waits.length [] = node := by simp

section
variable {n : Nat} {graph : List Nat × List (List Nat)} {waits : List (List Nat)}

theorem linked_addEdge {done : List Nat} {j : Nat} (linked : Linked n graph (waits ++ [done])) (room : waits.length < n)
    (known : j < n) : Linked n (addEdge waits.length graph j) (waits ++ [done ++ [j]]) where
  counts := by simp [addEdge,linked.counts]
  dependents := by simp [addEdge,linked.dependents]
  degree k := by
    show (graph.1.modify waits.length (· + 1)).getD k 0 = _
    rw [getD_modify _ _ _ _ _ (linked.counts ▸ room),linked.degree k]
    by_cases here : k = waits.length
    · rw [if_pos here,here,getD_concat_self,getD_concat_self,List.length_append,List.length_singleton]
    · rw [if_neg here,getD_concat_ne _ _ here,getD_concat_ne _ _ here]
  edges k m small := by
    have before := linked.edges k m small
    show ((graph.2.modify j (· ++ [waits.length])).getD m []).count k = _
    rw [getD_modify _ _ _ _ _ (linked.dependents ▸ known)]
    by_cases here : k = waits.length
    · rw [here,getD_concat_self] at before ⊢
      rw [List.count_append,← before]
      by_cases hit : m = j
      · simp [hit]
      · simp [hit,Ne.symm hit]
    · rw [getD_concat_ne _ _ here] at before ⊢
      rw [← before]
      by_cases hit : m = j
      · simp [hit,Ne.symm here]
      · rw [if_neg hit]

theorem linked_addEdges {done later : List Nat} (linked : Linked n graph (waits ++ [done])) (room : waits.length < n)
    (known : ∀ j ∈ later, j < n) : Linked n (later.foldl (addEdge waits.length) graph) (waits ++ [done ++ later]) := by
  induction later generalizing done graph with
  | nil =>
    rw [List.append_nil]
    exact linked
  | cons j later ih =>
    have next := ih (linked_addEdge linked room (known j List.mem_cons_self)) (fun k member => known k (List.mem_cons_of_mem j member))
    rwa [List.append_assoc] at next

theorem linked_addNode (linked : Linked n graph waits) (room : waits.length < n) {node : List Nat} (known : ∀ j ∈ node, j < n) :
    Linked n (addNode graph (node,waits.length)) (waits ++ [node]) := by
  have empty : ∀ k, (waits ++ [[]]).getD k [] = waits.getD k [] := by
    intro k
    by_cases here : k = waits.length
    · rw [here,getD_concat_self]
      simp
    · exact getD_concat_ne waits [] here
  have start : Linked n graph (waits ++ [[]]) := by
    refine ⟨linked.counts,linked.dependents,fun k => ?_,fun k m small => ?_⟩
    · rw [empty,linked.degree]
    · rw [empty,linked.edges k m small]
  exact linked_addEdges start room known

end

theorem linked_build {waits : List (List Nat)} (known : ∀ node ∈ waits, ∀ j ∈ node, j < waits.length) :
    Linked waits.length (build waits) waits := by
  have prefixes : ∀ done, ∀ n, done.length ≤ n → (∀ node ∈ done, ∀ j ∈ node, j < n) →
      Linked n (done.zipIdx.foldl addNode (List.replicate n 0,List.replicate n [])) done := by
    intro done
    induction done using List.reverseRecOn with
    | nil =>
      intro n _ _
      exact ⟨by simp,by simp,fun k => by simp [List.getElem?_replicate]; split_ifs <;> rfl,fun k m small => by simp [small]⟩
    | append_singleton done node ih =>
      intro n short low
      have before := ih n (by simp at short; omega) (fun other member => low other (by simp [member]))
      rw [List.zipIdx_append,List.foldl_append,Nat.zero_add]
      exact linked_addNode before (by simp at short; omega) (low node (by simp))
  exact prefixes waits waits.length le_rfl known

/-! ### The waves -/

/-- A node that a dependent waits for is done. -/
def release (state : List Nat × List Nat) (i : Nat) : List Nat × List Nat :=
  let counts := state.1.modify i (· - 1)
  (counts,if counts.getD i 0 = 0 then state.2 ++ [i] else state.2)

/-- The counts after a wave, and the wave that follows. -/
def nextWave (dependents : List (List Nat)) (counts wave : List Nat) : List Nat × List Nat :=
  wave.foldl (fun state j => (dependents.getD j []).foldl release state) (counts,[])

/-- Wave after wave until one is empty, for at most so many rounds. -/
def loop (dependents : List (List Nat)) : Nat → List Nat → List Nat → Nat → List (List Nat) → List (List Nat) × Nat
  | 0,_,_,remaining,waves => (waves,remaining)
  | rounds + 1,counts,wave,remaining,waves =>
    if wave.isEmpty then (waves,remaining)
    else
      let (counts',next) := nextWave dependents counts wave
      loop dependents rounds counts' next (remaining - wave.length) (waves ++ [wave])

/-- All waves and the number of nodes in none of them. -/
def layers (waits : List (List Nat)) : List (List Nat) × Nat :=
  let (counts,dependents) := build waits
  let first := (List.range waits.length).filter (fun i => counts.getD i 0 = 0)
  loop dependents (waits.length + 1) counts first waits.length []

section
variable {counts : List Nat}

theorem release_counts {i : Nat} (waiting : 0 < counts.getD i 0) (k : Nat) :
    (counts.modify i (· - 1)).getD k 0 = counts.getD k 0 - if k = i then 1 else 0 := by
  have inside : i < counts.length := by
    by_contra outside
    simp [List.getElem?_eq_none (Nat.le_of_not_lt outside)] at waiting
  rw [getD_modify _ _ _ _ _ inside]
  split_ifs <;> simp

/-- What the nodes that wait for finished ones come to. -/
theorem releases (done : List Nat) (next : List Nat) (enough : ∀ i, done.count i ≤ counts.getD i 0) :
    ∃ new, (done.foldl release (counts,next)).2 = next ++ new ∧ new.Nodup ∧
      (∀ i, i ∈ new ↔ 0 < counts.getD i 0 ∧ done.count i = counts.getD i 0) ∧
      (done.foldl release (counts,next)).1.length = counts.length ∧
      ∀ i, (done.foldl release (counts,next)).1.getD i 0 = counts.getD i 0 - done.count i := by
  induction done generalizing counts next with
  | nil =>
    refine ⟨[],by simp,List.nodup_nil,fun i => ?_,rfl,by simp⟩
    simp only [List.not_mem_nil,List.count_nil,false_iff]
    omega
  | cons j later ih =>
    have waiting : 0 < counts.getD j 0 := by
      have more := enough j
      simp only [List.count_cons_self] at more
      omega
    have one := release_counts waiting
    have enough' : ∀ i, later.count i ≤ (counts.modify j (· - 1)).getD i 0 := by
      intro i
      rw [one i]
      have more := enough i
      by_cases same : i = j
      · subst same
        simp only [List.count_cons_self,if_true] at more ⊢
        omega
      · simp only [List.count_cons_of_ne (Ne.symm same),if_neg same] at more ⊢
        omega
    obtain ⟨new,added,distinct,member,size,left⟩ :=
      ih (if (counts.modify j (· - 1)).getD j 0 = 0 then next ++ [j] else next) enough'
    have self := one j
    rw [if_pos rfl] at self
    refine ⟨(if (counts.modify j (· - 1)).getD j 0 = 0 then [j] else []) ++ new,?_,?_,fun i => ?_,?_,fun i => ?_⟩
    · rw [List.foldl_cons,release,added]
      split_ifs <;> simp
    · split_ifs with zero
      · refine List.nodup_cons.mpr ⟨fun twice => ?_,distinct⟩
        have positive := ((member j).mp twice).1
        omega
      · exact distinct
    · have rest := member i
      rw [one i] at rest
      by_cases same : i = j
      · subst same
        have more := enough' i
        rw [List.count_cons_self,List.mem_append]
        split_ifs with zero
        · simp only [List.mem_singleton,true_or,true_iff]
          omega
        · simp only [List.not_mem_nil,false_or]
          rw [rest,if_pos rfl]
          omega
      · rw [List.count_cons_of_ne (Ne.symm same),List.mem_append]
        rw [if_neg same] at rest
        split_ifs with zero <;> simp [same,rest]
    · rw [List.foldl_cons,release,size]
      simp
    · rw [List.foldl_cons,release,left i,one i]
      by_cases same : i = j
      · subst same
        rw [if_pos rfl,List.count_cons_self]
        omega
      · rw [if_neg same,List.count_cons_of_ne (Ne.symm same)]
        omega

end

/-- Before each round: the nodes of the waves so far are distinct, each node counts
    what it waits for outside of the finished waves, and those that wait for nothing
    are in a wave. -/
structure Progress (waits : List (List Nat)) (done wave counts : List Nat) : Prop where
  distinct : (done ++ wave).Nodup
  size : counts.length = waits.length
  left : ∀ i, counts.getD i 0 = (waits.getD i []).countP (· ∉ done)
  free : ∀ i, i ∈ done ++ wave ↔ i < waits.length ∧ counts.getD i 0 = 0

/-- The edges out of distinct nodes, counted at their ends. -/
theorem count_flatMap_dependents {waits : List (List Nat)} {graph : List Nat × List (List Nat)}
    (linked : Linked waits.length graph waits) {wave : List Nat} (distinct : wave.Nodup) (low : ∀ j ∈ wave, j < waits.length) (i : Nat) :
    (wave.flatMap (fun j => graph.2.getD j [])).count i = (waits.getD i []).countP (· ∈ wave) := by
  induction wave with
  | nil => simp
  | cons j later ih =>
    rw [List.nodup_cons] at distinct
    rw [List.flatMap_cons,List.count_append,linked.edges i j (low j List.mem_cons_self),
      ih distinct.2 (fun k member => low k (List.mem_cons_of_mem j member))]
    simp only [List.mem_cons]
    induction waits.getD i [] with
    | nil => simp
    | cons k rest more =>
      by_cases same : k = j
      · subst same
        simp only [List.count_cons_self,List.countP_cons,true_or,decide_true,if_true,distinct.1,decide_false,
          Bool.false_eq_true,if_false]
        omega
      · simp only [List.count_cons_of_ne same,List.countP_cons,same,false_or]
        omega

theorem progress_nextWave {waits : List (List Nat)} {graph : List Nat × List (List Nat)} (linked : Linked waits.length graph waits)
    {done wave counts : List Nat} (progress : Progress waits done wave counts) :
    Progress waits (done ++ wave) (nextWave graph.2 counts wave).2 (nextWave graph.2 counts wave).1 := by
  have low : ∀ j ∈ wave, j < waits.length := fun j member => ((progress.free j).mp (List.mem_append_right done member)).1
  have apart := List.nodup_append.mp progress.distinct
  have hits := count_flatMap_dependents linked apart.2.1 low
  have split : ∀ i, (waits.getD i []).countP (· ∉ done) =
      (waits.getD i []).countP (· ∈ wave) + (waits.getD i []).countP (· ∉ done ++ wave) := by
    intro i
    induction waits.getD i [] with
    | nil => rfl
    | cons k rest more =>
      simp only [List.countP_cons,List.mem_append]
      by_cases old : k ∈ done
      · have new : k ∉ wave := fun member => apart.2.2 k old k member rfl
        simp only [old,new,more]
        simp
      · by_cases new : k ∈ wave
        · simp only [old,new,more]
          simp
          omega
        · simp only [old,new,more]
          simp
          omega
  have flat : nextWave graph.2 counts wave = (wave.flatMap (fun j => graph.2.getD j [])).foldl release (counts,[]) := by
    rw [nextWave,List.foldl_flatMap]
  obtain ⟨new,added,distinct,member,size,left⟩ := @releases counts (wave.flatMap (fun j => graph.2.getD j [])) [] (fun i => by
    rw [hits,progress.left i,split i]
    omega)
  rw [flat,added,List.nil_append]
  refine ⟨?_,size.trans progress.size,fun i => ?_,fun i => ?_⟩
  · refine List.nodup_append.mpr ⟨progress.distinct,distinct,?_⟩
    rintro i old j fresh rfl
    have zero := ((progress.free i).mp old).2
    have positive := ((member i).mp fresh).1
    omega
  · rw [left i,hits,progress.left i,split i]
    omega
  · rw [left i,hits,List.mem_append,member i,progress.free i,hits]
    have total := (progress.left i).trans (split i)
    constructor
    · rintro (⟨inside,zero⟩ | ⟨positive,all⟩)
      · exact ⟨inside,by omega⟩
      · refine ⟨?_,by omega⟩
        by_contra outside
        rw [List.getD_eq_getElem?_getD,List.getElem?_eq_none (by rw [progress.size]; omega)] at positive
        simp at positive
    · rintro ⟨inside,zero⟩
      by_cases now : counts.getD i 0 = 0
      · exact .inl ⟨inside,now⟩
      · exact .inr ⟨by omega,by omega⟩

/-- The node waits for the other one. -/
def WaitsFor (waits : List (List Nat)) (i j : Nat) : Prop := j ∈ waits.getD i []

theorem Progress.fits {waits : List (List Nat)} {done wave counts : List Nat} (progress : Progress waits done wave counts) :
    Layers.Fits (WaitsFor waits) (List.range waits.length) done wave := by
  have free : ∀ i, counts.getD i 0 = 0 ↔ ∀ j, WaitsFor waits i j → j ∈ done := by
    intro i
    rw [progress.left i,List.countP_eq_zero]
    simp [WaitsFor]
  intro i
  rw [List.mem_range,← free]
  constructor
  · intro now
    obtain ⟨inside,zero⟩ := (progress.free i).mp (List.mem_append_right done now)
    exact ⟨inside,fun old => (List.nodup_append.mp progress.distinct).2.2 i old i now rfl,zero⟩
  · rintro ⟨inside,fresh,zero⟩
    exact (List.mem_append.mp ((progress.free i).mpr ⟨inside,zero⟩)).resolve_left fresh

/-- The nodes of distinct waves are at most all nodes. -/
theorem Progress.length_le {waits : List (List Nat)} {done wave counts : List Nat} (progress : Progress waits done wave counts) :
    (done ++ wave).length ≤ waits.length := by
  have sub : (done ++ wave) ⊆ List.range waits.length := fun i member => List.mem_range.mpr ((progress.free i).mp member).1
  simpa using (progress.distinct.subperm sub).length_le

theorem loop_waves {waits : List (List Nat)} {graph : List Nat × List (List Nat)} (linked : Linked waits.length graph waits)
    {rounds : Nat} {counts wave : List Nat} {waves : List (List Nat)} (progress : Progress waits waves.flatten wave counts)
    (greedy : Layers.Greedy (WaitsFor waits) (List.range waits.length) waves) (enough : waits.length < rounds + waves.flatten.length) :
    ∃ counts', Progress waits (loop graph.2 rounds counts wave (waits.length - waves.flatten.length) waves).1.flatten [] counts' ∧
      Layers.Greedy (WaitsFor waits) (List.range waits.length) (loop graph.2 rounds counts wave (waits.length - waves.flatten.length) waves).1 ∧
      (loop graph.2 rounds counts wave (waits.length - waves.flatten.length) waves).2 =
        waits.length - (loop graph.2 rounds counts wave (waits.length - waves.flatten.length) waves).1.flatten.length := by
  induction rounds generalizing counts wave waves with
  | zero =>
    have bound := progress.length_le
    simp only [List.length_append] at bound
    omega
  | succ rounds ih =>
    rw [loop]
    split_ifs with empty
    · rw [List.isEmpty_iff.mp empty] at progress
      exact ⟨counts,progress,greedy,rfl⟩
    · have flat : (waves ++ [wave]).flatten = waves.flatten ++ wave := by simp
      have filled : wave ≠ [] := fun same => empty (by simp [same])
      have next := progress_nextWave linked progress
      rw [← flat] at next
      have positive : 0 < wave.length := List.length_pos_iff.mpr filled
      have rest := ih next (greedy.concat filled progress.fits) (by rw [flat,List.length_append]; omega)
      have same : waits.length - waves.flatten.length - wave.length = waits.length - (waves ++ [wave]).flatten.length := by
        rw [flat,List.length_append]
        omega
      simp only [same]
      exact rest

theorem start_progress {waits : List (List Nat)} (known : ∀ node ∈ waits, ∀ j ∈ node, j < waits.length) :
    Progress waits [] ((List.range waits.length).filter (fun i => (build waits).1.getD i 0 = 0)) (build waits).1 := by
  have linked := linked_build known
  refine ⟨List.nodup_range.filter _,linked.counts,fun i => ?_,fun i => by simp⟩
  rw [linked.degree i]
  simp

/-- The waves take every node as early as they can, and what is left over is counted. -/
theorem layers_greedy {waits : List (List Nat)} (known : ∀ node ∈ waits, ∀ j ∈ node, j < waits.length) :
    ∃ counts, Progress waits (layers waits).1.flatten [] counts ∧ Layers.Greedy (WaitsFor waits) (List.range waits.length) (layers waits).1 ∧
      (layers waits).2 = waits.length - (layers waits).1.flatten.length :=
  @loop_waves _ _ (linked_build known) (waits.length + 1) _ _ [] (start_progress known) .nil (by simp)

/-- If no node is left over, every node is in exactly one wave. -/
theorem layers_perm {waits : List (List Nat)} (known : ∀ node ∈ waits, ∀ j ∈ node, j < waits.length)
    (complete : (layers waits).2 = 0) : (layers waits).1.flatten.Perm (List.range waits.length) := by
  obtain ⟨counts,progress,-,remaining⟩ := layers_greedy known
  have distinct := progress.distinct
  rw [List.append_nil] at distinct
  have sub : (layers waits).1.flatten ⊆ List.range waits.length :=
    fun i member => List.mem_range.mpr ((progress.free i).mp (by simpa using member)).1
  refine List.Subperm.perm_of_length_le (distinct.subperm sub) ?_
  rw [List.length_range]
  omega

/-- No node is left over exactly when none waits for itself. -/
theorem layers_complete_iff {waits : List (List Nat)} (known : ∀ node ∈ waits, ∀ j ∈ node, j < waits.length) :
    (layers waits).2 = 0 ↔ Cycles.Acyclic (WaitsFor waits) := by
  obtain ⟨counts,progress,greedy,remaining⟩ := layers_greedy known
  have inside : ∀ i j, WaitsFor waits i j → i ∈ List.range waits.length ∧ j ∈ List.range waits.length := by
    intro i j need
    have small : i < waits.length := by
      by_contra outside
      rw [WaitsFor,List.getD_eq_getElem?_getD,List.getElem?_eq_none (Nat.le_of_not_lt outside)] at need
      cases need
    have listed : waits.getD i [] ∈ waits := by
      rw [List.getD_eq_getElem?_getD,List.getElem?_eq_getElem small,Option.getD_some]
      exact List.getElem_mem small
    exact ⟨List.mem_range.mpr small,List.mem_range.mpr (known _ listed j need)⟩
  rw [← greedy.complete_iff inside progress.fits]
  constructor
  · intro complete i member
    exact (layers_perm known complete).mem_iff.mpr member
  · intro all
    have whole := (List.nodup_range (n := waits.length)).subperm all |>.length_le
    rw [List.length_range] at whole
    omega

/-! ### Subtractions -/

/-- `release` where a count that is zero cannot be lowered. -/
def checkedRelease (state : List Nat × List Nat) (i : Nat) : Option (List Nat × List Nat) :=
  if state.1.getD i 0 = 0 then none else some (release state i)

/-- `loop` where no number falls below zero. -/
def checkedLoop (dependents : List (List Nat)) : Nat → List Nat → List Nat → Nat → List (List Nat) → Option (List (List Nat) × Nat)
  | 0,_,_,remaining,waves => some (waves,remaining)
  | rounds + 1,counts,wave,remaining,waves =>
    if wave.isEmpty then some (waves,remaining)
    else if remaining < wave.length then none
    else
      (wave.foldlM (fun state j => (dependents.getD j []).foldlM checkedRelease state) (counts,[])).bind fun next =>
        checkedLoop dependents rounds next.1 next.2 (remaining - wave.length) (waves ++ [wave])

def checkedLayers (waits : List (List Nat)) : Option (List (List Nat) × Nat) :=
  let (counts,dependents) := build waits
  let first := (List.range waits.length).filter (fun i => counts.getD i 0 = 0)
  checkedLoop dependents (waits.length + 1) counts first waits.length []

theorem checkedRelease_all (done : List Nat) : ∀ (counts next : List Nat), (∀ i, done.count i ≤ counts.getD i 0) →
    done.foldlM checkedRelease (counts,next) = some (done.foldl release (counts,next)) := by
  induction done with
  | nil => exact fun _ _ _ => rfl
  | cons j later ih =>
    intro counts next enough
    have waiting : 0 < counts.getD j 0 := by
      have more := enough j
      rw [List.count_cons_self] at more
      omega
    have one := release_counts waiting
    rw [List.foldlM_cons,checkedRelease,if_neg (Nat.pos_iff_ne_zero.mp waiting),List.foldl_cons]
    refine ih _ _ fun i => ?_
    show later.count i ≤ (counts.modify j (· - 1)).getD i 0
    rw [one i]
    have more := enough i
    by_cases same : i = j
    · subst same
      rw [List.count_cons_self] at more
      rw [if_pos rfl]
      omega
    · rw [List.count_cons_of_ne (Ne.symm same)] at more
      rw [if_neg same]
      omega

theorem foldlM_flatMap {α β σ : Type} (l : List α) (f : α → List β) (step : σ → β → Option σ) (start : σ) :
    l.foldlM (fun state a => (f a).foldlM step state) start = (l.flatMap f).foldlM step start := by
  induction l generalizing start with
  | nil => rfl
  | cons a later ih =>
    rw [List.foldlM_cons,List.flatMap_cons,List.foldlM_append]
    exact congrArg _ (funext ih)

theorem checkedLoop_eq {waits : List (List Nat)} {graph : List Nat × List (List Nat)} (linked : Linked waits.length graph waits) {rounds : Nat}
    {counts wave : List Nat} {waves : List (List Nat)} (progress : Progress waits waves.flatten wave counts) :
    checkedLoop graph.2 rounds counts wave (waits.length - waves.flatten.length) waves =
      some (loop graph.2 rounds counts wave (waits.length - waves.flatten.length) waves) := by
  induction rounds generalizing counts wave waves with
  | zero => rfl
  | succ rounds ih =>
    rw [checkedLoop,loop]
    split_ifs with empty short
    · rfl
    · have bound := progress.length_le
      rw [List.length_append] at bound
      omega
    · have flat : (waves ++ [wave]).flatten = waves.flatten ++ wave := by simp
      have low : ∀ j ∈ wave, j < waits.length := fun j member => ((progress.free j).mp (List.mem_append_right _ member)).1
      have apart := List.nodup_append.mp progress.distinct
      have hits := count_flatMap_dependents linked apart.2.1 low
      have enough : ∀ i, (wave.flatMap (fun j => graph.2.getD j [])).count i ≤ counts.getD i 0 := by
        intro i
        rw [hits,progress.left i]
        refine List.countP_mono_left fun j _ there => ?_
        simpa using fun old => apart.2.2 j old j (by simpa using there) rfl
      have next := progress_nextWave linked progress
      rw [← flat] at next
      have same : waits.length - waves.flatten.length - wave.length = waits.length - (waves ++ [wave]).flatten.length := by
        rw [flat,List.length_append]
        omega
      have rest := ih next
      have flatWave : nextWave graph.2 counts wave = (wave.flatMap (fun j => graph.2.getD j [])).foldl release (counts,[]) := by
        rw [nextWave,List.foldl_flatMap]
      rw [foldlM_flatMap,checkedRelease_all _ _ _ enough,same,← flatWave]
      exact rest

/-- No count and no number of remaining nodes falls below zero. -/
theorem checkedLayers_eq {waits : List (List Nat)} (known : ∀ node ∈ waits, ∀ j ∈ node, j < waits.length) :
    checkedLayers waits = some (layers waits) := @checkedLoop_eq _ _ (linked_build known) _ _ _ [] (start_progress known)

end Daf.Waves
