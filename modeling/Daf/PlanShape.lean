import Daf.ProvisionPlan

/-!
The shape of a plan: one change for each desired resource, in some order, then a destroy for
each recorded resource that is neither desired nor protected. Whether there is a plan depends
on the desired resources alone.
-/
namespace Daf.PlanShape
open Daf.Json Daf.MissionPlan Daf.ProvisionPlan

/-! ### Lists as maps -/

section
variable {α β : Type} [DecidableEq α] (key : β → α)

/-- Later elements replace earlier ones with their key. -/
def indexed (l : List β) (m : AList (fun _ : α => β)) : AList (fun _ : α => β) := l.foldl (fun m b => m.insert (key b) b) m

theorem indexed_mem (l : List β) : ∀ (m : AList (fun _ : α => β)) (k : α), k ∈ indexed key l m ↔ k ∈ m ∨ k ∈ l.map key := by
  induction l with
  | nil => simp [indexed]
  | cons b later ih =>
    intro m k
    rw [indexed,List.foldl_cons,← indexed,ih,AList.mem_insert,List.map_cons,List.mem_cons]
    tauto

theorem indexed_lookup (l : List β) : ∀ (m : AList (fun _ : α => β)) (k : α) (c : β),
    (indexed key l m).lookup k = some c → (c ∈ l ∧ key c = k) ∨ m.lookup k = some c := by
  induction l with
  | nil => exact fun m k c found => .inr found
  | cons b later ih =>
    intro m k c found
    rcases ih _ k c found with ⟨there,same⟩ | old
    · exact .inl ⟨List.mem_cons_of_mem _ there,same⟩
    · by_cases same : k = key b
      · subst same
        rw [AList.lookup_insert] at old
        cases old
        exact .inl ⟨List.mem_cons_self,rfl⟩
      · rw [AList.lookup_insert_ne same] at old
        exact .inr old

theorem indexed_empty {l : List β} {k : α} {c : β} (found : (indexed key l ∅).lookup k = some c) : c ∈ l ∧ key c = k := by
  rcases indexed_lookup key l ∅ k c found with there | old
  · exact there
  · rw [AList.lookup_empty] at old
    cases old

theorem indexed_of_nodup {l : List β} (nodup : (l.map key).Nodup) {c : β} (there : c ∈ l) : (indexed key l ∅).lookup (key c) = some c := by
  have isKey : key c ∈ indexed key l ∅ := (indexed_mem key l ∅ _).2 (.inr (List.mem_map_of_mem there))
  obtain ⟨d,found⟩ := Option.isSome_iff_exists.1 (AList.lookup_isSome.2 isKey)
  obtain ⟨inside,same⟩ := indexed_empty key found
  rw [found,List.inj_on_of_nodup_map nodup inside there same]

end

/-! ### The changes of the plan -/

theorem changeFor_name (s : ProvisionState) (spec : ResourceSpec) : (changeFor s spec).1.resource_name = spec.name := by
  unfold changeFor
  split
  · rfl
  · simp only
    split <;> rfl

theorem changeFor_action (s : ProvisionState) (spec : ResourceSpec) : (changeFor s spec).1.action = actionFor (s.resources.lookup spec.name) spec := by
  unfold changeFor
  split
  · rename_i none
    rw [none]
    rfl
  · rename_i existing found
    rw [found]
    simp only
    split
    · rename_i same
      exact same.symm
    · rfl

theorem actionFor_ne_destroy (existing : Option Resource) (spec : ResourceSpec) : actionFor existing spec ≠ .Destroy := by
  unfold actionFor
  split
  · decide
  · split
    · decide
    · split <;> decide

/-- A change that is not a NoOp carries the desired config. -/
theorem changeFor_after (s : ProvisionState) (spec : ResourceSpec) (mutating : (changeFor s spec).1.action ≠ .NoOp) :
    (changeFor s spec).1.after = some spec.config := by
  unfold changeFor at mutating ⊢
  split
  · rfl
  · simp only at mutating ⊢
    split
    · simp_all
    · rfl

def names (desired : List ResourceSpec) : List String := desired.map (·.name)

theorem specMap_mem (desired : List ResourceSpec) (name : String) : name ∈ specMap desired ↔ name ∈ names desired := by
  have := indexed_mem (fun spec : ResourceSpec => spec.name) desired ∅ name
  simpa [specMap,names,indexed] using this

/-- The changes for the desired resources. -/
def wanted (s : ProvisionState) (desired : List ResourceSpec) : List ResourceChange := desired.map (fun spec => (changeFor s spec).1)

/-- The destroy of a recorded resource. -/
def destroyOf (name : String) (r : Resource) : ResourceChange := ⟨name,.Destroy,some r.spec.config,none,"resource removed from config"⟩

/-- The destroys, in the order in which the records are walked. -/
def unwanted (it : Iteration) (s : ProvisionState) (desired : List ResourceSpec) : List ResourceChange :=
  ((it.order s.resources.keys).filterMap (fun name => (s.resources.lookup name).map (destroyFor desired name))).filterMap Prod.fst

theorem detect_changes (it : Iteration) (s : ProvisionState) (desired : List ResourceSpec) :
    (detect it s desired).1 = wanted s desired ++ unwanted it s desired := by
  simp [detect,wanted,unwanted]

theorem mem_unwanted {it : Iteration} {s : ProvisionState} {desired : List ResourceSpec} {c : ResourceChange} :
    c ∈ unwanted it s desired ↔ ∃ name r, s.resources.lookup name = some r ∧ name ∉ names desired ∧
      r.spec.lifecycle.prevent_destroy = false ∧ c = destroyOf name r := by
  have recorded : ∀ name r, s.resources.lookup name = some r → name ∈ it.order s.resources.keys := by
    intro name r found
    rw [(it.perm _).mem_iff,← AList.mem_keys,← AList.lookup_isSome,found]
    rfl
  simp only [unwanted,List.mem_filterMap]
  constructor
  · rintro ⟨change,⟨name,_,found⟩,taken⟩
    obtain ⟨r,stored,rfl⟩ := Option.map_eq_some_iff.1 found
    unfold destroyFor at taken
    split at taken
    · cases taken
    · rename_i absent
      split at taken
      · cases taken
      · rename_i free
        cases taken
        exact ⟨name,r,stored,fun there => absent ((specMap_mem desired name).2 there),by simpa using free,rfl⟩
  · rintro ⟨name,r,stored,absent,free,rfl⟩
    refine ⟨destroyFor desired name r,⟨name,recorded name r stored,by simp [stored]⟩,?_⟩
    have missing : name ∉ specMap desired := fun there => absent ((specMap_mem desired name).1 there)
    simp [destroyFor,missing,free,destroyOf]

theorem wanted_names (s : ProvisionState) (desired : List ResourceSpec) : (wanted s desired).map (·.resource_name) = names desired := by
  simp [wanted,names,Function.comp_def,changeFor_name]

theorem wanted_action {s : ProvisionState} {desired : List ResourceSpec} {c : ResourceChange} (there : c ∈ wanted s desired) : c.action ≠ .Destroy := by
  obtain ⟨spec,-,rfl⟩ := List.mem_map.1 there
  rw [changeFor_action]
  exact actionFor_ne_destroy _ _

theorem unwanted_action {it : Iteration} {s : ProvisionState} {desired : List ResourceSpec} {c : ResourceChange}
    (there : c ∈ unwanted it s desired) : c.action = .Destroy := by
  obtain ⟨name,r,-,-,-,rfl⟩ := mem_unwanted.1 there
  rfl

theorem unwanted_nodup (it : Iteration) (s : ProvisionState) (desired : List ResourceSpec) :
    ((unwanted it s desired).map (·.resource_name)).Nodup := by
  have part : ((unwanted it s desired).map (·.resource_name)).Sublist (it.order s.resources.keys) := by
    unfold unwanted
    induction it.order s.resources.keys with
    | nil => exact List.Sublist.refl _
    | cons name later ih =>
      rw [List.filterMap_cons]
      cases stored : s.resources.lookup name with
      | none => exact ih.cons name
      | some r =>
        simp only [Option.map_some]
        rw [List.filterMap_cons]
        by_cases there : name ∈ specMap desired
        · simp only [destroyFor,there,if_true]
          exact ih.cons name
        · by_cases protect : r.spec.lifecycle.prevent_destroy = true
          · simp only [destroyFor,there,if_false,protect,if_true]
            exact ih.cons name
          · simp only [destroyFor,there,if_false,protect]
            exact ih.cons_cons name
  exact part.nodup ((it.perm _).nodup_iff.2 (AList.keys_nodup _))

theorem split_actions (it : Iteration) (s : ProvisionState) (desired : List ResourceSpec) :
    (detect it s desired).1.filter (·.action ≠ .Destroy) = wanted s desired ∧
      (detect it s desired).1.filter (·.action = .Destroy) = unwanted it s desired := by
  rw [detect_changes]
  constructor
  · rw [List.filter_append,List.filter_eq_self.2 (fun c there => by simpa using wanted_action there),
      List.filter_eq_nil_iff.2 (fun c there => by simpa using unwanted_action there),List.append_nil]
  · rw [List.filter_append,List.filter_eq_nil_iff.2 (fun c there => by simpa using wanted_action there),
      List.filter_eq_self.2 (fun c there => by simpa using unwanted_action there),List.nil_append]

/-! ### The order of the plan -/

/-- The desired names as they are sorted. -/
def sortedNames (it : Iteration) (desired : List ResourceSpec) : List String :=
  let graph := Kahn.build (names desired) (edges (names desired) desired)
  Kahn.sort graph ((it.order graph.in_degree.keys).filter (fun name => graph.in_degree.lookup name = some 0))

theorem sortedNames_sorted (it : Iteration) (desired : List ResourceSpec) :
    Kahn.Sorted (edges (names desired) desired) (names desired) (sortedNames it desired) := by
  refine Kahn.sort_sorted _ _ ?_ _ ((it.perm _).filter _)
  intro e there
  obtain ⟨name,inside,there⟩ := List.mem_flatMap.1 there
  revert there
  cases (specMap desired).lookup name with
  | none => simp
  | some spec =>
    intro there
    obtain ⟨dep,-,rfl⟩ := List.mem_map.1 there
    exact inside

theorem topological_sort_eq (it : Iteration) (s : ProvisionState) (desired : List ResourceSpec) :
    topological_sort it (detect it s desired).1 desired =
      if (sortedNames it desired).length ≠ (names desired).length then
        .error (.ConfigError "circular dependency detected in resource graph")
      else .ok ((sortedNames it desired).filterMap (fun name => (changeMap (detect it s desired).1).lookup name) ++ (unwanted it s desired).reverse) := by
  obtain ⟨kept,gone⟩ := split_actions it s desired
  have size : (wanted s desired).length = (names desired).length := by simp [wanted,names]
  simp only [topological_sort,kept,gone,wanted_names,size]
  rfl

/-- A plan exists for every state or for none. -/
theorem plan_ok_of {it : Iteration} (it' : Iteration) {s : ProvisionState} (s' : ProvisionState) {desired : List ResourceSpec} {p : Plan}
    (ok : plan it s desired = .ok p) :
    ∃ p', plan it' s' desired = .ok p' := by
  have same := ((sortedNames_sorted it desired).perm (sortedNames_sorted it' desired)).length_eq
  unfold plan at ok ⊢
  rw [topological_sort_eq] at ok ⊢
  by_cases full : (sortedNames it desired).length ≠ (names desired).length
  · rw [if_pos full] at ok
    cases ok
  · rw [if_neg (same ▸ full)]
    exact ⟨_,rfl⟩

/-- Looked up by name, the changes have these names. -/
theorem taken_names {m : AList (fun _ : String => ResourceChange)} (l : List String)
    (named : ∀ name ∈ l, ∃ c, m.lookup name = some c ∧ c.resource_name = name) :
    (l.filterMap (fun name => m.lookup name)).map (·.resource_name) = l := by
  induction l with
  | nil => rfl
  | cons name later ih =>
    obtain ⟨c,lookup,same⟩ := named name List.mem_cons_self
    simp only [List.filterMap_cons,lookup,List.map_cons,same]
    rw [ih (fun n there => named n (List.mem_cons_of_mem _ there))]

/-- What a plan consists of. -/
structure Shape (s : ProvisionState) (desired : List ResourceSpec) (p : Plan) : Prop where
  distinct : (names desired).Nodup
  nodup : (p.changes.map (·.resource_name)).Nodup
  mem : ∀ c, c ∈ p.changes ↔ (∃ spec ∈ desired, c = (changeFor s spec).1) ∨
    ∃ name r, s.resources.lookup name = some r ∧ name ∉ names desired ∧ r.spec.lifecycle.prevent_destroy = false ∧ c = destroyOf name r

/-- How a plan comes about: the changes for the desired resources in the order of their names, then the destroys from the last
    to the first that the walk over the records finds. -/
structure Laid (it : Iteration) (s : ProvisionState) (desired : List ResourceSpec) (p : Plan) (kept : List ResourceChange) : Prop where
  distinct : (names desired).Nodup
  plan : p = Plan.from_changes (kept ++ (unwanted it s desired).reverse) (detect it s desired).2
  named : kept.map (·.resource_name) = sortedNames it desired
  perm : (sortedNames it desired).Perm (names desired)
  mem : ∀ c, c ∈ kept ↔ ∃ spec ∈ desired, c = (changeFor s spec).1

theorem plan_laid {it : Iteration} {s : ProvisionState} {desired : List ResourceSpec} {p : Plan} (ok : plan it s desired = .ok p) :
    ∃ kept, Laid it s desired p kept := by
  have sorted := sortedNames_sorted it desired
  unfold plan at ok
  rw [topological_sort_eq] at ok
  by_cases full : (sortedNames it desired).length ≠ (names desired).length
  · rw [if_pos full] at ok
    cases ok
  rw [if_neg full] at ok
  cases ok
  -- every name is sorted once, so no name is desired twice
  have sub : (sortedNames it desired).Subperm (names desired).dedup :=
    sorted.nodup.subperm (fun v there => List.mem_dedup.2 (sorted.inside v there))
  have dedup : (names desired).dedup = names desired := by
    have short : (names desired).length ≤ (names desired).dedup.length := by
      have := sub.length_le
      omega
    exact (List.dedup_sublist _).eq_of_length_le short
  have distinct : (names desired).Nodup := List.dedup_eq_self.1 dedup
  rw [dedup] at sub
  have perm : (sortedNames it desired).Perm (names desired) := sub.perm_of_length_le (by omega)
  have apart : ((wanted s desired ++ unwanted it s desired).map (·.resource_name)).Nodup := by
    rw [List.map_append,wanted_names]
    refine List.nodup_append.2 ⟨distinct,unwanted_nodup it s desired,?_⟩
    intro a inA b inB same
    obtain ⟨c,inC,rfl⟩ := List.mem_map.1 inB
    obtain ⟨name,r,-,absent,-,rfl⟩ := mem_unwanted.1 inC
    have same : a = name := same
    subst same
    exact absent inA
  have found : ∀ spec ∈ desired, (changeMap (detect it s desired).1).lookup spec.name = some (changeFor s spec).1 := by
    intro spec there
    have inside : (changeFor s spec).1 ∈ wanted s desired ++ unwanted it s desired := List.mem_append_left _ (List.mem_map_of_mem there)
    have lookup := indexed_of_nodup (fun c : ResourceChange => c.resource_name) apart inside
    rw [changeFor_name] at lookup
    rw [detect_changes]
    exact lookup
  have named : ∀ name ∈ sortedNames it desired, ∃ spec ∈ desired, spec.name = name ∧
      (changeMap (detect it s desired).1).lookup name = some (changeFor s spec).1 := by
    intro name there
    obtain ⟨spec,inside,rfl⟩ := List.mem_map.1 (perm.mem_iff.1 there)
    exact ⟨spec,inside,rfl,found spec inside⟩
  refine ⟨_,distinct,rfl,?_,perm,?_⟩
  · refine taken_names _ (fun name there => ?_)
    obtain ⟨spec,-,same,lookup⟩ := named name there
    exact ⟨_,lookup,(changeFor_name s spec).trans same⟩
  · intro c
    rw [List.mem_filterMap]
    constructor
    · rintro ⟨name,there,lookup⟩
      obtain ⟨spec,inside,-,lookup'⟩ := named name there
      rw [lookup] at lookup'
      cases lookup'
      exact ⟨spec,inside,rfl⟩
    · rintro ⟨spec,inside,rfl⟩
      exact ⟨spec.name,perm.mem_iff.2 (List.mem_map_of_mem inside),found spec inside⟩

theorem plan_shape {it : Iteration} {s : ProvisionState} {desired : List ResourceSpec} {p : Plan} (ok : plan it s desired = .ok p) :
    Shape s desired p := by
  obtain ⟨kept,laid⟩ := plan_laid ok
  have changes : p.changes = kept ++ (unwanted it s desired).reverse := by rw [laid.plan]; rfl
  refine ⟨laid.distinct,?_,fun c => ?_⟩
  · rw [changes,List.map_append,laid.named,List.map_reverse]
    refine List.nodup_append.2 ⟨laid.perm.nodup_iff.2 laid.distinct,List.nodup_reverse.2 (unwanted_nodup it s desired),?_⟩
    intro a inA b inB same
    obtain ⟨c,inC,rfl⟩ := List.mem_map.1 (List.mem_reverse.1 inB)
    obtain ⟨name,r,-,absent,-,rfl⟩ := mem_unwanted.1 inC
    have same : a = name := same
    subst same
    exact absent (laid.perm.mem_iff.1 inA)
  · rw [changes,List.mem_append,List.mem_reverse,mem_unwanted]
    exact or_congr_left (laid.mem c)

end Daf.PlanShape
