import Daf.Absorption
import Daf.Consolidation

/-!
What a batch of merges does to a store, whatever the order in which the memories are listed and their kinds are visited: each
kind is merged by the greedy rule that goes from its oldest memory to its newest.
-/
namespace Daf.MergeOrder
open Daf.UuidText Daf.Memories Daf.Consolidation Daf.Absorption

section
variable {F : Type} [LinearOrder F] (scores : Scores F) (config : ConsolidationConfig F) (s : Store F) (memories : List (Memory F))

/-- A memory takes in the later ones that are like it, as long as it is stored itself. -/
def takes (i j : Memory F) : Bool := s.contains_key i.id && alike scores config i j

/-- The greedy rule for a kind: one scan, the oldest memory first. -/
def greedy (kind : MemoryKind) : List (Memory F) := scan (takes scores config s) [] (group memories kind)

/-- The merges of a kind, each of them the memory that is kept and the one that is merged into it. -/
def taken (kind : MemoryKind) : List (Memory F × Memory F) := absorptions (takes scores config s) (group memories kind)

/-- What merges leave under an id. -/
def outcome (pairs : List (Memory F × Memory F)) (id : Uuid) : Option (Memory F) :=
  if (pairs.map fun pair => pair.2.id).contains id then none else
  (s.retrieve id).map fun kept => ((pairs.filter fun pair => pair.1.id = id).map Prod.snd).foldl absorb kept

/-- What a batch returns: how many memories were merged, unless an update has failed. -/
def returned (acc : Merging F) : Option Nat := if acc.halted then none else some acc.merged_ids.length

/-- The store has what the greedy rule keeps, nothing that was kept is deleted, and only what belongs together was merged. -/
structure Greedy (acc : Merging F) : Prop where
  survivors : ∀ m ∈ memories, acc.store.retrieve m.id ≠ none ↔ s.retrieve m.id ≠ none ∧ m ∈ greedy scores config s memories m.kind
  untouched : ∀ id, (∀ m ∈ memories, m.id ≠ id) → acc.store.retrieve id = s.retrieve id
  kept : ∀ merge ∈ acc.merges, merge.into ∉ acc.merged_ids ∧ acc.store.retrieve merge.into ≠ none
  together : ∀ merge ∈ acc.merges, ∃ keeper ∈ memories, keeper.id = merge.into ∧ merge.merged ∈ memories ∧ keeper.id ≠ merge.merged.id ∧
    keeper.kind = merge.merged.kind ∧ keeper.source_agent = merge.merged.source_agent ∧
    keeper.source_conversation = merge.merged.source_conversation ∧ provenance keeper = provenance merge.merged

/-! ### The loops -/

/-- What a batch has come to, by its merges so far. -/
structure Merged (pairs : List (Memory F × Memory F)) (acc : Merging F) : Prop where
  halted : acc.halted = false
  merged_ids : acc.merged_ids = pairs.map fun pair => pair.2.id
  merges : acc.merges.map (fun merge => (merge.into,merge.merged)) = pairs.map fun pair => (pair.1.id,pair.2)
  store : ∀ id, acc.store.retrieve id = outcome s pairs id

/-- What is still there of the memories. -/
def unmerged (acc : Merging F) (memories : List (Memory F)) : List (Memory F) := memories.filter fun m => !acc.merged_ids.contains m.id

variable {scores config s memories} {acc : Merging F} {pairs : List (Memory F × Memory F)} {i j : Memory F} {rest : List (Memory F)}

omit [LinearOrder F] in
theorem mem_unmerged {m : Memory F} : m ∈ unmerged acc memories ↔ m ∈ memories ∧ m.id ∉ acc.merged_ids := by
  rw [unmerged,List.mem_filter,Bool.not_eq_true',← Bool.not_eq_true,List.contains_iff_mem]

theorem outcome_eq (pairs : List (Memory F × Memory F)) (id : Uuid) :
    outcome s pairs id = if id ∈ pairs.map (fun pair => pair.2.id) then none else
      (s.retrieve id).map fun kept => ((pairs.filter fun pair => pair.1.id = id).map Prod.snd).foldl absorb kept :=
  if_congr List.contains_iff_mem rfl rfl

theorem outcome_snoc (there : i.id ∉ pairs.map fun pair => pair.2.id) {kept : Memory F} (stored : outcome s pairs i.id = some kept) (id : Uuid) :
    outcome s (pairs ++ [(i,j)]) id = if id = j.id then none else if id = i.id then some (absorb kept j) else outcome s pairs id := by
  rw [outcome_eq] at stored ⊢
  rw [if_neg there,Option.map_eq_some_iff] at stored
  obtain ⟨first,found,folded⟩ := stored
  by_cases gone : id = j.id
  · rw [if_pos gone,if_pos (by simp [gone])]
  · rw [if_neg gone]
    have same : (id ∈ (pairs ++ [(i,j)]).map fun pair => pair.2.id) ↔ id ∈ pairs.map fun pair => pair.2.id := by
      simp only [List.map_append,List.mem_append,List.map_cons,List.map_nil,List.mem_singleton,or_iff_left gone]
    by_cases keeps : id = i.id
    · subst keeps
      rw [if_pos rfl,if_neg (mt same.mp there),found,List.filter_append,List.map_append,Option.map_some,List.foldl_append]
      simp [folded]
    · rw [if_neg keeps,if_congr same rfl rfl,List.filter_append]
      have other : [(i,j)].filter (fun pair => pair.1.id = id) = [] := by simpa using fun equal : i.id = id => keeps equal.symm
      rw [other,List.append_nil,outcome_eq]

variable (scores config) in
/-- A pair is merged if the greedy rule says so. -/
theorem Merged.pair (reached : Merged s pairs acc) (there : i.id ∉ acc.merged_ids) :
    Merged s (if j.id ∉ acc.merged_ids ∧ takes scores config s i j = true then pairs ++ [(i,j)] else pairs) (mergePair scores config i acc j) := by
  have own : i.id ∉ pairs.map fun pair => pair.2.id := reached.merged_ids ▸ there
  have stored : (acc.store.retrieve i.id).isSome = s.contains_key i.id := by
    rw [reached.store,outcome_eq,if_neg own,Option.isSome_map]
    rfl
  by_cases merges : j.id ∉ acc.merged_ids ∧ takes scores config s i j = true
  · rw [if_pos merges]
    obtain ⟨free,covers⟩ := merges
    rw [takes,Bool.and_eq_true,← stored,Option.isSome_iff_exists] at covers
    obtain ⟨⟨kept,read⟩,similar⟩ := covers
    have found : keeper scores config acc i j = some kept := by
      rw [keeper,if_neg,read]
      rintro (halted | merged | different)
      · rw [reached.halted] at halted
        cases halted
      · exact free (List.contains_iff_mem.mp merged)
      · exact different similar
    have same : kept.id = i.id := retrieve_id read
    rw [mergePair_some found]
    exact
      { halted := reached.halted
        merged_ids := by simp [reached.merged_ids]
        merges := by simp [reached.merges,same]
        store := by
          intro id
          rw [outcome_snoc own (by rw [← reached.store,read])]
          show ((acc.store.insert (absorb kept j)).remove j.id).retrieve id = _
          have kept_id : (absorb kept j).id = i.id := same
          split_ifs with gone keeps
          · rw [gone]
            exact retrieve_remove_self _ _
          · rw [retrieve_remove_ne gone,keeps,← kept_id]
            exact retrieve_insert_self _ _
          · rw [retrieve_remove_ne gone,retrieve_insert_ne (kept_id ▸ keeps),reached.store] }
  · rw [if_neg merges]
    have skips : keeper scores config acc i j = none := by
      rw [keeper]
      split
      · rfl
      · rename_i compared
        simp only [not_or,not_not] at compared
        have free : j.id ∉ acc.merged_ids := mt List.contains_iff_mem.mpr compared.2.1
        have missing : ¬ s.contains_key i.id = true := fun present => merges ⟨free,by rw [takes,present,compared.2.2,Bool.and_true]⟩
        rw [← stored] at missing
        simpa using missing
    rw [mergePair_none skips]
    exact reached

variable (scores config) in
/-- A memory takes in what is still there of those behind it. -/
theorem Merged.visit (reached : Merged s pairs acc) (there : i.id ∉ acc.merged_ids) (others : ∀ g ∈ rest, g.id ≠ i.id)
    (distinct : (rest.map Memory.id).Nodup) :
    Merged s (pairs ++ ((unmerged acc rest).filter (takes scores config s i)).map (i,·)) (rest.foldl (mergePair scores config i) acc) := by
  induction rest generalizing acc pairs with
  | nil => simpa [unmerged] using reached
  | cons j rest ih =>
    rw [List.map_cons,List.nodup_cons] at distinct
    have next := reached.pair scores config (j := j) there
    have others' : ∀ g ∈ rest, g.id ≠ i.id := fun g member => others g (List.mem_cons_of_mem _ member)
    have away : ∀ g ∈ rest, g.id ≠ j.id := fun g member equal => distinct.1 (equal ▸ List.mem_map_of_mem member)
    have ids := next.merged_ids
    have same : unmerged (mergePair scores config i acc j) rest = unmerged acc rest := by
      refine List.filter_congr fun g member => ?_
      rw [ids,reached.merged_ids]
      split_ifs <;> simp [away g member]
    have there' : i.id ∉ (mergePair scores config i acc j).merged_ids := by
      rw [ids]
      rw [reached.merged_ids] at there
      split_ifs
      · simpa [there] using fun equal : i.id = j.id => others j List.mem_cons_self equal.symm
      · exact there
    have later := ih next there' others' distinct.2
    rw [same] at later
    rw [List.foldl_cons]
    convert later using 1
    by_cases free : j.id ∈ acc.merged_ids
    · simp [unmerged,free]
    · cases covers : takes scores config s i j <;> simp [unmerged,free,covers]

variable (scores config) in
/-- A group is merged as the visits of a list by the greedy rule. -/
theorem Merged.visits (reached : Merged s pairs acc) (distinct : (memories.map Memory.id).Nodup) :
    Merged s (pairs ++ absorptions (takes scores config s) (unmerged acc memories)) (mergeGroup scores config acc memories) := by
  induction memories generalizing acc pairs with
  | nil => simpa [unmerged,absorptions,mergeGroup] using reached
  | cons i rest ih =>
    rw [List.map_cons,List.nodup_cons] at distinct
    rw [mergeGroup]
    by_cases merged : i.id ∈ acc.merged_ids
    · have skipped : unmerged acc (i :: rest) = unmerged acc rest := by simp [unmerged,merged]
      rw [if_pos (List.contains_iff_mem.mpr merged),skipped]
      exact ih reached distinct.2
    · have visited : unmerged acc (i :: rest) = i :: unmerged acc rest := by simp [unmerged,merged]
      rw [if_neg (mt List.contains_iff_mem.mp merged),visited,absorptions,← List.append_assoc]
      have others : ∀ g ∈ rest, g.id ≠ i.id := fun g member equal => distinct.1 (equal ▸ List.mem_map_of_mem member)
      have next := reached.visit scores config merged others distinct.2
      have same : unmerged (rest.foldl (mergePair scores config i) acc) rest = uncovered (takes scores config s) i (unmerged acc rest) := by
        unfold uncovered unmerged
        rw [List.filter_filter]
        refine List.filter_congr fun g member => ?_
        have covered : g.id ∈ ((unmerged acc rest).filter (takes scores config s i)).map Memory.id ↔
            g.id ∉ acc.merged_ids ∧ takes scores config s i g = true := by
          constructor
          · intro listed
            obtain ⟨other,found,equal⟩ := List.mem_map.mp listed
            obtain ⟨left,covers⟩ := List.mem_filter.mp found
            obtain ⟨member',free⟩ := mem_unmerged.mp left
            obtain rfl := List.inj_on_of_nodup_map distinct.2 member' member equal
            exact ⟨free,covers⟩
          · rintro ⟨free,covers⟩
            exact List.mem_map_of_mem (List.mem_filter.mpr ⟨mem_unmerged.mpr ⟨member,free⟩,covers⟩)
        have ids : (rest.foldl (mergePair scores config i) acc).merged_ids =
            acc.merged_ids ++ ((unmerged acc rest).filter (takes scores config s i)).map Memory.id := by
          rw [next.merged_ids,reached.merged_ids,List.map_append,List.map_map]
          rfl
        rw [ids]
        by_cases free : g.id ∈ acc.merged_ids
        · simp [free]
        · cases covers : takes scores config s i g with
          | true =>
            have listed := covered.mpr ⟨free,covers⟩
            simp [listed]
          | false =>
            have unlisted := mt covered.mp fun both => Bool.false_ne_true (covers.symm.trans both.2)
            simp [unlisted,free]
      rw [← same]
      exact ih next distinct.2

/-! ### The groups -/

theorem mem_taken {kind : MemoryKind} (merged : (i,j) ∈ taken scores config s memories kind) :
    (i ∈ memories ∧ i.kind = kind) ∧ (j ∈ memories ∧ j.kind = kind) ∧ i ∈ greedy scores config s memories kind ∧
      takes scores config s i j = true := by
  obtain ⟨first,second⟩ := mem_of_absorption merged
  obtain ⟨kept,covers⟩ := keeper_of_absorption merged
  exact ⟨mem_group.mp first,mem_group.mp second,by rwa [greedy,scan_keepers],covers⟩

/-- The groups of a batch, one after the other: none has a memory of another one. -/
theorem Merged.batch {order : List MemoryKind} (reached : Merged s pairs acc) (distinct : (memories.map Memory.id).Nodup) (once : order.Nodup)
    (there : ∀ m ∈ memories, m.kind ∈ order → m.id ∉ acc.merged_ids) :
    Merged s (pairs ++ order.flatMap (taken scores config s memories)) (order.foldl (fun acc kind => mergeGroup scores config acc (group memories kind)) acc) := by
  induction order generalizing acc pairs with
  | nil => simpa using reached
  | cons kind order ih =>
    rw [List.nodup_cons] at once
    have whole : unmerged acc (group memories kind) = group memories kind := by
      refine List.filter_eq_self.mpr fun m member => ?_
      obtain ⟨listed,rfl⟩ := mem_group.mp member
      simpa using there m listed List.mem_cons_self
    have next := reached.visits scores config (group_distinct distinct kind)
    rw [whole] at next
    rw [List.foldl_cons,List.flatMap_cons,← List.append_assoc]
    refine ih next once.2 fun m listed later => ?_
    rw [next.merged_ids,List.map_append,← reached.merged_ids]
    intro merged
    rcases List.mem_append.mp merged with before | now
    · exact there m listed (List.mem_cons_of_mem _ later) before
    · obtain ⟨⟨i,j⟩,absorbed,equal⟩ := List.mem_map.mp now
      obtain ⟨-,⟨member,rfl⟩,-⟩ := mem_taken absorbed
      rw [List.inj_on_of_nodup_map distinct member listed equal] at once
      exact once.1 later

variable (scores config s) in
theorem merged_batch (out : Surroundings) (distinct : (memories.map Memory.id).Nodup) :
    Merged s ((kinds out).flatMap (taken scores config s memories)) (merge_similar_batch scores config out ⟨s,[],[],false⟩ memories) := by
  have start : Merged s [] (⟨s,[],[],false⟩ : Merging F) := ⟨rfl,rfl,rfl,fun id => by simp [outcome]⟩
  exact start.batch distinct (kinds_distinct out) fun m _ _ => List.not_mem_nil

omit [LinearOrder F] in
/-- The order of a group is that of its memories, however they are listed. -/
theorem group_perm {memories' : List (Memory F)} (permuted : memories.Perm memories') (distinct : (memories.map Memory.id).Nodup) (kind : MemoryKind) :
    group memories kind = group memories' kind := by
  have sorted : ∀ memories : List (Memory F), (group memories kind).Pairwise fun a b =>
      decide (a.created_at < b.created_at ∨ a.created_at = b.created_at ∧ a.id ≤ b.id) = true := by
    intro memories
    refine List.pairwise_mergeSort (fun a b c => ?_) (fun a b => ?_) _
    · simp only [decide_eq_true_eq]
      rintro (first | ⟨first,below⟩) (second | ⟨second,above⟩)
      · exact .inl (first.trans second)
      · exact .inl (second ▸ first)
      · exact .inl (first ▸ second)
      · exact .inr ⟨first.trans second,BitVec.le_trans below above⟩
    · rw [Bool.or_eq_true,decide_eq_true_eq,decide_eq_true_eq]
      rcases lt_trichotomy a.created_at b.created_at with before | same | behind
      · exact .inl (.inl before)
      · exact (BitVec.le_total a.id b.id).imp (fun below => .inr ⟨same,below⟩) fun above => .inr ⟨same.symm,above⟩
      · exact .inr (.inl behind)
  have same : (group memories kind).Perm (group memories' kind) :=
    ((List.mergeSort_perm _ _).trans (permuted.filter _)).trans (List.mergeSort_perm _ _).symm
  refine same.eq_of_pairwise (fun a b first second below above => ?_) (sorted memories) (sorted memories')
  have ids : a.id = b.id := by
    simp only [decide_eq_true_eq] at below above
    rcases below with before | ⟨same,below⟩ <;> rcases above with behind | ⟨same',above⟩
    · omega
    · omega
    · omega
    · exact BitVec.le_antisymm below above
  exact List.inj_on_of_nodup_map distinct (mem_group.mp first).1 (permuted.mem_iff.mpr (mem_group.mp second).1) ids

/-- Lists of which no two have an element are put together to the same list in every order. -/
theorem flatMap_order {α β : Type} {f : α → List β} {order order' : List α} (permuted : order.Perm order')
    (alone : ∀ a ∈ order, ∀ b ∈ order, a ≠ b → f a = [] ∨ f b = []) : order.flatMap f = order'.flatMap f := by
  induction permuted with
  | nil => rfl
  | cons a _ ih =>
    rw [List.flatMap_cons,List.flatMap_cons,ih fun b first c second => alone b (List.mem_cons_of_mem _ first) c (List.mem_cons_of_mem _ second)]
  | swap a b order =>
    rw [List.flatMap_cons,List.flatMap_cons,List.flatMap_cons,List.flatMap_cons]
    by_cases same : a = b
    · rw [same]
    · rcases alone a (by simp) b (by simp) same with none | none <;> simp [none]
  | trans first _ ih ih' =>
    rw [ih alone]
    exact ih' fun a member b member' => alone a (first.mem_iff.mpr member) b (first.mem_iff.mpr member')

/-- The order of the kinds does not matter to what is under an id. -/
theorem outcome_order {order order' : List MemoryKind} (permuted : order.Perm order') (distinct : (memories.map Memory.id).Nodup) (id : Uuid) :
    outcome s (order.flatMap (taken scores config s memories)) id = outcome s (order'.flatMap (taken scores config s memories)) id := by
  have merged := ((permuted.flatMap_right (taken scores config s memories)).map fun pair => pair.2.id).mem_iff (a := id)
  have kept : (order.flatMap (taken scores config s memories)).filter (fun pair => pair.1.id = id) =
      (order'.flatMap (taken scores config s memories)).filter fun pair => pair.1.id = id := by
    rw [List.filter_flatMap,List.filter_flatMap]
    refine flatMap_order permuted fun a _ b _ differ => ?_
    by_contra both
    rw [not_or] at both
    obtain ⟨⟨i,j⟩,first⟩ := List.exists_mem_of_ne_nil _ both.1
    obtain ⟨⟨i',j'⟩,second⟩ := List.exists_mem_of_ne_nil _ both.2
    rw [List.mem_filter,decide_eq_true_eq] at first second
    obtain ⟨⟨member,kind⟩,-⟩ := mem_taken first.1
    obtain ⟨⟨member',kind'⟩,-⟩ := mem_taken second.1
    have same := List.inj_on_of_nodup_map distinct member member' (first.2.trans second.2.symm)
    exact differ (by rw [← kind,← kind',same])
  rw [outcome_eq,outcome_eq,kept,if_congr merged rfl rfl]

theorem taken_perm {memories' : List (Memory F)} (permuted : memories.Perm memories') (distinct : (memories.map Memory.id).Nodup) :
    taken scores config s memories = taken scores config s memories' := by
  funext kind
  rw [taken,taken,group_perm permuted distinct kind]

theorem mem_kinds (out : Surroundings) (kind : MemoryKind) : kind ∈ kinds out := by
  rw [kinds,List.mem_mergeSort]
  cases kind <;> simp

variable (scores config s) in
/-- A memory of the list is merged into another one unless the greedy rule keeps it. -/
theorem merged_iff (order : List MemoryKind) (distinct : (memories.map Memory.id).Nodup) {m : Memory F} (member : m ∈ memories) (listed : m.kind ∈ order) :
    (m.id ∈ (order.flatMap (taken scores config s memories)).map fun pair => pair.2.id) ↔ m ∉ greedy scores config s memories m.kind := by
  have grouped : m ∈ group memories m.kind := mem_group.mpr ⟨member,rfl⟩
  rw [greedy,scan_keepers,mem_keepers (List.Nodup.of_map _ (group_distinct distinct m.kind)) grouped,not_not]
  constructor
  · intro merged
    obtain ⟨⟨i,j⟩,absorbed,equal⟩ := List.mem_map.mp merged
    obtain ⟨kind,-,there⟩ := List.mem_flatMap.mp absorbed
    obtain ⟨-,⟨member',rfl⟩,-⟩ := mem_taken there
    obtain rfl := List.inj_on_of_nodup_map distinct member' member equal
    exact List.mem_map_of_mem (f := Prod.snd) there
  · intro absorbed
    obtain ⟨⟨i,j⟩,there,rfl⟩ := List.mem_map.mp absorbed
    exact List.mem_map_of_mem (f := fun pair : Memory F × Memory F => pair.2.id) (List.mem_flatMap.mpr ⟨_,listed,there⟩)

theorem greedy_batch (out : Surroundings) (distinct : (memories.map Memory.id).Nodup) :
    Greedy scores config s memories (merge_similar_batch scores config out ⟨s,[],[],false⟩ memories) := by
  have batch := merged_batch scores config s out distinct
  have pair_of : ∀ merge ∈ (merge_similar_batch scores config out ⟨s,[],[],false⟩ memories).merges,
      ∃ kind i, i.id = merge.into ∧ (i,merge.merged) ∈ taken scores config s memories kind := by
    intro merge member
    have listed := List.mem_map_of_mem (f := fun merge : Merge F => (merge.into,merge.merged)) member
    rw [batch.merges] at listed
    obtain ⟨⟨i,j⟩,there,same⟩ := List.mem_map.mp listed
    obtain ⟨kind,-,there⟩ := List.mem_flatMap.mp there
    obtain ⟨into,rfl⟩ := Prod.mk.inj same
    exact ⟨kind,i,into,there⟩
  constructor
  · intro m member
    have merged := merged_iff scores config s (kinds out) distinct member (mem_kinds out m.kind)
    rw [batch.store,outcome_eq,if_congr merged rfl rfl]
    by_cases kept : m ∈ greedy scores config s memories m.kind
    · simp [kept]
    · simp [kept]
  · intro id other
    have away : ∀ pair ∈ (kinds out).flatMap (taken scores config s memories), pair.1.id ≠ id ∧ pair.2.id ≠ id := by
      rintro ⟨i,j⟩ there
      obtain ⟨kind,-,there⟩ := List.mem_flatMap.mp there
      obtain ⟨⟨first,-⟩,⟨second,-⟩,-⟩ := mem_taken there
      exact ⟨other i first,other j second⟩
    have none : ((kinds out).flatMap (taken scores config s memories)).filter (fun pair => pair.1.id = id) = [] :=
      List.filter_eq_nil_iff.mpr fun pair there => by simpa using (away pair there).1
    rw [batch.store,outcome_eq,if_neg,none]
    · simp
    · intro merged
      obtain ⟨pair,there,equal⟩ := List.mem_map.mp merged
      exact (away pair there).2 equal
  · intro merge member
    obtain ⟨kind,i,into,there⟩ := pair_of merge member
    obtain ⟨⟨first,rfl⟩,-,kept,covers⟩ := mem_taken there
    have free := (not_congr (merged_iff scores config s (kinds out) distinct first (mem_kinds out i.kind))).mpr (not_not.mpr kept)
    rw [takes,Bool.and_eq_true,contains_key_iff] at covers
    rw [← into,batch.merged_ids,batch.store,outcome_eq,if_neg free]
    exact ⟨free,by simpa using covers.1⟩
  · intro merge member
    obtain ⟨kind,i,into,there⟩ := pair_of merge member
    obtain ⟨⟨first,same⟩,⟨second,same'⟩,kept,covers⟩ := mem_taken there
    rw [takes,Bool.and_eq_true,alike] at covers
    simp only [Bool.and_eq_true,decide_eq_true_eq] at covers
    obtain ⟨-,⟨⟨agent,conversation⟩,tags⟩,-⟩ := covers
    refine ⟨i,first,into,second,fun equal => ?_,same.trans same'.symm,agent,conversation,tags⟩
    have merged : merge.merged.id ∈ ((kinds out).flatMap (taken scores config s memories)).map fun pair => pair.2.id :=
      List.mem_map_of_mem (f := fun pair : Memory F × Memory F => pair.2.id) (List.mem_flatMap.mpr ⟨kind,mem_kinds out kind,there⟩)
    rw [← equal] at merged
    exact (merged_iff scores config s (kinds out) distinct first (mem_kinds out i.kind)).mp merged (same ▸ kept)

end

/-- A batch of merges leaves the same memories and returns the same count however its memories are listed and their kinds are
    visited, and these are what the greedy rule keeps. -/
theorem merge_order {F : Type} [LinearOrder F] (scores : Scores F) (config : ConsolidationConfig F) (out out' : Surroundings) (s : Store F)
    (memories memories' : List (Memory F)) (permuted : memories.Perm memories') (distinct : (memories.map Memory.id).Nodup) :
    ∃ count, returned (merge_similar_batch scores config out ⟨s,[],[],false⟩ memories) = some count ∧
      returned (merge_similar_batch scores config out' ⟨s,[],[],false⟩ memories') = some count ∧
      (∀ id, (merge_similar_batch scores config out ⟨s,[],[],false⟩ memories).store.retrieve id =
        (merge_similar_batch scores config out' ⟨s,[],[],false⟩ memories').store.retrieve id) ∧
      Greedy scores config s memories (merge_similar_batch scores config out ⟨s,[],[],false⟩ memories) := by
  have distinct' : (memories'.map Memory.id).Nodup := (permuted.map Memory.id).nodup_iff.mp distinct
  have order : (kinds out).Perm (kinds out') := (List.mergeSort_perm _ _).trans (List.mergeSort_perm _ _).symm
  have one := merged_batch scores config s out distinct
  have other := merged_batch scores config s out' distinct'
  rw [← taken_perm permuted distinct] at other
  refine ⟨((kinds out).flatMap (taken scores config s memories)).length,?_,?_,fun id => ?_,greedy_batch out distinct⟩
  · rw [returned,if_neg (by simp [one.halted]),one.merged_ids,List.length_map]
  · rw [returned,if_neg (by simp [other.halted]),other.merged_ids,List.length_map,(order.flatMap_right _).length_eq]
  · rw [one.store,other.store]
    exact outcome_order order distinct id

/-- Three memories of which the second is like both others, and these are not alike. -/
def chain : Store Nat :=
  ⟨[⟨1,.Semantic,.Warm,.string "ab",0,0,2,50,[],none,none,none⟩,⟨2,.Semantic,.Warm,.string "abc",1,1,3,60,[],none,none,none⟩,
    ⟨3,.Semantic,.Warm,.string "bc",2,2,1,40,[],none,none,none⟩],by decide⟩

/-- The letters of a text as its words. -/
def letters : Scores Nat where
  toDoubles := plainScores.toDoubles
  distill_floor := 40
  distilled importance := importance * 9 / 10
  add := (· + ·)
  count n := n
  average counts := counts.sum / counts.length
  zero := 0
  one := 100
  ratio a b := 100 * a / b
  words
    | .string text => text.toList.map toString
    | _ => []

/-- The first takes in the second, and the third stays, also when they are listed the other way. -/
theorem chain_merged :
    ∃ count, returned (merge_similar_batch letters plainConsolidation (at_time 5) ⟨chain,[],[],false⟩ chain.memories) = some count ∧
      returned (merge_similar_batch letters plainConsolidation (at_time 5) ⟨chain,[],[],false⟩ chain.memories.reverse) = some count ∧
      (∀ id, (merge_similar_batch letters plainConsolidation (at_time 5) ⟨chain,[],[],false⟩ chain.memories).store.retrieve id =
        (merge_similar_batch letters plainConsolidation (at_time 5) ⟨chain,[],[],false⟩ chain.memories.reverse).store.retrieve id) ∧
      Greedy letters plainConsolidation chain chain.memories (merge_similar_batch letters plainConsolidation (at_time 5) ⟨chain,[],[],false⟩ chain.memories) :=
  merge_order letters plainConsolidation (at_time 5) (at_time 5) chain chain.memories chain.memories.reverse (List.reverse_perm _).symm chain.distinct

example : (scan (takes letters plainConsolidation chain) [] chain.memories).map Memory.id = [1,3] := by decide

end Daf.MergeOrder
