import Daf.ConsolidationSteps
import Daf.DecaySchedule
import Daf.MergeOrder

/-!
What consolidation, reinforcement and compaction do to the importances of the stored memories, in exact arithmetic. All but
reinforcement keep them in their range, whatever the configuration is; reinforcement does so, and lowers none, under a condition
on what it finds.
-/
namespace Daf.ImportanceRange
open Daf.UuidText Daf.Memories Daf.Runs Daf.Consolidation Daf.ConsolidationSteps Daf.DecaySchedule Daf.MergeOrder

/-! ### Reinforcing -/

section
variable {F : Type} [LinearOrder F] (scores : Scores F) (config : ConsolidationConfig F)

/-- Reinforce one memory; `none` is the error that it is not stored. -/
def reinforce (s : Store F) (id : Uuid) (boost : F) : Option (Store F) :=
  match s.retrieve id with
  | none => none
  | some m => s.update { m with importance := min (scores.add m.importance boost) scores.one }

/-- A memory is used more than the average. -/
def reinforces (avg_access : F) (m : Memory F) : Bool := avg_access < scores.count m.access_count ∧ 1 < m.access_count

/-- The last copy by which a batch reinforces the memory under an id. -/
def last_copy (memories : List (Memory F)) (id : Uuid) : Option (Memory F) :=
  (memories.filter (reinforces scores (scores.average (memories.map Memory.access_count)))).reverse.find? fun m => m.id = id

variable {scores config}

theorem retrieve_reinforceOne (avg_access : F) (state : Store F × Nat) (m : Memory F) (id : Uuid) :
    (reinforceOne scores config avg_access state m).1.retrieve id =
      (state.1.retrieve id).map fun old => if reinforces scores avg_access m = true ∧ m.id = id then boosted scores config m else old := by
  rw [reinforceOne]
  by_cases above : avg_access < scores.count m.access_count ∧ 1 < m.access_count
  · have used : reinforces scores avg_access m = true := decide_eq_true above
    simp only [if_pos above,used,true_and,Store.update]
    by_cases there : state.1.contains_key (boosted scores config m).id = true
    · rw [if_pos there]
      have present := contains_key_iff.mp there
      by_cases same : m.id = id
      · subst same
        obtain ⟨old,found⟩ := Option.ne_none_iff_exists'.mp present
        rw [show state.1.retrieve m.id = some old from found,Option.map_some,if_pos rfl]
        exact retrieve_insert_self _ _
      · show (state.1.insert (boosted scores config m)).retrieve id = _
        have apart : id ≠ (boosted scores config m).id := fun equal => same equal.symm
        rw [retrieve_insert_ne apart]
        simp [same]
    · rw [if_neg there]
      have absent : state.1.retrieve m.id = none := by
        by_contra present
        exact there (contains_key_iff.mpr present)
      by_cases same : m.id = id
      · subst same
        rw [absent,Option.map_none]
      · simp [same]
  · have unused : reinforces scores avg_access m = false := decide_eq_false above
    simp [if_neg above,unused]

variable (scores config) in
/-- What a batch leaves under an id that is stored: the last of its copies, boosted. -/
theorem retrieve_reinforce_batch (s : Store F) (memories : List (Memory F)) (id : Uuid) :
    (reinforce_batch scores config s memories).1.retrieve id =
      (s.retrieve id).map fun old => ((last_copy scores memories id).map (boosted scores config)).getD old := by
  unfold reinforce_batch last_copy
  generalize scores.average (memories.map Memory.access_count) = avg_access
  have loop : ∀ state : Store F × Nat, (memories.foldl (reinforceOne scores config avg_access) state).1.retrieve id =
      (state.1.retrieve id).map fun old =>
        (((memories.filter (reinforces scores avg_access)).reverse.find? fun m => m.id = id).map (boosted scores config)).getD old := by
    induction memories with
    | nil => simp
    | cons m memories ih =>
      intro state
      rw [List.foldl_cons,ih,retrieve_reinforceOne,Option.map_map]
      congr 1
      funext old
      rw [Function.comp]
      cases used : reinforces scores avg_access m with
      | false => simp [used]
      | true =>
        rw [List.filter_cons_of_pos used,List.reverse_cons,List.find?_append]
        cases later : (memories.filter (reinforces scores avg_access)).reverse.find? fun m => decide (m.id = id) with
        | some copy => simp
        | none =>
          by_cases same : m.id = id <;> simp [same]
  exact loop (s,0)

theorem last_copy_id {memories : List (Memory F)} {id : Uuid} {copy : Memory F} (last : last_copy scores memories id = some copy) : copy.id = id := by
  simpa using List.find?_some last

end

/-! ### The range -/

section
variable {s : Store ℝ} {m : Memory ℝ}

def InRange (s : Store ℝ) : Prop := ∀ m ∈ s.memories, 0 ≤ m.importance ∧ m.importance ≤ 1

def NotLowered (before after : Store ℝ) : Prop := ∀ m ∈ before.memories, ∀ m' ∈ after.memories, m'.id = m.id → m.importance ≤ m'.importance

theorem InRange.insert (within : InRange s) (low : 0 ≤ m.importance) (high : m.importance ≤ 1) : InRange (s.insert m) := by
  intro other member
  rcases mem_insert.mp member with rfl | ⟨old,-⟩
  · exact ⟨low,high⟩
  · exact within other old

theorem InRange.remove (within : InRange s) (id : Uuid) : InRange (s.remove id) := fun other member => within other (mem_remove.mp member).1

theorem clamp_range (v : ℝ) : 0 ≤ clamp v ∧ clamp v ≤ 1 := ⟨le_max_left 0 _,max_le zero_le_one (min_le_left 1 v)⟩

end

/-- The arithmetic of importances over the real numbers; what is computed of texts, of counts and of times stays as it is. -/
noncomputable def exact_scores (rest : Scores ℝ) (hours : Int → NNReal) : Scores ℝ :=
  { rest with
    toDoubles := exactly rest.toDoubles hours
    distilled := fun importance => clamp (importance * 0.9)
    add := (· + ·)
    one := 1 }

/-! ### Calls -/

/-- The calls of a consolidator, and the compactions of a manager on the same store. -/
inductive Call where
  | consolidate (out : Surroundings)
  | reinforce_batch (memories : List (Memory ℝ))
  | reinforce (id : Uuid) (boost : ℝ)
  | compact (out : Surroundings)

section
variable (rest : Scores ℝ) (hours : Int → NNReal) (config : ConsolidationConfig ℝ) (manager : ManagerConfig ℝ) (s : Store ℝ)

noncomputable def step : Call → Store ℝ
  | .consolidate out => (consolidate (exact_scores rest hours) config out ⟨s,[],0⟩).2.store
  | .reinforce_batch memories => (Consolidation.reinforce_batch (exact_scores rest hours) config s memories).1
  | .reinforce id boost => (ImportanceRange.reinforce (exact_scores rest hours) s id boost).getD s
  | .compact out => (compact (exact_scores rest hours) manager out ⟨s,[],0⟩).store

/-- A consolidation behind its merging. -/
noncomputable def merging (out : Surroundings) : Merging ℝ :=
  merge_similar_batch (exact_scores rest hours) config out (mergeStart (exact_scores rest hours) config out ⟨s,[],0⟩)
    (recent (exact_scores rest hours) config out s)

/-- The memories that a consolidation reinforces. -/
noncomputable def survivors (out : Surroundings) : List (Memory ℝ) :=
  (recent (exact_scores rest hours) config out s).filterMap fun m => (merging rest hours config s out).store.retrieve m.id

/-- The store that a call reinforces. -/
noncomputable def reinforced : Call → Option (Store ℝ)
  | .consolidate out => some (merging rest hours config s out).store
  | .reinforce_batch _ => some s
  | .reinforce _ _ => some s
  | .compact _ => none

/-- A call leaves the importances in their range, and what it reinforces is not lowered. -/
def Keeps (call : Call) : Prop :=
  InRange (step rest hours config manager s call) ∧
    ∀ before, reinforced rest hours config s call = some before → NotLowered before (step rest hours config manager s call)

/-- A batch on a store: what it writes last over a memory is no lower than what is stored, by the boost and by the cap, and one
    of the two is in the range. -/
def Safe (memories : List (Memory ℝ)) : Prop :=
  ∀ m ∈ s.memories, ∀ copy, last_copy (exact_scores rest hours) memories m.id = some copy →
    m.importance ≤ copy.importance + config.reinforce_boost ∧ m.importance ≤ config.reinforce_max ∧
      (copy.importance + config.reinforce_boost ≤ 1 ∨ config.reinforce_max ≤ 1)

/-- What a reinforcement is to find: a memory is given no negative boost, and a batch is safe. -/
def Meets : Call → Prop
  | .consolidate out => Safe rest hours config (merging rest hours config s out).store (survivors rest hours config s out)
  | .reinforce_batch memories => Safe rest hours config s memories
  | .reinforce id boost => s.retrieve id ≠ none → 0 ≤ boost
  | .compact _ => True

variable {rest hours config manager s}

variable (rest hours config) in
theorem batch_keeps_iff (within : InRange s) (memories : List (Memory ℝ)) :
    InRange (Consolidation.reinforce_batch (exact_scores rest hours) config s memories).1 ∧
        NotLowered s (Consolidation.reinforce_batch (exact_scores rest hours) config s memories).1 ↔
      Safe rest hours config s memories := by
  have spec := retrieve_reinforce_batch (exact_scores rest hours) config s memories
  generalize (Consolidation.reinforce_batch (exact_scores rest hours) config s memories).1 = after at spec
  constructor
  · rintro ⟨range,raised⟩ m stored copy last
    have written : after.retrieve m.id = some (boosted (exact_scores rest hours) config copy) := by
      rw [spec,retrieve_of_mem stored,Option.map_some,last,Option.map_some,Option.getD_some]
    have there := retrieve_mem written
    have same : copy.id = m.id := last_copy_id last
    have above := raised m stored _ there same
    exact ⟨(le_min_iff.mp above).1,(le_min_iff.mp above).2,min_le_iff.mp (range _ there).2⟩
  · intro safe
    have origin : ∀ m' ∈ after.memories, ∃ m ∈ s.memories, m.id = m'.id ∧ m.importance ≤ m'.importance ∧ m'.importance ≤ 1 := by
      intro m' there
      have found := spec m'.id
      rw [retrieve_of_mem there] at found
      obtain ⟨m,read,same⟩ := Option.map_eq_some_iff.mp found.symm
      have stored := retrieve_mem read
      have id := retrieve_id read
      refine ⟨m,stored,id,?_⟩
      cases last : last_copy (exact_scores rest hours) memories m'.id with
      | none =>
        rw [last] at same
        obtain rfl : m = m' := same
        exact ⟨le_rfl,(within m stored).2⟩
      | some copy =>
        rw [last] at same
        obtain ⟨boost,cap,high⟩ := safe m stored copy (id ▸ last)
        obtain rfl : boosted (exact_scores rest hours) config copy = m' := same
        exact ⟨le_min boost cap,min_le_iff.mpr high⟩
    constructor
    · intro m' there
      obtain ⟨m,stored,-,raised,high⟩ := origin m' there
      exact ⟨(within m stored).1.trans raised,high⟩
    · intro m stored m' there same
      obtain ⟨old,stored',id,raised,-⟩ := origin m' there
      rw [List.inj_on_of_nodup_map s.distinct stored stored' (same.symm.trans id.symm)]
      exact raised

theorem reinforce_keeps_iff (within : InRange s) (id : Uuid) (boost : ℝ) :
    InRange (step rest hours config manager s (.reinforce id boost)) ∧ NotLowered s (step rest hours config manager s (.reinforce id boost)) ↔
      (s.retrieve id ≠ none → 0 ≤ boost) := by
  cases found : s.retrieve id with
  | none =>
    have same : step rest hours config manager s (.reinforce id boost) = s := by simp [step,ImportanceRange.reinforce,found]
    rw [same]
    refine ⟨fun _ present => absurd rfl present,fun _ => ⟨within,fun m stored m' stored' same => ?_⟩⟩
    rw [List.inj_on_of_nodup_map s.distinct stored stored' same.symm]
  | some m =>
    have stored := retrieve_mem found
    have read : s.retrieve m.id = some m := retrieve_of_mem stored
    have same : step rest hours config manager s (.reinforce id boost) = s.insert { m with importance := min (m.importance + boost) 1 } := by
      have written : s.update { m with importance := min (m.importance + boost) 1 } = some (s.insert { m with importance := min (m.importance + boost) 1 }) :=
        update_stored read rfl
      simp only [step,ImportanceRange.reinforce,found]
      exact congrArg (fun result => result.getD s) written
    rw [same]
    constructor
    · rintro ⟨-,raised⟩ -
      have above := raised m stored _ (mem_insert.mpr (.inl rfl)) rfl
      have sum : m.importance ≤ m.importance + boost := (le_min_iff.mp above).1
      linarith
    · intro positive
      have positive := positive (Option.some_ne_none m)
      obtain ⟨low,high⟩ := within m stored
      refine ⟨within.insert (le_min (by linarith) zero_le_one) (min_le_right _ _),?_⟩
      intro old there new there' same
      rcases mem_insert.mp there' with rfl | ⟨kept,-⟩
      · obtain rfl := List.inj_on_of_nodup_map s.distinct stored there same
        exact le_min (by linarith) high
      · rw [List.inj_on_of_nodup_map s.distinct kept there same]

variable (rest hours config s) in
/-- No merge fails. -/
theorem merging_returns (out : Surroundings) : (merging rest hours config s out).halted = false :=
  (merged_batch (exact_scores rest hours) config _ out (recent_distinct _ config out s)).halted

/-- Distilling and merging keep the range. -/
theorem merging_range (within : InRange s) (out : Surroundings) : InRange (merging rest hours config s out).store := by
  have reviewed : ∀ m ∈ recent (exact_scores rest hours) config out s, 0 ≤ m.importance ∧ m.importance ≤ 1 :=
    fun m member => within m (retrieve_mem (recent_stored member))
  refine merge_keeps (fun s i first j second apart similar kept read within => ?_) (recent_distinct _ config out s) ?_
  · obtain ⟨low,high⟩ := within kept (retrieve_mem read)
    exact (within.insert (le_max_of_le_left low) (max_le high (reviewed j second).2)).remove j.id
  · exact distill_keeps (fun s m member wanted within => within.insert (clamp_range _).1 (clamp_range _).2) within

theorem compact_range (within : InRange s) (out : Surroundings) : InRange (step rest hours config manager s (.compact out)) :=
  compact_keeps (fun _ m _ _ within => within.remove m.id) (fun _ _ _ within => within.insert (clamp_range _).1 (clamp_range _).2) within

/-- With a boost that is not negative and a cap at the top of the range a consolidation always finds what it is to find. -/
theorem meets_consolidate (within : InRange s) (positive : 0 ≤ config.reinforce_boost) (cap : config.reinforce_max = 1) (out : Surroundings) :
    Meets rest hours config s (.consolidate out) := by
  intro m stored copy last
  have before : InRange (merging rest hours config s out).store := merging_range within out
  have listed : copy ∈ survivors rest hours config s out :=
    List.mem_of_mem_filter (List.mem_reverse.mp (List.mem_of_find?_eq_some last))
  obtain ⟨reviewed,-,read⟩ := List.mem_filterMap.mp listed
  obtain rfl := List.inj_on_of_nodup_map (merging rest hours config s out).store.distinct stored (retrieve_mem read) (last_copy_id last).symm
  exact ⟨by linarith,cap ▸ (before m stored).2,.inr cap.le⟩

theorem keeps_iff (within : InRange s) (call : Call) : Keeps rest hours config manager s call ↔ Meets rest hours config s call := by
  cases call with
  | consolidate out =>
    have before : InRange (merging rest hours config s out).store := merging_range within out
    have batch := batch_keeps_iff rest hours config before (survivors rest hours config s out)
    have same : step rest hours config manager s (.consolidate out) =
        (Consolidation.reinforce_batch (exact_scores rest hours) config (merging rest hours config s out).store (survivors rest hours config s out)).1 := by
      rw [step,consolidate_store]
      exact if_neg (ne_true_of_eq_false (merging_returns rest hours config s out))
    simpa [Keeps,Meets,reinforced,same] using batch
  | reinforce_batch memories => simpa [Keeps,Meets,reinforced,step] using batch_keeps_iff rest hours config within memories
  | reinforce id boost => simpa [Keeps,Meets,reinforced] using reinforce_keeps_iff within id boost
  | compact out => simpa [Keeps,Meets,reinforced] using compact_range within out

end

/-- Over any calls on a store whose importances are in their range they stay so, and no reinforcement lowers one, exactly when each
    reinforcement finds what it is to find. -/
theorem importance_range (rest : Scores ℝ) (hours : Int → NNReal) (config : ConsolidationConfig ℝ) (manager : ManagerConfig ℝ) (s : Store ℝ)
    (within : InRange s) (calls : List Call) :
    Every (step rest hours config manager) (Keeps rest hours config manager) s calls ↔
      Every (step rest hours config manager) (Meets rest hours config) s calls :=
  every_congr (I := InRange) (fun _ call within => keeps_iff within call) (fun _ _ _ keeps => keeps.1) within

noncomputable def real_scores : Scores ℝ where
  hours span := span
  relevance_score _ _ m := m.importance
  compute_decay _ _ m := m.importance
  decays _ _ := false
  contains_text _ _ := true
  distill_floor := 0.4
  distilled importance := importance
  add := (· + ·)
  count n := n
  average counts := counts.sum / counts.length
  zero := 0
  one := 1
  ratio a b := a / b
  words _ := []

noncomputable def used : Memory ℝ := ⟨1,.Semantic,.Warm,.string "used",0,0,5,0.9,[],none,none,none⟩
noncomputable def unused : Memory ℝ := ⟨2,.Semantic,.Warm,.string "unused",0,0,0,0.5,[],none,none,none⟩
noncomputable def drawer : Store ℝ := ⟨[used,unused],by show [(1 : Uuid),2].Nodup; decide⟩
noncomputable def capped (boost cap : ℝ) : ConsolidationConfig ℝ := ⟨24.0,0.6,boost,cap⟩

theorem drawer_range : InRange drawer := by
  intro m stored
  rcases List.mem_pair.mp stored with rfl | rfl <;> norm_num [used,unused]

theorem default_range : Every (step real_scores whole_hours (capped 0.1 1) default) (Keeps real_scores whole_hours (capped 0.1 1) default) drawer
    [.consolidate (at_time 5),.reinforce 1 0.2,.compact (at_time 100)] :=
  (importance_range real_scores whole_hours (capped 0.1 1) default drawer drawer_range _).mpr
    ⟨meets_consolidate drawer_range (by norm_num [capped]) rfl (at_time 5),fun _ => by norm_num,trivial,trivial⟩

theorem drawer_copy : last_copy (exact_scores real_scores whole_hours) drawer.memories 1 = some used := by
  have above : reinforces (exact_scores real_scores whole_hours) (5 / 2) used = true := by
    norm_num [reinforces,exact_scores,real_scores,used]
  have below : reinforces (exact_scores real_scores whole_hours) (5 / 2) unused = false := by
    norm_num [reinforces,exact_scores,real_scores,unused]
  have average : (exact_scores real_scores whole_hours).average (drawer.memories.map Memory.access_count) = 5 / 2 := by
    norm_num [exact_scores,real_scores,drawer,used,unused]
  have memories : drawer.memories = [used,unused] := rfl
  have own : used.id = 1 := rfl
  rw [last_copy,average,memories,List.filter_cons_of_pos above,List.filter_cons_of_neg (by simp [below])]
  simp [own]

/-- A negative boost, a cap that is lower than what is stored, and one that is above the range. -/
theorem importance_escapes :
    InRange drawer ∧ ¬ Keeps real_scores whole_hours (capped 0.1 1) default drawer (.reinforce 1 (-1)) ∧
      ¬ Keeps real_scores whole_hours (capped 0.1 0.5) default drawer (.reinforce_batch drawer.memories) ∧
      ¬ Keeps real_scores whole_hours (capped 0.2 2) default drawer (.reinforce_batch drawer.memories) := by
  have stored : used ∈ drawer.memories := List.mem_cons_self
  refine ⟨drawer_range,?_,?_,?_⟩ <;> rw [keeps_iff drawer_range]
  · intro meets
    have positive : (0 : ℝ) ≤ -1 := meets (by rw [show (1 : Uuid) = used.id from rfl,retrieve_of_mem stored]; exact Option.some_ne_none used)
    norm_num at positive
  · intro safe
    obtain ⟨-,cap,-⟩ := safe used stored used drawer_copy
    norm_num [used,capped] at cap
  · intro safe
    obtain ⟨-,-,high⟩ := safe used stored used drawer_copy
    norm_num [used,capped] at high

end Daf.ImportanceRange
