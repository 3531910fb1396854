import Daf.ExpiryRange
import Mathlib.Analysis.SpecialFunctions.Pow.Real

/-!
What compactions make of the importance of a memory that is not accessed, in exact arithmetic. Each of them
takes off what has faded since the last access, from what the ones before it have left.
-/
namespace Daf.DecaySchedule
open Daf.UuidText Daf.Memories Daf.ExpiryRange

/-- `f64::clamp` to the range of importances. -/
noncomputable def clamp (v : ℝ) : ℝ := max 0 (min 1 v)

/-- `compute_decay` over the real numbers, from the hours of a time span; what else is computed stays as it is. -/
noncomputable def exactly (rest : Doubles ℝ) (hours : Int → NNReal) : Doubles ℝ :=
  { rest with
    hours := fun span => hours span
    compute_decay := fun half_life_hours now m =>
      clamp (m.importance * Real.exp (-(hours (now - m.last_accessed)) * Real.log 2 / half_life_hours)) }

/-- Hours as they are counted: in seconds, of which parts are dropped, and none before the last access. -/
noncomputable def whole_hours (span : Int) : NNReal := ((max 0 (span.tdiv (10^9))).toNat : NNReal) / 3600

/-- What is left of an importance after some hours, by the half-life. -/
noncomputable def fading (half : ℝ) (hours : NNReal) : ℝ := 2 ^ (-(hours : ℝ) / half)

/-- What compactions leave, by the hours from the last access to each of them. -/
noncomputable def left_after (half : ℝ) (importance : ℝ) (passes : List NNReal) : ℝ :=
  passes.foldl (fun v hours => clamp (v * fading half hours)) importance

/-- The hours of the passes add up to the hours at the end. Above the range of importances the first pass cuts off, and the rest fades from the top of the range. -/
def Undistorted (half importance : ℝ) (passes : List NNReal) (hours : NNReal) : Prop :=
  importance = 0 ∨
    match passes with
    | [] => hours = 0
    | first :: rest =>
      0 < importance ∧
        (importance * fading half first ≤ 1 ∧ first + rest.sum = hours ∨
          1 < importance * fading half first ∧ fading half rest.sum = importance * fading half hours)

section
variable {half v : ℝ} {a b : NNReal} {passes : List NNReal}

theorem exp_fading (half : ℝ) (a : NNReal) : Real.exp (-(a : ℝ) * Real.log 2 / half) = fading half a := by
  rw [fading,Real.rpow_def_of_pos two_pos]
  congr 1
  ring

theorem fading_pos : 0 < fading half a := Real.rpow_pos_of_pos two_pos _

theorem fading_add : fading half (a+b) = fading half a * fading half b := by
  rw [fading,fading,fading,← Real.rpow_add two_pos]
  congr 1
  push_cast
  ring

theorem fading_zero (half : ℝ) : fading half 0 = 1 := by simp [fading]

theorem fading_lt (positive : 0 < half) : fading half a < fading half b ↔ b < a := by
  rw [fading,fading,Real.rpow_lt_rpow_left_iff one_lt_two,div_lt_div_iff_of_pos_right positive,neg_lt_neg_iff,NNReal.coe_lt_coe]

theorem fading_injective (positive : 0 < half) (same : fading half a = fading half b) : a = b := by
  rcases lt_trichotomy a b with less | same' | greater
  · exact absurd same (ne_of_gt ((fading_lt positive).mpr less))
  · exact same'
  · exact absurd same (ne_of_lt ((fading_lt positive).mpr greater))

theorem fading_le_one (positive : 0 < half) : fading half a ≤ 1 := by
  rw [← fading_zero half]
  exact not_lt.mp fun greater => absurd ((fading_lt positive).mp greater) not_lt_zero

theorem clamp_unit (low : 0 ≤ v) (high : v ≤ 1) : clamp v = v := by rw [clamp,min_eq_right high,max_eq_right low]

/-- Within the range nothing is cut off: the hours of the passes add up. -/
theorem left_unit (positive : 0 < half) (low : 0 ≤ v) (high : v ≤ 1) : left_after half v passes = v * fading half passes.sum := by
  induction passes generalizing v with
  | nil => simp [left_after,fading_zero]
  | cons first rest ih =>
    have low' : 0 ≤ v * fading half first := mul_nonneg low fading_pos.le
    have high' : v * fading half first ≤ 1 := mul_le_one₀ high fading_pos.le (fading_le_one positive)
    have rest_left := ih low' high'
    rw [left_after] at rest_left ⊢
    rw [List.foldl_cons,clamp_unit low' high',rest_left,List.sum_cons,fading_add,mul_assoc]

theorem left_cons (first : NNReal) (rest : List NNReal) : left_after half v (first :: rest) = left_after half (clamp (v * fading half first)) rest := rfl

theorem clamp_below (low : v ≤ 0) : clamp v = 0 := by rw [clamp,min_eq_right (low.trans zero_le_one),max_eq_left low]

theorem clamp_above (high : 1 ≤ v) : clamp v = 1 := by rw [clamp,min_eq_left high,max_eq_right zero_le_one]

/-- What passes leave is what has faded since the last access exactly when their hours add up to it. -/
theorem undistorted_iff (positive : 0 < half) (hours : NNReal) :
    left_after half v passes = v * fading half hours ↔ Undistorted half v passes hours := by
  unfold Undistorted
  rcases eq_or_ne v 0 with rfl | other
  · have nothing : left_after half 0 passes = 0 := by rw [left_unit positive le_rfl zero_le_one,zero_mul]
    simp [nothing]
  · cases passes with
    | nil =>
      rw [left_after,List.foldl_nil,or_iff_right other]
      constructor
      · intro same
        have one : fading half hours = fading half 0 := by
          rw [fading_zero]
          exact mul_left_cancel₀ other (by rw [mul_one]; exact same.symm)
        exact fading_injective positive one
      · rintro rfl
        rw [fading_zero,mul_one]
    | cons first rest =>
      rw [left_cons,or_iff_right other]
      dsimp only
      rcases lt_or_gt_of_ne other with negative | above
      · have faded : v * fading half hours ≠ 0 := mul_ne_zero other fading_pos.ne'
        have nothing : left_after half (clamp (v * fading half first)) rest = 0 := by
          rw [clamp_below (mul_nonpos_of_nonpos_of_nonneg negative.le fading_pos.le),left_unit positive le_rfl zero_le_one,zero_mul]
        rw [nothing]
        exact ⟨fun same => absurd same.symm faded,fun meant => absurd meant.1 negative.not_gt⟩
      · rw [and_iff_right above]
        rcases le_or_gt (v * fading half first) 1 with within | beyond
        · have low : 0 ≤ v * fading half first := mul_nonneg above.le fading_pos.le
          rw [clamp_unit low within,left_unit positive low within,mul_assoc,← fading_add,and_iff_right within,
            or_iff_left fun outside => outside.1.not_ge within,mul_right_inj' other]
          exact ⟨fading_injective positive,fun same => by rw [same]⟩
        · rw [clamp_above beyond.le,left_unit positive zero_le_one le_rfl,one_mul,or_iff_right fun inside => inside.1.not_gt beyond,and_iff_right beyond]

end

/-! ### Schedules -/

section
variable (rest : Doubles ℝ) (hours : Int → NNReal) (config : ManagerConfig ℝ) (dates : Dates) (id : Uuid)

/-- Compactions that all return, by their times, and whether the memory was among those that they list. Between two of them
    the memory is not touched; all else in the store may change. -/
inductive Schedule : Store ℝ → List (Int × Bool) → Store ℝ → Prop where
  | done (s : Store ℝ) : Schedule s [] s
  | pass {s before after left : Store ℝ} {key : Uuid → Nat} {now : Int} {fails : Uuid → Bool} {passes : List (Int × Bool)}
      (untouched : before.retrieve id = s.retrieve id)
        (compacts : MemoryManager.compact (exactly rest hours) config dates key (stopped now) fails before = .returned after)
      (later : Schedule after passes left) : Schedule s ((now,decide (id ∈ (before.list_all key limit).map Memory.id)) :: passes) left

/-- The times of the compactions that list the memory. -/
def listings (passes : List (Int × Bool)) : List Int := (passes.filter Prod.snd).map Prod.fst

/-- The hours from the last access of a memory to the compactions that list it. -/
def spans (m : Memory ℝ) (passes : List (Int × Bool)) : List NNReal := (listings passes).map fun now => hours (now - m.last_accessed)

end

section
variable {rest : Doubles ℝ} {hours : Int → NNReal} {config : ManagerConfig ℝ} {dates : Dates} {id : Uuid} {key : Uuid → Nat} {now : Int} {fails : Uuid → Bool}
  {s before after left : Store ℝ} {m : Memory ℝ} {passes : List (Int × Bool)}

/-- One compaction: the memory is deleted, decayed, or not listed. -/
theorem compact_leaves (stored : before.retrieve id = some m)
    (compacts : MemoryManager.compact (exactly rest hours) config dates key (stopped now) fails before = .returned after) :
    after.retrieve id =
      if id ∈ (before.list_all key limit).map Memory.id then
        if m.is_expired now then none else some (compacted (exactly rest hours) config now m)
      else some m := by
  obtain rfl := retrieve_id stored
  split_ifs with listed expired
  · obtain ⟨twin,inside,same⟩ := List.mem_map.mp listed
    obtain rfl : twin = m := List.inj_on_of_nodup_map before.distinct (mem_list_all inside) (retrieve_mem stored) same
    exact sweep_expired (list_all_distinct before key limit) inside expired compacts
  · obtain ⟨twin,inside,same⟩ := List.mem_map.mp listed
    obtain rfl : twin = m := List.inj_on_of_nodup_map before.distinct (mem_list_all inside) (retrieve_mem stored) same
    exact sweep_kept (list_all_distinct before key limit) inside stored (Bool.not_eq_true _ ▸ expired) compacts
  · rw [← stored]
    exact sweep_others (fun other inside same => listed (same ▸ List.mem_map_of_mem inside)) compacts

/-- A memory that is gone stays gone. -/
theorem schedule_absent (run : Schedule rest hours config dates id s passes left) (absent : s.retrieve id = none) : left.retrieve id = none := by
  induction run with
  | done s => exact absent
  | pass untouched compacts later ih =>
    rw [absent] at untouched
    refine ih ((sweep_others (fun other inside same => ?_) compacts).trans untouched)
    exact retrieve_none.mp untouched (same ▸ List.mem_map_of_mem (mem_list_all inside))

/-- What a schedule leaves of a memory: nothing when it was expired at a compaction that listed it, and else what the decays of these compactions leave. -/
theorem schedule_leaves (run : Schedule rest hours config dates id s passes left) (stored : s.retrieve id = some m) :
    (∃ now ∈ listings passes, m.is_expired now = true) ∧ left.retrieve id = none ∨
      (∀ now ∈ listings passes, m.is_expired now = false) ∧ ∃ tier, left.retrieve id =
        some { m with importance := left_after config.decay_half_life_hours m.importance (spans hours m passes),tier := tier } := by
  induction run generalizing m with
  | done s => exact .inr ⟨nofun,m.tier,stored⟩
  | @pass s before after left key now fails passes untouched compacts later ih =>
    have leaves := compact_leaves (untouched.trans stored) compacts
    by_cases listed : id ∈ (before.list_all key limit).map Memory.id
    · have times : listings ((now,decide (id ∈ (before.list_all key limit).map Memory.id)) :: passes) = now :: listings passes := by
        simp [listings,listed]
      rw [if_pos listed] at leaves
      rw [spans,times]
      by_cases expired : m.is_expired now = true
      · rw [if_pos expired] at leaves
        exact .inl ⟨⟨now,List.mem_cons_self,expired⟩,schedule_absent later leaves⟩
      · rw [if_neg expired] at leaves
        rcases ih leaves with ⟨⟨t,member,expired'⟩,gone⟩ | ⟨lives,tier,found⟩
        · exact .inl ⟨⟨t,List.mem_cons_of_mem _ member,expired'⟩,gone⟩
        · refine .inr ⟨List.forall_mem_cons.mpr ⟨Bool.not_eq_true _ ▸ expired,lives⟩,tier,found.trans ?_⟩
          rw [List.map_cons,left_cons,← exp_fading]
          rfl
    · have times : listings ((now,decide (id ∈ (before.list_all key limit).map Memory.id)) :: passes) = listings passes := by
        simp [listings,listed]
      rw [if_neg listed] at leaves
      rw [spans,times]
      exact ih leaves

/-- There is a schedule for every list of times. -/
theorem schedule_exists (rest : Doubles ℝ) (hours : Int → NNReal) (config : ManagerConfig ℝ) (dates : Dates) (times : List Int)
    (stored : s.retrieve id = some m) (lasts : m.ttl = none) : ∃ left, Schedule rest hours config dates id s (times.map fun now => (now,true)) left := by
  induction times generalizing s m with
  | nil => exact ⟨s,.done s⟩
  | cons now times ih =>
    let alone : Store ℝ := ⟨[m],List.nodup_singleton _⟩
    have member : m ∈ alone.list_all (fun _ => 0) limit := by simp [alone,Store.list_all,Store.iter,limit]
    have listed : id ∈ (alone.list_all (fun _ => 0) limit).map Memory.id := retrieve_id stored ▸ List.mem_map_of_mem member
    have found : alone.retrieve id = some m := retrieve_id stored ▸ retrieve_of_mem (List.mem_singleton_self m)
    have within : ∀ other ∈ alone.list_all (fun _ => 0) limit, ¬ Overflows dates other := by
      intro other inside
      simp [List.mem_singleton.mp (mem_list_all inside),Overflows,lasts]
    obtain ⟨after,compacts⟩ : ∃ after, MemoryManager.compact (exactly rest hours) config dates (fun _ => 0) (stopped now) (fun _ => false) alone = .returned after :=
      sweep_returns within alone
    have leaves := compact_leaves found compacts
    rw [if_pos listed,if_neg (by simp [Memory.is_expired,lasts])] at leaves
    obtain ⟨left,later⟩ := ih leaves lasts
    have run := Schedule.pass (found.trans stored.symm) compacts later
    rw [decide_eq_true listed] at run
    exact ⟨left,run⟩

/-- Within the range of importances the hours of all passes count. -/
theorem undistorted_unit {half v : ℝ} {passes : List NNReal} {hours : NNReal} (positive : 0 < half) (low : 0 ≤ v) (high : v ≤ 1) :
    Undistorted half v passes hours ↔ v = 0 ∨ passes.sum = hours := by
  rw [← undistorted_iff positive,left_unit positive low high,mul_eq_mul_left_iff,or_comm]
  exact or_congr_right ⟨fading_injective positive,fun same => by rw [same]⟩

theorem faithful_iff (positive : 0 < config.decay_half_life_hours) (stored : s.retrieve id = some m)
    (run : Schedule rest hours config dates id s passes left) (now : Int) :
    (left.retrieve id).map Memory.importance = some (m.importance * fading config.decay_half_life_hours (hours (now - m.last_accessed))) ↔
      (∀ now ∈ listings passes, m.is_expired now = false) ∧
        Undistorted config.decay_half_life_hours m.importance (spans hours m passes) (hours (now - m.last_accessed)) := by
  rcases schedule_leaves run stored with ⟨⟨t,member,expired⟩,gone⟩ | ⟨lives,tier,found⟩
  · rw [gone]
    exact ⟨nofun,fun meant => absurd ((meant.1 t member).symm.trans expired) Bool.false_ne_true⟩
  · rw [found,Option.map_some,Option.some.injEq,undistorted_iff positive]
    exact (and_iff_right lives).symm

end

/-- What is stored at the end of a schedule is what has faded since the last access exactly when the memory was not expired at a compaction that listed it
    and the hours of these compactions add up to the hours at the end. When each of them lists it, and its importance is in the range, this says that
    no hours had passed at any of them but the last. -/
theorem schedules_decay (rest : Doubles ℝ) (hours : Int → NNReal) (config : ManagerConfig ℝ) (dates : Dates) (id : Uuid) (s left : Store ℝ) (m : Memory ℝ)
    (earlier : List (Int × Bool)) (finish : Int) (listed : Bool) (positive : 0 < config.decay_half_life_hours) (stored : s.retrieve id = some m)
    (run : Schedule rest hours config dates id s (earlier ++ [(finish,listed)]) left) :
    ((left.retrieve id).map Memory.importance = some (m.importance * 2 ^ (-(hours (finish - m.last_accessed) : ℝ) / config.decay_half_life_hours)) ↔
      (∀ now ∈ listings (earlier ++ [(finish,listed)]), m.is_expired now = false) ∧
        Undistorted config.decay_half_life_hours m.importance (spans hours m (earlier ++ [(finish,listed)])) (hours (finish - m.last_accessed))) ∧
    (0 ≤ m.importance → m.importance ≤ 1 → (∀ pass ∈ earlier ++ [(finish,listed)], pass.2 = true ∧ m.is_expired pass.1 = false) →
      ((left.retrieve id).map Memory.importance = some (m.importance * 2 ^ (-(hours (finish - m.last_accessed) : ℝ) / config.decay_half_life_hours)) ↔
        m.importance = 0 ∨ ∀ pass ∈ earlier, hours (pass.1 - m.last_accessed) = 0)) := by
  have faithful := faithful_iff positive stored run finish
  refine ⟨faithful,fun low high regular => ?_⟩
  have all : (earlier ++ [(finish,listed)]).filter Prod.snd = earlier ++ [(finish,listed)] := List.filter_eq_self.mpr fun pass member => (regular pass member).1
  have lives : ∀ now ∈ listings (earlier ++ [(finish,listed)]), m.is_expired now = false := by
    rw [listings,all]
    exact List.forall_mem_map.mpr fun pass member => (regular pass member).2
  have sum : (spans hours m (earlier ++ [(finish,listed)])).sum = (earlier.map fun pass => hours (pass.1 - m.last_accessed)).sum + hours
    (finish - m.last_accessed) := by
    rw [spans,listings,all,List.map_map,List.map_append,List.sum_append,List.map_singleton,List.sum_singleton]
    rfl
  rw [fading] at faithful
  rw [faithful,and_iff_right lives,undistorted_unit positive low high,sum,add_eq_right,List.sum_eq_zero_iff,List.forall_mem_map]

/-- A memory of full importance, last accessed at the start of the epoch. -/
noncomputable def important : Memory ℝ := ⟨1,.Semantic,.Warm,.null,0,0,0,1,[],none,none,none⟩

noncomputable def alone : Store ℝ := ⟨[important],List.nodup_singleton _⟩

/-- The default of a configuration. -/
noncomputable def default : ManagerConfig ℝ := ⟨10,3,24,168,0.8,168⟩

noncomputable def still : Doubles ℝ := ⟨fun _ => 0,fun _ _ _ => 0,fun _ _ m => m.importance,fun _ _ => false,fun _ _ => false⟩

def week : Int := 168 * 3600 * 10^9

theorem alone_retrieve : alone.retrieve 1 = some important := by simp [alone,important,Store.retrieve]

theorem default_positive : 0 < default.decay_half_life_hours := by norm_num [default]

theorem week_hours : whole_hours week = 168 := by
  have seconds : (max 0 (week.tdiv (10^9))).toNat = 168 * 3600 := by decide
  rw [whole_hours,seconds]
  norm_num

/-- One compaction after a week leaves a half. -/
theorem schedules_decay_week : ∃ left, Schedule still whole_hours default chrono 1 alone [(week,true)] left ∧
    (left.retrieve 1).map Memory.importance = some (1/2) := by
  obtain ⟨left,run⟩ := schedule_exists still whole_hours default chrono [week] alone_retrieve rfl
  have regular : ∀ pass ∈ [] ++ [(week,true)], pass.2 = true ∧ important.is_expired pass.1 = false := fun pass member => by
    rw [List.mem_singleton.mp member]
    exact ⟨rfl,rfl⟩
  have halved := ((schedules_decay still whole_hours default chrono 1 alone left important [] week true default_positive alone_retrieve run).2 zero_le_one le_rfl
    regular).mpr (.inr nofun)
  refine ⟨left,run,halved.trans ?_⟩
  rw [show week - important.last_accessed = week by rfl,week_hours]
  norm_num [default,important,Real.rpow_neg_one]

/-- A compaction on the way counts its hours twice. -/
theorem schedule_matters : ¬ ∀ (s left left' : Store ℝ) (m : Memory ℝ) (earlier earlier' : List Int) (finish : Int),
    s.retrieve 1 = some m → 0 ≤ m.importance → m.importance ≤ 1 → m.ttl = none →
    Schedule still whole_hours default chrono 1 s ((earlier ++ [finish]).map fun now => (now,true)) left →
    Schedule still whole_hours default chrono 1 s ((earlier' ++ [finish]).map fun now => (now,true)) left' →
    (left.retrieve 1).map Memory.importance = (left'.retrieve 1).map Memory.importance := by
  intro claim
  obtain ⟨left,run⟩ := schedule_exists still whole_hours default chrono ([] ++ [week]) alone_retrieve rfl
  obtain ⟨left',run'⟩ := schedule_exists still whole_hours default chrono ([week] ++ [week]) alone_retrieve rfl
  have same := claim alone left left' important [] [week] week alone_retrieve zero_le_one le_rfl rfl run run'
  rcases schedule_leaves run alone_retrieve with ⟨⟨t,member,expired⟩,-⟩ | ⟨-,tier,found⟩
  · exact nomatch expired
  rcases schedule_leaves run' alone_retrieve with ⟨⟨t,member,expired⟩,-⟩ | ⟨-,tier',found'⟩
  · exact nomatch expired
  rw [found,found',Option.map_some,Option.map_some,Option.some.injEq] at same
  simp only [left_unit default_positive zero_le_one (le_refl (1 : ℝ)),important,one_mul] at same
  have hours := fading_injective default_positive same
  simp [spans,listings,week_hours] at hours

end Daf.DecaySchedule
