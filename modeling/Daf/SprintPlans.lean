import Daf.Chunks
import Daf.MissionLayers
import Daf.Sprints

/-!
Planning a sprint: the phases of a mission in the order of execution, each cut into waves of a bounded number of tasks. Nothing checks the bound,
and cutting into chunks of no task panics, as does a deadline that is no date.
-/
namespace Daf.SprintPlans
open Daf.GraphNodes Daf.MissionPlan Daf.Sprints Daf.Chunks Daf.MissionLayers Daf.Waves

structure SprintPlanner where
  max_tasks_per_wave : Option Nat
  max_sprint_duration : Option Duration

/-- The id of the sprint, the readings of the clock, and the last date there is. -/
structure Env where
  id : SprintId
  now : Nat → Int
  latest : Int

/-- The longest span that a date can be moved by, in nanoseconds. -/
def MAX_SPAN : Int := 9223372036854775807 * 1000000

/-- A span that is too long becomes a day. -/
def from_std (dur : Duration) : Int := if (dur : Int) ≤ MAX_SPAN then dur else 24 * 3600 * 1000000000

/-- The chunks of the tasks of a phase; `none` is a panic. -/
def chunksOf (max_tasks_per_wave : Option Nat) (tasks : List TaskSpec) : Option (List (List TaskSpec)) :=
  match max_tasks_per_wave with
  | some max => if max = 0 then none else some (chunks max tasks)
  | none => some [tasks]

/-- The waves so far, each with the index of the phase that it is made from, and the index of the next wave. -/
abbrev Planned := List (Nat × Wave) × Nat

def addWave (i : Nat) (phase : Phase) (planned : Planned) (chunk : List TaskSpec) : Planned :=
  (planned.1 ++ [(i,⟨planned.2,chunk,phase.name,phase.concurrency_limit⟩)],planned.2 + 1)

def addPhase (max_tasks_per_wave : Option Nat) (mission : Mission) (planned : Planned) (i : Nat) : Option Planned :=
  match mission.phases[i]? with
  | none => some planned
  | some phase =>
    if phase.tasks.isEmpty then some planned
    else (chunksOf max_tasks_per_wave phase.tasks).map fun chunks => chunks.foldl (addWave i phase) planned

def planWaves (max_tasks_per_wave : Option Nat) (mission : Mission) (phase_waves : List (List Nat)) : Option Planned :=
  phase_waves.foldlM (fun planned phase_group => phase_group.foldlM (addPhase max_tasks_per_wave mission) planned) ([],0)

/-- A plan of a mission, with `none` for a panic. -/
def SprintPlanner.plan (planner : SprintPlanner) (env : Env) (mission : Mission) : Option (Except DafError Sprint) :=
  match mission.resolve_execution_order with
  | .error e => some (.error e)
  | .ok phase_waves =>
    match planWaves planner.max_tasks_per_wave mission phase_waves with
    | none => none
    | some (waves,_) =>
      let sprint := Sprint.new env.id ("sprint-" ++ mission.name) mission.id (waves.map Prod.snd) (env.now 0)
      match planner.max_sprint_duration with
      | none => some (.ok sprint)
      | some dur => if env.now 1 + from_std dur ≤ env.latest then some (.ok (sprint.with_deadline (env.now 1 + from_std dur))) else none

/-! ### What is planned -/

def tasksOf (mission : Mission) (i : Nat) : List TaskSpec := (mission.phases[i]?.map Phase.tasks).getD []

/-- The chunks of the tasks of a phase when there is no panic. -/
def cuts (max_tasks_per_wave : Option Nat) (tasks : List TaskSpec) : List (List TaskSpec) :=
  match max_tasks_per_wave with
  | some max => chunks max tasks
  | none => [tasks]

def parts (max_tasks_per_wave : Option Nat) (mission : Mission) (i : Nat) : List (List TaskSpec) :=
  if tasksOf mission i = [] then [] else cuts max_tasks_per_wave (tasksOf mission i)

/-- The wave of a chunk. -/
def waveOf (mission : Mission) (x : (Nat × List TaskSpec) × Nat) : Nat × Wave :=
  (x.1.1,⟨x.2,x.1.2,(mission.phases[x.1.1]?.map Phase.name).getD "",mission.phases[x.1.1]?.bind Phase.concurrency_limit⟩)

/-- The waves carry the work of the mission: those of a phase are its tasks in order, and stand behind those of the phases that it lists. -/
structure Preserves (max_tasks_per_wave : Option Nat) (mission : Mission) (made : List (Nat × Wave)) : Prop where
  indexed : ∀ (k : Nat) i wave, made[k]? = some (i,wave) → wave.index = k
  filled : ∀ made_wave ∈ made, made_wave.2.tasks ≠ []
  bounded : ∀ made_wave ∈ made, ∀ max, max_tasks_per_wave = some max → made_wave.2.tasks.length ≤ max
  named : ∀ made_wave ∈ made, ∃ phase, mission.phases[made_wave.1]? = some phase ∧ made_wave.2.phase_name = phase.name
  whole : ∀ (i : Nat) phase, mission.phases[i]? = some phase → ((made.filter fun made_wave => made_wave.1 = i).map fun made_wave => made_wave.2.tasks).flatten = phase.tasks
  after : ∀ i j, Depends mission i j → ∀ (k l : Nat) wave other, made[k]? = some (i,wave) → made[l]? = some (j,other) → l < k

/-- A chunk of no task is asked for. -/
def Chunkless (max_tasks_per_wave : Option Nat) (mission : Mission) : Prop := max_tasks_per_wave = some 0 ∧ ∃ phase ∈ mission.phases, phase.tasks ≠ []

/-- The deadline is a date. -/
def Dated (planner : SprintPlanner) (env : Env) : Prop := ∀ dur, planner.max_sprint_duration = some dur → env.now 1 + from_std dur ≤ env.latest

/-- Each phase that has tasks stands behind all phases with tasks whose names it lists. -/
def InOrder (mission : Mission) (order : List Nat) : Prop :=
  ∀ i j, Depends mission i j → tasksOf mission i ≠ [] → tasksOf mission j ≠ [] → ∃ before after, order = before ++ i :: after ∧ j ∈ before

variable {mission : Mission} {max_tasks_per_wave : Option Nat} {phase_waves : List (List Nat)}

theorem tasksOf_eq {i : Nat} {phase : Phase} (there : mission.phases[i]? = some phase) : tasksOf mission i = phase.tasks := by
  rw [tasksOf,there,Option.map_some,Option.getD_some]

theorem tasksOf_ne_nil {i : Nat} (works : tasksOf mission i ≠ []) : ∃ phase, mission.phases[i]? = some phase ∧ phase.tasks ≠ [] := by
  cases there : mission.phases[i]? with
  | none => exact absurd (by rw [tasksOf,there]; rfl) works
  | some phase => exact ⟨phase,rfl,tasksOf_eq there ▸ works⟩

theorem parts_filled (max_tasks_per_wave : Option Nat) {i : Nat} (works : tasksOf mission i ≠ []) : parts max_tasks_per_wave mission i ≠ [] := by
  rw [parts,if_neg works]
  cases max_tasks_per_wave with
  | none => exact List.cons_ne_nil _ _
  | some max => exact chunks_ne_nil works

theorem works_of_mem {i : Nat} {part : List TaskSpec} (own : part ∈ parts max_tasks_per_wave mission i) : tasksOf mission i ≠ [] := by
  intro idle
  rw [parts,if_pos idle] at own
  cases own

/-- Unless chunks of no task are asked for, the chunks of a phase are its tasks, none is empty and none is too long. -/
theorem parts_sound (sound : ¬ Chunkless max_tasks_per_wave mission) (i : Nat) :
    (parts max_tasks_per_wave mission i).flatten = tasksOf mission i ∧
      ∀ part ∈ parts max_tasks_per_wave mission i, part ≠ [] ∧ ∀ max, max_tasks_per_wave = some max → part.length ≤ max := by
  rw [parts]
  split_ifs with idle
  · exact ⟨idle.symm,nofun⟩
  · cases limit : max_tasks_per_wave with
    | none =>
      refine ⟨List.flatten_singleton,fun part member => ?_⟩
      rw [List.mem_singleton.mp member]
      exact ⟨idle,nofun⟩
    | some max =>
      have positive : 0 < max := by
        obtain ⟨phase,there,works⟩ := tasksOf_ne_nil idle
        refine Nat.pos_of_ne_zero fun zero => sound ⟨?_,phase,List.mem_of_getElem? there,works⟩
        rw [limit,zero]
      refine ⟨chunks_flatten positive _,fun part member => ?_⟩
      obtain ⟨filled,short⟩ := mem_chunks positive member
      exact ⟨filled,fun _ same => Option.some.inj same ▸ short⟩

/-! ### The waves of an order -/

/-- The waves of one phase, numbered on. -/
theorem addWaves (i : Nat) (phase : Phase) (there : mission.phases[i]? = some phase) (list : List (List TaskSpec)) (done : List (Nat × List TaskSpec)) :
    list.foldl (addWave i phase) (done.zipIdx.map (waveOf mission),done.length) =
      ((done ++ list.map (i,·)).zipIdx.map (waveOf mission),(done ++ list.map (i,·)).length) := by
  induction list generalizing done with
  | nil => simp
  | cons chunk list ih =>
    have one : addWave i phase (done.zipIdx.map (waveOf mission),done.length) chunk =
        ((done ++ [(i,chunk)]).zipIdx.map (waveOf mission),(done ++ [(i,chunk)]).length) := by
      simp [addWave,List.zipIdx_append,waveOf,there]
    rw [List.foldl_cons,one,ih,List.map_cons,List.append_assoc,List.singleton_append]

theorem addPhase_eq (sound : ¬ Chunkless max_tasks_per_wave mission) (i : Nat) (done : List (Nat × List TaskSpec)) :
    addPhase max_tasks_per_wave mission (done.zipIdx.map (waveOf mission),done.length) i =
      some ((done ++ (parts max_tasks_per_wave mission i).map (i,·)).zipIdx.map (waveOf mission),
        (done ++ (parts max_tasks_per_wave mission i).map (i,·)).length) := by
  unfold addPhase parts
  cases there : mission.phases[i]? with
  | none => simp [tasksOf,there]
  | some phase =>
    simp only [tasksOf_eq there,List.isEmpty_iff]
    split_ifs with idle
    · rw [List.map_nil,List.append_nil]
    · have cut : chunksOf max_tasks_per_wave phase.tasks = some (cuts max_tasks_per_wave phase.tasks) := by
        cases limit : max_tasks_per_wave with
        | none => rfl
        | some max => exact if_neg fun zero => sound ⟨by rw [limit,zero],phase,List.mem_of_getElem? there,idle⟩
      rw [cut,Option.map_some,addWaves i phase there]

theorem planWaves_flatten (phase_waves : List (List Nat)) :
    planWaves max_tasks_per_wave mission phase_waves = phase_waves.flatten.foldlM (addPhase max_tasks_per_wave mission) ([],0) := by
  unfold planWaves
  generalize (([],0) : Planned) = start
  induction phase_waves generalizing start with
  | nil => rfl
  | cons wave later ih =>
    rw [List.foldlM_cons,List.flatten_cons,List.foldlM_append]
    exact congrArg _ (funext ih)

/-- The waves are the chunks of the phases in the order of execution. -/
theorem planWaves_eq (sound : ¬ Chunkless max_tasks_per_wave mission) (phase_waves : List (List Nat)) :
    planWaves max_tasks_per_wave mission phase_waves =
      some ((tagged (parts max_tasks_per_wave mission) phase_waves.flatten).zipIdx.map (waveOf mission),
        (tagged (parts max_tasks_per_wave mission) phase_waves.flatten).length) := by
  have all : ∀ (order : List Nat) (done : List (Nat × List TaskSpec)),
      order.foldlM (addPhase max_tasks_per_wave mission) (done.zipIdx.map (waveOf mission),done.length) =
        some ((done ++ tagged (parts max_tasks_per_wave mission) order).zipIdx.map (waveOf mission),
          (done ++ tagged (parts max_tasks_per_wave mission) order).length) := by
    intro order
    induction order with
    | nil => intro done; simp [tagged]
    | cons i order ih =>
      intro done
      have next : tagged (parts max_tasks_per_wave mission) (i :: order) =
          (parts max_tasks_per_wave mission i).map (i,·) ++ tagged (parts max_tasks_per_wave mission) order := List.flatMap_cons
      rw [List.foldlM_cons,addPhase_eq sound,next,← List.append_assoc]
      exact ih _
  rw [planWaves_flatten]
  exact all phase_waves.flatten []

/-- The first phase with tasks panics when chunks of no task are asked for. -/
theorem planWaves_panics {i : Nat} (listed : i ∈ phase_waves.flatten) (works : tasksOf mission i ≠ []) : planWaves (some 0) mission phase_waves = none := by
  rw [planWaves_flatten]
  generalize (([],0) : Planned) = start
  generalize phase_waves.flatten = order at listed
  induction order generalizing start with
  | nil => cases listed
  | cons k order ih =>
    rw [List.foldlM_cons]
    by_cases idle : tasksOf mission k = []
    · have skipped : addPhase (some 0) mission start k = some start := by
        unfold addPhase
        cases there : mission.phases[k]? with
        | none => rfl
        | some phase =>
          rw [tasksOf_eq there] at idle
          simp [idle]
      have later : i ∈ order := (List.mem_cons.mp listed).resolve_left fun same => works (same ▸ idle)
      rw [skipped]
      exact ih start later
    · obtain ⟨phase,there,busy⟩ := tasksOf_ne_nil idle
      have panicked : addPhase (some 0) mission start k = none := by
        simp [addPhase,there,busy,chunksOf]
      rw [panicked]
      rfl

/-! ### The plan -/

theorem waves_at (list : List (Nat × List TaskSpec)) (k : Nat) :
    (list.zipIdx.map (waveOf mission))[k]? = list[k]?.map fun part => waveOf mission (part,k) := by
  rw [List.getElem?_map,List.getElem?_zipIdx,Nat.zero_add,Option.map_map]
  rfl

theorem waves_of (list : List (Nat × List TaskSpec)) (i : Nat) :
    ((list.zipIdx.map (waveOf mission)).filter fun made_wave => made_wave.1 = i).map (fun made_wave => made_wave.2.tasks) =
      (list.filter fun part => part.1 = i).map Prod.snd := by
  generalize 0 = start
  induction list generalizing start with
  | nil => rfl
  | cons part list ih =>
    have own : (waveOf mission (part,start)).1 = part.1 := rfl
    rw [List.zipIdx_cons,List.map_cons,List.filter_cons,List.filter_cons,own]
    split_ifs with same
    · rw [List.map_cons,List.map_cons,ih]
      rfl
    · exact ih (start + 1)

/-- A wave is made from a chunk of its phase. -/
theorem origin_at {order : List Nat} {k i : Nat} {wave : Wave}
    (at_k : ((tagged (parts max_tasks_per_wave mission) order).zipIdx.map (waveOf mission))[k]? = some (i,wave)) :
    ∃ part ∈ parts max_tasks_per_wave mission i, i ∈ order ∧ (tagged (parts max_tasks_per_wave mission) order)[k]? = some (i,part) ∧
      wave = (waveOf mission ((i,part),k)).2 := by
  rw [waves_at] at at_k
  obtain ⟨⟨i',part⟩,found,same⟩ := Option.map_eq_some_iff.mp at_k
  cases same
  obtain ⟨listed,own⟩ := mem_tagged.mp (List.mem_of_getElem? found)
  exact ⟨part,own,listed,found,rfl⟩

theorem origin_of_mem {order : List Nat} {made_wave : Nat × Wave}
    (inside : made_wave ∈ (tagged (parts max_tasks_per_wave mission) order).zipIdx.map (waveOf mission)) :
    ∃ part ∈ parts max_tasks_per_wave mission made_wave.1, ∃ k, made_wave.2 = (waveOf mission ((made_wave.1,part),k)).2 := by
  obtain ⟨k,at_k⟩ := List.mem_iff_getElem?.mp inside
  obtain ⟨part,own,-,-,made⟩ := origin_at at_k
  exact ⟨part,own,k,made⟩

/-- The waves of an order that takes each phase once carry the work exactly when it takes the phases behind those that they list. -/
theorem preserves_iff (sound : ¬ Chunkless max_tasks_per_wave mission) {order : List Nat} (once : order.Perm (List.range mission.phases.length)) :
    Preserves max_tasks_per_wave mission ((tagged (parts max_tasks_per_wave mission) order).zipIdx.map (waveOf mission)) ↔ InOrder mission order := by
  have distinct : order.Nodup := once.nodup_iff.mpr List.nodup_range
  have listed : ∀ {i phase}, mission.phases[i]? = some phase → i ∈ order := fun there =>
    once.mem_iff.mpr (List.mem_range.mpr (List.getElem?_eq_some_iff.mp there).1)
  constructor
  · rintro preserves i j ⟨phase,other,at_i,at_j,depends⟩ i_works j_works
    have i_parts := parts_filled max_tasks_per_wave i_works
    have j_parts := parts_filled max_tasks_per_wave j_works
    refine (tagged_before_iff distinct (listed at_i) (listed at_j) i_parts j_parts).mp fun k l p q at_k at_l => ?_
    refine preserves.after i j ⟨phase,other,at_i,at_j,depends⟩ k l (waveOf mission ((i,p),k)).2 (waveOf mission ((j,q),l)).2 ?_ ?_
    · rw [waves_at,at_k]
      rfl
    · rw [waves_at,at_l]
      rfl
  · intro ordered
    constructor
    · intro k i wave at_k
      obtain ⟨part,-,-,-,rfl⟩ := origin_at at_k
      rfl
    · intro made_wave inside
      obtain ⟨part,own,k,made⟩ := origin_of_mem inside
      rw [made]
      exact ((parts_sound sound made_wave.1).2 part own).1
    · intro made_wave inside
      obtain ⟨part,own,k,made⟩ := origin_of_mem inside
      rw [made]
      exact ((parts_sound sound made_wave.1).2 part own).2
    · intro made_wave inside
      obtain ⟨part,own,k,made⟩ := origin_of_mem inside
      obtain ⟨phase,there,-⟩ := tasksOf_ne_nil (works_of_mem own)
      exact ⟨phase,there,by rw [made,waveOf]; simp [there]⟩
    · intro i phase there
      rw [waves_of,tagged_filter distinct (listed there),(parts_sound sound i).1,tasksOf_eq there]
    · intro i j depends k l wave other at_k at_l
      obtain ⟨p,p_own,i_listed,found_i,-⟩ := origin_at at_k
      obtain ⟨q,q_own,j_listed,found_j,-⟩ := origin_at at_l
      have i_works := works_of_mem p_own
      have j_works := works_of_mem q_own
      exact (tagged_before_iff distinct i_listed j_listed (parts_filled max_tasks_per_wave i_works) (parts_filled max_tasks_per_wave j_works)).mpr
        (ordered i j depends i_works j_works) k l p q found_i found_j

/-- The plan of a mission: no panic, and the waves of the sprint carry its work. -/
def Planned.Sound (planner : SprintPlanner) (env : Env) (mission : Mission) (phase_waves : List (List Nat)) : Prop :=
  ∃ made count sprint, planWaves planner.max_tasks_per_wave mission phase_waves = some (made,count) ∧
    planner.plan env mission = some (.ok sprint) ∧ sprint.waves = made.map Prod.snd ∧ Preserves planner.max_tasks_per_wave mission made

/-- With its waves made, the plan does not panic exactly when the deadline is a date. -/
theorem plan_dated (planner : SprintPlanner) (env : Env) (accepted : mission.resolve_execution_order = .ok phase_waves) {made : List (Nat × Wave)}
    {count : Nat} (planned : planWaves planner.max_tasks_per_wave mission phase_waves = some (made,count)) :
    (∃ sprint, planner.plan env mission = some (.ok sprint)) ↔ Dated planner env := by
  simp only [SprintPlanner.plan,accepted,planned,Dated]
  cases planner.max_sprint_duration with
  | none => simp
  | some dur =>
    by_cases date : env.now 1 + from_std dur ≤ env.latest
    · simp [date]
    · simp [date]

theorem plan_waves {planner : SprintPlanner} {env : Env} (accepted : mission.resolve_execution_order = .ok phase_waves) {made : List (Nat × Wave)}
    {count : Nat} (planned : planWaves planner.max_tasks_per_wave mission phase_waves = some (made,count)) {sprint : Sprint}
    (returned : planner.plan env mission = some (.ok sprint)) : sprint.waves = made.map Prod.snd := by
  simp only [SprintPlanner.plan,accepted,planned] at returned
  cases limit : planner.max_sprint_duration with
  | none =>
    rw [limit] at returned
    cases returned
    rfl
  | some dur =>
    simp only [limit] at returned
    split_ifs at returned
    cases returned
    rfl

/-- With distinct names the waves of the phases always stand in the order of the dependencies. -/
theorem in_order (distinct : (mission.phases.map Phase.name).Nodup) (accepted : mission.resolve_execution_order = .ok phase_waves) :
    InOrder mission phase_waves.flatten := by
  obtain ⟨once,-,earlier,-⟩ := (resolve_layers mission distinct).2.1 phase_waves accepted
  intro i j depends works _
  have listed : i ∈ phase_waves.flatten := by
    obtain ⟨phase,-,there,-⟩ := depends
    exact once.mem_iff.mpr (List.mem_range.mpr (List.getElem?_eq_some_iff.mp there).1)
  obtain ⟨wave,wave_listed,inside⟩ := List.mem_flatten.mp listed
  obtain ⟨before,after,split⟩ := List.append_of_mem wave_listed
  obtain ⟨left,right,wave_split⟩ := List.append_of_mem inside
  refine ⟨before.flatten ++ left,right ++ after.flatten,?_,List.mem_append_left _ (earlier before wave after split i inside j depends)⟩
  rw [split,List.flatten_append,List.flatten_cons,wave_split]
  simp

/-- The plan of an accepted mission is sound exactly when no chunk of no task is asked for, the deadline is a date, and the order takes the phases
    with tasks behind all phases with tasks whose names they list, as it does when the names are distinct. -/
theorem plan_iff (planner : SprintPlanner) (env : Env) (mission : Mission) (phase_waves : List (List Nat))
    (accepted : mission.resolve_execution_order = .ok phase_waves) :
    (Planned.Sound planner env mission phase_waves ↔
        ¬ Chunkless planner.max_tasks_per_wave mission ∧ Dated planner env ∧ InOrder mission phase_waves.flatten) ∧
      ((mission.phases.map Phase.name).Nodup → InOrder mission phase_waves.flatten) := by
  refine ⟨?_,fun distinct => in_order distinct accepted⟩
  have once := resolve_execution_order_perm accepted
  by_cases chunkless : Chunkless planner.max_tasks_per_wave mission
  · refine ⟨?_,fun fine => absurd chunkless fine.1⟩
    rintro ⟨made,count,sprint,planned,-⟩
    obtain ⟨zero,phase,member,works⟩ := chunkless
    obtain ⟨i,there⟩ := List.mem_iff_getElem?.mp member
    have listed : i ∈ phase_waves.flatten := once.mem_iff.mpr (List.mem_range.mpr (List.getElem?_eq_some_iff.mp there).1)
    rw [zero,planWaves_panics listed (by rw [tasksOf_eq there]; exact works)] at planned
    cases planned
  · have planned := planWaves_eq chunkless phase_waves
    have preserves := preserves_iff chunkless once
    have dated := plan_dated planner env accepted planned
    constructor
    · rintro ⟨made,count,sprint,same,returned,-,work⟩
      rw [planned] at same
      cases same
      exact ⟨chunkless,dated.mp ⟨sprint,returned⟩,preserves.mp work⟩
    · rintro ⟨-,date,ordered⟩
      obtain ⟨sprint,returned⟩ := dated.mpr date
      exact ⟨_,_,sprint,planned,returned,plan_waves accepted planned returned,preserves.mpr ordered⟩

def job (task_type : String) : TaskSpec := ⟨task_type,.null,none,0⟩

/-- Three tasks in two phases, the first of which waits for the second. -/
def delivery : Mission where
  id := ⟨3⟩
  name := "delivery"
  phases :=
    [{ Phase.new "deploy" with tasks := [job "upload"], dependencies := ["build"] },
      { Phase.new "build" with tasks := [job "compile",job "lint"] }]
  timeout := none
  retry_policy := ⟨0⟩

def noon : Env := ⟨⟨9⟩,fun _ => 0,10⟩

theorem delivery_planned : delivery.resolve_execution_order = .ok [[1],[0]] ∧ Planned.Sound ⟨some 1,none⟩ noon delivery [[1],[0]] := by
  have accepted : delivery.resolve_execution_order = .ok [[1],[0]] := by rfl
  have plan := plan_iff ⟨some 1,none⟩ noon delivery [[1],[0]] accepted
  have chunked : ¬ Chunkless (some 1) delivery := fun chunkless => by simpa using chunkless.1
  exact ⟨accepted,plan.1.mpr ⟨chunked,nofun,plan.2 (by decide)⟩⟩

/-- No task may be in a wave, and the mission has tasks: the planner panics. -/
theorem delivery_panics :
    ¬ ∀ planner env mission phase_waves, mission.resolve_execution_order = .ok phase_waves → Planned.Sound planner env mission phase_waves := by
  intro sound
  obtain ⟨made,count,sprint,-,returned,-⟩ := sound ⟨some 0,none⟩ noon delivery [[1],[0]] rfl
  have panicked : SprintPlanner.plan ⟨some 0,none⟩ noon delivery = none := rfl
  rw [panicked] at returned
  cases returned

end Daf.SprintPlans
