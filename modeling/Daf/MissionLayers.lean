import Daf.Layers
import Daf.MissionPlan

/-!
The order of execution of a mission whose phases have distinct names: the waves are the layers of the phases, each as early as its dependencies
allow. A mission is refused when a dependency names no phase or the dependencies lead around.
-/
namespace Daf.MissionLayers
open Daf.MissionPlan Daf.Waves Daf.Layers

/-- The first phase lists the name of the second one. -/
def Depends (mission : Mission) (i j : Nat) : Prop :=
  ∃ phase other, mission.phases[i]? = some phase ∧ mission.phases[j]? = some other ∧ other.name ∈ phase.dependencies

/-- A dependency names no phase. -/
def Dangling (mission : Mission) : Prop := ∃ phase ∈ mission.phases, ∃ dep ∈ phase.dependencies, ∀ other ∈ mission.phases, other.name ≠ dep

/-- The waves take each phase once, after all that it depends on, and as early as the longest chain of dependencies below it allows. -/
structure Layered (mission : Mission) (waves : List (List Nat)) : Prop where
  once : waves.flatten.Perm (List.range mission.phases.length)
  filled : ∀ wave ∈ waves, wave ≠ []
  earlier : ∀ before wave after, waves = before ++ wave :: after → ∀ i ∈ wave, ∀ j, Depends mission i j → j ∈ before.flatten
  level : ∀ before wave after, waves = before ++ wave :: after → ∀ i ∈ wave, Longest (Depends mission) i before.length
  minimal : ∀ other, Layering (Depends mission) (List.range mission.phases.length) other → waves.length ≤ other.length

abbrev waits (mission : Mission) : List (List Nat) := mission.phases.map (dependencyIndices (phase_names mission.phases))

variable {mission : Mission}

/-! ### Names and indices -/

theorem lookup_of_mem {phases : List Phase} {phase : Phase} (member : phase ∈ phases) : ∃ i, (phase_names phases).lookup phase.name = some i := by
  unfold phase_names
  induction phases using List.reverseRecOn with
  | nil => cases member
  | append_singleton phases last ih =>
    rw [List.zipIdx_append,List.foldl_append,Nat.zero_add]
    simp only [List.zipIdx_singleton,List.foldl_cons,List.foldl_nil]
    by_cases same : phase.name = last.name
    · exact ⟨phases.length,by rw [same,AList.lookup_insert]⟩
    · rw [AList.lookup_insert_ne same]
      refine ih ((List.mem_append.mp member).resolve_right fun new => same ?_)
      rw [List.mem_singleton.mp new]

theorem lookup_none_iff {name : String} : (phase_names mission.phases).lookup name = none ↔ ∀ other ∈ mission.phases, other.name ≠ name := by
  constructor
  · rintro absent other member rfl
    obtain ⟨i,found⟩ := lookup_of_mem member
    rw [absent] at found
    cases found
  · intro none_named
    by_contra found
    obtain ⟨i,found⟩ := Option.ne_none_iff_exists'.mp found
    obtain ⟨other,there,named⟩ := phase_names_lookup found
    exact none_named other (List.mem_of_getElem? there) named

theorem lookup_iff (distinct : (mission.phases.map Phase.name).Nodup) {name : String} {j : Nat} :
    (phase_names mission.phases).lookup name = some j ↔ ∃ other, mission.phases[j]? = some other ∧ other.name = name := by
  constructor
  · exact phase_names_lookup
  · rintro ⟨other,there,rfl⟩
    obtain ⟨k,found⟩ := lookup_of_mem (List.mem_of_getElem? there)
    obtain ⟨same,again,named⟩ := phase_names_lookup found
    have inside : j < (mission.phases.map Phase.name).length := by
      rw [List.length_map]
      exact (List.getElem?_eq_some_iff.mp there).1
    have equal : j = k := by
      refine (List.getElem?_inj inside distinct).mp ?_
      rw [List.getElem?_map,List.getElem?_map,there,again,Option.map_some,Option.map_some,named]
    rw [found,equal]

theorem unknown_iff : (∃ found, unknownDependency (phase_names mission.phases) mission.phases = some found) ↔ Dangling mission := by
  rw [← Option.isSome_iff_exists,unknownDependency,List.findSome?_isSome_iff]
  refine exists_congr fun phase => and_congr_right fun _ => ?_
  rw [Option.isSome_map,List.find?_isSome]
  refine exists_congr fun dep => and_congr_right fun _ => ?_
  rw [Option.isNone_iff_eq_none,lookup_none_iff]

theorem waitsFor_iff (distinct : (mission.phases.map Phase.name).Nodup) (known : ¬ Dangling mission) (i j : Nat) :
    WaitsFor (waits mission) i j ↔ Depends mission i j := by
  rw [WaitsFor,List.getD_eq_getElem?_getD,List.getElem?_map]
  cases there : mission.phases[i]? with
  | none => simp [Depends,there]
  | some phase =>
    rw [Option.map_some,Option.getD_some,dependencyIndices,List.mem_map]
    constructor
    · rintro ⟨dep,listed,index⟩
      have named : ¬ ∀ other ∈ mission.phases, other.name ≠ dep :=
        fun none_named => known ⟨phase,List.mem_of_getElem? there,dep,listed,none_named⟩
      obtain ⟨k,found⟩ := Option.ne_none_iff_exists'.mp (mt lookup_none_iff.mp named)
      rw [found,Option.getD_some] at index
      subst index
      obtain ⟨other,at_k,rfl⟩ := phase_names_lookup found
      exact ⟨phase,other,there,at_k,listed⟩
    · rintro ⟨phase',other,same,at_j,listed⟩
      rw [there] at same
      cases same
      exact ⟨other.name,listed,by rw [(lookup_iff distinct).mpr ⟨other,at_j,rfl⟩,Option.getD_some]⟩

/-! ### The order -/

theorem known_waits (known : ¬ Dangling mission) : ∀ node ∈ waits mission, ∀ j ∈ node, j < (waits mission).length := by
  have none_unknown : unknownDependency (phase_names mission.phases) mission.phases = none := by
    by_contra found
    exact known (unknown_iff.mp (Option.ne_none_iff_exists'.mp found))
  rw [List.length_map]
  exact dependencyIndices_lt none_unknown

theorem resolve_cases (mission : Mission) :
    (Dangling mission ∧ ∃ e, mission.resolve_execution_order = .error e) ∨
      (¬ Dangling mission ∧ mission.resolve_execution_order =
        if 0 < (layers (waits mission)).2 then .error (.ConfigError "mission contains a dependency cycle between phases") else .ok (layers (waits mission)).1) := by
  cases found : unknownDependency (phase_names mission.phases) mission.phases with
  | some unknown =>
    refine .inl ⟨unknown_iff.mp ⟨unknown,found⟩,?_⟩
    simp only [Mission.resolve_execution_order,found]
    exact ⟨_,rfl⟩
  | none =>
    refine .inr ⟨fun dangling => ?_,?_⟩
    · obtain ⟨unknown,other⟩ := unknown_iff.mpr dangling
      rw [found] at other
      cases other
    · simp only [Mission.resolve_execution_order,found]

theorem layered_layers (distinct : (mission.phases.map Phase.name).Nodup) (known : ¬ Dangling mission) (complete : (layers (waits mission)).2 = 0) :
    Layered mission (layers (waits mission)).1 := by
  have same : WaitsFor (waits mission) = Depends mission := by
    funext i j
    exact propext (waitsFor_iff distinct known i j)
  obtain ⟨counts,-,greedy,-⟩ := layers_greedy (known_waits known)
  have once := layers_perm (known_waits known) complete
  rw [same,List.length_map] at greedy
  rw [List.length_map] at once
  exact {
    once := once
    filled := greedy.filled
    earlier := greedy.earlier
    level := fun before wave after split i member => greedy.longest split member
    minimal := fun other layering => greedy.minimal layering
  }

/-- With distinct names a mission is refused exactly when a dependency names no phase or the dependencies lead around; otherwise its waves are the
    layers of its phases. No subtraction on the way goes below zero. -/
theorem resolve_layers (mission : Mission) (distinct : (mission.phases.map Phase.name).Nodup) :
    ((∃ e, mission.resolve_execution_order = .error e) ↔ Dangling mission ∨ ¬ Cycles.Acyclic (Depends mission)) ∧
      (∀ waves, mission.resolve_execution_order = .ok waves → Layered mission waves) ∧
      (¬ Dangling mission → checkedLayers (waits mission) = some (layers (waits mission))) := by
  refine ⟨?_,?_,fun known => checkedLayers_eq (known_waits known)⟩
  · rcases resolve_cases mission with ⟨dangling,failed⟩ | ⟨known,resolved⟩
    · exact ⟨fun _ => .inl dangling,fun _ => failed⟩
    · have same : WaitsFor (waits mission) = Depends mission := by
        funext i j
        exact propext (waitsFor_iff distinct known i j)
      rw [resolved,← same,← layers_complete_iff (known_waits known)]
      by_cases left : 0 < (layers (waits mission)).2
      · rw [if_pos left]
        exact ⟨fun _ => .inr (Nat.pos_iff_ne_zero.mp left),fun _ => ⟨_,rfl⟩⟩
      · rw [if_neg left]
        constructor
        · rintro ⟨e,failed⟩
          cases failed
        · rintro (dangling | around)
          · exact absurd dangling known
          · exact absurd (Nat.pos_iff_ne_zero.mpr around) left
  · intro waves accepted
    rcases resolve_cases mission with ⟨-,e,failed⟩ | ⟨known,resolved⟩
    · rw [accepted] at failed
      cases failed
    · rw [resolved] at accepted
      split_ifs at accepted with left
      rw [← Except.ok.inj accepted]
      exact layered_layers distinct known (by omega)

/-- Two phases after one, the second of which also waits for the first of the two. -/
def release : Mission where
  id := ⟨7⟩
  name := "release"
  phases := [{ Phase.new "deploy" with dependencies := ["test","build","build"] },Phase.new "build",{ Phase.new "test" with dependencies := ["build"] }]
  timeout := none
  retry_policy := ⟨0⟩

theorem release_layered : release.resolve_execution_order = .ok [[1],[2],[0]] ∧ Layered release [[1],[2],[0]] := by
  have resolved : release.resolve_execution_order = .ok [[1],[2],[0]] := by rfl
  exact ⟨resolved,(resolve_layers release (by decide)).2.1 _ resolved⟩

end Daf.MissionLayers
