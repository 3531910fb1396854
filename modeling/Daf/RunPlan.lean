import Daf.Cycles
import Daf.ReviewOutput

/-!
The task lists of `daf run`: which of them are accepted, and the waves that a dry run shows.
-/
namespace Daf.RunPlan
open Daf.Cycles
open Daf.ReviewOutput (blank)

structure Params where
  command : List String
  cwd : Option String
deriving DecidableEq,Repr

structure TaskSpec where
  name : String
  agent : String
  depends_on : List String
  params : Params
deriving DecidableEq,Repr

/-! ### Validation -/

def emptyCommand : List String → Bool
  | [] => true
  | program :: _ => program = ""

/-- The names of the tasks, if each task is right on its own and no name comes twice. -/
def checkTasks (names : List String) : List TaskSpec → Except String (List String)
  | [] => .ok names
  | task :: tasks =>
    if blank task.name || names.contains task.name then .error "Task names must be unique and nonempty"
    else if task.agent ≠ "local" then
      .error ("Agent '" ++ task.agent ++ "' has no connected dispatcher; use agent: local with params.command argv")
    else if emptyCommand task.params.command then .error ("Task '" ++ task.name ++ "' needs a nonempty command argv")
    else checkTasks (names ++ [task.name]) tasks

def checkDependencies (names : List String) (task : TaskSpec) (deps : List String) : List String → Except String Unit
  | [] => .ok ()
  | dep :: rest =>
    if !names.contains dep then .error ("Task '" ++ task.name ++ "' references unknown dependency '" ++ dep ++ "'")
    else if deps.contains dep then .error ("Task '" ++ task.name ++ "' repeats dependency '" ++ dep ++ "'")
    else checkDependencies names task (deps ++ [dep]) rest

def checkAllDependencies (names : List String) : List TaskSpec → Except String Unit
  | [] => .ok ()
  | task :: tasks =>
    match checkDependencies names task [] task.depends_on with
    | .error e => .error e
    | .ok () => checkAllDependencies names tasks

def visit (visited : List String) (task : TaskSpec) : List String :=
  if task.depends_on.all visited.contains then visited.insert task.name else visited

/-- Passes over the tasks until all are visited or a pass visits none, for at most so many passes. -/
def checkCycles (tasks : List TaskSpec) : Nat → List String → Option (Except String Unit)
  | 0,_ => none
  | passes + 1,visited =>
    let count := visited.length
    let visited := tasks.foldl visit visited
    if visited.length = tasks.length then some (.ok ())
    else if visited.length = count then some (.error "Mission has a dependency cycle or unknown dependency")
    else checkCycles tasks passes visited

def validate (tasks : List TaskSpec) : Option (Except String Unit) :=
  if tasks.isEmpty then some (.error "Mission has no tasks")
  else
    match checkTasks [] tasks with
    | .error e => some (.error e)
    | .ok names =>
      match checkAllDependencies names tasks with
      | .error e => some (.error e)
      | .ok () => checkCycles tasks (tasks.length + 1) []

def isReady (complete : List String) (task : TaskSpec) : Bool := task.depends_on.all complete.contains

/-- The waves of a dry run, one a round. -/
def planWaves : Nat → List TaskSpec → List String → List (List String) → Option (List (List String))
  | _,[],_,waves => some waves
  | 0,_ :: _,_,_ => none
  | rounds + 1,task :: tasks,complete,waves =>
    let remaining := task :: tasks
    let ready := (remaining.filter (isReady complete)).map TaskSpec.name
    planWaves rounds (remaining.filter (fun task => !ready.contains task.name)) (complete ++ ready) (waves ++ [ready])

/-! ### What is accepted -/

/-- One task depends on another, by their names. -/
def DependsOn (tasks : List TaskSpec) (dep name : String) : Prop := ∃ task ∈ tasks, task.name = name ∧ dep ∈ task.depends_on

structure Accepted (tasks : List TaskSpec) : Prop where
  nonempty : tasks ≠ []
  named : ∀ task ∈ tasks, blank task.name = false
  distinct : (tasks.map TaskSpec.name).Nodup
  locals : ∀ task ∈ tasks, task.agent = "local" ∧ ∃ program args, task.params.command = program :: args ∧ program ≠ ""
  known : ∀ task ∈ tasks, ∀ dep ∈ task.depends_on, dep ∈ tasks.map TaskSpec.name
  once : ∀ task ∈ tasks, task.depends_on.Nodup
  acyclic : Acyclic (DependsOn tasks)

theorem emptyCommand_false {command : List String} : emptyCommand command = false ↔ ∃ program args, command = program :: args ∧ program ≠ "" := by
  cases command with
  | nil => simp [emptyCommand]
  | cons program args => simp [emptyCommand]

theorem checkTasks_ok {names result : List String} {tasks : List TaskSpec} (distinct : names.Nodup) : checkTasks names tasks = .ok result ↔
    result = names ++ tasks.map TaskSpec.name ∧ result.Nodup ∧ (∀ task ∈ tasks, blank task.name = false) ∧
      ∀ task ∈ tasks, task.agent = "local" ∧ ∃ program args, task.params.command = program :: args ∧ program ≠ "" := by
  induction tasks generalizing names with
  | nil =>
    simp only [checkTasks,Except.ok.injEq,List.map_nil,List.append_nil]
    exact ⟨by rintro rfl; exact ⟨rfl,distinct,by simp,by simp⟩,fun right => right.1.symm⟩
  | cons task tasks ih =>
    unfold checkTasks
    by_cases bad : blank task.name || names.contains task.name
    · rw [if_pos bad]
      refine ⟨fun wrong => by simp at wrong,?_⟩
      rintro ⟨rfl,once,named,-⟩
      rcases Bool.or_eq_true_iff.mp bad with isBlank | twice
      · rw [named task List.mem_cons_self] at isBlank
        cases isBlank
      · have inside : task.name ∈ names := by simpa using twice
        exact absurd rfl ((List.nodup_append.mp once).2.2 _ inside task.name (by simp))
    · rw [if_neg bad]
      rw [Bool.or_eq_true,not_or,Bool.not_eq_true] at bad
      have fresh : task.name ∉ names := by simpa using bad.2
      by_cases away : task.agent = "local"
      · rw [if_neg (not_not.mpr away)]
        by_cases empty : emptyCommand task.params.command
        · rw [if_pos empty]
          refine ⟨fun wrong => by simp at wrong,?_⟩
          rintro ⟨-,-,-,locals⟩
          have right := emptyCommand_false.mpr (locals task List.mem_cons_self).2
          rw [empty] at right
          cases right
        · rw [if_neg empty,ih (List.nodup_append.mpr ⟨distinct,by simp,by
            rintro a old b new rfl
            rw [List.mem_singleton.mp new] at old
            exact fresh old⟩)]
          have runs := emptyCommand_false.mp (Bool.not_eq_true _ ▸ empty)
          simp only [List.append_assoc,List.singleton_append,List.map_cons,List.forall_mem_cons]
          exact ⟨fun ⟨same,once,named,locals⟩ => ⟨same,once,⟨bad.1,named⟩,⟨away,runs⟩,locals⟩,
            fun ⟨same,once,named,locals⟩ => ⟨same,once,named.2,locals.2⟩⟩
      · rw [if_pos away]
        exact ⟨fun wrong => by simp at wrong,fun right => absurd (right.2.2.2 task List.mem_cons_self).1 away⟩

theorem checkDependencies_ok (names rest : List String) (task : TaskSpec) {deps : List String} (distinct : deps.Nodup) :
    checkDependencies names task deps rest = .ok () ↔ (∀ dep ∈ rest, dep ∈ names) ∧ (deps ++ rest).Nodup := by
  induction rest generalizing deps with
  | nil => simp [checkDependencies,distinct]
  | cons dep rest ih =>
    unfold checkDependencies
    by_cases known : dep ∈ names
    · rw [if_neg (by simp [known])]
      by_cases twice : dep ∈ deps
      · rw [if_pos (by simp [twice])]
        refine ⟨fun wrong => by simp at wrong,fun right => ?_⟩
        exact absurd rfl ((List.nodup_append.mp right.2).2.2 dep twice dep List.mem_cons_self)
      · rw [if_neg (by simp [twice]),ih (List.nodup_append.mpr ⟨distinct,by simp,by
          rintro a old b new rfl
          rw [List.mem_singleton.mp new] at old
          exact twice old⟩)]
        simp [known]
    · rw [if_pos (by simp [known])]
      exact ⟨fun wrong => by simp at wrong,fun right => absurd (right.1 dep List.mem_cons_self) known⟩

theorem checkAllDependencies_ok {names : List String} {tasks : List TaskSpec} : checkAllDependencies names tasks = .ok () ↔
    ∀ task ∈ tasks, (∀ dep ∈ task.depends_on, dep ∈ names) ∧ task.depends_on.Nodup := by
  induction tasks with
  | nil => simp [checkAllDependencies]
  | cons task tasks ih =>
    have one := checkDependencies_ok names task.depends_on task List.nodup_nil
    unfold checkAllDependencies
    rw [List.forall_mem_cons,← ih]
    rcases found : checkDependencies names task [] task.depends_on with e | ⟨⟩
    · rw [found] at one
      exact ⟨fun wrong => by simp at wrong,fun right => absurd (one.mpr right.1) (by simp)⟩
    · exact ⟨fun right => ⟨one.mp found,right⟩,fun right => right.2⟩

/-! ### Cycles -/

/-- Distinct names, and dependencies that are among them. -/
structure Named (tasks : List TaskSpec) : Prop where
  distinct : (tasks.map TaskSpec.name).Nodup
  known : ∀ task ∈ tasks, ∀ dep ∈ task.depends_on, dep ∈ tasks.map TaskSpec.name

section
variable {tasks : List TaskSpec}

theorem Named.same_task (named : Named tasks) {task other : TaskSpec} (inside : task ∈ tasks) (inside' : other ∈ tasks) (same : task.name = other.name) :
    task = other := List.inj_on_of_nodup_map named.distinct inside inside' same

theorem Named.dependsOn (named : Named tasks) {task : TaskSpec} (inside : task ∈ tasks) {dep : String} :
    DependsOn tasks dep task.name ↔ dep ∈ task.depends_on := by
  constructor
  · rintro ⟨other,inside',same,depends⟩
    rwa [named.same_task inside' inside same] at depends
  · exact fun depends => ⟨task,inside,rfl,depends⟩

theorem Named.wellFounded (named : Named tasks) (acyclic : Acyclic (DependsOn tasks)) : WellFounded (DependsOn tasks) :=
  acyclic.wellFounded (tasks.map TaskSpec.name) (fun dep _ ⟨task,inside,_,depends⟩ => named.known task inside dep depends)

/-- Of some names of tasks one is the name of a task that depends on none of them. -/
theorem Named.exists_first (named : Named tasks) (acyclic : Acyclic (DependsOn tasks)) (names : List String) (nonempty : names ≠ [])
    (sub : ∀ n ∈ names, n ∈ tasks.map TaskSpec.name) : ∃ task ∈ tasks, task.name ∈ names ∧ ∀ dep ∈ task.depends_on, dep ∉ names := by
  obtain ⟨first,inside,minimal⟩ := acyclic.exists_source nonempty
  obtain ⟨task,isTask,rfl⟩ := List.mem_map.mp (sub first inside)
  exact ⟨task,isTask,inside,fun dep depends others => minimal dep others ((named.dependsOn isTask).mpr depends)⟩

/-- What is visited so far: tasks that no cycle leads to. -/
structure Visited (tasks : List TaskSpec) (visited : List String) : Prop where
  distinct : visited.Nodup
  names : ∀ n ∈ visited, n ∈ tasks.map TaskSpec.name
  grounded : ∀ n ∈ visited, Acc (DependsOn tasks) n

theorem subset_visit (visited : List String) (task : TaskSpec) : visited ⊆ visit visited task := by
  unfold visit
  split
  · exact fun n inside => List.mem_insert_of_mem inside
  · exact fun n inside => inside

theorem visited_visit (named : Named tasks) {visited : List String} (inv : Visited tasks visited) {task : TaskSpec} (inside : task ∈ tasks) :
    Visited tasks (visit visited task) := by
  unfold visit
  split
  next all =>
    have deps : ∀ dep ∈ task.depends_on, dep ∈ visited := by simpa using all
    refine ⟨inv.distinct.insert,fun n here => ?_,fun n here => ?_⟩
    · rcases List.mem_insert_iff.mp here with rfl | old
      · exact List.mem_map_of_mem inside
      · exact inv.names n old
    · rcases List.mem_insert_iff.mp here with rfl | old
      · exact ⟨_,fun dep depends => inv.grounded dep (deps dep ((named.dependsOn inside).mp depends))⟩
      · exact inv.grounded n old
  next => exact inv

theorem visited_pass (named : Named tasks) {visited : List String} (inv : Visited tasks visited) {some : List TaskSpec} (sub : ∀ task ∈ some, task ∈ tasks) :
    Visited tasks (some.foldl visit visited) ∧ visited ⊆ some.foldl visit visited ∧
      ∀ task ∈ some, (∀ dep ∈ task.depends_on, dep ∈ visited) → task.name ∈ some.foldl visit visited := by
  induction some generalizing visited with
  | nil => exact ⟨inv,fun _ => id,by simp⟩
  | cons task some ih =>
    obtain ⟨after,more,reached⟩ := ih (visited_visit named inv (sub task List.mem_cons_self)) (fun t inside => sub t (List.mem_cons_of_mem _ inside))
    refine ⟨after,fun n inside => more (subset_visit visited task inside),fun t inside ready => ?_⟩
    rcases List.mem_cons.mp inside with rfl | later
    · refine more ?_
      unfold visit
      rw [if_pos (by simpa using ready)]
      exact List.mem_insert_self
    · exact reached t later (fun dep depends => subset_visit visited task (ready dep depends))

theorem Visited.length_le {visited : List String} (inv : Visited tasks visited) : visited.length ≤ tasks.length := by
  simpa using (List.subperm_of_subset inv.distinct inv.names).length_le

/-- A pass that is not the last one visits another task, if no cycle is left. -/
theorem pass_grows (named : Named tasks) (acyclic : Acyclic (DependsOn tasks)) {visited : List String} (inv : Visited tasks visited)
    (short : visited.length < tasks.length) : visited.length < (tasks.foldl visit visited).length := by
  obtain ⟨after,more,reached⟩ := visited_pass named inv (fun task inside => inside)
  have left : (tasks.map TaskSpec.name).filter (fun n => !visited.contains n) ≠ [] := by
    intro none
    have all : tasks.map TaskSpec.name ⊆ visited := fun n inside => by
      by_contra out
      have rest : n ∈ (tasks.map TaskSpec.name).filter (fun n => !visited.contains n) := List.mem_filter.mpr ⟨inside,by simpa using out⟩
      rw [none] at rest
      cases rest
    have count := (List.subperm_of_subset named.distinct all).length_le
    simp only [List.length_map] at count
    omega
  obtain ⟨task,inside,fresh,ready⟩ := named.exists_first acyclic _ left (fun n here => (List.mem_filter.mp here).1)
  have new : task.name ∉ visited := by simpa using (List.mem_filter.mp fresh).2
  have now := reached task inside (fun dep depends => by
    by_contra out
    exact ready dep depends (List.mem_filter.mpr ⟨named.known task inside dep depends,by simpa using out⟩))
  have sub : task.name :: visited ⊆ tasks.foldl visit visited := by
    intro n here
    rcases List.mem_cons.mp here with rfl | old
    · exact now
    · exact more old
  exact (List.subperm_of_subset (List.nodup_cons.mpr ⟨new,inv.distinct⟩) sub).length_le

theorem acyclic_of_visited {visited : List String} (inv : Visited tasks visited) (all : visited.length = tasks.length) :
    Acyclic (DependsOn tasks) := by
  have perm : tasks.map TaskSpec.name ⊆ visited :=
    ((List.subperm_of_subset inv.distinct inv.names).perm_of_length_le (by simp [all])).symm.subset
  have wf : WellFounded (DependsOn tasks) := by
    refine ⟨fun n => ?_⟩
    by_cases isTask : n ∈ tasks.map TaskSpec.name
    · exact inv.grounded n (perm isTask)
    · exact ⟨n,fun dep ⟨task,inside,same,_⟩ => absurd (List.mem_map.mpr ⟨task,inside,same⟩) isTask⟩
  exact fun n cycle => wf.transGen.irrefl.irrefl n cycle

theorem checkCycles_spec (named : Named tasks) (passes : Nat) {visited : List String} (inv : Visited tasks visited)
    (enough : tasks.length < passes + visited.length) : ∃ outcome, checkCycles tasks passes visited = some outcome ∧
      (outcome = .ok () ↔ Acyclic (DependsOn tasks)) := by
  induction passes generalizing visited with
  | zero =>
    have bound := inv.length_le
    omega
  | succ passes ih =>
    obtain ⟨after,more,-⟩ := visited_pass named inv (fun task inside => inside)
    have grows := (List.subperm_of_subset inv.distinct more).length_le
    unfold checkCycles
    by_cases all : (tasks.foldl visit visited).length = tasks.length
    · rw [if_pos all]
      exact ⟨_,rfl,fun _ => acyclic_of_visited after all,fun _ => rfl⟩
    · rw [if_neg all]
      by_cases stuck : (tasks.foldl visit visited).length = visited.length
      · rw [if_pos stuck]
        refine ⟨_,rfl,fun wrong => by simp at wrong,fun acyclic => ?_⟩
        have bound := inv.length_le
        have next := pass_grows named acyclic inv (by omega)
        omega
      · rw [if_neg stuck]
        exact ih after (by omega)

end

/-- Validation always ends, and accepts what is right. -/
theorem validate_spec (tasks : List TaskSpec) : ∃ outcome, validate tasks = some outcome ∧ (outcome = .ok () ↔ Accepted tasks) := by
  by_cases empty : tasks.isEmpty
  · exact ⟨_,if_pos empty,fun wrong => by simp at wrong,fun accepted => absurd (List.isEmpty_iff.mp empty) accepted.nonempty⟩
  have checked := fun result => @checkTasks_ok [] result tasks List.nodup_nil
  rcases found : checkTasks [] tasks with e | names
  · have same : validate tasks = some (.error e) := by simp [validate,empty,found]
    refine ⟨_,same,fun wrong => by simp at wrong,fun accepted => ?_⟩
    have right := (checked (tasks.map TaskSpec.name)).mpr ⟨rfl,accepted.distinct,accepted.named,accepted.locals⟩
    rw [found] at right
    cases right
  obtain ⟨isNames,distinct,named,locals⟩ := (checked names).mp found
  rw [List.nil_append] at isNames
  rw [isNames] at distinct found
  rcases deps : checkAllDependencies (tasks.map TaskSpec.name) tasks with e | ⟨⟩
  · have same : validate tasks = some (.error e) := by simp [validate,empty,found,deps]
    refine ⟨_,same,fun wrong => by simp at wrong,fun accepted => ?_⟩
    have right := checkAllDependencies_ok.mpr (fun task inside => ⟨accepted.known task inside,accepted.once task inside⟩)
    rw [right] at deps
    cases deps
  · have right := checkAllDependencies_ok.mp deps
    have good : Named tasks := ⟨distinct,fun task inside => (right task inside).1⟩
    have same : validate tasks = checkCycles tasks (tasks.length + 1) [] := by simp [validate,empty,found,deps]
    have start : Visited tasks [] := ⟨List.nodup_nil,by simp,by simp⟩
    obtain ⟨outcome,ends,decides⟩ := checkCycles_spec good (tasks.length + 1) start (by simp)
    refine ⟨outcome,same.trans ends,decides.trans ⟨fun acyclic => ?_,Accepted.acyclic⟩⟩
    exact ⟨fun none => empty (by simp [none]),named,distinct,locals,good.known,fun task inside => (right task inside).2,acyclic⟩

/-! ### The waves of a dry run -/

theorem Accepted.named_tasks {tasks : List TaskSpec} (accepted : Accepted tasks) : Named tasks := ⟨accepted.distinct,accepted.known⟩

/-- A number for each name that grows along the dependencies. -/
def Rank (tasks : List TaskSpec) (f : String → Nat) : Prop := ∀ dep name, DependsOn tasks dep name → f dep < f name

/-- Waves that hold every task once, each task after all its dependencies, and no later than any other
numbering of the tasks has it. -/
structure Layers (tasks : List TaskSpec) (waves : List (List String)) : Prop where
  perm : waves.flatten.Perm (tasks.map TaskSpec.name)
  after : ∀ before wave later, waves = before ++ wave :: later → ∀ n ∈ wave, ∀ dep, DependsOn tasks dep n → dep ∈ before.flatten
  early : ∀ f, Rank tasks f → ∀ before wave later, waves = before ++ wave :: later → ∀ n ∈ wave, before.length ≤ f n

/-- The waves so far, and the tasks that are in none of them. -/
structure Planned (tasks remaining : List TaskSpec) (waves : List (List String)) : Prop where
  perm : (waves.flatten ++ remaining.map TaskSpec.name).Perm (tasks.map TaskSpec.name)
  members : ∀ task ∈ remaining, task ∈ tasks
  after : ∀ before wave later, waves = before ++ wave :: later → ∀ n ∈ wave, ∀ dep, DependsOn tasks dep n → dep ∈ before.flatten
  early : ∀ f, Rank tasks f → (∀ before wave later, waves = before ++ wave :: later → ∀ n ∈ wave, before.length ≤ f n) ∧
    ∀ task ∈ remaining, waves.length ≤ f task.name

/-- The last wave of a list, or one of those before it. -/
theorem concat_split {α : Type} {waves before later : List α} {last wave : α} (same : waves ++ [last] = before ++ wave :: later) :
    later = [] ∧ before = waves ∧ wave = last ∨ ∃ rest, waves = before ++ wave :: rest := by
  rcases List.eq_nil_or_concat later with rfl | ⟨rest,x,rfl⟩
  · obtain ⟨isBefore,isWave⟩ := List.append_inj' same rfl
    exact .inl ⟨rfl,isBefore.symm,(List.singleton_inj.mp isWave).symm⟩
  · have shifted : waves ++ [last] = (before ++ wave :: rest) ++ [x] := by simpa using same
    exact .inr ⟨rest,(List.append_inj' shifted rfl).1⟩

section
variable {tasks : List TaskSpec}

theorem isReady_iff {complete : List String} {task : TaskSpec} : isReady complete task ↔ ∀ dep ∈ task.depends_on, dep ∈ complete := by
  simp [isReady]

theorem planned_round (named : Named tasks) {remaining : List TaskSpec} {waves : List (List String)} (planned : Planned tasks remaining waves) :
    Planned tasks (remaining.filter (fun task => !((remaining.filter (isReady waves.flatten)).map TaskSpec.name).contains task.name))
      (waves ++ [(remaining.filter (isReady waves.flatten)).map TaskSpec.name]) := by
  have distinct : (waves.flatten ++ remaining.map TaskSpec.name).Nodup := planned.perm.nodup_iff.mpr named.distinct
  have remainingOnce : (remaining.map TaskSpec.name).Nodup := (List.nodup_append.mp distinct).2.1
  have stays : ∀ task ∈ remaining, (!((remaining.filter (isReady waves.flatten)).map TaskSpec.name).contains task.name) = !isReady waves.flatten task := by
    intro task inside
    by_cases ready : isReady waves.flatten task
    · have inWave : task.name ∈ (remaining.filter (isReady waves.flatten)).map TaskSpec.name :=
        List.mem_map_of_mem (List.mem_filter.mpr ⟨inside,ready⟩)
      rw [ready,List.contains_iff_mem.mpr inWave]
    · have out : task.name ∉ (remaining.filter (isReady waves.flatten)).map TaskSpec.name := by
        intro inWave
        obtain ⟨other,there,same⟩ := List.mem_map.mp inWave
        obtain ⟨inside',ready'⟩ := List.mem_filter.mp there
        rw [List.inj_on_of_nodup_map remainingOnce inside' inside same] at ready'
        exact ready ready'
      simp [ready,out]
  rw [List.filter_congr stays]
  have waiting : ∀ task ∈ remaining.filter (fun task => !isReady waves.flatten task), task ∈ remaining ∧ ∃ dep ∈ task.depends_on, dep ∉ waves.flatten := by
    intro task inside
    obtain ⟨there,notReady⟩ := List.mem_filter.mp inside
    refine ⟨there,?_⟩
    by_contra none
    push Not at none
    rw [isReady_iff.mpr none] at notReady
    cases notReady
  refine ⟨?_,fun task inside => planned.members task (List.mem_of_mem_filter inside),?_,fun f rank => ⟨?_,?_⟩⟩
  · have split : ((remaining.filter (isReady waves.flatten)).map TaskSpec.name ++
        (remaining.filter (fun task => !isReady waves.flatten task)).map TaskSpec.name).Perm (remaining.map TaskSpec.name) := by
      rw [← List.map_append]
      exact (List.filter_append_perm _ _).map _
    have whole := (split.append_left waves.flatten).trans planned.perm
    simpa using whole
  · intro before wave later same n inside dep depends
    rcases concat_split same with ⟨-,rfl,rfl⟩ | ⟨rest,old⟩
    · obtain ⟨task,there,rfl⟩ := List.mem_map.mp inside
      obtain ⟨isRemaining,ready⟩ := List.mem_filter.mp there
      exact isReady_iff.mp ready dep ((named.dependsOn (planned.members task isRemaining)).mp depends)
    · exact planned.after before wave rest old n inside dep depends
  · intro before wave later same n inside
    rcases concat_split same with ⟨-,rfl,rfl⟩ | ⟨rest,old⟩
    · obtain ⟨task,there,rfl⟩ := List.mem_map.mp inside
      exact (planned.early f rank).2 task (List.mem_of_mem_filter there)
    · exact (planned.early f rank).1 before wave rest old n inside
  · intro task inside
    obtain ⟨there,dep,depends,out⟩ := waiting task inside
    have isTask := planned.members task there
    have among : dep ∈ waves.flatten ++ remaining.map TaskSpec.name := planned.perm.mem_iff.mpr (named.known task isTask dep depends)
    obtain ⟨other,there',rfl⟩ := List.mem_map.mp ((List.mem_append.mp among).resolve_left out)
    have less := rank other.name task.name ((named.dependsOn isTask).mpr depends)
    have bound := (planned.early f rank).2 other there'
    rw [List.length_append,List.length_singleton]
    omega

theorem planWaves_spec (accepted : Accepted tasks) (rounds : Nat) {remaining : List TaskSpec} (waves : List (List String))
    (planned : Planned tasks remaining waves) (enough : remaining.length ≤ rounds) :
    ∃ result, planWaves rounds remaining waves.flatten waves = some result ∧ Layers tasks result := by
  have named := accepted.named_tasks
  induction rounds generalizing remaining waves with
  | zero =>
    have none := List.length_eq_zero_iff.mp (Nat.le_zero.mp enough)
    subst none
    exact ⟨waves,by simp [planWaves],by simpa using planned.perm,planned.after,fun f rank => (planned.early f rank).1⟩
  | succ rounds ih =>
    cases remaining with
    | nil => exact ⟨waves,by simp [planWaves],by simpa using planned.perm,planned.after,fun f rank => (planned.early f rank).1⟩
    | cons first rest =>
      have next := planned_round named planned
      -- a task that depends on no remaining one is ready, so that fewer remain
      obtain ⟨task,isTask,there,free⟩ := named.exists_first accepted.acyclic ((first :: rest).map TaskSpec.name) (by simp)
        (fun n inside => planned.perm.subset (List.mem_append_right _ inside))
      obtain ⟨other,isRemaining,same⟩ := List.mem_map.mp there
      cases named.same_task (planned.members other isRemaining) isTask same
      have ready : isReady waves.flatten task := isReady_iff.mpr fun dep depends =>
        (List.mem_append.mp (planned.perm.mem_iff.mpr (named.known task isTask dep depends))).resolve_right (free dep depends)
      have fewer : ((first :: rest).filter (fun task => !(((first :: rest).filter (isReady waves.flatten)).map TaskSpec.name).contains task.name)).length <
          (first :: rest).length := by
        refine List.length_filter_lt_length_iff_exists.mpr ⟨task,isRemaining,?_⟩
        have inWave : task.name ∈ ((first :: rest).filter (isReady waves.flatten)).map TaskSpec.name :=
          List.mem_map_of_mem (List.mem_filter.mpr ⟨isRemaining,ready⟩)
        rw [List.contains_iff_mem.mpr inWave]
        decide
      obtain ⟨result,planned',layers⟩ := ih _ next (by omega)
      refine ⟨result,?_,layers⟩
      rw [← planned',List.flatten_append,List.flatten_singleton]
      rfl

/-- A dry run of accepted tasks shows them in layers. -/
theorem waves_spec (accepted : Accepted tasks) : ∃ waves, planWaves tasks.length tasks [] [] = some waves ∧ Layers tasks waves :=
  planWaves_spec accepted tasks.length [] ⟨by simp,fun _ inside => inside,by simp,fun _ _ => ⟨by simp,by simp⟩⟩ (Nat.le_refl _)

end
end Daf.RunPlan
