import Daf.RunPlan
import Mathlib.Data.List.AList

/-!
The scheduling loop of `daf run`: a pass over the pending tasks skips and starts what it can, then the
loop waits for any one of the running commands.
-/
namespace Daf.RunSchedule
open Daf.Cycles Daf.RunPlan

inductive Status where
  | passed
  | failed
  | timed_out
  | skipped
deriving DecidableEq,Repr

structure TaskResult where
  name : String
  status : Status
  exit_code : Option Int
  error : Option String
deriving DecidableEq,Repr

def TaskResult.passed (result : TaskResult) : Bool := result.status = .passed

/-- How a command ends. -/
inductive Ending where
  | exited (success : Bool) (code : Option Int) (status : String)
  | wait_failed (error : String)
  | timed_out (kill_error : Option String)
  | spawn_failed (error : String)
deriving DecidableEq,Repr

def execute (timeout : Nat) (task : TaskSpec) : Ending → TaskResult
  | .exited true code _ => ⟨task.name,.passed,code,none⟩
  | .exited false code status => ⟨task.name,.failed,code,some ("command exited with " ++ status)⟩
  | .wait_failed error => ⟨task.name,.failed,none,some error⟩
  | .timed_out none => ⟨task.name,.timed_out,none,some ("timed out after " ++ toString timeout ++ "s")⟩
  | .timed_out (some error) =>
    ⟨task.name,.timed_out,none,some ("timed out after " ++ toString timeout ++ "s; termination failed: " ++ error)⟩
  | .spawn_failed error => ⟨task.name,.failed,none,some error⟩

def skip (task : TaskSpec) : TaskResult := ⟨task.name,.skipped,none,some "dependency failed"⟩

/-- What happens, for the statements about its order. -/
inductive Event where
  | skipped (name : String)
  | started (task : TaskSpec)
  | finished (result : TaskResult)
deriving DecidableEq

abbrev Results := AList (fun _ : String => TaskResult)

structure State where
  pending : List TaskSpec
  results : Results
  active : List TaskSpec
  log : List Event

section
variable (timeout parallelism : Nat) (ending : String → Ending)

def start (tasks : List TaskSpec) : State := ⟨tasks,∅,[],[]⟩

def State.failedDependency (s : State) (task : TaskSpec) : Bool := task.depends_on.any fun dep => (s.results.lookup dep).any (fun result => !result.passed)

def State.allPassed (s : State) (task : TaskSpec) : Bool := task.depends_on.all fun dep => (s.results.lookup dep).any TaskResult.passed

/-- The rest of a pass: `pending` holds the tasks that it has left where they were. -/
def scan : List TaskSpec → State → State
  | [],s => s
  | task :: rest,s =>
    if s.failedDependency task then
      scan rest { s with results := s.results.insert task.name (skip task),log := s.log ++ [.skipped task.name] }
    else if s.active.length < parallelism && s.allPassed task then
      scan rest { s with active := s.active ++ [task],log := s.log ++ [.started task] }
    else scan rest { s with pending := s.pending ++ [task] }

def pass (s : State) : State := scan parallelism s.pending { s with pending := [] }

/-- The loop gets the result of one of the running commands, if there are any. -/
def join (choice : Nat) (s : State) : State :=
  match s.active[choice % s.active.length]? with
  | none => s
  | some task =>
    let result := execute timeout task (ending task.name)
    { s with
      active := s.active.eraseIdx (choice % s.active.length)
      results := s.results.insert result.name result
      log := s.log ++ [.finished result] }

/-- Rounds of the loop, with the choice of the command that finishes in each. -/
def loop : Nat → (Nat → Nat) → State → Option State
  | rounds,choose,s =>
    if s.pending = [] ∧ s.active = [] then some s
    else
      match rounds with
      | 0 => none
      | rounds + 1 => loop rounds (fun n => choose (n + 1)) (join timeout ending (choose 0) (pass parallelism s))

end
/-! ### What the loop keeps -/

/-- All dependencies have passed. -/
def Passed (results : Results) (task : TaskSpec) : Prop := ∀ dep ∈ task.depends_on, ∃ result, results.lookup dep = some result ∧ result.passed = true

/-- Some dependency has a result, and did not pass. -/
def Failed (results : Results) (task : TaskSpec) : Prop := ∃ dep ∈ task.depends_on, ∃ result, results.lookup dep = some result ∧ result.passed = false

/-- A task is skipped if a dependency did not pass, and has the outcome of its command if all did. -/
def Justified (timeout : Nat) (ending : String → Ending) (results : Results) (task : TaskSpec) (result : TaskResult) : Prop :=
  Failed results task ∧ result = skip task ∨ Passed results task ∧ result = execute timeout task (ending task.name)

theorem failedDependency_iff {s : State} {task : TaskSpec} : s.failedDependency task = true ↔ Failed s.results task := by
  simp [State.failedDependency,Failed,Option.any_eq_true]

theorem allPassed_iff {s : State} {task : TaskSpec} : s.allPassed task = true ↔ Passed s.results task := by
  simp [State.allPassed,Passed,Option.any_eq_true]

section
variable {timeout : Nat} {ending : String → Ending}

/-- Results that are there stay. -/
def More (results more : Results) : Prop := ∀ name result, results.lookup name = some result → more.lookup name = some result

theorem Passed.mono {results more : Results} {task : TaskSpec} (sub : More results more) (passed : Passed results task) : Passed more task := by
  intro dep depends
  obtain ⟨result,found,isPassed⟩ := passed dep depends
  exact ⟨result,sub dep result found,isPassed⟩

theorem Failed.mono {results more : Results} {task : TaskSpec} (sub : More results more) (failed : Failed results task) : Failed more task := by
  obtain ⟨dep,depends,result,found,notPassed⟩ := failed
  exact ⟨dep,depends,result,sub dep result found,notPassed⟩

theorem Justified.mono {results more : Results} {task : TaskSpec} {result : TaskResult} (sub : More results more)
    (justified : Justified timeout ending results task result) : Justified timeout ending more task result :=
  justified.imp (fun skipped => ⟨skipped.1.mono sub,skipped.2⟩) (fun ran => ⟨ran.1.mono sub,ran.2⟩)

theorem more_insert {results : Results} {name : String} (fresh : name ∉ results.keys) (result : TaskResult) : More results (results.insert name result) := by
  intro other found is_
  have differ : other ≠ name := by
    rintro rfl
    exact fresh (AList.mem_keys.mp (AList.lookup_isSome.mp (by rw [is_]; rfl)))
  rw [AList.lookup_insert_ne differ]
  exact is_

theorem keys_insert_new {results : Results} {name : String} (fresh : name ∉ results.keys) (result : TaskResult) :
    (results.insert name result).keys = name :: results.keys := by
  rw [AList.keys_insert,List.erase_of_not_mem fresh]

theorem execute_name (timeout : Nat) (task : TaskSpec) (ending : Ending) : (execute timeout task ending).name = task.name := by
  rcases ending with ⟨_ | _,_,_⟩ | _ | ⟨_ | _⟩ | _ <;> rfl

end

/-- Every task is pending, active or has its result, and the results are what they have to be. -/
structure Inv (timeout : Nat) (ending : String → Ending) (parallelism : Nat) (tasks : List TaskSpec) (s : State) : Prop where
  split : ((s.pending ++ s.active).map TaskSpec.name ++ s.results.keys).Perm (tasks.map TaskSpec.name)
  members : ∀ task ∈ s.pending ++ s.active, task ∈ tasks
  justified : ∀ task ∈ tasks, ∀ result, s.results.lookup task.name = some result → Justified timeout ending s.results task result
  ready : ∀ task ∈ s.active, Passed s.results task
  room : s.active.length ≤ parallelism

section
variable {timeout parallelism : Nat} {ending : String → Ending} {tasks : List TaskSpec} {s : State}

theorem Inv.fresh (named : Named tasks) (inv : Inv timeout ending parallelism tasks s) {task : TaskSpec} (inside : task ∈ s.pending ++ s.active) :
    task.name ∉ s.results.keys := by
  have distinct := inv.split.nodup_iff.mpr named.distinct
  exact fun twice => (List.nodup_append.mp distinct).2.2 _ (List.mem_map_of_mem inside) _ twice rfl

theorem inv_skip (named : Named tasks) {before after : List TaskSpec} {task : TaskSpec} (pending : s.pending = before ++ task :: after)
    (inv : Inv timeout ending parallelism tasks s) (failed : Failed s.results task) :
    Inv timeout ending parallelism tasks
      { s with pending := before ++ after,results := s.results.insert task.name (skip task),log := s.log ++ [.skipped task.name] } := by
  have inside : task ∈ s.pending ++ s.active := by simp [pending]
  have fresh := inv.fresh named inside
  have more := more_insert fresh (skip task)
  refine ⟨?_,fun other there => inv.members other ?_,fun other isTask result found => ?_,fun other isActive => (inv.ready other isActive).mono more,inv.room⟩
  · have split := inv.split
    rw [pending] at split
    refine List.Perm.trans ?_ split
    rw [keys_insert_new fresh]
    simp only [List.map_append,List.map_cons,List.append_assoc]
    refine List.Perm.append_left _ ?_
    rw [← List.append_assoc,← List.append_assoc,List.cons_append]
    exact List.perm_middle
  · rw [pending]
    simp only [List.mem_append,List.mem_cons] at there ⊢
    tauto
  · by_cases same : other.name = task.name
    · cases named.same_task isTask (inv.members task inside) same
      rw [AList.lookup_insert] at found
      cases found
      exact .inl ⟨failed.mono more,rfl⟩
    · rw [AList.lookup_insert_ne same] at found
      exact (inv.justified other isTask result found).mono more

theorem inv_start {before after : List TaskSpec} {task : TaskSpec} (pending : s.pending = before ++ task :: after)
    (inv : Inv timeout ending parallelism tasks s) (passed : Passed s.results task) (free : s.active.length < parallelism) :
    Inv timeout ending parallelism tasks { s with pending := before ++ after,active := s.active ++ [task],log := s.log ++ [.started task] } := by
  refine ⟨?_,fun other there => inv.members other ?_,inv.justified,fun other isActive => ?_,by simp; omega⟩
  · have split := inv.split
    rw [pending] at split
    refine List.Perm.trans (List.Perm.append_right _ (List.Perm.map _ ?_)) split
    simp only [List.append_assoc]
    refine List.Perm.append_left _ ?_
    rw [← List.append_assoc,List.cons_append]
    exact List.perm_append_singleton task _
  · rw [pending]
    simp only [List.mem_append,List.mem_cons] at there ⊢
    tauto
  · rcases List.mem_append.mp isActive with old | new
    · exact inv.ready other old
    · rw [List.mem_singleton.mp new]
      exact passed

theorem inv_join (named : Named tasks) (inv : Inv timeout ending parallelism tasks s) (choice : Nat) :
    Inv timeout ending parallelism tasks (join timeout ending choice s) := by
  unfold join
  cases found : s.active[choice % s.active.length]? with
  | none => exact inv
  | some task =>
    obtain ⟨small,isTask⟩ := List.getElem?_eq_some_iff.mp found
    have isActive : task ∈ s.active := List.mem_of_getElem? found
    have inside : task ∈ s.pending ++ s.active := List.mem_append_right _ isActive
    have fresh := inv.fresh named inside
    dsimp only
    rw [execute_name]
    have more := more_insert fresh (execute timeout task (ending task.name))
    have others : (task :: s.active.eraseIdx (choice % s.active.length)).Perm s.active := by
      rw [← isTask]
      exact List.getElem_cons_eraseIdx_perm small
    refine ⟨?_,fun other there => inv.members other ?_,fun other isTask result found => ?_,fun other there => ?_,?_⟩
    · refine List.Perm.trans ?_ inv.split
      rw [keys_insert_new fresh]
      simp only [List.map_append,List.append_assoc]
      refine List.Perm.append_left _ ?_
      exact (List.perm_middle).trans ((others.map TaskSpec.name).append_right s.results.keys)
    · rcases List.mem_append.mp there with old | rest
      · exact List.mem_append_left _ old
      · exact List.mem_append_right _ (List.mem_of_mem_eraseIdx rest)
    · by_cases same : other.name = task.name
      · cases named.same_task isTask (inv.members task inside) same
        rw [AList.lookup_insert] at found
        cases found
        exact .inr ⟨(inv.ready task isActive).mono more,rfl⟩
      · rw [AList.lookup_insert_ne same] at found
        exact (inv.justified other isTask result found).mono more
    · exact (inv.ready other (List.mem_of_mem_eraseIdx there)).mono more
    · have less := others.length_eq
      have room := inv.room
      simp only [List.length_cons] at less
      show (s.active.eraseIdx (choice % s.active.length)).length ≤ parallelism
      omega

end
/-! ### The order of what happens -/

def startedName : Event → Option String
  | .started task => some task.name
  | _ => none

def isStart : Event → Bool
  | .started _ => true
  | _ => false

def isFinish : Event → Bool
  | .finished _ => true
  | _ => false

/-- Commands start once, after all their dependencies have passed, and not too many of them run. -/
structure Orderly (parallelism : Nat) (log : List Event) : Prop where
  once : (log.filterMap startedName).Nodup
  after : ∀ before task later, log = before ++ .started task :: later → ∀ dep ∈ task.depends_on, ∃ result, .finished result ∈ before ∧
    result.name = dep ∧ result.passed = true
  room : ∀ before later, log = before ++ later → before.countP isStart ≤ before.countP isFinish + parallelism

/-- What the log says of the state. -/
structure Logged (parallelism : Nat) (s : State) : Prop where
  orderly : Orderly parallelism s.log
  waiting : ∀ task ∈ s.pending, task.name ∉ s.log.filterMap startedName
  finished : ∀ name result, s.results.lookup name = some result → result.passed = true → .finished result ∈ s.log ∧ result.name = name
  running : s.log.countP isStart = s.log.countP isFinish + s.active.length

section
variable {timeout parallelism : Nat} {ending : String → Ending} {tasks : List TaskSpec} {s : State}

theorem Orderly.concat {log : List Event} (orderly : Orderly parallelism log) {event : Event} (once : ∀ name, startedName event = some name →
    name ∉ log.filterMap startedName) (after : ∀ task, event = .started task → ∀ dep ∈ task.depends_on, ∃ result, .finished result ∈ log ∧
      result.name = dep ∧ result.passed = true) (room : (log ++ [event]).countP isStart ≤ (log ++ [event]).countP isFinish + parallelism) :
    Orderly parallelism (log ++ [event]) := by
  refine ⟨?_,fun before task later same => ?_,fun before later same => ?_⟩
  · rw [List.filterMap_append]
    refine List.nodup_append.mpr ⟨orderly.once,?_,?_⟩
    · cases event <;> simp [List.filterMap_cons,startedName]
    · intro name old other new
      obtain ⟨e,inside,named⟩ := List.mem_filterMap.mp new
      rw [List.mem_singleton.mp inside] at named
      rintro rfl
      exact once name named old
  · rcases concat_split same with ⟨-,rfl,isLast⟩ | ⟨rest,old⟩
    · exact after task isLast.symm
    · exact orderly.after before task rest old
  · rcases List.eq_nil_or_concat later with rfl | ⟨rest,x,rfl⟩
    · rw [List.append_nil] at same
      rwa [← same]
    · have shifted : log ++ [event] = (before ++ rest) ++ [x] := by simpa using same
      exact orderly.room before rest (List.append_inj' shifted rfl).1

theorem logged_skip (logged : Logged parallelism s) {before after : List TaskSpec} {task : TaskSpec} (pending : s.pending = before ++ task :: after) :
    Logged parallelism { s with pending := before ++ after,results := s.results.insert task.name (skip task),log := s.log ++ [.skipped task.name] } := by
  have counts : (s.log ++ [Event.skipped task.name]).countP isStart = s.log.countP isStart ∧
      (s.log ++ [Event.skipped task.name]).countP isFinish = s.log.countP isFinish := by simp [isStart,isFinish]
  have room := logged.orderly.room s.log [] (List.append_nil _).symm
  refine ⟨logged.orderly.concat (by simp [startedName]) (by simp) (by rw [counts.1,counts.2]; exact room),fun other there => ?_,
    fun name result found isPassed => ?_,by rw [counts.1,counts.2]; exact logged.running⟩
  · have old : other ∈ s.pending := by
      rw [pending]
      simp only [List.mem_append,List.mem_cons] at there ⊢
      tauto
    simpa [startedName] using logged.waiting other old
  · by_cases same : name = task.name
    · subst same
      rw [AList.lookup_insert] at found
      cases found
      cases isPassed
    · rw [AList.lookup_insert_ne same] at found
      obtain ⟨inside,named⟩ := logged.finished name result found isPassed
      exact ⟨List.mem_append_left _ inside,named⟩

theorem logged_start (named : Named tasks) (inv : Inv timeout ending parallelism tasks s) (logged : Logged parallelism s) {before after : List TaskSpec}
    {task : TaskSpec} (pending : s.pending = before ++ task :: after) (passed : Passed s.results task) (free : s.active.length < parallelism) :
    Logged parallelism { s with pending := before ++ after,active := s.active ++ [task],log := s.log ++ [.started task] } := by
  have counts : (s.log ++ [Event.started task]).countP isStart = s.log.countP isStart + 1 ∧
      (s.log ++ [Event.started task]).countP isFinish = s.log.countP isFinish := by simp [isStart,isFinish]
  have running := logged.running
  have isPending : task ∈ s.pending := by simp [pending]
  have distinct : (s.pending.map TaskSpec.name).Nodup := by
    have all := inv.split.nodup_iff.mpr named.distinct
    rw [List.map_append] at all
    exact (List.nodup_append.mp (List.nodup_append.mp all).1).1
  refine ⟨logged.orderly.concat (fun name same => ?_) (fun other same dep depends => ?_) (by rw [counts.1,counts.2]; omega),fun other there => ?_,
    fun name result found isPassed => ?_,by rw [counts.1,counts.2,List.length_append,List.length_singleton]; omega⟩
  · cases same
    exact logged.waiting task isPending
  · cases same
    obtain ⟨result,found,isPassed⟩ := passed dep depends
    obtain ⟨inside,isNamed⟩ := logged.finished dep result found isPassed
    exact ⟨result,inside,isNamed,isPassed⟩
  · have old : other ∈ s.pending := by
      rw [pending]
      simp only [List.mem_append,List.mem_cons] at there ⊢
      tauto
    have differ : other.name ≠ task.name := by
      rw [pending,List.map_append,List.map_cons] at distinct
      rw [List.nodup_middle,← List.map_append] at distinct
      exact fun same => (List.nodup_cons.mp distinct).1 (same ▸ List.mem_map_of_mem there)
    simpa [startedName,differ] using logged.waiting other old
  · obtain ⟨inside,isNamed⟩ := logged.finished name result found isPassed
    exact ⟨List.mem_append_left _ inside,isNamed⟩

theorem logged_join (logged : Logged parallelism s) (choice : Nat) : Logged parallelism (join timeout ending choice s) := by
  unfold join
  cases found : s.active[choice % s.active.length]? with
  | none => exact logged
  | some task =>
    obtain ⟨small,-⟩ := List.getElem?_eq_some_iff.mp found
    have size := List.length_eraseIdx_of_lt small
    have running := logged.running
    have counts : (s.log ++ [Event.finished (execute timeout task (ending task.name))]).countP isStart = s.log.countP isStart ∧
        (s.log ++ [Event.finished (execute timeout task (ending task.name))]).countP isFinish = s.log.countP isFinish + 1 := by simp [isStart,isFinish]
    have room := logged.orderly.room s.log [] (List.append_nil _).symm
    dsimp only
    refine ⟨logged.orderly.concat (by simp [startedName]) (by simp) (by rw [counts.1,counts.2]; omega),fun other there => ?_,
      fun name result is_ isPassed => ?_,by rw [counts.1,counts.2,size]; omega⟩
    · simpa [startedName] using logged.waiting other there
    · by_cases same : name = (execute timeout task (ending task.name)).name
      · subst same
        rw [AList.lookup_insert] at is_
        cases is_
        exact ⟨List.mem_append_right _ (List.mem_singleton_self _),rfl⟩
      · rw [AList.lookup_insert_ne same] at is_
        obtain ⟨inside,isNamed⟩ := logged.finished name result is_ isPassed
        exact ⟨List.mem_append_left _ inside,isNamed⟩

end
/-! ### A round -/

/-- What both invariants say. -/
structure Good (timeout : Nat) (ending : String → Ending) (parallelism : Nat) (tasks : List TaskSpec) (s : State) : Prop where
  inv : Inv timeout ending parallelism tasks s
  logged : Logged parallelism s

/-- How much there is to do: to start and to finish each pending task, and to finish each active one. -/
def State.work (s : State) : Nat := 2 * s.pending.length + s.active.length

/-- A pass can do something about the task. -/
def Able (parallelism : Nat) (s : State) (task : TaskSpec) : Prop :=
  Failed s.results task ∨ s.active.length < parallelism ∧ Passed s.results task

section
variable {timeout parallelism : Nat} {ending : String → Ending} {tasks : List TaskSpec}

/-- A pass keeps what holds, adds no work, and takes up every task that it can do something about. -/
theorem scan_spec (named : Named tasks) (rest : List TaskSpec) (s : State)
    (good : Good timeout ending parallelism tasks { s with pending := s.pending ++ rest }) :
    Good timeout ending parallelism tasks (scan parallelism rest s) ∧ (scan parallelism rest s).work ≤ s.work + 2 * rest.length ∧
      s.active.length ≤ (scan parallelism rest s).active.length ∧
        ((∃ task ∈ rest, Able parallelism s task) → (scan parallelism rest s).work < s.work + 2 * rest.length) := by
  induction rest generalizing s with
  | nil => exact ⟨by simpa [scan] using good,by simp [scan],Nat.le_refl _,by simp⟩
  | cons task rest ih =>
    unfold scan
    by_cases failed : s.failedDependency task = true
    · rw [if_pos failed]
      obtain ⟨good',work,active,-⟩ := ih { s with results := s.results.insert task.name (skip task),log := s.log ++ [.skipped task.name] }
        ⟨inv_skip (s := { s with pending := s.pending ++ task :: rest }) named rfl good.inv (failedDependency_iff.mp failed),
          logged_skip (s := { s with pending := s.pending ++ task :: rest }) good.logged rfl⟩
      simp only [State.work,List.length_cons] at work ⊢
      exact ⟨good',by omega,active,fun _ => by omega⟩
    · rw [if_neg failed]
      by_cases starts : (s.active.length < parallelism && s.allPassed task) = true
      · rw [if_pos starts]
        obtain ⟨free,passed⟩ := Bool.and_eq_true_iff.mp starts
        have room : s.active.length < parallelism := of_decide_eq_true free
        have ready : Passed s.results task := allPassed_iff.mp passed
        obtain ⟨good',work,active,-⟩ := ih { s with active := s.active ++ [task],log := s.log ++ [.started task] }
          ⟨inv_start (s := { s with pending := s.pending ++ task :: rest }) rfl good.inv ready room,
            logged_start (s := { s with pending := s.pending ++ task :: rest }) named good.inv good.logged rfl ready room⟩
        simp only [State.work,List.length_cons,List.length_append,List.length_nil] at work active ⊢
        exact ⟨good',by omega,by omega,fun _ => by omega⟩
      · rw [if_neg starts]
        obtain ⟨good',work,active,acts⟩ := ih { s with pending := s.pending ++ [task] } (by simpa using good)
        simp only [State.work,List.length_cons,List.length_append,List.length_nil] at work acts ⊢
        refine ⟨good',by omega,active,?_⟩
        rintro ⟨other,inside,able⟩
        rcases List.mem_cons.mp inside with rfl | later
        · rcases able with isFailed | ⟨free,passed⟩
          · exact absurd (failedDependency_iff.mpr isFailed) failed
          · exact absurd (Bool.and_eq_true_iff.mpr ⟨decide_eq_true free,allPassed_iff.mpr passed⟩) starts
        · have less := acts ⟨other,later,able⟩
          omega

/-- With nothing running, a pass can do something about one of the pending tasks. -/
theorem able_of_idle (accepted : Accepted tasks) {s : State} (inv : Inv timeout ending parallelism tasks s) (positive : 0 < parallelism)
    (idle : s.active = []) (pending : s.pending ≠ []) : ∃ task ∈ s.pending, Able parallelism s task := by
  have named := accepted.named_tasks
  have split := inv.split
  rw [idle,List.append_nil] at split
  obtain ⟨task,isTask,there,free⟩ := named.exists_first accepted.acyclic (s.pending.map TaskSpec.name) (by simpa using pending)
    (fun n inside => split.subset (List.mem_append_left _ inside))
  obtain ⟨other,isPending,same⟩ := List.mem_map.mp there
  cases named.same_task (inv.members other (List.mem_append_left _ isPending)) isTask same
  refine ⟨task,isPending,?_⟩
  have done : ∀ dep ∈ task.depends_on, ∃ result, s.results.lookup dep = some result := by
    intro dep depends
    have key := (List.mem_append.mp (split.mem_iff.mpr (named.known task isTask dep depends))).resolve_left (free dep depends)
    exact Option.isSome_iff_exists.mp (AList.lookup_isSome.mpr (AList.mem_keys.mpr key))
  by_cases failed : Failed s.results task
  · exact .inl failed
  · refine .inr ⟨by simpa [idle] using positive,fun dep depends => ?_⟩
    obtain ⟨result,found⟩ := done dep depends
    refine ⟨result,found,?_⟩
    by_contra notPassed
    exact failed ⟨dep,depends,result,found,by simpa using notPassed⟩

theorem join_work {s : State} (busy : s.active ≠ []) (choice : Nat) : (join timeout ending choice s).work < s.work := by
  have positive : 0 < s.active.length := List.length_pos_iff.mpr busy
  have small : choice % s.active.length < s.active.length := Nat.mod_lt _ positive
  unfold join
  rw [List.getElem?_eq_getElem small]
  simp only [State.work,List.length_eraseIdx_of_lt small]
  omega

/-- A round keeps what holds, and leaves less to do. -/
theorem round_spec (accepted : Accepted tasks) (positive : 0 < parallelism) {s : State} (good : Good timeout ending parallelism tasks s)
    (more : ¬ (s.pending = [] ∧ s.active = [])) (choice : Nat) :
    Good timeout ending parallelism tasks (join timeout ending choice (pass parallelism s)) ∧
      (join timeout ending choice (pass parallelism s)).work < s.work := by
  have named := accepted.named_tasks
  obtain ⟨good',work,active,acts⟩ := scan_spec named s.pending { s with pending := [] } good
  have whole : (scan parallelism s.pending { s with pending := [] }) = pass parallelism s := rfl
  rw [whole] at good' work active acts
  simp only [State.work,List.length_nil] at work acts
  refine ⟨⟨inv_join named good'.inv choice,logged_join good'.logged choice⟩,?_⟩
  by_cases busy : (pass parallelism s).active = []
  · have same : join timeout ending choice (pass parallelism s) = pass parallelism s := by simp [join,busy]
    have idle : s.active = [] := by
      rw [busy] at active
      exact List.length_eq_zero_iff.mp (Nat.le_zero.mp active)
    have pending : s.pending ≠ [] := fun none => more ⟨none,idle⟩
    obtain ⟨task,inside,able⟩ := able_of_idle accepted good.inv positive idle pending
    have less := acts ⟨task,inside,able⟩
    rw [same]
    simp only [State.work]
    omega
  · have less : (join timeout ending choice (pass parallelism s)).work < (pass parallelism s).work := join_work busy choice
    simp only [State.work] at less ⊢
    omega

theorem loop_spec (accepted : Accepted tasks) (positive : 0 < parallelism) (rounds : Nat) (choose : Nat → Nat) {s : State}
    (good : Good timeout ending parallelism tasks s) (enough : s.work ≤ rounds) :
    ∃ final, loop timeout parallelism ending rounds choose s = some final ∧ Good timeout ending parallelism tasks final ∧ final.pending = [] ∧
      final.active = [] := by
  induction rounds generalizing s choose with
  | zero =>
    have none : s.pending = [] ∧ s.active = [] := by
      simp only [State.work] at enough
      exact ⟨List.length_eq_zero_iff.mp (by omega),List.length_eq_zero_iff.mp (by omega)⟩
    exact ⟨s,by rw [loop,if_pos none],good,none⟩
  | succ rounds ih =>
    by_cases none : s.pending = [] ∧ s.active = []
    · exact ⟨s,by rw [loop,if_pos none],good,none⟩
    · obtain ⟨good',less⟩ := round_spec accepted positive good none (choose 0)
      obtain ⟨final,ends,done⟩ := ih (fun n => choose (n + 1)) good' (by omega)
      exact ⟨final,by rw [loop,if_neg none]; exact ends,done⟩

theorem good_start : Good timeout ending parallelism tasks (start tasks) := by
  refine ⟨⟨by simp [start],fun task inside => by simpa [start] using inside,fun task _ result found => by simp [start] at found,
    fun task inside => by simp [start] at inside,Nat.zero_le _⟩,⟨⟨by simp [start],by simp [start],?_⟩,by simp [start],by simp [start],by simp [start]⟩⟩
  intro before later same
  simp only [start] at same
  rw [(List.append_eq_nil_iff.mp same.symm).1]
  simp

/-! ### The results -/

/-- A state where the loop ends. -/
structure Finished (timeout : Nat) (ending : String → Ending) (parallelism : Nat) (tasks : List TaskSpec) (s : State) : Prop where
  good : Good timeout ending parallelism tasks s
  pending : s.pending = []
  active : s.active = []

theorem Finished.keys {s : State} (finished : Finished timeout ending parallelism tasks s) : s.results.keys.Perm (tasks.map TaskSpec.name) := by
  simpa [finished.pending,finished.active] using finished.good.inv.split

theorem Finished.result {s : State} (finished : Finished timeout ending parallelism tasks s) {task : TaskSpec} (inside : task ∈ tasks) :
    ∃ result, s.results.lookup task.name = some result ∧ Justified timeout ending s.results task result := by
  have key := finished.keys.symm.subset (List.mem_map_of_mem inside)
  obtain ⟨result,found⟩ := Option.isSome_iff_exists.mp (AList.lookup_isSome.mpr (AList.mem_keys.mpr key))
  exact ⟨result,found,finished.good.inv.justified task inside result found⟩

theorem passed_not_failed {results : Results} {task : TaskSpec} (passed : Passed results task) : ¬ Failed results task := by
  rintro ⟨dep,depends,result,found,notPassed⟩
  obtain ⟨other,found',isPassed⟩ := passed dep depends
  rw [found] at found'
  cases found'
  rw [isPassed] at notPassed
  cases notPassed

theorem execute_runs (timeout : Nat) (task : TaskSpec) (ending : Ending) : (execute timeout task ending).status ≠ .skipped := by
  rcases ending with ⟨_ | _,_,_⟩ | _ | ⟨_ | _⟩ | _ <;> simp [execute]

theorem Finished.outcome {s : State} (finished : Finished timeout ending parallelism tasks s) {task : TaskSpec} (inside : task ∈ tasks) :
    ∃ result, s.results.lookup task.name = some result ∧ (result.status = .skipped ↔ Failed s.results task) ∧
      (¬ Failed s.results task → result = execute timeout task (ending task.name)) := by
  obtain ⟨result,found,⟨failed,rfl⟩ | ⟨passed,rfl⟩⟩ := finished.result inside
  · exact ⟨_,found,⟨fun _ => failed,fun _ => rfl⟩,fun none => absurd failed none⟩
  · exact ⟨_,found,⟨fun skipped => absurd skipped (execute_runs _ _ _),fun failed => absurd failed (passed_not_failed passed)⟩,fun _ => rfl⟩

/-- What a task comes to depends on no schedule, since what its dependencies come to does not. -/
theorem results_agree (accepted : Accepted tasks) {parallelism' : Nat} {s t : State} (first : Finished timeout ending parallelism tasks s)
    (second : Finished timeout ending parallelism' tasks t) (name : String) : s.results.lookup name = t.results.lookup name := by
  have named := accepted.named_tasks
  induction name using (named.wellFounded accepted.acyclic).induction with
  | _ name ih =>
    by_cases isTask : name ∈ tasks.map TaskSpec.name
    · obtain ⟨task,inside,rfl⟩ := List.mem_map.mp isTask
      have same : ∀ dep ∈ task.depends_on, s.results.lookup dep = t.results.lookup dep :=
        fun dep depends => ih dep ((named.dependsOn inside).mpr depends)
      have sameFailed : Failed s.results task → Failed t.results task := by
        rintro ⟨dep,depends,result,found,notPassed⟩
        exact ⟨dep,depends,result,(same dep depends) ▸ found,notPassed⟩
      have samePassed : Passed s.results task → Passed t.results task := by
        intro passed dep depends
        obtain ⟨result,found,isPassed⟩ := passed dep depends
        exact ⟨result,(same dep depends) ▸ found,isPassed⟩
      obtain ⟨result,found,justified⟩ := first.result inside
      obtain ⟨result',found',justified'⟩ := second.result inside
      rw [found,found']
      rcases justified with ⟨failed,rfl⟩ | ⟨passed,rfl⟩ <;> rcases justified' with ⟨failed',rfl⟩ | ⟨passed',rfl⟩
      · rfl
      · exact absurd (sameFailed failed) (passed_not_failed passed')
      · exact absurd failed' (passed_not_failed (samePassed passed))
      · rfl
    · have none : ∀ {p : Nat} {u : State}, Finished timeout ending p tasks u → u.results.lookup name = none := by
        intro p u finished
        by_contra found
        exact isTask (finished.keys.subset (AList.mem_keys.mp (AList.lookup_isSome.mp (Option.isSome_iff_ne_none.mpr found))))
      rw [none first,none second]

theorem run_finishes (accepted : Accepted tasks) (timeout : Nat) (ending : String → Ending) {p : Nat} (positive : 0 < p) (choose : Nat → Nat) :
    ∃ final, loop timeout p ending (2 * tasks.length) choose (start tasks) = some final ∧ Finished timeout ending p tasks final := by
  obtain ⟨final,ends,good,pending,active⟩ := loop_spec (s := start tasks) accepted positive (2 * tasks.length) choose good_start (by simp [State.work,start])
  exact ⟨final,ends,good,pending,active⟩

end
end Daf.RunSchedule
