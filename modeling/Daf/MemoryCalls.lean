import Daf.Interleaving
import Daf.Memories

/-!
The calls of a memory manager, made by any number of tasks on one store. Each call of the store is one step,
except an update, which checks that the memory exists and writes it in a step of its own: what a call read may
have been changed or deleted before it writes.
-/
namespace Daf.MemoryCalls
open Daf.UuidText Daf.Memories Daf.Runs Daf.Interleaving

structure CompactionReport where
  expired : Nat := 0
  decayed : Nat := 0
  demoted : Nat := 0
deriving DecidableEq,Repr

inductive Request (F : Type) where
  | store_memory (memory : Memory F)
  | get (id : Uuid)
  | recall (query : RecallQuery F)
  | forget (id : Uuid)
  | compact

/-- What a call returns; `failed` is an error of the store. -/
inductive Answer (F : Type) where
  | stored (id : Uuid)
  | found (memory : Option (Memory F))
  | recalled (result : RecallResult F)
  | forgot (id : Uuid)
  | compacted (report : CompactionReport)
  | failed
deriving DecidableEq

/-- Why a memory is updated, and what its call has still to do. -/
inductive Task (F : Type) where
  | getting
  | recalling (done rest : List (Memory F)) (total : Nat)
  | compacting (report : CompactionReport) (rest : List (Memory F))
deriving DecidableEq

/-- Where a call is, with the copies of memories that it has read. -/
inductive Call (F : Type) where
  | storing (memory : Memory F)
  | retrieving (id : Uuid)
  | listing (query : RecallQuery F)
  | scanning
  | deleting (id : Uuid)
  | recalling (done rest : List (Memory F)) (total : Nat)
  | compacting (report : CompactionReport) (rest : List (Memory F))
  | expiring (report : CompactionReport) (id : Uuid) (rest : List (Memory F))
  | checking (read copy : Memory F) (task : Task F)
  | writing (read copy : Memory F) (task : Task F)
  | leaving (answer : Answer F)
  | returned (answer : Answer F)
deriving DecidableEq

/-- What a step finds outside: the clock, the order in which the store is iterated, and whether a call of the store fails. -/
structure Choice where
  now : Int
  key : Uuid → Nat
  fails : Bool

section
variable {F : Type}

def Request.enter : Request F → Call F
  | .store_memory m => .storing m
  | .get id => .retrieving id
  | .recall q => .listing q
  | .forget id => .deleting id
  | .compact => .scanning

/-- Behind an update, whether it was made or not. -/
def Task.next (copy : Memory F) : Task F → Call F
  | .getting => .leaving (.found (some copy))
  | .recalling done rest total => .recalling (done ++ [copy]) rest total
  | .compacting report rest => .compacting report rest

section
variable [LinearOrder F] (doubles : Doubles F) (config : ManagerConfig F)

/-- The head of the loop of a compaction. -/
def compactNext (now : Int) (report : CompactionReport) : List (Memory F) → Call F
  | [] => .leaving (.compacted report)
  | m :: rest =>
    if m.is_expired now then .expiring report m.id rest else
    let copy := compacted doubles config now m
    let decayed := report.decayed + if doubles.decays m.importance copy.importance then 1 else 0
    let demoted := report.demoted + if copy.tier ≠ m.tier then 1 else 0
    .checking m copy (.compacting { report with decayed, demoted } rest)

def act (s : Store F) (t : Call F) (c : Choice) : Store F × Call F :=
  match t with
  | .storing m => if c.fails then (s,.leaving .failed) else (s.insert { m with tier := assign_initial_tier config m },.leaving (.stored m.id))
  | .retrieving id =>
    if c.fails then (s,.leaving .failed) else
    match s.retrieve id with
    | none => (s,.leaving (.found none))
    | some m => if m.is_expired c.now then (s,.leaving (.found none)) else (s,.checking m (accessed config c.now m) .getting)
  | .listing q =>
    if c.fails then (s,.leaving .failed) else
    let result := execute_recall doubles s c.key c.now q
    (s,.recalling [] result.memories result.total_matches)
  | .recalling done [] total => (s,.leaving (.recalled ⟨done,total⟩))
  | .recalling done (m :: rest) total => (s,.checking m (accessed config c.now m) (.recalling done rest total))
  | .scanning => if c.fails then (s,.leaving .failed) else (s,.compacting {} (s.list_all c.key 100000))
  | .compacting report rest => (s,compactNext doubles config c.now report rest)
  | .expiring report id rest => if c.fails then (s,.leaving .failed) else (s.remove id,.compacting { report with expired := report.expired + 1 } rest)
  | .deleting id => if c.fails then (s,.leaving .failed) else (s.remove id,.leaving (.forgot id))
  | .checking read copy task => if c.fails ∨ ¬ s.contains_key copy.id then (s,task.next copy) else (s,.writing read copy task)
  | .writing _ copy task => if c.fails then (s,task.next copy) else (s.insert copy,task.next copy)
  | .leaving answer => (s,.returned answer)
  | .returned answer => (s,.returned answer)

/-- A memory manager on a store. -/
def manager (initial : Store F) : System (Store F) (Call F) (Request F) Choice := ⟨initial,Request.enter,fun _ => act doubles config⟩

abbrev Event (F : Type) := Interleaving.Event (Request F) Choice

end

/-! ### What a call is about -/

/-- A call that is forgetting a memory, until it returns. -/
def Forgets (id : Uuid) : Call F → Prop
  | .deleting other => other = id
  | .leaving (.forgot other) => other = id
  | _ => False

/-- A call that will store a memory. -/
def Stores (id : Uuid) : Call F → Prop
  | .storing m => m.id = id
  | _ => False

instance (id : Uuid) : DecidablePred (Stores (F := F) id) := fun t => by unfold Stores; split <;> infer_instance

instance (id : Uuid) : DecidablePred (Forgets (F := F) id) := fun t => by unfold Forgets; split <;> infer_instance

/-- A call has returned a memory. -/
def Returned (id : Uuid) : Call F → Bool
  | .returned (.found (some m)) => m.id = id
  | .returned (.recalled result) => result.memories.any fun m => m.id = id
  | _ => false

def Finished : Call F → Prop
  | .returned _ => True
  | _ => False

def Task.held : Task F → List (Memory F)
  | .getting => []
  | .recalling done rest _ => done ++ rest
  | .compacting _ rest => rest

def Answer.held : Answer F → List (Memory F)
  | .found (some m) => [m]
  | .recalled result => result.memories
  | _ => []

/-- The copies of stored memories that a call has. -/
def held : Call F → List (Memory F)
  | .recalling done rest _ => done ++ rest
  | .compacting _ rest | .expiring _ _ rest => rest
  | .checking read copy task | .writing read copy task => read :: copy :: task.held
  | .leaving answer | .returned answer => answer.held
  | _ => []

def copiesOf (id : Uuid) (memories : List (Memory F)) : Nat := memories.countP fun m => m.id = id

def Task.credit (id : Uuid) : Task F → Nat
  | .recalling done _ _ => copiesOf id done
  | _ => 0

/-- The accesses of a memory that a call has made, and will return. -/
def credit (id : Uuid) : Call F → Nat
  | .recalling done _ _ => copiesOf id done
  | .checking _ _ task | .writing _ _ task => task.credit id
  | .leaving (.found (some m)) | .returned (.found (some m)) => if m.id = id then 1 else 0
  | .leaving (.recalled result) | .returned (.recalled result) => copiesOf id result.memories
  | _ => 0

/-! ### What a step does -/

/-- Every way in which a step can go, with what it needs of the state before it. -/
inductive Does [LinearOrder F] (doubles : Doubles F) (config : ManagerConfig F) (s : Store F) (c : Choice) : Call F → Store F → Call F → Prop where
  | stores (m : Memory F) (works : c.fails = false) :
      Does doubles config s c (.storing m) (s.insert { m with tier := assign_initial_tier config m }) (.leaving (.stored m.id))
  | fails (t : Call F) (none : ∀ id, credit id t = 0) : Does doubles config s c t s (.leaving .failed)
  | absent (id : Uuid) : Does doubles config s c (.retrieving id) s (.leaving (.found none))
  | reads (id : Uuid) (m : Memory F) (found : s.retrieve id = some m) :
      Does doubles config s c (.retrieving id) s (.checking m (accessed config c.now m) .getting)
  | lists (q : RecallQuery F) :
      Does doubles config s c (.listing q) s (.recalling [] (execute_recall doubles s c.key c.now q).memories (execute_recall doubles s c.key c.now q).total_matches)
  | recalled (done : List (Memory F)) (total : Nat) : Does doubles config s c (.recalling done [] total) s (.leaving (.recalled ⟨done,total⟩))
  | recalls (done : List (Memory F)) (m : Memory F) (rest : List (Memory F)) (total : Nat) :
      Does doubles config s c (.recalling done (m :: rest) total) s (.checking m (accessed config c.now m) (.recalling done rest total))
  | scans : Does doubles config s c .scanning s (.compacting {} (s.list_all c.key 100000))
  | compacted (report : CompactionReport) : Does doubles config s c (.compacting report []) s (.leaving (.compacted report))
  | expires (report : CompactionReport) (m : Memory F) (rest : List (Memory F)) (expired : m.is_expired c.now = true) :
      Does doubles config s c (.compacting report (m :: rest)) s (.expiring report m.id rest)
  | compacts (report later : CompactionReport) (m : Memory F) (rest : List (Memory F)) :
      Does doubles config s c (.compacting report (m :: rest)) s (.checking m (Memories.compacted doubles config c.now m) (.compacting later rest))
  | removes (report later : CompactionReport) (id : Uuid) (rest : List (Memory F)) :
    Does doubles config s c (.expiring report id rest) (s.remove id) (.compacting later rest)
  | deletes (id : Uuid) : Does doubles config s c (.deleting id) (s.remove id) (.leaving (.forgot id))
  | missed (read copy : Memory F) (task : Task F) (why : c.fails = true ∨ s.contains_key copy.id = false) :
      Does doubles config s c (.checking read copy task) s (task.next copy)
  | checked (read copy : Memory F) (task : Task F) : Does doubles config s c (.checking read copy task) s (.writing read copy task)
  | lost (read copy : Memory F) (task : Task F) (fails : c.fails = true) : Does doubles config s c (.writing read copy task) s (task.next copy)
  | writes (read copy : Memory F) (task : Task F) (works : c.fails = false) : Does doubles config s c (.writing read copy task) (s.insert copy) (task.next copy)
  | returns (answer : Answer F) : Does doubles config s c (.leaving answer) s (.returned answer)
  | rests (answer : Answer F) : Does doubles config s c (.returned answer) s (.returned answer)

theorem enter_stores {id : Uuid} {request : Request F} (stores : Stores id request.enter) : ∃ m, request = .store_memory m ∧ m.id = id := by
  cases request with
  | store_memory m => exact ⟨m,rfl,stores⟩
  | _ => cases stores

theorem enter_forgets {id : Uuid} {request : Request F} (forgets : Forgets id request.enter) : request = .forget id := by
  cases request with
  | forget other => rw [show other = id from forgets]
  | _ => cases forgets

theorem next_stores (id : Uuid) (task : Task F) (copy : Memory F) : ¬ Stores id (task.next copy) := by
  cases task <;> exact not_false

theorem next_forgets (id : Uuid) (task : Task F) (copy : Memory F) : ¬ Forgets id (task.next copy) := by
  cases task <;> exact not_false

section
variable [LinearOrder F] {doubles : Doubles F} {config : ManagerConfig F} {s s' : Store F} {t t' : Call F} {c : Choice} {id : Uuid}

theorem compactNext_does (report : CompactionReport) (rest : List (Memory F)) :
    Does doubles config s c (.compacting report rest) s (compactNext doubles config c.now report rest) := by
  cases rest with
  | nil => exact .compacted report
  | cons m rest =>
    simp only [compactNext]
    by_cases expired : m.is_expired c.now = true
    · rw [if_pos expired]
      exact .expires report m rest expired
    · rw [if_neg expired]
      exact .compacts report _ m rest

theorem act_does (doubles : Doubles F) (config : ManagerConfig F) (s : Store F) (t : Call F) (c : Choice) :
    Does doubles config s c t (act doubles config s t c).1 (act doubles config s t c).2 := by
  cases t with
  | storing m =>
    simp only [act]
    split_ifs with fails
    · exact .fails _ fun id => rfl
    · exact .stores m (by simpa using fails)
  | retrieving id =>
    simp only [act]
    split_ifs
    · exact .fails _ fun id => rfl
    · cases found : s.retrieve id with
      | none => exact .absent id
      | some m =>
        simp only
        split_ifs
        · exact .absent id
        · exact .reads id m found
  | listing q =>
    simp only [act]
    split_ifs
    · exact .fails _ fun id => rfl
    · exact .lists q
  | scanning =>
    simp only [act]
    split_ifs
    · exact .fails _ fun id => rfl
    · exact .scans
  | deleting id =>
    simp only [act]
    split_ifs
    · exact .fails _ fun id => rfl
    · exact .deletes id
  | recalling done rest total =>
    cases rest with
    | nil => exact .recalled done total
    | cons m rest => exact .recalls done m rest total
  | compacting report rest => exact compactNext_does report rest
  | expiring report id rest =>
    simp only [act]
    split_ifs
    · exact .fails _ fun id => rfl
    · exact .removes report _ id rest
  | checking read copy task =>
    simp only [act]
    split_ifs with why
    · exact .missed read copy task (by simpa using why)
    · exact .checked read copy task
  | writing read copy task =>
    simp only [act]
    split_ifs with fails
    · exact .lost read copy task fails
    · exact .writes read copy task (by simpa using fails)
  | leaving answer => exact .returns answer
  | returned answer => exact .rests answer

/-- No step makes a call one that will store a memory. -/
theorem Does.stores_not (does : Does doubles config s c t s' t') : ¬ Stores id t' := by
  cases does <;> first | exact next_stores _ _ _ | nofun

/-- A call that forgets a memory after a step has just deleted it. -/
theorem Does.forgets (does : Does doubles config s c t s' t') (forgets : Forgets id t') : t = .deleting id ∧ s' = s.remove id := by
  cases does with
  | deletes other =>
    cases forgets
    exact ⟨rfl,rfl⟩
  | missed => exact absurd forgets (next_forgets _ _ _)
  | lost => exact absurd forgets (next_forgets _ _ _)
  | writes => exact absurd forgets (next_forgets _ _ _)
  | _ => cases forgets

/-! ### Forgetting -/

/-- An update that writes the memory finds it still stored. -/
def FindsStored (id : Uuid) (s : Store F) (t : Call F) (c : Choice) : Prop :=
  match t with
  | .writing _ copy _ => copy.id = id → c.fails = false → s.contains_key id = true
  | _ => True

/-- A memory is not stored and forgotten at the same time, nor written back after it was deleted. -/
def Apart (id : Uuid) (w : World (Store F) (Call F)) : Event F → Prop
  | .call (.store_memory m) => m.id = id → ∀ t ∈ w.calls, ¬ Forgets id t
  | .call (.forget other) => other = id → ∀ t ∈ w.calls, ¬ Stores id t
  | .call _ => True
  | .act n c => Meets (fun _ => FindsStored id) w (.act n c : Event F)

instance (id : Uuid) (s : Store F) (t : Call F) (c : Choice) : Decidable (FindsStored id s t c) := by
  unfold FindsStored
  split <;> infer_instance

instance (id : Uuid) (w : World (Store F) (Call F)) : ∀ event : Event F, Decidable (Apart id w event)
  | .call (.store_memory m) => inferInstanceAs (Decidable (m.id = id → ∀ t ∈ w.calls, ¬ Forgets id t))
  | .call (.forget other) => inferInstanceAs (Decidable (other = id → ∀ t ∈ w.calls, ¬ Stores id t))
  | .call (.get _) | .call (.recall _) | .call .compact => isTrue trivial
  | .act n c => inferInstanceAs (Decidable (Meets (fun _ => FindsStored id) w (.act n c : Event F)))

/-- A memory is gone: it is not stored, and no call will store it. -/
structure Gone (id : Uuid) (w : World (Store F) (Call F)) : Prop where
  absent : w.shared.retrieve id = none
  unstored : ∀ t ∈ w.calls, ¬ Stores id t

/-- While a memory is being forgotten no call will store it, and once it was deleted it is gone. -/
structure Settled (id : Uuid) (w : World (Store F) (Call F)) : Prop where
  apart : ∀ t ∈ w.calls, Forgets id t → ∀ u ∈ w.calls, ¬ Stores id u
  gone : .leaving (.forgot id) ∈ w.calls → w.shared.retrieve id = none

/-- What a step that finds its memory stored does to a memory that is not stored. -/
theorem act_absent (finds : FindsStored id s t c) (absent : s.retrieve id = none) (unstored : ¬ Stores id t) :
    (act doubles config s t c).1.retrieve id = none := by
  have does := act_does doubles config s t c
  generalize (act doubles config s t c).1 = s',(act doubles config s t c).2 = t' at does ⊢
  cases does with
  | stores m works =>
    have differs : id ≠ m.id := fun same => unstored same.symm
    rwa [retrieve_insert_ne (m := { m with tier := assign_initial_tier config m }) differs]
  | writes read copy task works =>
    have differs : id ≠ copy.id := fun same => contains_key_iff.mp (finds same.symm works) absent
    rwa [retrieve_insert_ne differs]
  | removes report later other rest =>
    by_cases same : id = other
    · rw [same,retrieve_remove_self]
    · rwa [retrieve_remove_ne same]
  | deletes other =>
    by_cases same : id = other
    · rw [same,retrieve_remove_self]
    · rwa [retrieve_remove_ne same]
  | _ => exact absent

variable {initial : Store F} {w : World (Store F) (Call F)}

theorem Settled.step (settled : Settled id w) (event : Event F) (apart : Apart id w event) : Settled id ((manager doubles config initial).step w event) := by
  constructor
  · intro t here forgets u there stores
    rcases mem_step there with old | ⟨request,rfl,rfl⟩ | ⟨n,c,before,rfl,was,rfl⟩
    · rcases mem_step here with old' | ⟨request,rfl,rfl⟩ | ⟨n,c,before,rfl,was,rfl⟩
      · exact settled.apart t old' forgets u old stores
      · cases enter_forgets forgets
        exact apart rfl u old stores
      · obtain ⟨rfl,-⟩ := (act_does doubles config w.shared before c).forgets forgets
        exact settled.apart _ (List.mem_of_getElem? was) rfl u old stores
    · obtain ⟨m,rfl,same⟩ := enter_stores stores
      rcases mem_step here with old' | ⟨request,other,rfl⟩ | ⟨n,c,before,other,-,-⟩
      · exact apart same t old' forgets
      · cases other
        cases forgets
      · cases other
    · exact (act_does doubles config w.shared before c).stores_not stores
  · intro here
    rcases mem_step here with old | ⟨request,rfl,leaves⟩ | ⟨n,c,before,rfl,was,leaves⟩
    · cases event with
      | call request => exact settled.gone old
      | act n c =>
        cases was : w.calls[n]? with
        | none =>
          rw [step_absent was]
          exact settled.gone old
        | some before =>
          rw [step_act was]
          exact act_absent (apart before was) (settled.gone old) (settled.apart _ old rfl before (List.mem_of_getElem? was))
    · cases request <;> cases leaves
    · rw [step_act was]
      have deleted := ((act_does doubles config w.shared before c).forgets (leaves ▸ rfl : Forgets id _)).2
      show (act doubles config w.shared before c).1.retrieve id = none
      rw [deleted,retrieve_remove_self]

/-- A memory that is gone stays gone until it is stored again. -/
theorem Gone.step (gone : Gone id w) (event : Event F) (apart : Apart id w event) (other : ∀ m, event = .call (.store_memory m) → m.id ≠ id) :
    Gone id ((manager doubles config initial).step w event) := by
  refine ⟨?_,fun t here stores => ?_⟩
  · cases event with
    | call request => exact gone.absent
    | act n c =>
      cases was : w.calls[n]? with
      | none =>
        rw [step_absent was]
        exact gone.absent
      | some before =>
        rw [step_act was]
        exact act_absent (apart before was) gone.absent (gone.unstored before (List.mem_of_getElem? was))
  · rcases mem_step here with old | ⟨request,rfl,rfl⟩ | ⟨n,c,before,rfl,was,rfl⟩
    · exact gone.unstored t old stores
    · obtain ⟨m,rfl,same⟩ := enter_stores stores
      exact other m rfl same
    · exact (act_does doubles config w.shared before c).stores_not stores

theorem Settled.start : Settled id (manager doubles config initial).start where
  apart _ none := absurd none List.not_mem_nil
  gone none := absurd none List.not_mem_nil

theorem Gone.run {events : List (Event F)} (gone : Gone id w) (every : Every (manager doubles config initial).step (Apart id) w events)
    (other : ∀ m, .call (.store_memory m) ∈ events → m.id ≠ id) : Gone id (run (manager doubles config initial).step w events) := by
  have unstored : Every (manager doubles config initial).step (fun _ event => ∀ m, event = .call (.store_memory m) → m.id ≠ id) w events :=
    every_of_mem fun event member m same => other m (same ▸ member)
  exact (every.and unstored).invariant (I := Gone id) (fun _ event gone both => gone.step event both.1 both.2) gone

/-- Once a call of `forget` has returned, its memory is not stored in any state reached without storing it again. -/
theorem forgotten {before after : List (Event F)} {n : Nat} {c : Choice}
    (every : Every (manager doubles config initial).step (Apart id) (manager doubles config initial).start (before ++ .act n c :: after))
    (leaves : ((manager doubles config initial).run before).calls[n]? = some (.leaving (.forgot id)))
    (later : ∀ m, .call (.store_memory m) ∈ after → m.id ≠ id) :
    ((manager doubles config initial).run (before ++ .act n c :: after)).shared.retrieve id = none := by
  obtain ⟨first,rest⟩ := every_append.mp every
  have settled : Settled id ((manager doubles config initial).run before) :=
    first.invariant (I := Settled id) (fun _ event settled apart => settled.step event apart) Settled.start
  have here := List.mem_of_getElem? leaves
  have gone : Gone id ((manager doubles config initial).run before) := ⟨settled.gone here,settled.apart _ here rfl⟩
  have final := gone.run rest fun m member => later m (by simpa using member)
  rw [System.run,run_append]
  exact final.absent

end

/-! ### Counting accesses -/

/-- The task records an access. -/
def Task.counted : Task F → Bool
  | .compacting _ _ => false
  | _ => true

/-- The count that an update writes over the one that was read. -/
def Task.counts : Task F → Nat → Nat
  | .compacting _ _,n => n
  | _,n => (n + 1) % 2^64

def Task.distinct (copy : Memory F) : Task F → Prop
  | .recalling done rest _ => ((done ++ copy :: rest).map Memory.id).Nodup
  | _ => True

/-- A later version of a memory: it expires when the memory does. -/
def Version (m later : Memory F) : Prop := later.created_at = m.created_at ∧ later.ttl = m.ttl

structure Copied (read copy : Memory F) (task : Task F) : Prop where
  id : copy.id = read.id
  count : copy.access_count = task.counts read.access_count
  distinct : task.distinct copy

/-- What a call has copied is from the memory that it read, and no memory is recalled twice. -/
def Shape : Call F → Prop
  | .recalling done rest _ => ((done ++ rest).map Memory.id).Nodup
  | .checking read copy task | .writing read copy task => Copied read copy task
  | .leaving (.recalled result) | .returned (.recalled result) => (result.memories.map Memory.id).Nodup
  | _ => True

/-- A call that will not delete a memory. -/
def Spares (id : Uuid) : Call F → Prop
  | .deleting other => other ≠ id
  | .expiring _ other _ => other ≠ id
  | _ => True

/-- A call whose answer is that a memory was stored. -/
def Stored (id : Uuid) : Call F → Prop
  | .leaving (.stored other) | .returned (.stored other) => other = id
  | _ => False

/-- An update of a memory by `get` or `recall` works, and every update that writes a memory finds the count that its copy
    was read with. -/
def Undisturbed (id : Uuid) (s : Store F) (t : Call F) (c : Choice) : Prop :=
  match t with
  | .checking _ copy task => copy.id = id → task.counted = true → c.fails = false
  | .writing read copy task =>
    copy.id = id → (task.counted = true → c.fails = false ∧ read.access_count + 1 < 2^64) ∧
      (c.fails = false → (s.retrieve id).map Memory.access_count = some read.access_count)
  | _ => True

instance (id : Uuid) (s : Store F) (t : Call F) (c : Choice) : Decidable (Undisturbed id s t c) := by
  unfold Undisturbed
  split <;> infer_instance

/-- A call of the manager, beside one that stores or forgets the memory, and with a clock at which it has not expired. -/
def Leaves (m : Memory F) : Event F → Prop
  | .call (.store_memory other) => other.id ≠ m.id
  | .call (.forget other) => other ≠ m.id
  | .call _ => True
  | .act _ c => m.is_expired c.now = false

theorem version_expired {m later : Memory F} (version : Version m later) (now : Int) : later.is_expired now = m.is_expired now := by
  unfold Memory.is_expired
  rw [version.1,version.2]

theorem Version.trans {a b c : Memory F} (first : Version a b) (second : Version b c) : Version a c :=
  ⟨second.1.trans first.1,second.2.trans first.2⟩

theorem next_credit (id : Uuid) (task : Task F) (copy : Memory F) :
    credit id (task.next copy) = task.credit id + if task.counted ∧ copy.id = id then 1 else 0 := by
  cases task with
  | getting => by_cases same : copy.id = id <;> simp [Task.next,credit,Task.credit,Task.counted,same]
  | recalling done rest total => by_cases same : copy.id = id <;> simp [Task.next,credit,Task.credit,Task.counted,copiesOf,List.countP_append,same]
  | compacting report rest => simp [Task.next,credit,Task.credit,Task.counted]

theorem next_held (task : Task F) {copy m : Memory F} (held' : m ∈ held (task.next copy)) : m ∈ copy :: task.held := by
  cases task with
  | getting => simpa [Task.next,held,Answer.held,Task.held] using held'
  | recalling done rest total =>
    simp only [Task.next,held,Task.held,List.mem_append,List.mem_cons] at held' ⊢
    tauto
  | compacting report rest => exact List.mem_cons_of_mem _ held'

theorem next_shape (task : Task F) {copy : Memory F} (distinct : task.distinct copy) : Shape (task.next copy) := by
  cases task with
  | getting => trivial
  | recalling done rest total =>
    show ((done ++ [copy] ++ rest).map Memory.id).Nodup
    rwa [List.append_assoc]
  | compacting report rest => trivial

theorem next_spares (id : Uuid) (task : Task F) (copy : Memory F) : Spares id (task.next copy) := by
  cases task <;> trivial

theorem next_stored (id : Uuid) (task : Task F) (copy : Memory F) : ¬ Stored id (task.next copy) := by
  cases task <;> exact not_false

theorem credit_zero {id : Uuid} {t : Call F} (none : ∀ m ∈ held t, m.id ≠ id) : credit id t = 0 := by
  have zero : ∀ memories : List (Memory F), (∀ m ∈ memories, m.id ≠ id) → copiesOf id memories = 0 := by
    intro memories other
    simpa [copiesOf,List.countP_eq_zero] using other
  have task_zero : ∀ task : Task F, (∀ m ∈ task.held, m.id ≠ id) → task.credit id = 0 := by
    intro task other
    cases task with
    | recalling done rest total => exact zero done fun m member => other m (List.mem_append_left _ member)
    | _ => rfl
  have answer_zero : ∀ answer : Answer F, (∀ m ∈ answer.held, m.id ≠ id) → credit id (.leaving answer) = 0 ∧ credit id (.returned answer) = 0 := by
    intro answer other
    cases answer with
    | found memory =>
      cases memory with
      | none => exact ⟨rfl,rfl⟩
      | some m =>
        have differs := other m List.mem_cons_self
        simp [credit,differs]
    | recalled result => exact ⟨zero _ other,zero _ other⟩
    | _ => exact ⟨rfl,rfl⟩
  cases t with
  | recalling done rest total => exact zero done fun m member => none m (List.mem_append_left _ member)
  | checking read copy task => exact task_zero task fun m member => none m (by simp [held,member])
  | writing read copy task => exact task_zero task fun m member => none m (by simp [held,member])
  | leaving answer => exact (answer_zero answer none).1
  | returned answer => exact (answer_zero answer none).2
  | _ => rfl

theorem copiesOf_distinct (id : Uuid) {memories : List (Memory F)} (distinct : (memories.map Memory.id).Nodup) :
    copiesOf id memories = if memories.any fun m => m.id = id then 1 else 0 := by
  have same : copiesOf id memories = (memories.map Memory.id).count id := by
    rw [List.count,List.countP_map]
    rfl
  rw [same,List.Nodup.count distinct]
  simp

/-- A call that has returned counts for the memories that it returned. -/
theorem credit_returned {id : Uuid} {t : Call F} (finished : Finished t) (shape : Shape t) : credit id t = if Returned id t then 1 else 0 := by
  cases t with
  | returned answer =>
    cases answer with
    | found memory => cases memory <;> simp [credit,Returned]
    | recalled result => exact copiesOf_distinct id shape
    | _ => rfl
  | _ => cases finished

section
variable [LinearOrder F] {doubles : Doubles F} {config : ManagerConfig F} {s s' : Store F} {t t' : Call F} {c : Choice} {id : Uuid} {m0 : Memory F}

theorem Does.shape (does : Does doubles config s c t s' t') (shape : Shape t) : Shape t' := by
  cases does with
  | reads other m found => exact ⟨rfl,rfl,trivial⟩
  | lists q => exact recalled_distinct doubles s c.key c.now q
  | recalled done total => simpa [Shape] using shape
  | recalls done m rest total =>
    refine ⟨rfl,rfl,?_⟩
    have same : (accessed config c.now m).id = m.id := rfl
    simpa [Shape,Task.distinct,same] using shape
  | compacts report later m rest => exact ⟨rfl,rfl,trivial⟩
  | missed read copy task why => exact next_shape task shape.distinct
  | checked read copy task => exact shape
  | lost read copy task fails => exact next_shape task shape.distinct
  | writes read copy task works => exact next_shape task shape.distinct
  | returns answer => cases answer <;> exact shape
  | rests answer => exact shape
  | _ => trivial

/-- A memory that a call holds after a step is a version of one that was stored or held before it. -/
theorem Does.held (does : Does doubles config s c t s' t') {m : Memory F} (after : m ∈ held t') :
    ∃ before, (before ∈ s.memories ∨ before ∈ MemoryCalls.held t) ∧ m.id = before.id ∧ Version before m := by
  have same : ∀ {m : Memory F}, m ∈ MemoryCalls.held t → ∃ before, (before ∈ s.memories ∨ before ∈ MemoryCalls.held t) ∧ m.id = before.id ∧ Version before m :=
    fun {m} member => ⟨m,.inr member,rfl,rfl,rfl⟩
  cases does with
  | reads other before found =>
    have stored : before ∈ s.memories := retrieve_mem found
    rcases List.mem_cons.mp after with rfl | copy
    · exact ⟨m,.inl stored,rfl,rfl,rfl⟩
    · rw [List.mem_singleton.mp copy]
      exact ⟨before,.inl stored,rfl,rfl,rfl⟩
  | lists q => exact ⟨m,.inl (recalled_stored doubles after),rfl,rfl,rfl⟩
  | scans => exact ⟨m,.inl (mem_list_all after),rfl,rfl,rfl⟩
  | recalled done total => exact same (by simpa [MemoryCalls.held,Answer.held] using after)
  | recalls done before rest total =>
    simp only [MemoryCalls.held,Task.held,List.mem_cons,List.mem_append] at after
    rcases after with rfl | rfl | old | old
    · exact same (by simp [MemoryCalls.held])
    · exact ⟨before,.inr (by simp [MemoryCalls.held]),rfl,rfl,rfl⟩
    · exact same (by simp [MemoryCalls.held,old])
    · exact same (by simp [MemoryCalls.held,old])
  | compacts report later before rest =>
    simp only [MemoryCalls.held,Task.held,List.mem_cons] at after
    rcases after with rfl | rfl | old
    · exact same (by simp [MemoryCalls.held])
    · exact ⟨before,.inr (by simp [MemoryCalls.held]),rfl,rfl,rfl⟩
    · exact same (by simp [MemoryCalls.held,old])
  | expires report before rest expired => exact same (List.mem_cons_of_mem _ after)
  | removes report later other rest => exact same after
  | missed read copy task why => exact same (List.mem_cons_of_mem _ (next_held task after))
  | lost read copy task fails => exact same (List.mem_cons_of_mem _ (next_held task after))
  | writes read copy task works => exact same (List.mem_cons_of_mem _ (next_held task after))
  | checked read copy task => exact same after
  | returns answer => exact same after
  | rests answer => exact same after
  | _ => simp [MemoryCalls.held,Answer.held] at after

theorem Does.spares (does : Does doubles config s c t s' t') (spares : Spares id t)
    (unexpired : ∀ m ∈ MemoryCalls.held t, m.id = id → m.is_expired c.now = false) : Spares id t' := by
  cases does with
  | expires report m rest expired =>
    intro same
    rw [unexpired m List.mem_cons_self same] at expired
    cases expired
  | missed read copy task why => exact next_spares id task copy
  | lost read copy task fails => exact next_spares id task copy
  | writes read copy task works => exact next_spares id task copy
  | _ => trivial

/-- What an undisturbed step does to a stored memory that it neither stores anew nor deletes: its count grows by the accesses
    that the call has made. -/
theorem act_count (doubles : Doubles F) (config : ManagerConfig F) {m : Memory F} (found : s.retrieve m0.id = some m) (version : Version m0 m)
    (ok : Undisturbed m0.id s t c) (shape : Shape t)
    (spares : Spares m0.id t) (quiet : ¬ Stores m0.id t) (versions : ∀ copy ∈ held t, copy.id = m0.id → Version m0 copy) :
    ∃ later, (act doubles config s t c).1.retrieve m0.id = some later ∧ Version m0 later ∧
      later.access_count + credit m0.id t = m.access_count + credit m0.id (act doubles config s t c).2 := by
  have does := act_does doubles config s t c
  generalize (act doubles config s t c).1 = s',(act doubles config s t c).2 = t' at does ⊢
  have same : credit m0.id t = credit m0.id t' → ∃ later, s.retrieve m0.id = some later ∧ Version m0 later ∧
      later.access_count + credit m0.id t = m.access_count + credit m0.id t' := fun equal => ⟨m,found,version,by rw [equal]⟩
  cases does with
  | stores other works =>
    have differs : m0.id ≠ other.id := fun equal => quiet equal.symm
    exact ⟨m,by rwa [retrieve_insert_ne (m := { other with tier := assign_initial_tier config other }) differs],version,rfl⟩
  | fails t none => exact same (none m0.id)
  | missed read copy task why =>
    refine same ?_
    rw [next_credit,if_neg]
    · rfl
    · rintro ⟨counted,same_id⟩
      rcases why with fails | missing
      · rw [ok same_id counted] at fails
        cases fails
      · have present := contains_key_iff.mpr (show s.retrieve copy.id ≠ none by rw [same_id,found]; nofun)
        rw [present] at missing
        cases missing
  | lost read copy task fails =>
    refine same ?_
    rw [next_credit,if_neg]
    · rfl
    · rintro ⟨counted,same_id⟩
      rw [((ok same_id).1 counted).1] at fails
      cases fails
  | writes read copy task works =>
    rw [next_credit]
    by_cases same_id : copy.id = m0.id
    · obtain ⟨counted,finds⟩ := ok same_id
      have current := finds works
      rw [found,Option.map_some,Option.some.injEq] at current
      refine ⟨copy,same_id ▸ retrieve_insert_self s copy,versions copy (by simp [held]) same_id,?_⟩
      rw [shape.count,current]
      simp only [same_id,and_true,credit]
      cases task with
      | compacting report rest => simp [Task.counts,Task.counted]
      | getting =>
        have bound := (counted rfl).2
        simp only [Task.counts,Task.counted,if_true,Nat.mod_eq_of_lt bound]
        omega
      | recalling done rest total =>
        have bound := (counted rfl).2
        simp only [Task.counts,Task.counted,if_true,Nat.mod_eq_of_lt bound]
        omega
    · refine ⟨m,by rwa [retrieve_insert_ne fun equal => same_id equal.symm],version,?_⟩
      rw [if_neg fun both => same_id both.2]
      rfl
  | removes report later other rest => exact ⟨m,by rwa [retrieve_remove_ne (Ne.symm spares)],version,rfl⟩
  | deletes other => exact ⟨m,by rwa [retrieve_remove_ne (Ne.symm spares)],version,rfl⟩
  | returns answer => exact same (by cases answer with | found memory => cases memory <;> rfl | _ => rfl)
  | _ => exact same rfl

variable {initial : Store F} {w : World (Store F) (Call F)} {event : Event F}

/-- A stored memory that nobody forgets: its count is what it was at first and the accesses of all calls since. -/
structure Live (m0 : Memory F) (w : World (Store F) (Call F)) : Prop where
  stored : ∃ m, w.shared.retrieve m0.id = some m ∧ Version m0 m ∧ m.access_count = m0.access_count + w.tally (credit m0.id)
  versions : ∀ t ∈ w.calls, ∀ m ∈ held t, m.id = m0.id → Version m0 m
  shape : ∀ t ∈ w.calls, Shape t
  spares : ∀ t ∈ w.calls, Spares m0.id t
  quiet : ∀ t ∈ w.calls, ¬ Stores m0.id t

def pending (id : Uuid) (t : Call F) : Nat := if Stores id t then 1 else 0

/-- A memory that no call has seen, and at most `k` calls will store. -/
structure Unknown (m0 : Memory F) (k : Nat) (w : World (Store F) (Call F)) : Prop where
  absent : w.shared.retrieve m0.id = none
  others : ∀ t ∈ w.calls, ∀ m ∈ held t, m.id ≠ m0.id
  shape : ∀ t ∈ w.calls, Shape t
  spares : ∀ t ∈ w.calls, Spares m0.id t
  waiting : ∀ t ∈ w.calls, ∀ m, t = .storing m → m.id = m0.id → m = m0
  few : w.tally (pending m0.id) ≤ k
  unstored : ∀ t ∈ w.calls, ¬ Stored m0.id t

/-- The steps of the run leave a memory undisturbed. -/
abbrev Quiet (m0 : Memory F) : World (Store F) (Call F) → Event F → Prop := Meets fun _ => Undisturbed m0.id

omit [LinearOrder F] in
theorem enter_plain (id : Uuid) (request : Request F) : held request.enter = [] ∧ Shape request.enter ∧ credit id request.enter = 0 ∧ ¬ Stored id request.enter := by
  cases request <;> exact ⟨rfl,trivial,rfl,not_false⟩

theorem held_step {t : Call F} {m : Memory F} (here : t ∈ ((manager doubles config initial).step w event).calls) (holds : m ∈ held t) :
    ∃ before, (before ∈ w.shared.memories ∨ ∃ u ∈ w.calls, before ∈ held u) ∧ m.id = before.id ∧ Version before m := by
  rcases mem_step here with old | ⟨request,rfl,rfl⟩ | ⟨n,c,u,rfl,was,rfl⟩
  · exact ⟨m,.inr ⟨t,old,holds⟩,rfl,rfl,rfl⟩
  · rw [show held ((manager doubles config initial).enter request) = [] from (enter_plain m.id request).1] at holds
    cases holds
  · obtain ⟨before,source,same,version⟩ := (act_does doubles config w.shared u c).held holds
    exact ⟨before,source.imp id fun copied => ⟨u,List.mem_of_getElem? was,copied⟩,same,version⟩

theorem shape_step (shape : ∀ t ∈ w.calls, Shape t) : ∀ t ∈ ((manager doubles config initial).step w event).calls, Shape t := by
  intro t here
  rcases mem_step here with old | ⟨request,rfl,rfl⟩ | ⟨n,c,before,rfl,was,rfl⟩
  · exact shape t old
  · exact (enter_plain 0 request).2.1
  · exact (act_does doubles config w.shared before c).shape (shape before (List.mem_of_getElem? was))

theorem spares_step (spares : ∀ t ∈ w.calls, Spares m0.id t) (versions : ∀ t ∈ w.calls, ∀ m ∈ held t, m.id = m0.id → Version m0 m)
    (leaves : Leaves m0 event) : ∀ t ∈ ((manager doubles config initial).step w event).calls, Spares m0.id t := by
  intro t here
  rcases mem_step here with old | ⟨request,rfl,rfl⟩ | ⟨n,c,before,rfl,was,rfl⟩
  · exact spares t old
  · cases request with
    | forget other => exact leaves
    | _ => trivial
  · have member := List.mem_of_getElem? was
    refine (act_does doubles config w.shared before c).spares (spares before member) fun m holds same => ?_
    rw [version_expired (versions before member m holds same)]
    exact leaves

/-- A call that will store the memory was made before. -/
theorem stores_step (leaves : Leaves m0 event) {t : Call F} (here : t ∈ ((manager doubles config initial).step w event).calls)
    (stores : Stores m0.id t) : t ∈ w.calls := by
  rcases mem_step here with old | ⟨request,rfl,rfl⟩ | ⟨n,c,before,rfl,was,rfl⟩
  · exact old
  · obtain ⟨m,rfl,same⟩ := enter_stores stores
    exact absurd same leaves
  · exact absurd stores (act_does doubles config w.shared before c).stores_not

theorem pending_step (leaves : Leaves m0 event) :
    ((manager doubles config initial).step w event).tally (pending m0.id) ≤ w.tally (pending m0.id) ∧
    ∀ n c t, event = .act n c → w.calls[n]? = some t →
      ((manager doubles config initial).step w event).tally (pending m0.id) + pending m0.id t = w.tally (pending m0.id) := by
  have acts : ∀ n c t, w.calls[n]? = some t →
      ((manager doubles config initial).step w (.act n c)).tally (pending m0.id) + pending m0.id t = w.tally (pending m0.id) := by
    intro n c t was
    rw [tally_act (pending m0.id) was c]
    exact congrArg (w.tally (pending m0.id) + ·) (if_neg (act_does doubles config w.shared t c).stores_not)
  refine ⟨?_,fun n c t same was => same ▸ acts n c t was⟩
  cases event with
  | call request =>
    have none : ¬ Stores m0.id request.enter := by
      intro stores
      obtain ⟨m,rfl,same⟩ := enter_stores stores
      exact leaves same
    rw [tally_call,show pending m0.id ((manager doubles config initial).enter request) = 0 from if_neg none]
    exact Nat.le_refl _
  | act n c =>
    cases was : w.calls[n]? with
    | none => rw [step_absent was]
    | some t =>
      have sum := acts n c t was
      omega

theorem Live.step (live : Live m0 w) (quiet : Quiet m0 w event) (leaves : Leaves m0 event) : Live m0 ((manager doubles config initial).step w event) := by
  refine ⟨?_,fun t here m holds same => ?_,shape_step live.shape,spares_step live.spares live.versions leaves,fun t here stores => ?_⟩
  · obtain ⟨m,found,version,count⟩ := live.stored
    cases event with
    | call request =>
      refine ⟨m,found,version,?_⟩
      rw [tally_call,show credit m0.id ((manager doubles config initial).enter request) = 0 from (enter_plain m0.id request).2.2.1]
      exact count
    | act n c =>
      cases was : w.calls[n]? with
      | none =>
        rw [step_absent was]
        exact live.stored
      | some t =>
        have member := List.mem_of_getElem? was
        obtain ⟨later,stored,still,grown⟩ := act_count doubles config found version (quiet t was)
          (live.shape t member) (live.spares t member) (live.quiet t member) (live.versions t member)
        have sum : ((manager doubles config initial).step w (.act n c)).tally (credit m0.id) + credit m0.id t =
            w.tally (credit m0.id) + credit m0.id (act doubles config w.shared t c).2 := tally_act (credit m0.id) was c
        refine ⟨later,by rw [step_act was]; exact stored,still,?_⟩
        omega
  · obtain ⟨before,source,same_id,version⟩ := held_step here holds
    rcases source with stored | ⟨u,old,copied⟩
    · obtain ⟨current,found,current_version,-⟩ := live.stored
      have there := retrieve_eq_some.mpr ⟨stored,same_id.symm.trans same⟩
      rw [found] at there
      cases there
      exact current_version.trans version
    · exact (live.versions u old before copied (same_id.symm.trans same)).trans version
  · exact live.quiet t (stores_step leaves here stores) stores

/-- A step where a memory is not stored: it is not stored after it either, or the call was waiting to store it. -/
theorem act_unknown (doubles : Doubles F) (config : ManagerConfig F) (absent : s.retrieve id = none) (others : ∀ m ∈ held t, m.id ≠ id) :
    ((act doubles config s t c).1.retrieve id = none ∧ (Stored id (act doubles config s t c).2 → Stored id t)) ∨
    ∃ m, t = .storing m ∧ m.id = id ∧ (act doubles config s t c).1 = s.insert { m with tier := assign_initial_tier config m } ∧
      (act doubles config s t c).2 = .leaving (.stored m.id) := by
  have does := act_does doubles config s t c
  generalize (act doubles config s t c).1 = s',(act doubles config s t c).2 = t' at does ⊢
  cases does with
  | stores m works =>
    by_cases same : m.id = id
    · exact .inr ⟨m,rfl,same,rfl,rfl⟩
    · refine .inl ⟨?_,fun stored => absurd stored same⟩
      rwa [retrieve_insert_ne (m := { m with tier := assign_initial_tier config m }) fun equal => same equal.symm]
  | writes read copy task works =>
    have differs := others copy (by simp [held])
    exact .inl ⟨by rwa [retrieve_insert_ne fun equal => differs equal.symm],fun stored => absurd stored (next_stored id task copy)⟩
  | removes report later other rest =>
    refine .inl ⟨?_,fun stored => stored.elim⟩
    by_cases same : id = other
    · rw [same,retrieve_remove_self]
    · rwa [retrieve_remove_ne same]
  | deletes other =>
    refine .inl ⟨?_,fun stored => stored.elim⟩
    by_cases same : id = other
    · rw [same,retrieve_remove_self]
    · rwa [retrieve_remove_ne same]
  | missed read copy task why => exact .inl ⟨absent,fun stored => absurd stored (next_stored id task copy)⟩
  | lost read copy task fails => exact .inl ⟨absent,fun stored => absurd stored (next_stored id task copy)⟩
  | returns answer => exact .inl ⟨absent,fun stored => by cases answer <;> exact stored⟩
  | rests answer => exact .inl ⟨absent,fun stored => stored⟩
  | _ => exact .inl ⟨absent,fun stored => stored.elim⟩

/-- A memory that is not known stays so, or a call that was waiting to store it has done so. -/
theorem Unknown.step {k : Nat} (unknown : Unknown m0 k w) (few : k ≤ 1) (leaves : Leaves m0 event) :
    Unknown m0 k ((manager doubles config initial).step w event) ∨ 1 ≤ k ∧ Live m0 ((manager doubles config initial).step w event) := by
  have no_version : ∀ t ∈ w.calls, ∀ m ∈ held t, m.id = m0.id → Version m0 m := fun t here m holds same =>
    absurd same (unknown.others t here m holds)
  have others : ∀ t ∈ ((manager doubles config initial).step w event).calls, ∀ m ∈ held t, m.id ≠ m0.id := by
    intro t here m holds same
    obtain ⟨before,source,same_id,-⟩ := held_step here holds
    rcases source with stored | ⟨u,old,copied⟩
    · exact retrieve_none.mp unknown.absent (same ▸ same_id ▸ List.mem_map_of_mem stored)
    · exact unknown.others u old before copied (same_id.symm.trans same)
  have waiting : ∀ t ∈ ((manager doubles config initial).step w event).calls, ∀ m, t = .storing m → m.id = m0.id → m = m0 := by
    rintro t here m rfl same
    exact unknown.waiting _ (stores_step leaves here same) m rfl same
  have stays (absent : ((manager doubles config initial).step w event).shared.retrieve m0.id = none)
      (unstored : ∀ t ∈ ((manager doubles config initial).step w event).calls, ¬ Stored m0.id t) :
      Unknown m0 k ((manager doubles config initial).step w event) :=
    ⟨absent,others,shape_step unknown.shape,spares_step unknown.spares no_version leaves,waiting,
      Nat.le_trans (pending_step leaves).1 unknown.few,unstored⟩
  cases event with
  | call request =>
    refine .inl (stays unknown.absent fun t here stored => ?_)
    rcases mem_step here with old | ⟨other,-,rfl⟩ | ⟨n,c,before,same,-,-⟩
    · exact unknown.unstored t old stored
    · exact (enter_plain m0.id other).2.2.2 stored
    · cases same
  | act n c =>
    cases was : w.calls[n]? with
    | none =>
      rw [step_absent was]
      exact .inl unknown
    | some t =>
      have member := List.mem_of_getElem? was
      rcases act_unknown doubles config (c := c) unknown.absent (unknown.others t member) with ⟨absent,said⟩ | ⟨m,storing,same,inserted,left⟩
      · refine .inl (stays (by rw [step_act was]; exact absent) fun u here stored => ?_)
        rcases mem_step here with old | ⟨other,same,-⟩ | ⟨n',c',before,same,there,rfl⟩
        · exact unknown.unstored u old stored
        · cases same
        · cases same
          rw [was] at there
          cases there
          exact unknown.unstored t member (said stored)
      · have known := unknown.waiting t member m storing same
        subst known storing
        have counted : ((manager doubles config initial).step w (.act n c)).tally (Daf.MemoryCalls.pending m.id) + Daf.MemoryCalls.pending m.id (.storing m) =
            w.tally (Daf.MemoryCalls.pending m.id) := (pending_step leaves).2 n c _ rfl was
        have bound := unknown.few
        have one : Daf.MemoryCalls.pending m.id (.storing m : Call F) = 1 := if_pos rfl
        refine .inr ⟨by omega,?_,?_,shape_step unknown.shape,spares_step unknown.spares no_version leaves,?_⟩
        · refine ⟨{ m with tier := assign_initial_tier config m },?_,⟨rfl,rfl⟩,?_⟩
          · rw [step_act was]
            show (act doubles config w.shared (.storing m) c).1.retrieve m.id = _
            rw [inserted]
            exact retrieve_insert_self w.shared { m with tier := assign_initial_tier config m }
          · have none : ((manager doubles config initial).step w (.act n c)).tally (credit m.id) = 0 :=
              tally_eq_zero.mpr fun u here => credit_zero (others u here)
            rw [none]
            rfl
        · intro u here m' holds same'
          exact absurd same' (others u here m' holds)
        · intro u here stores
          have zero : ((manager doubles config initial).step w (.act n c)).tally (Daf.MemoryCalls.pending m.id) = 0 := by omega
          have none := tally_eq_zero.mp zero u here
          rw [Daf.MemoryCalls.pending,if_pos stores] at none
          cases none

theorem Live.run {events : List (Event F)} (live : Live m0 w) (quiet : Every (manager doubles config initial).step (Quiet m0) w events)
    (leaves : ∀ event ∈ events, Leaves m0 event) : Live m0 (run (manager doubles config initial).step w events) :=
  (quiet.and (every_of_mem leaves)).invariant (I := Live m0) (fun _ _ live both => live.step both.1 both.2) live

theorem Unknown.run {k : Nat} (few : k ≤ 1) {events : List (Event F)} (unknown : Unknown m0 k w)
    (quiet : Every (manager doubles config initial).step (Quiet m0) w events) (leaves : ∀ event ∈ events, Leaves m0 event) :
    Unknown m0 k (run (manager doubles config initial).step w events) ∨ 1 ≤ k ∧ Live m0 (run (manager doubles config initial).step w events) := by
  refine (quiet.and (every_of_mem leaves)).invariant (I := fun w => Unknown m0 k w ∨ 1 ≤ k ∧ Live m0 w) (fun _ _ either both => ?_) (.inl unknown)
  rcases either with unknown | ⟨some,live⟩
  · exact unknown.step few both.2
  · exact .inr ⟨some,live.step both.1 both.2⟩

/-- The memory is there from the start, or one call stores it, and no other call does. -/
inductive Begins (initial : Store F) (m : Memory F) : List (Event F) → Prop where
  | there (events : List (Event F)) (stored : initial.retrieve m.id = some m) (leaves : ∀ event ∈ events, Leaves m event) : Begins initial m events
  | call (before after : List (Event F)) (absent : initial.retrieve m.id = none) (first : ∀ event ∈ before, Leaves m event)
      (later : ∀ event ∈ after, Leaves m event) : Begins initial m (before ++ .call (.store_memory m) :: after)

theorem Unknown.call (unknown : Unknown m0 0 w) : Unknown m0 1 ((manager doubles config initial).step w (.call (.store_memory m0))) := by
  have either : ∀ t ∈ ((manager doubles config initial).step w (.call (.store_memory m0))).calls, t ∈ w.calls ∨ t = .storing m0 := by
    intro t here
    exact (List.mem_append.mp here).imp_right List.mem_singleton.mp
  have zero := unknown.few
  refine ⟨unknown.absent,fun t here => ?_,fun t here => ?_,fun t here => ?_,fun t here m storing same => ?_,?_,fun t here => ?_⟩
  · rcases either t here with old | rfl
    · exact unknown.others t old
    · exact fun m none => absurd none List.not_mem_nil
  · rcases either t here with old | rfl
    · exact unknown.shape t old
    · trivial
  · rcases either t here with old | rfl
    · exact unknown.spares t old
    · trivial
  · rcases either t here with old | rfl
    · exact unknown.waiting t old m storing same
    · cases storing
      rfl
  · rw [tally_call]
    have one : Daf.MemoryCalls.pending m0.id (.storing m0) = 1 := if_pos rfl
    show w.tally (Daf.MemoryCalls.pending m0.id) + Daf.MemoryCalls.pending m0.id (.storing m0) ≤ 1
    omega
  · rcases either t here with old | rfl
    · exact unknown.unstored t old
    · exact not_false

/-- A memory that was stored, and neither forgotten nor expired, ends with the accesses of the calls that returned it. -/
theorem accesses_counted {events : List (Event F)} (quiet : Every (manager doubles config initial).step (Quiet m0) (manager doubles config initial).start events)
    (begins : Begins initial m0 events)
    (stored : initial.retrieve m0.id = none → .returned (.stored m0.id) ∈ ((manager doubles config initial).run events).calls)
    (finished : ∀ t ∈ ((manager doubles config initial).run events).calls, Finished t) :
    ∃ m, ((manager doubles config initial).run events).shared.retrieve m0.id = some m ∧
      m.access_count = m0.access_count + ((manager doubles config initial).run events).calls.countP (Returned m0.id) := by
  have live : Live m0 ((manager doubles config initial).run events) := by
    cases begins with
    | there events there leaves =>
      refine Live.run ⟨⟨m0,there,⟨rfl,rfl⟩,rfl⟩,?_,?_,?_,?_⟩ quiet leaves <;> exact fun t none => absurd none List.not_mem_nil
    | call before after absent first later =>
      obtain ⟨front,-,back⟩ := every_append.mp quiet
      have start : Unknown m0 0 (manager doubles config initial).start := by
        refine ⟨absent,?_,?_,?_,?_,Nat.le_refl _,?_⟩ <;> exact fun t none => absurd none List.not_mem_nil
      have unseen : Unknown m0 0 ((manager doubles config initial).run before) := by
        rcases start.run (Nat.zero_le _) front first with unknown | ⟨none,-⟩
        · exact unknown
        · cases none
      have called : Unknown m0 1 ((manager doubles config initial).step ((manager doubles config initial).run before) (.call (.store_memory m0))) := unseen.call
      rcases called.run (Nat.le_refl _) back later with unknown | ⟨-,live⟩
      · have same : (manager doubles config initial).run (before ++ .call (.store_memory m0) :: after) = _ := run_append before (.call (.store_memory m0) :: after)
        rw [same] at stored
        exact absurd rfl (unknown.unstored _ (stored absent))
      · rw [System.run,run_append]
        exact live
  obtain ⟨m,found,-,count⟩ := live.stored
  refine ⟨m,found,?_⟩
  rw [count,tally_countP fun t here => credit_returned (finished t here) (live.shape t here)]

/-- Once `forget` has returned, its memory is not stored again by any call that was made before, if it was not being stored while
    it was forgotten and every update that writes it finds it stored. A memory that is neither forgotten nor expired has the
    accesses of all calls that returned it, if every update of it finds the count that its copy was read with, and those of
    `get` and `recall` do not fail and stay below 2^64. -/
theorem memory_manager (doubles : Doubles F) (config : ManagerConfig F) (initial : Store F) :
    (∀ (id : Uuid) (before after : List (Event F)) (n : Nat) (c : Choice),
      Every (manager doubles config initial).step (Apart id) (manager doubles config initial).start (before ++ .act n c :: after) →
      ((manager doubles config initial).run before).calls[n]? = some (.leaving (.forgot id)) →
      (∀ m, .call (.store_memory m) ∈ after → m.id ≠ id) →
      ((manager doubles config initial).run (before ++ .act n c :: after)).shared.retrieve id = none) ∧
    ∀ (m0 : Memory F) (events : List (Event F)),
      Every (manager doubles config initial).step (Quiet m0) (manager doubles config initial).start events →
      Begins initial m0 events →
      (initial.retrieve m0.id = none → .returned (.stored m0.id) ∈ ((manager doubles config initial).run events).calls) →
      (∀ t ∈ ((manager doubles config initial).run events).calls, Finished t) →
      ∃ m, ((manager doubles config initial).run events).shared.retrieve m0.id = some m ∧
        m.access_count = m0.access_count + ((manager doubles config initial).run events).calls.countP (Returned m0.id) :=
  ⟨fun _ _ _ _ _ every leaves later => forgotten every leaves later,fun _ _ quiet begins stored finished => accesses_counted quiet begins stored finished⟩

end

/-! ### Two tasks on one memory -/

def plainDoubles : Doubles Nat := ⟨fun _ => 0,fun _ _ _ => 0,fun _ _ m => m.importance,fun _ _ => false,fun _ _ => true⟩
def plainConfig : ManagerConfig Nat := ⟨10,3,24,168,80,168⟩
def note : Memory Nat := ⟨1,.Semantic,.Warm,.null,0,0,0,50,[],none,none,none⟩
def noted : Store Nat := ⟨[note],by decide⟩
def tick : Choice := ⟨0,fun id => id.toNat,false⟩

/-- A `get` has found the memory stored when `forget` deletes it. -/
def forgetting : List (Event Nat) := [.call (.get 1),.act 0 tick,.act 0 tick,.call (.forget 1),.act 1 tick]

/-- Two calls of `get` read the memory before either writes it. -/
def together : List (Event Nat) :=
  [.call (.get 1),.call (.get 1),.act 0 tick,.act 1 tick,.act 0 tick,.act 0 tick,.act 0 tick,.act 1 tick,.act 1 tick,.act 1 tick]

theorem forgotten_back :
    (((manager plainDoubles plainConfig noted).run forgetting).calls[1]? = some (.leaving (.forgot 1)) ∧
      ((manager plainDoubles plainConfig noted).run (forgetting ++ .act 1 tick :: [.act 0 tick])).shared.retrieve 1 ≠ none) ∧
    (((manager plainDoubles plainConfig noted).run together).shared.retrieve 1).map Memory.access_count = some 1 ∧
      ((manager plainDoubles plainConfig noted).run together).calls.countP (Returned 1) = 2 :=
  ⟨⟨by decide,by decide⟩,by decide,by decide⟩

/-- The same calls one after the other. -/
theorem forgotten_apart :
    ((manager plainDoubles plainConfig noted).run
      ([.call (.get 1),.act 0 tick,.act 0 tick,.act 0 tick,.act 0 tick,.call (.forget 1),.act 1 tick] ++ .act 1 tick :: [])).shared.retrieve 1 = none :=
  (memory_manager plainDoubles plainConfig noted).1 1 _ _ 1 tick (by decide) (by decide) fun _ none => absurd none List.not_mem_nil

end
end Daf.MemoryCalls
