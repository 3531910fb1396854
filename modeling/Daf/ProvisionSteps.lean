import Daf.ProvisionApply

/-!
What one change does: it calls the provider of one resource and changes the record of that
resource and no other (`Did`).
-/
namespace Daf.ProvisionSteps
open Daf.Json Daf.MissionPlan Daf.ProvisionPlan Daf.ProvisionApply

/-- The record of a resource. -/
def record (x : Exec) (name : String) : Option Resource := x.state.resources.lookup name

/-- The provider that is asked about a resource with this record. -/
def providerOf : Option Resource → String
  | some r => r.spec.provider
  | none => "agent_pool"

section
variable (env : Env) (tick : Nat) (name provider : String) (config : Value) (before : Option Resource)

/-- The recorded resource was deleted, or had nothing to delete. -/
inductive Gone : Option Resource → List Event → Prop
  | unrecorded : Gone none []
  | idless (r : Resource) : r.physical_id = none → Gone (some r) []
  | deleted (r : Resource) (pid : String) : r.physical_id = some pid → env.delete tick = .ok () →
    Gone (some r) [.delete name provider pid false (.ok ())]

/-- How a change that starts at this call ends, with the calls it made and the record it leaves. -/
inductive Did : Action → Bool → List Event → Option Resource → Prop
  | refused (action : Action) : Did action false [] before
  | noop : Did .NoOp true [] before
  | create_failed (call : Nat) (e : DafError) : Did .Create false [.create call name provider (.error e)] before
  | created (result : ProviderResult) (saved : Bool) : env.validate tick = [] →
    Did .Create saved [.create (tick + 1) name provider (.ok result)] (some (createdResource name provider config result))
  | update_failed (r : Resource) (pid : String) (e : DafError) :
    before = some r → r.physical_id = some pid → Did .Update false [.update name provider pid (.error e)] before
  | updated (r : Resource) (pid : String) (result : ProviderResult) (saved : Bool) : before = some r → r.physical_id = some pid →
    Did .Update saved [.update name provider pid (.ok result)] (some (updatedResource r config result))
  | delete_failed (action : Action) (r : Resource) (pid : String) (e : DafError) : action = .Destroy ∨ action = .Replace →
    before = some r → r.physical_id = some pid → Did action false [.delete name provider pid false (.error e)] before
  | destroyed (saved : Bool) (es : List Event) : Gone env tick name provider before es → Did .Destroy saved es none
  | replaced (saved : Bool) (es : List Event) (call : Nat) (result : ProviderResult) : Gone env tick name provider before es →
    Did .Replace saved (es ++ [.create call name provider (.ok result)]) (some (createdResource name provider config result))
  | cut (es : List Event) (e : DafError) : Gone env tick name provider before es →
    Did .Replace false (es ++ [.create (tick + es.length) name provider (.error e)]) before

end

theorem set_outputs_name (outputs : List (String × Value)) : ∀ r : Resource,
    (outputs.foldl (fun r output => r.set_output output.1 output.2) r).spec = r.spec ∧
      (outputs.foldl (fun r output => r.set_output output.1 output.2) r).physical_id = r.physical_id := by
  induction outputs with
  | nil => exact fun _ => ⟨rfl,rfl⟩
  | cons output later ih => exact fun r => ih (r.set_output output.1 output.2)

theorem createdResource_spec (name provider : String) (config : Value) (result : ProviderResult) :
    (createdResource name provider config result).spec = ⟨.AgentPool,name,provider,config,[],.default⟩ :=
  (set_outputs_name result.outputs _).1

theorem createdResource_id (name provider : String) (config : Value) (result : ProviderResult) :
    (createdResource name provider config result).physical_id = some result.physical_id :=
  (set_outputs_name result.outputs _).2

theorem updatedResource_spec (r : Resource) (config : Value) (result : ProviderResult) :
    (updatedResource r config result).spec = { r.spec with config } := (set_outputs_name result.outputs _).1

theorem updatedResource_id (r : Resource) (config : Value) (result : ProviderResult) :
    (updatedResource r config result).physical_id = r.physical_id := (set_outputs_name result.outputs _).2

variable {env : Env}

/-- The calls of one change, and the records of the other resources. -/
structure Step (env : Env) (name : String) (x y : Exec) (es : List Event) : Prop where
  trace : y.trace = x.trace ++ es
  frame : ∀ other, other ≠ name → record y other = record x other
  ticks : x.tick ≤ y.tick
  calls : ∀ call n p result, Event.create call n p result ∈ es → (x.tick ≤ call ∧ call < y.tick) ∧ env.create call p = result

theorem Step.idle {name : String} (x : Exec) : Step env name x x [] :=
  ⟨by simp,fun _ _ => rfl,le_refl _,by simp⟩

theorem Step.trans {name : String} {x y z : Exec} {es fs : List Event} (first : Step env name x y es) (second : Step env name y z fs) :
    Step env name x z (es ++ fs) where
  trace := by rw [second.trace,first.trace,List.append_assoc]
  frame other differ := (second.frame other differ).trans (first.frame other differ)
  ticks := first.ticks.trans second.ticks
  calls call n p result there := by
    have early := first.ticks
    have late := second.ticks
    rcases List.mem_append.1 there with there | there
    · obtain ⟨⟨low,high⟩,answer⟩ := first.calls call n p result there
      exact ⟨⟨low,by omega⟩,answer⟩
    · obtain ⟨⟨low,high⟩,answer⟩ := second.calls call n p result there
      exact ⟨⟨by omega,high⟩,answer⟩

/-- Saving changes no record. -/
theorem step_save (name : String) (x : Exec) : Step env name x (save env x).2 [] :=
  ⟨by simp [save],fun _ _ => rfl,by simp [save],by simp⟩

theorem record_save (x : Exec) (name : String) : record (save env x).2 name = record x name := rfl

theorem record_insert (x : Exec) (name : String) (r : Resource) :
    record { x with state := { x.state with resources := x.state.resources.insert name r } } name = some r := AList.lookup_insert _

theorem record_erase (x : Exec) (name : String) : record { x with state := x.state.remove_resource name } name = none := AList.lookup_erase _ _

variable (env) in
theorem step_create (name provider : String) (x : Exec) :
    Step env name x (callCreate env x name provider).2 [.create x.tick name provider (env.create x.tick provider)] := by
  refine ⟨rfl,fun _ _ => rfl,by simp [callCreate],?_⟩
  intro call n p result there
  have same := List.mem_singleton.1 there
  cases same
  exact ⟨⟨le_refl _,by simp [callCreate]⟩,rfl⟩

/-- A new record for the resource. -/
theorem step_insert (x : Exec) (name : String) (r : Resource) :
    Step env name x { x with state := { x.state with resources := x.state.resources.insert name r } } [] :=
  ⟨by simp,fun _ differ => AList.lookup_insert_ne differ,le_refl _,by simp⟩

theorem step_erase (x : Exec) (name : String) : Step env name x { x with state := x.state.remove_resource name } [] :=
  ⟨by simp,fun _ differ => AList.lookup_erase_ne differ,le_refl _,by simp⟩

variable (env) in
theorem createAndRecord_cases (x : Exec) (name provider : String) (config : Value) :
    (∃ e y, createAndRecord env x name provider config = (.error e,y) ∧ Step env name x y [.create x.tick name provider (.error e)] ∧
        record y name = record x name) ∨
      ∃ result done y, createAndRecord env x name provider config = (done,y) ∧ Step env name x y [.create x.tick name provider (.ok result)] ∧
        record y name = some (createdResource name provider config result) := by
  have step := step_create env name provider x
  unfold createAndRecord
  cases answer : env.create x.tick provider with
  | error e =>
    left
    have run : callCreate env x name provider = (.error e,(callCreate env x name provider).2) := by simp [callCreate,answer]
    rw [run]
    rw [answer] at step
    exact ⟨e,_,rfl,step,rfl⟩
  | ok result =>
    right
    have run : callCreate env x name provider = (.ok result,(callCreate env x name provider).2) := by simp [callCreate,answer]
    rw [run]
    rw [answer] at step
    have named : (createdResource name provider config result).name = name := by
      rw [Resource.name,createdResource_spec]
    simp only [ProvisionState.upsert_resource,named]
    have recorded := step.trans (step_insert _ name (createdResource name provider config result))
    exact ⟨result,_,(save env _).2,rfl,recorded.trans (step_save name _),(record_save _ _).trans (record_insert _ _ _)⟩

variable (env) in
theorem deleteExisting_cases (x : Exec) (name provider : String) :
    (∃ es y, deleteExisting env x name provider = (.ok (),y) ∧ Step env name x y es ∧ record y name = record x name ∧
        Gone env x.tick name provider (record x name) es ∧ y.tick = x.tick + es.length) ∨
      ∃ r pid e y, deleteExisting env x name provider = (.error e,y) ∧ record x name = some r ∧ r.physical_id = some pid ∧
        Step env name x y [.delete name provider pid false (.error e)] ∧ record y name = record x name := by
  unfold deleteExisting ProvisionState.get_resource
  cases found : x.state.resources.lookup name with
  | none => exact .inl ⟨[],x,rfl,Step.idle x,rfl,by rw [record,found]; exact .unrecorded,rfl⟩
  | some r =>
    cases id : r.physical_id with
    | none => exact .inl ⟨[],x,by simp [id],Step.idle x,rfl,by rw [record,found]; exact .idless r id,rfl⟩
    | some pid =>
      have step : Step env name x (callDelete env x name provider pid false).2 [.delete name provider pid false (env.delete x.tick)] :=
        ⟨rfl,fun _ _ => rfl,by simp [callDelete],by simp⟩
      simp only [id]
      cases answer : env.delete x.tick with
      | error e =>
        rw [answer] at step
        exact .inr ⟨r,pid,e,_,by simp [callDelete,answer],found,id,step,rfl⟩
      | ok done =>
        rw [answer] at step
        exact .inl ⟨_,_,by simp [callDelete,answer],step,rfl,by rw [record,found]; exact .deleted r pid id answer,rfl⟩

variable (env) in
/-- What a change does when its provider is known. -/
theorem applyAction_did (x : Exec) (change : ResourceChange) (provider : String) :
    ∃ es, Step env change.resource_name x (applyAction env x change provider).2 es ∧
      Did env x.tick change.resource_name provider (change.after.getD .null) (record x change.resource_name) change.action
        (applyAction env x change provider).1.isOk es (record (applyAction env x change provider).2 change.resource_name) := by
  unfold applyAction
  cases kind : change.action with
  | Create =>
    simp only [applyCreate,callValidate]
    cases valid : env.validate x.tick with
    | nil =>
      simp only
      have asked : Step env change.resource_name x { x with tick := x.tick + 1 } [] := ⟨by simp,fun _ _ => rfl,by simp,by simp⟩
      rcases createAndRecord_cases env { x with tick := x.tick + 1 } change.resource_name provider (change.after.getD .null) with
        ⟨e,y,run,step,kept⟩ | ⟨result,done,y,run,step,recorded⟩
      · rw [run]
        refine ⟨_,asked.trans step,?_⟩
        simp only [kept]
        exact .create_failed _ e
      · rw [run]
        refine ⟨_,asked.trans step,?_⟩
        simp only [recorded]
        exact .created result done.isOk valid
    | cons first more => exact ⟨[],⟨by simp,fun _ _ => rfl,by simp,by simp⟩,.refused _⟩
  | Update =>
    simp only [applyUpdate,ProvisionState.get_resource]
    cases found : x.state.resources.lookup change.resource_name with
    | none => exact ⟨[],Step.idle x,.refused _⟩
    | some r =>
      cases id : r.physical_id with
      | none =>
        simp only [id]
        exact ⟨[],Step.idle x,.refused _⟩
      | some pid =>
        simp only [id,callUpdate]
        have step : Step env change.resource_name x (callUpdate env x change.resource_name provider pid).2
            [.update change.resource_name provider pid (env.update x.tick)] := ⟨rfl,fun _ _ => rfl,by simp [callUpdate],by simp⟩
        have before : record x change.resource_name = some r := found
        cases answer : env.update x.tick with
        | error e =>
          simp only [callUpdate,answer] at step
          exact ⟨_,step,.update_failed r pid e before id⟩
        | ok result =>
          simp only [callUpdate,answer] at step
          have recorded := step.trans (step_insert _ change.resource_name (updatedResource r (change.after.getD .null) result))
          refine ⟨_,recorded.trans (step_save change.resource_name _),?_⟩
          rw [record_save,record_insert]
          exact .updated r pid result _ before id
  | Destroy =>
    simp only [applyDestroy]
    rcases deleteExisting_cases env x change.resource_name provider with
      ⟨es,y,run,step,kept,gone,tick⟩ | ⟨r,pid,e,y,run,found,id,step,kept⟩
    · rw [run]
      have erased := (step.trans (step_erase y change.resource_name)).trans (step_save change.resource_name _)
      refine ⟨_,erased,?_⟩
      rw [record_save,record_erase,List.append_nil,List.append_nil]
      exact .destroyed _ es gone
    · rw [run]
      refine ⟨_,step,?_⟩
      simp only [kept]
      exact .delete_failed _ r pid e (.inl rfl) found id
  | Replace =>
    simp only [applyReplace]
    rcases deleteExisting_cases env x change.resource_name provider with
      ⟨es,y,run,step,kept,gone,tick⟩ | ⟨r,pid,e,y,run,found,id,step,kept⟩
    · rw [run]
      simp only
      rcases createAndRecord_cases env y change.resource_name provider (change.after.getD .null) with
        ⟨e,z,run',step',kept'⟩ | ⟨result,done,z,run',step',recorded⟩
      · rw [run']
        refine ⟨_,step.trans step',?_⟩
        simp only [kept',kept,tick]
        exact .cut es e gone
      · rw [run']
        refine ⟨_,step.trans step',?_⟩
        simp only [recorded]
        exact .replaced done.isOk es _ result gone
    · rw [run]
      refine ⟨_,step,?_⟩
      simp only [kept]
      exact .delete_failed _ r pid e (.inr rfl) found id
  | NoOp => exact ⟨[],Step.idle x,.noop⟩

variable (env) in
/-- What a change does in an apply that is not a dry run. -/
theorem single_did {options : ApplyOptions} (wet : options.dry_run = false) (x : Exec) (change : ResourceChange) :
    ∃ es, Step env change.resource_name x (apply_single_change env options x change).2 es ∧
      (es = [] ∨ env.registered (providerOf (record x change.resource_name))) ∧
      Did env x.tick change.resource_name (providerOf (record x change.resource_name)) (change.after.getD .null) (record x change.resource_name)
        change.action (apply_single_change env options x change).1.isOk es
        (record (apply_single_change env options x change).2 change.resource_name) ∧
      ∀ entry, (apply_single_change env options x change).1 = .ok entry → entry = ⟨change.resource_name,change.action,.Succeeded⟩ := by
  unfold apply_single_change
  simp only [wet,if_false,Bool.false_eq_true]
  cases resolved : providerName x.state change with
  | none => exact ⟨[],Step.idle x,.inl rfl,.refused _,fun entry done => by cases done⟩
  | some provider =>
    have asked : provider = providerOf (record x change.resource_name) := by
      unfold providerName ProvisionState.get_resource at resolved
      unfold providerOf record
      cases found : x.state.resources.lookup change.resource_name with
      | none =>
        rw [found] at resolved
        obtain ⟨_,_,same⟩ := Option.map_eq_some_iff.1 resolved
        exact same.symm
      | some r =>
        rw [found] at resolved
        cases resolved
        rfl
    subst asked
    by_cases known : env.registered (providerOf (record x change.resource_name)) = true
    · simp only [known,if_true]
      obtain ⟨es,step,did⟩ := applyAction_did env x change (providerOf (record x change.resource_name))
      refine ⟨es,?_⟩
      rcases ended : applyAction env x change (providerOf (record x change.resource_name)) with ⟨e | done,y⟩
      · rw [ended] at step did
        exact ⟨step,.inr trivial,did,fun entry done => by cases done⟩
      · rw [ended] at step did
        exact ⟨step,.inr trivial,did,fun entry done => by cases done; rfl⟩
    · simp only [known,if_false,Bool.false_eq_true]
      exact ⟨[],Step.idle x,.inl rfl,.refused _,fun entry done => by cases done⟩

/-! ### The walk over the plan -/

theorem dependency_map_empty (plan : Plan) (name : String) : ((build_dependency_map plan).lookup name).getD [] = [] := by
  have all : ∀ (changes : List ResourceChange) (deps : AList (fun _ : String => List String)), (deps.lookup name).getD [] = [] →
      ((changes.foldl (fun deps change => if change.resource_name ∈ deps then deps else deps.insert change.resource_name []) deps).lookup name).getD [] = [] := by
    intro changes
    induction changes with
    | nil => exact fun deps empty => empty
    | cons change later ih =>
      intro deps empty
      apply ih
      by_cases there : change.resource_name ∈ deps
      · simpa [there] using empty
      · simp only [there,if_false]
        by_cases same : name = change.resource_name
        · subst same
          simp
        · rw [AList.lookup_insert_ne same]
          exact empty
  exact all plan.changes ∅ (by simp)

/-- One change of the walk. No change is skipped: the dependency map is empty. -/
structure Next (env : Env) (change : ResourceChange) (w w' : Walk) (ok : Bool) (es : List Event) : Prop where
  step : Step env change.resource_name w.exec w'.exec es
  known : es = [] ∨ env.registered (providerOf (record w.exec change.resource_name))
  did : Did env w.exec.tick change.resource_name (providerOf (record w.exec change.resource_name)) (change.after.getD .null)
    (record w.exec change.resource_name) change.action ok es (record w'.exec change.resource_name)
  entry : ∃ status, w'.progress = w.progress ++ [⟨change.resource_name,change.action,status⟩] ∧
    (ok = true → status = .Succeeded) ∧ (ok = false → ∃ e, status = .Failed e)

variable (env) in
theorem applyNext_next {options : ApplyOptions} (wet : options.dry_run = false) {dep_map : AList (fun _ : String => List String)}
    (empty : ∀ name, (dep_map.lookup name).getD [] = []) (w : Walk) (change : ResourceChange) :
    ∃ ok es, Next env change w (applyNext env options dep_map w change) ok es := by
  obtain ⟨es,step,known,did,entry⟩ := single_did env wet w.exec change
  unfold applyNext
  rw [if_neg (by simp [empty])]
  rcases ended : apply_single_change env options w.exec change with ⟨e | done,x⟩
  · rw [ended] at step did
    refine ⟨_,es,step,known,did,_,rfl,?_,?_⟩
    · intro ok
      cases ok
    · exact fun _ => ⟨e,rfl⟩
  · rw [ended] at step did entry
    have same := entry done rfl
    subst same
    refine ⟨_,es,step,known,did,_,rfl,fun _ => rfl,?_⟩
    intro ok
    cases ok

/-- A dry run only reports. -/
theorem applyNext_dry {options : ApplyOptions} (dry : options.dry_run = true) {dep_map : AList (fun _ : String => List String)}
    (w : Walk) (change : ResourceChange) : (applyNext env options dep_map w change).exec = w.exec := by
  unfold applyNext
  by_cases skip : w.failed ≠ [] ∧ ((dep_map.lookup change.resource_name).getD []).any (· ∈ w.failed)
  · rw [if_pos skip]
  · rw [if_neg skip]
    simp [apply_single_change,dry]

/-! ### The rollback -/

/-- What the rollback of one entry does to the record of its resource. -/
inductive Undid (env : Env) (name : String) (before : Option Resource) : List Event → Option Resource → Prop
  | untouched : Undid env name before [] before
  | delete_failed (r : Resource) (pid : String) (e : DafError) : before = some r → r.physical_id = some pid →
    Undid env name before [.delete name r.spec.provider pid true (.error e)] before
  | deleted (r : Resource) (pid : String) : before = some r → r.physical_id = some pid →
    Undid env name before [.delete name r.spec.provider pid true (.ok ())] none
  | forgotten : (∀ r pid, before = some r → r.physical_id = some pid → env.registered r.spec.provider = false) → Undid env name before [] none

theorem rollbackEntry_other {x : Exec} {entry : ApplyProgress} (other : entry.action ≠ .Create) : rollbackEntry env x entry = x := by
  unfold rollbackEntry
  rw [if_neg (fun applies => other applies.2)]

variable (env) in
theorem rollbackEntry_undid (x : Exec) (entry : ApplyProgress) :
    ∃ es, Step env entry.resource_name x (rollbackEntry env x entry) es ∧
      Undid env entry.resource_name (record x entry.resource_name) es (record (rollbackEntry env x entry) entry.resource_name) := by
  have forget : ∀ y : Exec, Step env entry.resource_name y (save env { y with state := y.state.remove_resource entry.resource_name }).2 [] ∧
      record (save env { y with state := y.state.remove_resource entry.resource_name }).2 entry.resource_name = none := fun y =>
    ⟨(step_erase y entry.resource_name).trans (step_save entry.resource_name _),(record_save _ _).trans (record_erase y _)⟩
  unfold rollbackEntry
  by_cases applies : entry.status = .Succeeded ∧ entry.action = .Create
  · rw [if_pos applies]
    simp only [ProvisionState.get_resource]
    have found : record x entry.resource_name = x.state.resources.lookup entry.resource_name := rfl
    generalize x.state.resources.lookup entry.resource_name = before at found
    rw [found]
    cases before with
    | none =>
      refine ⟨[],(forget x).1,?_⟩
      simp only [(forget x).2]
      exact .forgotten (fun r pid there => by cases there)
    | some r =>
      cases id : r.physical_id with
      | none =>
        simp only [id]
        refine ⟨[],(forget x).1,?_⟩
        simp only [(forget x).2]
        exact .forgotten (fun q pid there has => by cases there; rw [id] at has; cases has)
      | some pid =>
        simp only [id]
        by_cases known : env.registered r.spec.provider = true
        · simp only [known,if_true,callDelete]
          have step : Step env entry.resource_name x (callDelete env x entry.resource_name r.spec.provider pid true).2
              [.delete entry.resource_name r.spec.provider pid true (env.delete x.tick)] := ⟨rfl,fun _ _ => rfl,by simp [callDelete],by simp⟩
          cases answer : env.delete x.tick with
          | error e =>
            simp only [callDelete,answer] at step
            refine ⟨_,step,?_⟩
            have kept : record { x with tick := x.tick + 1, trace := x.trace ++ [.delete entry.resource_name r.spec.provider pid true (.error e)] }
                entry.resource_name = some r := found
            simp only [kept]
            exact .delete_failed r pid e rfl id
          | ok done =>
            simp only [callDelete,answer] at step
            refine ⟨_,step.trans (forget _).1,?_⟩
            rw [record_save,record_erase { x with tick := x.tick + 1, trace := _ },List.append_nil]
            exact .deleted r pid rfl id
        · simp only [known,if_false,Bool.false_eq_true]
          refine ⟨[],(forget x).1,?_⟩
          simp only [(forget x).2]
          exact .forgotten (fun q pid' there has => by cases there; simpa using known)
  · rw [if_neg applies]
    exact ⟨[],Step.idle x,.untouched⟩

/-! ### The apply -/

variable (env) in
/-- An apply ends after the walk, or after the rollback. -/
theorem apply_exec (options : ApplyOptions) (plan : Plan) (x : Exec) :
    (apply env options plan x).2 = (walk env options plan x).exec ∨
      (apply env options plan x).2 = rollback env (walk env options plan x).progress (walk env options plan x).exec := by
  unfold apply
  by_cases nothing : plan.mutating_changes = []
  · left
    rw [if_pos nothing,walk,nothing]
    rfl
  · rw [if_neg nothing]
    simp only
    split
    · exact .inr rfl
    · exact .inl rfl

theorem apply_dry {options : ApplyOptions} (dry : options.dry_run = true) (plan : Plan) (x : Exec) : (apply env options plan x).2 = x := by
  have still : ∀ (changes : List ResourceChange) (w : Walk),
      (changes.foldl (applyNext env options (build_dependency_map plan)) w).exec = w.exec := by
    intro changes
    induction changes with
    | nil => exact fun w => rfl
    | cons change later ih => exact fun w => (ih _).trans (applyNext_dry dry w change)
  unfold apply
  by_cases nothing : plan.mutating_changes = []
  · rw [if_pos nothing]
  · rw [if_neg nothing]
    simp only [dry]
    rw [if_neg (by simp)]
    exact still _ _

end Daf.ProvisionSteps
