import Daf.PlanShape
import Daf.ProvisionSteps

/-!
Convergence of plan and apply. A plan carries less than the specs, so an apply stores every
created or replaced resource as an agent pool, under the provider it finds, without
dependencies and with the default lifecycle; the next plan is empty when the specs say no
more than that.
-/
namespace Daf.ProvisionConvergence
open Daf.Json Daf.MissionPlan Daf.ProvisionPlan Daf.ProvisionApply Daf.ProvisionSteps Daf.PlanShape

/-! ### A successful apply -/

section
variable {env : Env} {options : ApplyOptions} {dep_map : AList (fun _ : String => List String)}

theorem walk_progress (wet : options.dry_run = false) (empty : ∀ name, (dep_map.lookup name).getD [] = []) (changes : List ResourceChange) :
    ∀ w : Walk, w.progress <+: (changes.foldl (applyNext env options dep_map) w).progress := by
  induction changes with
  | nil => exact fun w => List.prefix_refl _
  | cons change later ih =>
    intro w
    obtain ⟨ok,es,next⟩ := applyNext_next env wet empty w change
    obtain ⟨status,grown,-⟩ := next.entry
    exact (grown ▸ List.prefix_append _ _).trans (ih _)

/-- When nothing failed, every change of the plan was done. -/
theorem walk_success (wet : options.dry_run = false) (empty : ∀ name, (dep_map.lookup name).getD [] = []) (changes : List ResourceChange) :
    ∀ w : Walk, (changes.map (·.resource_name)).Nodup →
      (∀ entry ∈ (changes.foldl (applyNext env options dep_map) w).progress, entry.status.is_failed = false) →
      (∀ name, name ∉ changes.map (·.resource_name) → record (changes.foldl (applyNext env options dep_map) w).exec name = record w.exec name) ∧
        ∀ change ∈ changes, ∃ tick es, Did env tick change.resource_name (providerOf (record w.exec change.resource_name)) (change.after.getD .null)
          (record w.exec change.resource_name) change.action true es
          (record (changes.foldl (applyNext env options dep_map) w).exec change.resource_name) := by
  induction changes with
  | nil => exact fun w _ _ => ⟨fun _ _ => rfl,by simp⟩
  | cons change later ih =>
    intro w nodup fine
    rw [List.map_cons,List.nodup_cons] at nodup
    obtain ⟨ok,es,next⟩ := applyNext_next env wet empty w change
    obtain ⟨status,grown,done,failed⟩ := next.entry
    have here : (⟨change.resource_name,change.action,status⟩ : ApplyProgress) ∈
        (later.foldl (applyNext env options dep_map) (applyNext env options dep_map w change)).progress := by
      apply (walk_progress wet empty later _).subset
      rw [grown]
      simp
    have succeeded : ok = true := by
      cases ok with
      | true => rfl
      | false =>
        obtain ⟨e,rfl⟩ := failed rfl
        have := fine _ here
        cases this
    subst succeeded
    obtain ⟨frame,dids⟩ := ih (applyNext env options dep_map w change) nodup.2 fine
    constructor
    · intro name away
      rw [List.map_cons,List.mem_cons,not_or] at away
      exact (frame name away.2).trans (next.step.frame name away.1)
    · intro c there
      cases there with
      | head =>
        refine ⟨w.exec.tick,es,?_⟩
        have kept : record ((change :: later).foldl (applyNext env options dep_map) w).exec change.resource_name =
            record (applyNext env options dep_map w change).exec change.resource_name := frame _ nodup.1
        rw [kept]
        exact next.did
      | tail _ there =>
        have other : c.resource_name ≠ change.resource_name := fun same => nodup.1 (same ▸ List.mem_map_of_mem there)
        have before := next.step.frame c.resource_name other
        have := dids c there
        rw [before] at this
        exact this

theorem apply_success (wet : options.dry_run = false) (p : Plan) (nodup : (p.changes.map (·.resource_name)).Nodup) (x : Exec)
    (success : (apply env options p x).1.success = true) :
    (∀ name, name ∉ p.mutating_changes.map (·.resource_name) → record (apply env options p x).2 name = record x name) ∧
      ∀ change ∈ p.mutating_changes, ∃ tick es, Did env tick change.resource_name (providerOf (record x change.resource_name)) (change.after.getD .null)
        (record x change.resource_name) change.action true es (record (apply env options p x).2 change.resource_name) := by
  unfold apply at success ⊢
  by_cases nothing : p.mutating_changes = []
  · rw [if_pos nothing]
    refine ⟨fun _ _ => rfl,?_⟩
    rw [nothing]
    simp
  rw [if_neg nothing] at success ⊢
  simp only at success ⊢
  split at success
  · rename_i rolled
    simp only [decide_eq_true_eq] at success
    omega
  · rename_i kept
    rw [if_neg kept]
    simp only [decide_eq_true_eq,List.countP_eq_zero] at success
    have part : (p.mutating_changes.map (·.resource_name)).Nodup := nodup.sublist (List.filter_sublist.map _)
    exact walk_success wet (dependency_map_empty p) p.mutating_changes ⟨[],[],x⟩ part (fun entry there => by simpa using success entry there)

end

/-! ### The next plan -/

/-- Two equal configs stay equal when keys are ignored. -/
theorem ignoreKeys_same (name : String) (keys : List String) : ∀ (config : Value) (warnings : List String),
    (keys.foldl (ignoreKey name) (config,config,warnings)).1 = (keys.foldl (ignoreKey name) (config,config,warnings)).2.1 := by
  induction keys with
  | nil => exact fun _ _ => rfl
  | cons key later ih =>
    intro config warnings
    cases config with
    | object fields => exact ih _ _
    | null => exact ih _ _
    | bool b => exact ih _ _
    | number n => exact ih _ _
    | string t => exact ih _ _
    | array items => exact ih _ _

/-- A resource that is recorded as desired needs no change. -/
theorem actionFor_recorded {r : Resource} {spec : ResourceSpec} (type_ : r.spec.type_ = spec.type_) (provider : r.spec.provider = spec.provider)
    (config : r.spec.config = spec.config) : actionFor (some r) spec = .NoOp := by
  have same : (effective spec r).1 = (effective spec r).2.1 := by
    unfold effective
    rw [config]
    exact ignoreKeys_same _ _ _ _
  simp [actionFor,type_,provider,same,Value.eq_refl]

/-- The record has what the spec says. -/
def Stored (spec : ResourceSpec) (found : Option Resource) : Prop :=
  ∃ r, found = some r ∧ r.spec.type_ = spec.type_ ∧ r.spec.provider = spec.provider ∧ r.spec.config = spec.config ∧
    r.spec.depends_on = spec.depends_on ∧ r.spec.lifecycle = spec.lifecycle

/-- The spec says no more than what is stored for a resource of this provider. -/
def Plain (provider : String) (spec : ResourceSpec) : Prop :=
  spec.type_ = .AgentPool ∧ spec.provider = provider ∧ spec.depends_on = [] ∧ spec.lifecycle = .default

instance (provider : String) (spec : ResourceSpec) : Decidable (Plain provider spec) := inferInstanceAs (Decidable (_ ∧ _ ∧ _ ∧ _))

/-- The resource is going to be created or replaced. -/
def Rebuilt (s : ProvisionState) (spec : ResourceSpec) : Prop :=
  actionFor (s.resources.lookup spec.name) spec = .Create ∨ actionFor (s.resources.lookup spec.name) spec = .Replace

instance (s : ProvisionState) (spec : ResourceSpec) : Decidable (Rebuilt s spec) := inferInstanceAs (Decidable (_ ∨ _))

/-- The desired resources need no further change, and what was created or replaced is stored as desired. -/
def Converged (it : Iteration) (before after : ProvisionState) (desired : List ResourceSpec) : Prop :=
  (∃ p, plan it after desired = .ok p ∧ p.mutating_changes = []) ∧
    ∀ spec ∈ desired, Rebuilt before spec → Stored spec (after.resources.lookup spec.name)

theorem stored_created {spec : ResourceSpec} {provider : String} {result : ProviderResult} :
    Stored spec (some (createdResource spec.name provider spec.config result)) ↔ Plain provider spec := by
  have stored := createdResource_spec spec.name provider spec.config result
  constructor
  · rintro ⟨r,same,type_,provider_,-,depends_on,lifecycle⟩
    cases same
    rw [stored] at type_ provider_ depends_on lifecycle
    exact ⟨type_.symm,provider_.symm,depends_on.symm,lifecycle.symm⟩
  · rintro ⟨type_,provider_,depends_on,lifecycle⟩
    refine ⟨_,rfl,?_⟩
    rw [stored]
    exact ⟨type_.symm,provider_.symm,rfl,depends_on.symm,lifecycle.symm⟩

section
variable {s after : ProvisionState} {spec : ResourceSpec} {es : List Event}

/-- What a change of a desired resource leaves in the state. -/
theorem did_wanted {env : Env} {tick : Nat} {found : Option Resource}
    (did : Did env tick spec.name (providerOf (s.resources.lookup spec.name)) spec.config (s.resources.lookup spec.name)
      (actionFor (s.resources.lookup spec.name) spec) true es found) :
    (Rebuilt s spec ∧ ∃ result, found = some (createdResource spec.name (providerOf (s.resources.lookup spec.name)) spec.config result)) ∨
      (¬ Rebuilt s spec ∧ actionFor found spec = .NoOp) := by
  unfold Rebuilt
  generalize action_eq : actionFor (s.resources.lookup spec.name) spec = action at did
  cases did with
  | noop => exact .inr ⟨by simp,action_eq⟩
  | created result _ _ => exact .inl ⟨.inl rfl,result,rfl⟩
  | updated r pid result _ before id =>
    refine .inr ⟨by simp,?_⟩
    rw [before] at action_eq
    have same : ¬ (r.spec.type_ ≠ spec.type_ ∨ r.spec.provider ≠ spec.provider) := by
      intro differ
      simp [actionFor,differ] at action_eq
    push Not at same
    have stored := updatedResource_spec r spec.config result
    refine actionFor_recorded ?_ ?_ ?_
    · rw [stored]
      exact same.1
    · rw [stored]
      exact same.2
    · rw [stored]
  | destroyed _ gone => exact absurd action_eq (actionFor_ne_destroy _ _)
  | replaced _ _ call result gone => exact .inl ⟨.inr rfl,result,rfl⟩

end

theorem mutating_nil {it : Iteration} {after : ProvisionState} {desired : List ResourceSpec} {p : Plan} (ok : plan it after desired = .ok p) :
    p.mutating_changes = [] ↔ (∀ spec ∈ desired, actionFor (after.resources.lookup spec.name) spec = .NoOp) ∧
      ∀ name r, after.resources.lookup name = some r → name ∉ names desired → r.spec.lifecycle.prevent_destroy = true := by
  have shape := plan_shape ok
  simp only [Plan.mutating_changes,List.filter_eq_nil_iff,Action.is_mutating]
  constructor
  · intro all
    constructor
    · intro spec there
      have := all _ ((shape.mem _).2 (.inl ⟨spec,there,rfl⟩))
      rw [changeFor_action] at this
      simpa using this
    · intro name r stored absent
      by_contra free
      have := all _ ((shape.mem _).2 (.inr ⟨name,r,stored,absent,by simpa using free,rfl⟩))
      simp [destroyOf] at this
  · rintro ⟨noops,protect⟩ c there
    rcases (shape.mem c).1 there with ⟨spec,inside,rfl⟩ | ⟨name,r,stored,absent,free,rfl⟩
    · rw [changeFor_action,noops spec inside]
      simp
    · rw [protect name r stored absent] at free
      cases free

section
variable {env : Env} {options : ApplyOptions} {it : Iteration} {desired : List ResourceSpec} {x : Exec} {p : Plan}

/-- What a successful apply leaves for each desired resource. -/
theorem apply_leaves (wet : options.dry_run = false) (planned : plan it x.state desired = .ok p) (success : (apply env options p x).1.success = true) :
    ∀ spec ∈ desired,
      (Rebuilt x.state spec ∧ ∃ result, record (apply env options p x).2 spec.name =
        some (createdResource spec.name (providerOf (x.state.resources.lookup spec.name)) spec.config result)) ∨
      (¬ Rebuilt x.state spec ∧ actionFor (record (apply env options p x).2 spec.name) spec = .NoOp) := by
  have shape := plan_shape planned
  obtain ⟨frame,dids⟩ := apply_success wet p shape.nodup x success
  intro spec inside
  have planned_change := (shape.mem (changeFor x.state spec).1).2 (.inl ⟨spec,inside,rfl⟩)
  by_cases noop : actionFor (x.state.resources.lookup spec.name) spec = .NoOp
  · right
    have away : spec.name ∉ p.mutating_changes.map (·.resource_name) := by
      intro there
      obtain ⟨c,inC,named⟩ := List.mem_map.1 there
      obtain ⟨inPlan,mutating⟩ := List.mem_filter.1 inC
      have same := List.inj_on_of_nodup_map shape.nodup inPlan planned_change (named.trans (changeFor_name _ _).symm)
      rw [same,changeFor_action,noop] at mutating
      cases mutating
    rw [frame spec.name away]
    refine ⟨?_,noop⟩
    rw [Rebuilt,noop]
    simp
  · have mutating : (changeFor x.state spec).1 ∈ p.mutating_changes :=
      List.mem_filter.2 ⟨planned_change,by rw [changeFor_action]; simpa [Action.is_mutating] using noop⟩
    obtain ⟨_,es,did⟩ := dids _ mutating
    rw [changeFor_name,changeFor_action,changeFor_after x.state spec (by rw [changeFor_action]; exact noop)] at did
    exact did_wanted did

/-- What a successful apply leaves beside the desired resources is protected. -/
theorem apply_protects (wet : options.dry_run = false) (planned : plan it x.state desired = .ok p) (success : (apply env options p x).1.success = true) :
    ∀ name r, record (apply env options p x).2 name = some r → name ∉ names desired → r.spec.lifecycle.prevent_destroy = true := by
  have shape := plan_shape planned
  obtain ⟨frame,dids⟩ := apply_success wet p shape.nodup x success
  intro name r stored absent
  by_cases there : name ∈ p.mutating_changes.map (·.resource_name)
  · obtain ⟨c,inC,rfl⟩ := List.mem_map.1 there
    obtain ⟨_,es,did⟩ := dids c inC
    rcases (shape.mem c).1 (List.mem_of_mem_filter inC) with ⟨spec,inside,rfl⟩ | ⟨name,r',-,-,-,rfl⟩
    · rw [changeFor_name] at absent
      exact absurd (List.mem_map_of_mem inside) absent
    · rw [stored] at did
      cases did
  · have before : x.state.resources.lookup name = some r := (frame name there).symm.trans stored
    by_contra free
    have planned_change := (shape.mem (destroyOf name r)).2 (.inr ⟨name,r,before,absent,by simpa using free,rfl⟩)
    exact there (List.mem_map.2 ⟨_,List.mem_filter.2 ⟨planned_change,rfl⟩,rfl⟩)

end

/-- After an apply that succeeds, the next plan is empty and what was created or replaced is stored as desired exactly
    when every such resource is an agent pool, of the provider that is recorded or else of the agent pools, without
    dependencies and with the default lifecycle. -/
theorem converged_iff (env : Env) (options : ApplyOptions) (wet : options.dry_run = false) (it it' : Iteration) (desired : List ResourceSpec)
    (x : Exec) {p : Plan} (planned : plan it x.state desired = .ok p) (success : (apply env options p x).1.success = true) :
    Converged it' x.state (apply env options p x).2.state desired ↔
      ∀ spec ∈ desired, Rebuilt x.state spec → Plain (providerOf (x.state.resources.lookup spec.name)) spec := by
  have left := apply_leaves wet planned success
  constructor
  · rintro ⟨-,stored⟩ spec inside rebuilt
    rcases left spec inside with ⟨-,result,made⟩ | ⟨kept,-⟩
    · have := stored spec inside rebuilt
      rw [show (apply env options p x).2.state.resources.lookup spec.name = _ from made] at this
      exact stored_created.1 this
    · exact absurd rebuilt kept
  · intro plain
    obtain ⟨p',ok⟩ := plan_ok_of it' (apply env options p x).2.state planned
    refine ⟨⟨p',ok,(mutating_nil ok).2 ⟨fun spec inside => ?_,apply_protects wet planned success⟩⟩,fun spec inside rebuilt => ?_⟩
    · rcases left spec inside with ⟨rebuilt,result,made⟩ | ⟨-,noop⟩
      · obtain ⟨type_,provider,-,-⟩ := plain spec inside rebuilt
        rw [show (apply env options p x).2.state.resources.lookup spec.name = _ from made]
        have stored := createdResource_spec spec.name (providerOf (x.state.resources.lookup spec.name)) spec.config result
        refine actionFor_recorded ?_ ?_ ?_
        · rw [stored]
          exact type_.symm
        · rw [stored]
          exact provider.symm
        · rw [stored]
      · exact noop
    · rcases left spec inside with ⟨-,result,made⟩ | ⟨kept,-⟩
      · rw [show (apply env options p x).2.state.resources.lookup spec.name = _ from made]
        exact stored_created.2 (plain spec inside rebuilt)
      · exact absurd rebuilt kept

/-! ### Fixed plans -/

/-- The map that is walked in the order of its keys. -/
def inOrder : Iteration := ⟨fun keys => keys,fun _ => .refl _⟩

/-- Every provider is registered and every call succeeds. -/
def willing : Env where
  registered _ := true
  validate _ := []
  create call _ := .ok ⟨s!"pool-{call}",[]⟩
  update _ := .ok ⟨"pool",[]⟩
  delete _ := .ok ()
  save _ := .ok ()

def options : ApplyOptions := ⟨false,true⟩

def empty : Exec := ⟨.new,0,[]⟩

/-- The changes of a plan and the end of its apply, as far as they can be compared. -/
def changesOf (it : Iteration) (s : ProvisionState) (desired : List ResourceSpec) : Option (List (String × Action)) :=
  (plan it s desired).toOption.map (fun p => p.mutating_changes.map (fun c => (c.resource_name,c.action)))

theorem changesOf_converged {it : Iteration} {before after : ProvisionState} {desired : List ResourceSpec}
    (converged : Converged it before after desired) : changesOf it after desired = some [] := by
  obtain ⟨⟨p,ok,quiet⟩,-⟩ := converged
  simp [changesOf,ok,quiet,Except.toOption]

def pools : List ResourceSpec := [⟨.AgentPool,"workers","agent_pool",.object [("count",.number (.int 3))],[],.default⟩]

def poolPlan : Plan :=
  .from_changes [⟨"workers",.Create,none,some (.object [("count",.number (.int 3))]),"resource does not exist"⟩] []

theorem pools_converge :
    plan inOrder empty.state pools = .ok poolPlan ∧ (apply willing options poolPlan empty).1.success = true ∧
      (Converged inOrder empty.state (apply willing options poolPlan empty).2.state pools ↔
        ∀ spec ∈ pools, Rebuilt empty.state spec → Plain (providerOf (empty.state.resources.lookup spec.name)) spec) ∧
      (∀ spec ∈ pools, Rebuilt empty.state spec ∧ Plain (providerOf (empty.state.resources.lookup spec.name)) spec) := by
  have success : (apply willing options poolPlan empty).1.success = true := by decide
  exact ⟨rfl,success,converged_iff willing options rfl inOrder inOrder pools empty rfl success,by decide⟩

def channels : List ResourceSpec := [⟨.Channel,"events","channel",.object [],[],.default⟩]

def channelPlan : Plan := .from_changes [⟨"events",.Create,none,some (.object []),"resource does not exist"⟩] []

/-- A channel is stored as an agent pool, and the next plan replaces it. -/
theorem channels_not_converged :
    (names channels).Nodup ∧ plan inOrder empty.state channels = .ok channelPlan ∧ (apply willing options channelPlan empty).1.success = true ∧
      changesOf inOrder (apply willing options channelPlan empty).2.state channels = some [("events",.Replace)] ∧
      ¬ Converged inOrder empty.state (apply willing options channelPlan empty).2.state channels := by
  have replaced : changesOf inOrder (apply willing options channelPlan empty).2.state channels = some [("events",.Replace)] := by decide
  refine ⟨by decide,rfl,by decide,replaced,fun converged => ?_⟩
  rw [changesOf_converged converged] at replaced
  cases replaced

end Daf.ProvisionConvergence
