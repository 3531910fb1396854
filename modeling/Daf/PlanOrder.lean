import Daf.PlanShape

/-!
A plan is a diff, and it is ordered: what each desired and each recorded resource gets, when there is no plan, and
which change comes before which. The destroys follow the walk over the records, not their dependencies.
-/
namespace Daf.PlanOrder
open Daf.Json Daf.MissionPlan Daf.ProvisionPlan Daf.PlanShape

/-! ### What a plan is for -/

/-- A desired resource that another one depends on. -/
def Needs (desired : List ResourceSpec) (dep name : String) : Prop :=
  dep ∈ names desired ∧ ∃ spec ∈ desired, spec.name = name ∧ dep ∈ spec.depends_on

/-- A config without some of its keys. -/
def without (keys : List String) : Value → Value
  | .object fields => .object (fields.filter fun entry => entry.1 ∉ keys)
  | config => config

/-- What is due to a desired resource. -/
def due (existing : Option Resource) (spec : ResourceSpec) : Action :=
  match existing with
  | none => .Create
  | some r =>
    if r.spec.type_ ≠ spec.type_ ∨ r.spec.provider ≠ spec.provider then .Replace
    else if (without spec.lifecycle.ignore_changes r.spec.config).eq (without spec.lifecycle.ignore_changes spec.config) then .NoOp
    else .Update

/-- The actions of a plan on one resource. -/
def actionsOn (p : Plan) (name : String) : List Action := (p.changes.filter fun c => c.resource_name = name).map ResourceChange.action

/-- A complete and ordered diff. -/
structure Diff (current : ProvisionState) (desired : List ResourceSpec) (p : Plan) : Prop where
  wanted : ∀ spec ∈ desired, actionsOn p spec.name = [due (current.resources.lookup spec.name) spec]
  unwanted : ∀ name r, current.resources.lookup name = some r → name ∉ names desired →
    actionsOn p name = if r.spec.lifecycle.prevent_destroy then [] else [.Destroy]
  only : ∀ c ∈ p.changes, c.resource_name ∈ names desired ∨ c.resource_name ∈ current.resources
  after_dependencies : ∀ a c b, p.changes = a ++ c :: b → c.action ≠ .Destroy → ∀ dep, Needs desired dep c.resource_name → ∃ d ∈ a, d.resource_name = dep
  destroys_last : ∃ kept destroys, p.changes = kept ++ destroys ∧ (∀ c ∈ kept, c.action ≠ .Destroy) ∧ ∀ c ∈ destroys, c.action = .Destroy
  summary : p.summary =
    { creates := p.changes.countP fun c => c.action = .Create
      updates := p.changes.countP fun c => c.action = .Update
      destroys := p.changes.countP fun c => c.action = .Destroy
      replaces := p.changes.countP fun c => c.action = .Replace
      no_ops := p.changes.countP fun c => c.action = .NoOp }

/-! ### Ignored keys -/

theorem ignoreKeys_objects (name : String) (keys : List String) : ∀ (old new : List (String × Value)) (warnings : List String),
    ∃ warnings', keys.foldl (ignoreKey name) (.object old,.object new,warnings) =
      (without keys (.object old),without keys (.object new),warnings') := by
  induction keys with
  | nil =>
    intro old new warnings
    exact ⟨warnings,by simp [without]⟩
  | cons key keys ih =>
    intro old new warnings
    obtain ⟨warnings',rest⟩ := ih (old.filter fun entry => entry.1 ≠ key) (new.filter fun entry => entry.1 ≠ key)
      (warnings ++ ["ignoring changes to '" ++ key ++ "' on resource '" ++ name ++ "'"])
    refine ⟨warnings',?_⟩
    rw [List.foldl_cons,ignoreKey,rest]
    simp [without,List.filter_filter,Bool.and_comm]

theorem ignoreKeys_other (name : String) (keys : List String) {old new : Value} (other : ∀ a b, ¬ (old = .object a ∧ new = .object b)) (warnings : List String) :
    keys.foldl (ignoreKey name) (old,new,warnings) = (old,new,warnings) := by
  have idle : ∀ key, ignoreKey name (old,new,warnings) key = (old,new,warnings) := by
    intro key
    unfold ignoreKey
    split
    · rename_i a b w same
      simp only [Prod.mk.injEq] at same
      exact absurd ⟨same.1,same.2.1⟩ (other a b)
    · rfl
  induction keys with
  | nil => rfl
  | cons key keys ih => rw [List.foldl_cons,idle,ih]

/-- Leaving keys out one by one from two objects compares as leaving them all out. -/
theorem effective_eq (spec : ResourceSpec) (r : Resource) :
    (effective spec r).1.eq (effective spec r).2.1 =
      (without spec.lifecycle.ignore_changes r.spec.config).eq (without spec.lifecycle.ignore_changes spec.config) := by
  unfold effective
  cases old : r.spec.config with
  | object a =>
    cases new : spec.config with
    | object b =>
      obtain ⟨warnings,both⟩ := ignoreKeys_objects spec.name spec.lifecycle.ignore_changes a b []
      rw [both]
    | _ =>
      rw [ignoreKeys_other _ _ (by simp)]
      rfl
  | _ =>
    rw [ignoreKeys_other _ _ (by simp)]
    cases spec.config <;> rfl

theorem actionFor_due (existing : Option Resource) (spec : ResourceSpec) : actionFor existing spec = due existing spec := by
  cases existing with
  | none => rfl
  | some r =>
    simp only [actionFor,due,effective_eq]
    split
    · rfl
    · cases (without spec.lifecycle.ignore_changes r.spec.config).eq (without spec.lifecycle.ignore_changes spec.config) <;> rfl

/-! ### Dependencies -/

theorem mem_edges {desired : List ResourceSpec} (distinct : (names desired).Nodup) {dep name : String} :
    (dep,name) ∈ edges (names desired) desired ↔ Needs desired dep name := by
  have spec_of : ∀ spec ∈ desired, (specMap desired).lookup spec.name = some spec := fun spec there =>
    indexed_of_nodup (fun spec : ResourceSpec => spec.name) distinct there
  unfold edges Needs
  rw [List.mem_flatMap]
  constructor
  · rintro ⟨target,inside,edge⟩
    obtain ⟨spec,there,rfl⟩ := List.mem_map.1 inside
    rw [spec_of spec there] at edge
    obtain ⟨source,kept,same⟩ := List.mem_map.1 edge
    cases same
    obtain ⟨listed,known⟩ := List.mem_filter.1 kept
    exact ⟨by simpa using known,spec,there,rfl,listed⟩
  · rintro ⟨known,spec,there,rfl,listed⟩
    refine ⟨spec.name,List.mem_map_of_mem there,?_⟩
    rw [spec_of spec there]
    exact List.mem_map.2 ⟨dep,List.mem_filter.2 ⟨listed,by simpa using known⟩,rfl⟩

theorem Needs.inside {desired : List ResourceSpec} {dep name : String} (needs : Needs desired dep name) : dep ∈ names desired ∧ name ∈ names desired := by
  obtain ⟨known,spec,there,rfl,-⟩ := needs
  exact ⟨known,List.mem_map_of_mem there⟩

/-- There is a plan exactly when no dependencies lead around. -/
theorem plan_error_iff (it : Iteration) (current : ProvisionState) {desired : List ResourceSpec} (distinct : (names desired).Nodup) :
    (∃ e, plan it current desired = .error e) ↔ ¬ Cycles.Acyclic (Needs desired) := by
  have relation : (fun u v => (u,v) ∈ edges (names desired) desired) = Needs desired := by
    funext dep name
    exact propext (mem_edges distinct)
  have inside : ∀ e ∈ edges (names desired) desired, e.1 ∈ names desired ∧ e.2 ∈ names desired := fun e edge => ((mem_edges distinct).1 edge).inside
  have full := (sortedNames_sorted it desired).length_iff distinct inside
  rw [relation] at full
  rw [← full]
  unfold plan
  rw [topological_sort_eq]
  split
  · rename_i fails
    split at fails
    · rename_i short
      exact ⟨fun _ => short,fun _ => ⟨_,rfl⟩⟩
    · cases fails
  · rename_i sorted succeeds
    split at succeeds
    · cases succeeds
    · rename_i short
      exact ⟨fun ⟨e,error⟩ => (by cases error),fun other => absurd other short⟩

/-! ### The diff -/

theorem filter_key {α β : Type} [DecidableEq β] (key : α → β) {l : List α} (nodup : (l.map key).Nodup) {c : α} (there : c ∈ l) :
    l.filter (fun d => key d = key c) = [c] := by
  induction l with
  | nil => exact absurd there List.not_mem_nil
  | cons first l ih =>
    rw [List.map_cons,List.nodup_cons] at nodup
    rcases List.mem_cons.1 there with rfl | later
    · have none : l.filter (fun d => key d = key c) = [] := List.filter_eq_nil_iff.2 fun d inside => by
        simpa using fun same : key d = key c => nodup.1 (same ▸ List.mem_map_of_mem inside)
      simp [none]
    · have other : key first ≠ key c := fun same => nodup.1 (same ▸ List.mem_map_of_mem later)
      simp [other,ih nodup.2 later]

theorem actionsOn_of_mem {current : ProvisionState} {desired : List ResourceSpec} {p : Plan} (shape : Shape current desired p) {c : ResourceChange}
    (there : c ∈ p.changes) : actionsOn p c.resource_name = [c.action] := by
  rw [actionsOn,filter_key ResourceChange.resource_name shape.nodup there]
  rfl

theorem count_all (changes : List ResourceChange) : ∀ s : PlanSummary, changes.foldl (fun s c => s.count c.action) s =
    { creates := s.creates + changes.countP fun c => c.action = .Create
      updates := s.updates + changes.countP fun c => c.action = .Update
      destroys := s.destroys + changes.countP fun c => c.action = .Destroy
      replaces := s.replaces + changes.countP fun c => c.action = .Replace
      no_ops := s.no_ops + changes.countP fun c => c.action = .NoOp } := by
  induction changes with
  | nil => simp
  | cons c changes ih =>
    intro s
    rw [List.foldl_cons,ih]
    cases action : c.action <;> simp [PlanSummary.count,action] <;> omega

/-- The changes that are kept stand in front of the destroys. -/
theorem laid_split {it : Iteration} {s : ProvisionState} {desired : List ResourceSpec} {p : Plan} {kept : List ResourceChange}
    (laid : Laid it s desired p kept) : p.changes = kept ++ (PlanShape.unwanted it s desired).reverse ∧
      (∀ c ∈ kept, c.action ≠ .Destroy) ∧ ∀ c ∈ (PlanShape.unwanted it s desired).reverse, c.action = .Destroy := by
  refine ⟨by rw [laid.plan]; rfl,fun c there => ?_,fun c there => unwanted_action (List.mem_reverse.1 there)⟩
  obtain ⟨spec,-,rfl⟩ := (laid.mem c).1 there
  rw [changeFor_action]
  exact actionFor_ne_destroy _ _

theorem plan_diff {it : Iteration} {current : ProvisionState} {desired : List ResourceSpec} {p : Plan} (ok : plan it current desired = .ok p) :
    Diff current desired p := by
  have shape := plan_shape ok
  obtain ⟨kept,laid⟩ := plan_laid ok
  obtain ⟨changes,creating,destroying⟩ := laid_split laid
  refine ⟨fun spec there => ?_,fun name r stored absent => ?_,fun c there => ?_,fun a c b split mutates dep needs => ?_,
    ⟨kept,_,changes,creating,destroying⟩,?_⟩
  · have one := actionsOn_of_mem shape ((shape.mem (changeFor current spec).1).2 (.inl ⟨spec,there,rfl⟩))
    rwa [changeFor_name,changeFor_action,actionFor_due] at one
  · by_cases prevented : r.spec.lifecycle.prevent_destroy = true
    · rw [if_pos prevented,actionsOn,List.map_eq_nil_iff,List.filter_eq_nil_iff]
      intro c there named
      have named : c.resource_name = name := by simpa using named
      rcases (shape.mem c).1 there with ⟨spec,inside,rfl⟩ | ⟨other,r',stored',-,free,rfl⟩
      · rw [changeFor_name] at named
        exact absent (named ▸ List.mem_map_of_mem inside)
      · have same : other = name := named
        rw [same,stored] at stored'
        cases stored'
        rw [prevented] at free
        cases free
    · rw [if_neg prevented]
      exact actionsOn_of_mem shape ((shape.mem (destroyOf name r)).2 (.inr ⟨name,r,stored,absent,by simpa using prevented,rfl⟩))
  · rcases (shape.mem c).1 there with ⟨spec,inside,rfl⟩ | ⟨name,r,stored,-,-,rfl⟩
    · rw [changeFor_name]
      exact .inl (List.mem_map_of_mem inside)
    · refine .inr (AList.lookup_isSome.1 ?_)
      show (current.resources.lookup name).isSome = true
      rw [stored]
      rfl
  · -- The change stands among those that are kept, whose names are sorted.
    rw [changes] at split
    have inside : ∃ b', kept = a ++ c :: b' := by
      rcases List.append_eq_append_iff.1 split with ⟨more,front,back⟩ | ⟨more,front,back⟩
      · have there : c ∈ (PlanShape.unwanted it current desired).reverse := by rw [back]; simp
        exact absurd (destroying c there) mutates
      · cases more with
        | nil =>
          have there : c ∈ (PlanShape.unwanted it current desired).reverse := by rw [List.nil_append] at back; rw [← back]; simp
          exact absurd (destroying c there) mutates
        | cons d more =>
          rw [List.cons_append,List.cons.injEq] at back
          exact ⟨more,by rw [front,back.1]⟩
    obtain ⟨b',inside⟩ := inside
    have sorted : sortedNames it desired = a.map (·.resource_name) ++ c.resource_name :: b'.map (·.resource_name) := by
      rw [← laid.named,inside,List.map_append,List.map_cons]
    have before := (sortedNames_sorted it desired).ordered _ _ _ sorted dep ((mem_edges shape.distinct).2 needs)
    obtain ⟨d,there,named⟩ := List.mem_map.1 before
    exact ⟨d,there,named⟩
  · rw [laid.plan]
    simp only [Plan.from_changes]
    rw [count_all]
    simp

/-- Planning fails exactly when the desired resources depend on each other in a circle; otherwise the plan is the complete diff in order. -/
theorem plan_complete (it : Iteration) (current : ProvisionState) (desired : List ResourceSpec) (distinct : (desired.map ResourceSpec.name).Nodup) :
    ((∃ e, plan it current desired = .error e) ↔ ¬ Cycles.Acyclic (Needs desired)) ∧
      (Cycles.Acyclic (Needs desired) → ∃ p, plan it current desired = .ok p ∧ Diff current desired p) := by
  have fails := plan_error_iff it current distinct
  refine ⟨fails,fun acyclic => ?_⟩
  cases result : plan it current desired with
  | error e => exact absurd acyclic (fails.1 ⟨e,result⟩)
  | ok p => exact ⟨p,rfl,plan_diff result⟩

/-- Two pools of which the second depends on the first. -/
def chain : List ResourceSpec :=
  [⟨.AgentPool,"builders","agent_pool",.object [],["researchers"],.default⟩,⟨.AgentPool,"researchers","agent_pool",.object [],[],.default⟩]

def inOrder : Iteration := ⟨fun keys => keys,fun _ => .refl _⟩

theorem chain_complete : (chain.map ResourceSpec.name).Nodup ∧ ((∃ e, plan inOrder .new chain = .error e) ↔ ¬ Cycles.Acyclic (Needs chain)) ∧
    (Cycles.Acyclic (Needs chain) → ∃ p, plan inOrder .new chain = .ok p ∧ Diff .new chain p) :=
  ⟨by decide,plan_complete inOrder .new chain (by decide)⟩

/-! ### The order of the destroys -/

/-- A recorded resource whose stored spec depends on another one. -/
def StoredNeeds (current : ProvisionState) (dep name : String) : Prop := ∃ r, current.resources.lookup name = some r ∧ dep ∈ r.spec.depends_on

/-- A resource that is to be destroyed. -/
def Goes (current : ProvisionState) (desired : List ResourceSpec) (name : String) : Prop :=
  ∃ r, current.resources.lookup name = some r ∧ name ∉ names desired ∧ r.spec.lifecycle.prevent_destroy = false

/-- Of two destroys, the second one is not of a resource that depends on the first one's. -/
def DestroysOrdered (current : ProvisionState) (p : Plan) : Prop :=
  p.changes.Pairwise fun c d => c.action = .Destroy → d.action = .Destroy → ¬ StoredNeeds current c.resource_name d.resource_name

/-- The records are walked so that no resource to be destroyed comes before one that it depends on. -/
def WalkedUp (it : Iteration) (current : ProvisionState) (desired : List ResourceSpec) : Prop :=
  (it.order current.resources.keys).Pairwise fun x y => Goes current desired x → Goes current desired y → ¬ StoredNeeds current y x

/-- The destroy of a name, if it is destroyed. -/
def destroyed (current : ProvisionState) (desired : List ResourceSpec) (name : String) : Option ResourceChange :=
  ((current.resources.lookup name).map (destroyFor desired name)).bind Prod.fst

theorem destroyed_some {current : ProvisionState} {desired : List ResourceSpec} {name : String} {c : ResourceChange} :
    destroyed current desired name = some c ↔
      ∃ r, current.resources.lookup name = some r ∧ name ∉ names desired ∧ r.spec.lifecycle.prevent_destroy = false ∧ c = destroyOf name r := by
  unfold destroyed
  cases stored : current.resources.lookup name with
  | none => simp
  | some r =>
    simp only [Option.map_some,Option.bind_some,Option.some.injEq,exists_eq_left',destroyFor,specMap_mem]
    by_cases there : name ∈ names desired
    · simp [there]
    · cases prevented : r.spec.lifecycle.prevent_destroy <;> simp [there,destroyOf,eq_comm]

theorem unwanted_eq (it : Iteration) (current : ProvisionState) (desired : List ResourceSpec) :
    PlanShape.unwanted it current desired = (it.order current.resources.keys).filterMap (destroyed current desired) :=
  List.filterMap_filterMap

theorem ordered_iff (it : Iteration) (current : ProvisionState) (desired : List ResourceSpec) (p : Plan) (ok : plan it current desired = .ok p) :
    DestroysOrdered current p ↔ WalkedUp it current desired := by
  obtain ⟨kept,laid⟩ := plan_laid ok
  obtain ⟨changes,creating,-⟩ := laid_split laid
  unfold DestroysOrdered WalkedUp
  rw [changes,List.pairwise_append,List.pairwise_reverse,unwanted_eq,List.pairwise_filterMap]
  have front : kept.Pairwise fun c d => c.action = .Destroy → d.action = .Destroy → ¬ StoredNeeds current c.resource_name d.resource_name :=
    List.pairwise_of_forall_mem_list fun c there d _ destroys => absurd destroys (creating c there)
  have across : ∀ c ∈ kept, ∀ d ∈ ((it.order current.resources.keys).filterMap (destroyed current desired)).reverse,
      c.action = .Destroy → d.action = .Destroy → ¬ StoredNeeds current c.resource_name d.resource_name :=
    fun c there d _ destroys => absurd destroys (creating c there)
  rw [and_iff_right front,and_iff_left across]
  refine List.Pairwise.iff fun {x y} => ⟨fun apart => ?_,fun apart => ?_⟩
  · rintro ⟨r,storedX,absentX,freeX⟩ ⟨r',storedY,absentY,freeY⟩
    exact apart _ (destroyed_some.2 ⟨r,storedX,absentX,freeX,rfl⟩) _ (destroyed_some.2 ⟨r',storedY,absentY,freeY,rfl⟩) rfl rfl
  · intro c isX d isY _ _
    obtain ⟨r,storedX,absentX,freeX,rfl⟩ := destroyed_some.1 isX
    obtain ⟨r',storedY,absentY,freeY,rfl⟩ := destroyed_some.1 isY
    exact apart ⟨r,storedX,absentX,freeX⟩ ⟨r',storedY,absentY,freeY⟩

def backwards : Iteration := ⟨List.reverse,List.reverse_perm⟩

theorem Goes.recorded {current : ProvisionState} {desired : List ResourceSpec} {name : String} (goes : Goes current desired name) :
    name ∈ current.resources.keys := by
  obtain ⟨r,stored,-,-⟩ := goes
  rw [← AList.mem_keys,← AList.lookup_isSome,stored]
  rfl

/-- A walk and the reverse walk both go up only if there is nothing to go up. -/
theorem walked_both {current : ProvisionState} {desired : List ResourceSpec} (up : WalkedUp inOrder current desired)
    (down : WalkedUp backwards current desired) {x y : String}
    (differ : x ≠ y) (goesX : Goes current desired x) (goesY : Goes current desired y) : ¬ StoredNeeds current y x := by
  let apart (x y : String) : Prop := x ≠ y → Goes current desired x → Goes current desired y → ¬ StoredNeeds current y x
  have upwards : current.resources.keys.Pairwise apart := List.Pairwise.imp (fun {x y} (free : _ → _ → _) (_ : x ≠ y) => free) up
  have downwards : current.resources.keys.Pairwise (flip apart) :=
    List.Pairwise.imp (fun {x y} (free : _ → _ → _) (_ : y ≠ x) => free) (List.pairwise_reverse.1 down)
  have both := List.Pairwise.forall_of_forall_of_flip (fun x _ same => absurd rfl same) upwards downwards
  exact both goesX.recorded goesY.recorded differ goesX goesY

/-- The destroys are in order exactly when the records happen to be walked from dependencies to dependents; they are however the
    records are walked exactly when none of them depends on another. -/
theorem destroys_ordered (it : Iteration) (current : ProvisionState) (desired : List ResourceSpec) (p : Plan) (ok : plan it current desired = .ok p) :
    (DestroysOrdered current p ↔ WalkedUp it current desired) ∧
      ((∀ it' p', plan it' current desired = .ok p' → DestroysOrdered current p') ↔
        ∀ x y, x ≠ y → Goes current desired x → Goes current desired y → ¬ StoredNeeds current y x) := by
  refine ⟨ordered_iff it current desired p ok,fun always x y differ goesX goesY => ?_,fun apart it' p' ok' => ?_⟩
  · obtain ⟨up,okUp⟩ := plan_ok_of inOrder current ok
    obtain ⟨down,okDown⟩ := plan_ok_of backwards current ok
    exact walked_both ((ordered_iff _ _ _ up okUp).1 (always _ up okUp)) ((ordered_iff _ _ _ down okDown).1 (always _ down okDown)) differ goesX goesY
  · refine (ordered_iff it' current desired p' ok').2 ?_
    have distinct : (it'.order current.resources.keys).Nodup := (it'.perm _).nodup_iff.2 (AList.keys_nodup _)
    exact distinct.imp fun {x y} differ goesX goesY => apart x y differ goesX goesY

/-- A database and an application that depends on it, as they are recorded. -/
def recorded : ProvisionState :=
  (ProvisionState.new.upsert_resource (.from_spec ⟨.Storage,"db","agent_pool",.object [],[],.default⟩)).upsert_resource
    (.from_spec ⟨.AgentPool,"app","agent_pool",.object [],["db"],.default⟩)

def teardown (first second : String) : Plan :=
  .from_changes [⟨first,.Destroy,some (.object []),none,"resource removed from config"⟩,⟨second,.Destroy,some (.object []),none,"resource removed from config"⟩] []

/-- Walked from the database on, the application is destroyed first. -/
theorem app_first : (DestroysOrdered recorded (teardown "app" "db") ↔ WalkedUp backwards recorded []) ∧
    ((∀ it p, plan it recorded [] = .ok p → DestroysOrdered recorded p) ↔
      ∀ x y, x ≠ y → Goes recorded [] x → Goes recorded [] y → ¬ StoredNeeds recorded y x) :=
  destroys_ordered backwards recorded [] (teardown "app" "db") rfl

/-- Walked from the application on, the database is destroyed under it. -/
theorem db_first : plan inOrder recorded [] = .ok (teardown "db" "app") ∧ ¬ DestroysOrdered recorded (teardown "db" "app") := by
  refine ⟨rfl,fun ordered => ?_⟩
  have apart := List.rel_of_pairwise_cons ordered (List.mem_singleton_self _)
  exact apart rfl rfl ⟨.from_spec ⟨.AgentPool,"app","agent_pool",.object [],["db"],.default⟩,rfl,by decide⟩

end Daf.PlanOrder
