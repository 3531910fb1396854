import Daf.JsonAccess
import Daf.LedgerTasks
import Daf.PlanOrder
import Daf.ProvisionConvergence
import Daf.Runs

/-!
Deploying a topology: its pools, channels and pipelines as resources, the built-in providers, and what planning and
applying them from nothing comes to.
-/
namespace Daf.Topologies
open Daf.Json Daf.LedgerTasks Daf.ProvisionPlan Daf.ProvisionApply Daf.ProvisionSteps Daf.PlanShape Daf.Runs

/-! ### What is declared -/

structure AgentSpec where
  name : String
  count : UInt32
  kind : String
  capabilities : List String
  max_memory_bytes : Option UInt64
  extra : List (String × Value)

structure ChannelSpec where
  name : String
  from_ : String
  to_ : String
  protocol : String
  buffer_size : UInt32

structure StageSpec where
  name : String
  agent_pool : String
  parallel : Bool

structure PipelineSpec where
  name : String
  stages : List StageSpec

structure Topology where
  agents : List AgentSpec
  channels : List ChannelSpec
  pipelines : List PipelineSpec

def ResourceSpec.with_dependency (spec : ResourceSpec) (dep : String) : ResourceSpec := { spec with depends_on := spec.depends_on ++ [dep] }

def AgentSpec.config (a : AgentSpec) : Fields :=
  let fields : Fields := [("capabilities",.array (a.capabilities.map Value.string)),("count",.number (.int a.count.toNat)),("kind",.string a.kind)]
  match a.max_memory_bytes with
  | none => fields
  | some mem => insertField "max_memory_bytes" (.number (.int mem.toNat)) fields

def AgentSpec.to_resource_spec (a : AgentSpec) : ResourceSpec :=
  (ResourceSpec.new .AgentPool a.name "agent_pool").with_config (.object (a.extra.foldl (fun fields entry => insertField entry.1 entry.2 fields) a.config))

def ChannelSpec.to_resource_spec (c : ChannelSpec) : ResourceSpec :=
  let spec := (ResourceSpec.new .Channel c.name "channel").with_config
    (.object [("buffer_size",.number (.int c.buffer_size.toNat)),("from",.string c.from_),("protocol",.string c.protocol),("to",.string c.to_)])
  ResourceSpec.with_dependency (ResourceSpec.with_dependency spec c.from_) c.to_

def StageSpec.json (s : StageSpec) : Value := .object [("agent_pool",.string s.agent_pool),("name",.string s.name),("parallel",.bool s.parallel)]

def PipelineSpec.to_resource_spec (p : PipelineSpec) : ResourceSpec :=
  p.stages.foldl (fun spec stage => ResourceSpec.with_dependency spec stage.agent_pool)
    ((ResourceSpec.new .Pipeline p.name "pipeline").with_config (.object [("stages",.array (p.stages.map StageSpec.json))]))

/-- Pools first, then channels, then pipelines. -/
def Topology.to_resource_specs (t : Topology) : List ResourceSpec :=
  t.agents.map AgentSpec.to_resource_spec ++ t.channels.map ChannelSpec.to_resource_spec ++ t.pipelines.map PipelineSpec.to_resource_spec

/-- The names that a list repeats, each as often as it does. -/
def repeated : List String → List String → List String
  | _,[] => []
  | seen,name :: rest => if name ∈ seen then name :: repeated seen rest else repeated (seen ++ [name]) rest

def Topology.validate (t : Topology) : List String :=
  let agent_names := t.agents.map AgentSpec.name
  (t.channels.flatMap fun channel =>
    (if channel.from_ ∈ agent_names then [] else ["channel '" ++ channel.name ++ "': source '" ++ channel.from_ ++ "' is not a known agent pool"]) ++
      (if channel.to_ ∈ agent_names then [] else ["channel '" ++ channel.name ++ "': target '" ++ channel.to_ ++ "' is not a known agent pool"])) ++
  (t.pipelines.flatMap fun pipeline => pipeline.stages.flatMap fun stage =>
    if stage.agent_pool ∈ agent_names then []
    else ["pipeline '" ++ pipeline.name ++ "' stage '" ++ stage.name ++ "': agent_pool '" ++ stage.agent_pool ++ "' is not a known agent pool"]) ++
  (repeated [] (agent_names ++ t.channels.map ChannelSpec.name ++ t.pipelines.map PipelineSpec.name)).map fun name => "duplicate resource name: '" ++ name ++ "'"

/-! ### The built-in providers -/

/-- A provider whose creates never fail; what it draws are ids. -/
structure Provider where
  validate : Value → List String
  create : (Nat → String) → Value → ProviderResult

def agentKinds : List String := ["orchestrator","specialist","worker","monitor","router"]

def AgentPoolProvider.validate (config : Value) : List String :=
  (match config.get "count" with
    | none => ["'count' is required"]
    | some count => if !count.is_number then ["'count' must be a number"] else if count.as_u64 = some 0 then ["'count' must be > 0"] else []) ++
  match config.get "kind" with
  | none => []
  | some kind =>
    match kind.as_str with
    | some s => if s ∈ agentKinds then [] else ["'kind' must be one of: " ++ String.intercalate ", " agentKinds]
    | none => ["'kind' must be a string"]

def AgentPoolProvider.create (draw : Nat → String) (config : Value) : ProviderResult :=
  let count := ((config.get "count").bind Value.as_u64).getD 1
  let pool_id := "pool-" ++ draw 0
  ⟨pool_id,[("pool_id",.string pool_id),("agent_ids",.array ((List.range count).map fun i => .string (draw (i + 1)))),("count",.number (.int count)),
    ("kind",.string (((config.get "kind").bind Value.as_str).getD "worker"))]⟩

def ChannelProvider.validate (config : Value) : List String :=
  (if ((config.get "from").bind Value.as_str).isNone then ["'from' is required and must be a string"] else []) ++
    if ((config.get "to").bind Value.as_str).isNone then ["'to' is required and must be a string"] else []

def ChannelProvider.create (draw : Nat → String) (config : Value) : ProviderResult :=
  let text (key default : String) : Value := .string (((config.get key).bind Value.as_str).getD default)
  let channel_id := "chan-" ++ draw 0
  ⟨channel_id,[("channel_id",.string channel_id),("from",text "from" "unknown"),("to",text "to" "unknown"),("protocol",text "protocol" "direct"),
    ("buffer_size",.number (.int (((config.get "buffer_size").bind Value.as_u64).getD 1024)))]⟩

def PipelineProvider.validate (config : Value) : List String :=
  match config.get "stages" with
  | none => ["'stages' is required"]
  | some v =>
    match v.as_array with
    | none => ["'stages' must be an array"]
    | some stages =>
      (if stages = [] then ["'stages' must not be empty"] else []) ++
        stages.zipIdx.flatMap fun (stage,i) =>
          (if ((stage.get "name").bind Value.as_str).isNone then ["stage[" ++ toString i ++ "] must have a 'name' field"] else []) ++
            if ((stage.get "agent_pool").bind Value.as_str).isNone then ["stage[" ++ toString i ++ "] must have an 'agent_pool' field"] else []

def PipelineProvider.create (draw : Nat → String) (config : Value) : ProviderResult :=
  let stages := ((config.get "stages").bind Value.as_array).getD []
  let pipeline_id := "pipe-" ++ draw 0
  ⟨pipeline_id,[("pipeline_id",.string pipeline_id),("stage_count",.number (.int stages.length)),("stages",.array stages)]⟩

def with_builtins (name : String) : Option Provider :=
  if name = "agent_pool" then some ⟨AgentPoolProvider.validate,AgentPoolProvider.create⟩
  else if name = "channel" then some ⟨ChannelProvider.validate,ChannelProvider.create⟩
  else if name = "pipeline" then some ⟨PipelineProvider.validate,PipelineProvider.create⟩
  else none

/-- The provider that a change is for answers as the built-in one of its name does. -/
def Answers (env : Env) (w : Walk) (change : ResourceChange) : Prop :=
  ∀ name provider, providerName w.exec.state change = some name → with_builtins name = some provider →
    env.validate w.exec.tick = provider.validate (change.after.getD .null) ∧
      ∃ draw, env.create (w.exec.tick + 1) name = .ok (provider.create draw (change.after.getD .null))

/-- An apply to the built-in providers, with a store that does not fail. -/
structure BuiltIn (env : Env) (options : ApplyOptions) (p : Plan) (x : Exec) : Prop where
  registered : ∀ name, env.registered name = (with_builtins name).isSome
  saves : ∀ call, env.save call = .ok ()
  answers : Every (applyNext env options (build_dependency_map p)) (Answers env) ⟨[],[],x⟩ p.mutating_changes

/-! ### Deploying -/

def fresh : Exec := ⟨.new,0,[]⟩

/-- The resource that a call is for. -/
def resource : Event → String
  | .create _ name _ _ => name
  | .update name _ _ _ => name
  | .delete name _ _ _ _ => name

/-- Every resource was created once, by its own provider and behind those that it refers to, and it is recorded as it was declared. -/
structure Deployed (specs : List ResourceSpec) (result : ApplyResult) (x : Exec) : Prop where
  success : result.success = true
  created : ∀ spec ∈ specs, ∃ call answer, x.trace.filter (fun e => resource e = spec.name) = [.create call spec.name spec.provider (.ok answer)]
  only : ∀ e ∈ x.trace, resource e ∈ names specs
  behind : ∀ a e b, x.trace = a ++ e :: b → ∀ spec ∈ specs, spec.name = resource e → ∀ dep ∈ spec.depends_on, ∃ d ∈ a, resource d = dep
  recorded : ∀ spec ∈ specs, ∃ r, record x spec.name = some r ∧ r.spec.type_ = spec.type_ ∧ r.spec.provider = spec.provider ∧ r.spec.config = spec.config
  nothing_else : ∀ name r, record x name = some r → name ∈ names specs

/-- There is a plan from nothing, and applying it deploys the resources. -/
def Deploys (env : Env) (options : ApplyOptions) (it : Iteration) (t : Topology) : Prop :=
  ∃ p, plan it .new t.to_resource_specs = .ok p ∧ Deployed t.to_resource_specs (apply env options p fresh).1 (apply env options p fresh).2

/-- A pool whose count and kind are those that the provider takes, and whose config has no other keys. -/
def Standard (a : AgentSpec) : Prop := 0 < a.count ∧ a.kind ∈ agentKinds ∧ a.extra = []

theorem standard_valid {a : AgentSpec} (standard : Standard a) : AgentPoolProvider.validate a.to_resource_spec.config = [] := by
  obtain ⟨some_agents,kind,plain⟩ := standard
  have positive : 0 < a.count.toNat := some_agents
  have small : a.count.toNat < 2^32 := a.count.toNat_lt
  have counted : (Value.number (.int a.count.toNat)).as_u64 = some a.count.toNat := by
    have bounds : (0 : Int) ≤ (a.count.toNat : Int) ∧ (a.count.toNat : Int) < 2^64 := ⟨by omega,by omega⟩
    simp only [Value.as_u64,if_pos bounds]
    rfl
  have count : a.to_resource_spec.config.get "count" = some (.number (.int a.count.toNat)) := by
    simp only [AgentSpec.to_resource_spec,plain,List.foldl_nil,ResourceSpec.with_config,AgentSpec.config,Value.get]
    cases a.max_memory_bytes <;> rfl
  have kind_of : a.to_resource_spec.config.get "kind" = some (.string a.kind) := by
    simp only [AgentSpec.to_resource_spec,plain,List.foldl_nil,ResourceSpec.with_config,AgentSpec.config,Value.get]
    cases a.max_memory_bytes <;> rfl
  unfold AgentPoolProvider.validate
  rw [count,kind_of]
  simp only [Value.is_number,counted,Value.as_str,kind]
  simp
  omega

theorem repeated_nil (l : List String) : ∀ seen, repeated seen l = [] → l.Nodup ∧ ∀ name ∈ l, name ∉ seen := by
  induction l with
  | nil => exact fun _ _ => ⟨List.nodup_nil,by simp⟩
  | cons name l ih =>
    intro seen none
    unfold repeated at none
    split at none
    · cases none
    · rename_i new
      obtain ⟨distinct,apart⟩ := ih _ none
      refine ⟨List.nodup_cons.2 ⟨fun there => apart name there (by simp),distinct⟩,fun other there => ?_⟩
      rcases List.mem_cons.1 there with rfl | later
      · exact new
      · exact fun old => apart other later (by simp [old])

section
variable {env : Env} {options : ApplyOptions} {dep_map : AList (fun _ : String => List String)} {w : Walk} {change : ResourceChange} {config : Value}

/-- The create of an agent pool that is not there, by its provider. -/
theorem create_pool (wet : options.dry_run = false) (empty : ∀ name, (dep_map.lookup name).getD [] = []) (saves : ∀ call, env.save call = .ok ())
    (registered : env.registered "agent_pool" = true) (create : change.action = .Create) (after : change.after = some config)
    (valid : AgentPoolProvider.validate config = []) (absent : record w.exec change.resource_name = none) (answers : Answers env w change) :
    ∃ answer, applyNext env options dep_map w change =
      { progress := w.progress ++ [⟨change.resource_name,.Create,.Succeeded⟩]
        failed := w.failed
        exec :=
          { state := (w.exec.state.upsert_resource (createdResource change.resource_name "agent_pool" config answer)).bump
            tick := w.exec.tick + 3
            trace := w.exec.trace ++ [.create (w.exec.tick + 1) change.resource_name "agent_pool" (.ok answer)] } } := by
  have lookup : w.exec.state.get_resource change.resource_name = none := absent
  have named : providerName w.exec.state change = some "agent_pool" := by simp [providerName,lookup,after]
  obtain ⟨validated,draw,created⟩ := answers "agent_pool" ⟨AgentPoolProvider.validate,AgentPoolProvider.create⟩ named rfl
  rw [after,Option.getD_some] at validated created
  replace validated : env.validate w.exec.tick = [] := validated.trans valid
  refine ⟨AgentPoolProvider.create draw config,?_⟩
  unfold applyNext
  rw [if_neg (by simp [empty])]
  simp [apply_single_change,wet,named,registered,applyAction,create,applyCreate,callValidate,validated,after,createAndRecord,callCreate,created,save,saves]

/-- A walk over creates of agent pools that are not there. -/
theorem walk_creates (wet : options.dry_run = false) (empty : ∀ name, (dep_map.lookup name).getD [] = []) (saves : ∀ call, env.save call = .ok ())
    (registered : env.registered "agent_pool" = true) (changes : List ResourceChange) : ∀ w : Walk, (changes.map ResourceChange.resource_name).Nodup →
      (∀ c ∈ changes, c.action = .Create ∧ ∃ config, c.after = some config ∧ AgentPoolProvider.validate config = []) →
      (∀ c ∈ changes, record w.exec c.resource_name = none) → Every (applyNext env options dep_map) (Answers env) w changes →
      (changes.foldl (applyNext env options dep_map) w).progress = w.progress ++ changes.map (fun c => ⟨c.resource_name,.Create,.Succeeded⟩) ∧
      (∃ es, (changes.foldl (applyNext env options dep_map) w).exec.trace = w.exec.trace ++ es ∧ es.map resource = changes.map ResourceChange.resource_name ∧
        ∀ e ∈ es, ∃ call name answer, e = .create call name "agent_pool" (.ok answer)) ∧
      (∀ c ∈ changes, ∃ answer, record (changes.foldl (applyNext env options dep_map) w).exec c.resource_name =
        some (createdResource c.resource_name "agent_pool" (c.after.getD .null) answer)) ∧
      ∀ name, name ∉ changes.map ResourceChange.resource_name →
        record (changes.foldl (applyNext env options dep_map) w).exec name = record w.exec name := by
  induction changes with
  | nil => exact fun w _ _ _ _ => ⟨by simp,⟨[],by simp⟩,by simp,fun _ _ => rfl⟩
  | cons change changes ih =>
    intro w distinct creates absent answers
    rw [List.map_cons,List.nodup_cons] at distinct
    obtain ⟨create,config,after,valid⟩ := creates change List.mem_cons_self
    obtain ⟨answer,next⟩ := create_pool wet empty saves registered create after valid (absent change List.mem_cons_self) answers.1
    have name : (createdResource change.resource_name "agent_pool" config answer).name = change.resource_name := by rw [Resource.name,createdResource_spec]
    have here : record (applyNext env options dep_map w change).exec change.resource_name =
      some (createdResource change.resource_name "agent_pool" config answer) := by
      rw [next]
      show (w.exec.state.resources.insert _ _).lookup _ = _
      rw [name]
      exact AList.lookup_insert _
    have frame : ∀ other, other ≠ change.resource_name → record (applyNext env options dep_map w change).exec other = record w.exec other := by
      intro other differs
      rw [next]
      show (w.exec.state.resources.insert _ _).lookup _ = _
      rw [name]
      exact AList.lookup_insert_ne differs
    have still : ∀ c ∈ changes, record (applyNext env options dep_map w change).exec c.resource_name = none := by
      intro c there
      rw [frame _ fun same => distinct.1 (same ▸ List.mem_map_of_mem there)]
      exact absent c (List.mem_cons_of_mem _ there)
    obtain ⟨progress,⟨es,trace,calls,each⟩,recorded,others⟩ := ih (applyNext env options dep_map w change) distinct.2
      (fun c there => creates c (List.mem_cons_of_mem _ there)) still answers.2
    rw [List.foldl_cons]
    refine ⟨?_,⟨.create (w.exec.tick + 1) change.resource_name "agent_pool" (.ok answer) :: es,?_,?_,?_⟩,?_,fun other away => ?_⟩
    · rw [progress,next]
      simp
    · rw [trace,next]
      simp
    · rw [List.map_cons,List.map_cons,calls]
      rfl
    · intro e there
      rcases List.mem_cons.1 there with rfl | later
      · exact ⟨_,_,_,rfl⟩
      · exact each e later
    · intro c there
      rcases List.mem_cons.1 there with rfl | later
      · refine ⟨answer,?_⟩
        rw [others _ distinct.1,here,after]
        rfl
      · exact recorded c later
    · rw [List.map_cons,List.mem_cons,not_or] at away
      rw [others other away.2,frame other away.1]

/-- What is recorded of a resource that was created without a record is an agent pool's. -/
theorem created_pool {tick : Nat} {name : String} {es : List Event} {after : Option Resource}
    (did : Did env tick name "agent_pool" config none .Create true es after) :
    ∃ answer, after = some (createdResource name "agent_pool" config answer) := by
  cases did with
  | created answer saved valid => exact ⟨answer,rfl⟩

end

/-! ### Planning from nothing -/

section
variable {it : Iteration} {specs : List ResourceSpec} {p : Plan}

theorem mem_changes (ok : plan it .new specs = .ok p) (c : ResourceChange) : c ∈ p.changes ↔ ∃ spec ∈ specs, c = (changeFor .new spec).1 := by
  rw [(plan_shape ok).mem c]
  refine or_iff_left ?_
  rintro ⟨name,r,stored,-⟩
  cases stored

theorem mutating_all (ok : plan it .new specs = .ok p) : p.mutating_changes = p.changes := by
  refine List.filter_eq_self.2 fun c there => ?_
  obtain ⟨spec,-,rfl⟩ := (mem_changes ok c).1 there
  rfl

/-- What is changed is what is declared. -/
theorem mem_changed (ok : plan it .new specs = .ok p) (name : String) :
    name ∈ p.mutating_changes.map ResourceChange.resource_name ↔ ∃ spec ∈ specs, spec.name = name := by
  rw [mutating_all ok,List.mem_map]
  constructor
  · rintro ⟨c,inside,rfl⟩
    obtain ⟨spec,declared,rfl⟩ := (mem_changes ok c).1 inside
    exact ⟨spec,declared,rfl⟩
  · rintro ⟨spec,declared,rfl⟩
    exact ⟨_,(mem_changes ok _).2 ⟨spec,declared,rfl⟩,rfl⟩

/-- Resources that need no others can be planned. -/
theorem plan_alone (it : Iteration) (distinct : (names specs).Nodup) (alone : ∀ spec ∈ specs, spec.depends_on = []) :
    ∃ p, plan it .new specs = .ok p := by
  have acyclic : Cycles.Acyclic (PlanOrder.Needs specs) := by
    intro name around
    obtain ⟨dep,-,-,spec,there,-,listed⟩ := Relation.TransGen.tail'_iff.1 around
    rw [alone spec there] at listed
    exact absurd listed List.not_mem_nil
  cases result : plan it .new specs with
  | error e => exact absurd acyclic ((PlanOrder.plan_error_iff it .new distinct).1 ⟨e,result⟩)
  | ok p => exact ⟨p,rfl⟩

/-- Where nothing has failed, the apply ends as the walk does. -/
theorem apply_ends {env : Env} {options : ApplyOptions} {x : Exec}
    (fine : ∀ entry ∈ (walk env options p x).progress, entry.status = .Succeeded) :
    (apply env options p x).1.success = true ∧ (apply env options p x).2 = (walk env options p x).exec := by
  have none_failed : (walk env options p x).progress.countP (fun entry => entry.status.is_failed) = 0 := by
    refine List.countP_eq_zero.mpr fun entry there => ?_
    rw [fine entry there]
    simp [ApplyStatus.is_failed]
  unfold apply
  by_cases nothing : p.mutating_changes = []
  · rw [if_pos nothing]
    exact ⟨rfl,by simp [walk,nothing]⟩
  · rw [if_neg nothing]
    simp [none_failed]

/-- Whatever has been deployed belongs to the provider of the agent pools. -/
theorem deployed_pools {env : Env} {options : ApplyOptions} (wet : options.dry_run = false) (ok : plan it .new specs = .ok p)
    (deployed : Deployed specs (apply env options p fresh).1 (apply env options p fresh).2) : ∀ spec ∈ specs, spec.provider = "agent_pool" := by
  intro spec there
  obtain ⟨-,done⟩ := ProvisionConvergence.apply_success wet p (plan_shape ok).nodup fresh deployed.success
  obtain ⟨tick,es,did⟩ := done (changeFor .new spec).1 (by rw [mutating_all ok]; exact (mem_changes ok _).2 ⟨spec,there,rfl⟩)
  obtain ⟨answer,made⟩ := created_pool did
  obtain ⟨r,stored,-,provider,-⟩ := deployed.recorded spec there
  replace made : record (apply env options p fresh).2 spec.name = some (createdResource spec.name "agent_pool" spec.config answer) := made
  rw [stored,Option.some.injEq] at made
  rw [← provider,made,createdResource_spec]

end

theorem pipeline_spec (p : PipelineSpec) : p.to_resource_spec.provider = "pipeline" ∧ p.to_resource_spec.name = p.name := by
  unfold PipelineSpec.to_resource_spec
  have all : ∀ (stages : List StageSpec) (spec : ResourceSpec), spec.provider = "pipeline" ∧ spec.name = p.name →
      (stages.foldl (fun spec stage => ResourceSpec.with_dependency spec stage.agent_pool) spec).provider = "pipeline" ∧
        (stages.foldl (fun spec stage => ResourceSpec.with_dependency spec stage.agent_pool) spec).name = p.name := by
    intro stages
    induction stages with
    | nil => exact fun spec start => start
    | cons stage stages ih => exact fun spec start => ih _ start
  exact all p.stages _ ⟨rfl,rfl⟩

theorem specs_names (t : Topology) : names t.to_resource_specs = t.agents.map AgentSpec.name ++ t.channels.map ChannelSpec.name ++
    t.pipelines.map PipelineSpec.name := by
  unfold names Topology.to_resource_specs
  rw [List.map_append,List.map_append,List.map_map,List.map_map,List.map_map]
  congr 1
  exact List.map_congr_left fun p _ => (pipeline_spec p).2

theorem valid_distinct {t : Topology} (valid : t.validate = []) : (names t.to_resource_specs).Nodup := by
  unfold Topology.validate at valid
  rw [List.append_eq_nil_iff,List.map_eq_nil_iff] at valid
  rw [specs_names]
  exact (repeated_nil _ [] valid.2).1

/-- Pools alone are deployed. -/
theorem pools_deploy {env : Env} {options : ApplyOptions} {it : Iteration} {t : Topology} (valid : t.validate = []) (standard : ∀ a ∈ t.agents, Standard a)
    (wet : options.dry_run = false) (builtin : ∀ p, plan it .new t.to_resource_specs = .ok p → BuiltIn env options p fresh)
    (channels : t.channels = []) (pipelines : t.pipelines = []) : Deploys env options it t := by
  have specs : t.to_resource_specs = t.agents.map AgentSpec.to_resource_spec := by simp [Topology.to_resource_specs,channels,pipelines]
  have distinct := valid_distinct valid
  have alone : ∀ spec ∈ t.to_resource_specs, spec.depends_on = [] ∧ spec.type_ = .AgentPool ∧ spec.provider = "agent_pool" ∧
      AgentPoolProvider.validate spec.config = [] := by
    intro spec there
    rw [specs] at there
    obtain ⟨a,inside,rfl⟩ := List.mem_map.1 there
    exact ⟨rfl,rfl,rfl,standard_valid (standard a inside)⟩
  obtain ⟨p,ok⟩ := plan_alone it distinct fun spec there => (alone spec there).1
  obtain ⟨registered,saves,answers⟩ := builtin p ok
  have shape := plan_shape ok
  obtain ⟨progress,⟨es,trace,calls,each⟩,recorded,others⟩ :=
    walk_creates wet (dependency_map_empty p) saves (registered "agent_pool") p.mutating_changes ⟨[],[],fresh⟩
    (by rw [mutating_all ok]; exact shape.nodup)
    (fun c there => by
      rw [mutating_all ok] at there
      obtain ⟨spec,inside,rfl⟩ := (mem_changes ok c).1 there
      exact ⟨rfl,spec.config,rfl,(alone spec inside).2.2.2⟩)
    (fun c _ => rfl) answers
  have ends : (apply env options p fresh).1.success = true ∧ (apply env options p fresh).2 = (walk env options p fresh).exec := by
    refine apply_ends fun entry there => ?_
    rw [walk,progress,List.nil_append] at there
    obtain ⟨c,-,rfl⟩ := List.mem_map.1 there
    rfl
  have names_of : p.mutating_changes.map ResourceChange.resource_name = p.changes.map ResourceChange.resource_name := by rw [mutating_all ok]
  replace trace : (walk env options p fresh).exec.trace = es := trace
  have change_of : ∀ spec ∈ t.to_resource_specs, (changeFor .new spec).1 ∈ p.mutating_changes := fun spec there => by
    rw [mutating_all ok]
    exact (mem_changes ok _).2 ⟨spec,there,rfl⟩
  have calls_nodup : (es.map resource).Nodup := by rw [calls,names_of]; exact shape.nodup
  refine ⟨p,ok,?_⟩
  rw [ends.2]
  refine ⟨ends.1,fun spec there => ?_,fun e there => ?_,fun a e b _ spec there _ dep needs => ?_,fun spec there => ?_,fun name r stored => ?_⟩
  · have called : spec.name ∈ es.map resource := by
      rw [calls]
      exact (mem_changed ok _).2 ⟨spec,there,rfl⟩
    obtain ⟨e,inside,same⟩ := List.mem_map.1 called
    obtain ⟨call,name,answer,rfl⟩ := each e inside
    replace same : name = spec.name := same
    refine ⟨call,answer,?_⟩
    rw [trace,(alone spec there).2.2.1,← same]
    exact PlanOrder.filter_key resource calls_nodup inside
  · rw [trace] at there
    have called := List.mem_map_of_mem (f := resource) there
    rw [calls] at called
    obtain ⟨spec,declared,same⟩ := (mem_changed ok _).1 called
    exact same ▸ List.mem_map_of_mem declared
  · rw [(alone spec there).1] at needs
    exact absurd needs List.not_mem_nil
  · obtain ⟨answer,made⟩ := recorded _ (change_of spec there)
    refine ⟨_,made,?_⟩
    rw [createdResource_spec]
    exact ⟨(alone spec there).2.1.symm,(alone spec there).2.2.1.symm,rfl⟩
  · by_contra undeclared
    have away : name ∉ p.mutating_changes.map ResourceChange.resource_name := by
      intro called
      obtain ⟨spec,declared,same⟩ := (mem_changed ok name).1 called
      exact undeclared (same ▸ List.mem_map_of_mem declared)
    have before := others name away
    rw [← walk,stored] at before
    cases before

/-- A valid topology of standard pools is deployed exactly when it has pools alone: channels and pipelines are taken for agent pools. -/
theorem topology_deploys (env : Env) (options : ApplyOptions) (it : Iteration) (t : Topology) (valid : t.validate = []) (standard : ∀ a ∈ t.agents, Standard a)
    (wet : options.dry_run = false) (builtin : ∀ p, plan it .new t.to_resource_specs = .ok p → BuiltIn env options p fresh) :
    Deploys env options it t ↔ t.channels = [] ∧ t.pipelines = [] := by
  refine ⟨fun ⟨p,ok,deployed⟩ => ?_,fun ⟨channels,pipelines⟩ => pools_deploy valid standard wet builtin channels pipelines⟩
  have pools := deployed_pools wet ok deployed
  refine ⟨List.eq_nil_iff_forall_not_mem.2 fun c there => ?_,List.eq_nil_iff_forall_not_mem.2 fun p there => ?_⟩
  · have provider := pools c.to_resource_spec (by simp only [Topology.to_resource_specs,List.mem_append,List.mem_map]; exact .inl (.inr ⟨c,there,rfl⟩))
    replace provider : "channel" = "agent_pool" := provider
    exact absurd provider (by decide)
  · have provider := pools p.to_resource_spec (by simp only [Topology.to_resource_specs,List.mem_append,List.mem_map]; exact .inr ⟨p,there,rfl⟩)
    rw [(pipeline_spec p).1] at provider
    exact absurd provider (by decide)

def workers : AgentSpec := ⟨"workers",3,"worker",[],none,[]⟩

def talk : ChannelSpec := ⟨"talk","workers","workers","direct",1024⟩

def draw (n : Nat) : String := toString n

/-- The built-in providers on pools of workers, and as they take a channel for a pool. -/
def workerProviders : Env where
  registered name := (with_builtins name).isSome
  validate call := if call = 3 then ["'count' is required"] else []
  create call _ := .ok (AgentPoolProvider.create draw (if call = 1 then workers.to_resource_spec.config else talk.to_resource_spec.config))
  update _ := .ok (AgentPoolProvider.create draw workers.to_resource_spec.config)
  delete _ := .ok ()
  save _ := .ok ()

def createOf (name : String) (config : Value) : ResourceChange := ⟨name,.Create,none,some config,"resource does not exist"⟩

theorem workers_deploy : Deploys workerProviders ⟨false,true⟩ PlanOrder.inOrder ⟨[workers],[],[]⟩ := by
  have deploys := topology_deploys workerProviders ⟨false,true⟩ PlanOrder.inOrder ⟨[workers],[],[]⟩ (by decide)
    (fun a there => by rw [List.mem_singleton.1 there]; exact ⟨by decide,by decide,rfl⟩) rfl fun p ok => by
      have plan : Except.ok (Plan.from_changes [createOf "workers" workers.to_resource_spec.config] []) = Except.ok p := ok
      cases plan
      refine ⟨fun _ => rfl,fun _ => rfl,⟨fun name provider named builtin => ?_,trivial⟩⟩
      cases named
      cases builtin
      exact ⟨rfl,draw,rfl⟩
  exact deploys.2 ⟨rfl,rfl⟩

/-- A pool with a channel to itself. -/
def talking : Topology := ⟨[workers],[talk],[]⟩

theorem talking_not_deployed : talking.validate = [] ∧ (∀ a ∈ talking.agents, Standard a) ∧ (∀ p ∈ talking.pipelines, p.stages ≠ []) ∧
    (∀ p, plan PlanOrder.inOrder .new talking.to_resource_specs = .ok p → BuiltIn workerProviders ⟨false,true⟩ p fresh) ∧
    ¬ Deploys workerProviders ⟨false,true⟩ PlanOrder.inOrder talking := by
  refine ⟨by decide,fun a there => ?_,fun p there => absurd there List.not_mem_nil,fun p ok => ?_,fun ⟨p,ok,deployed⟩ => ?_⟩
  · rw [List.mem_singleton.1 there]
    exact ⟨by decide,by decide,rfl⟩
  · have plan : Except.ok (Plan.from_changes [createOf "workers" workers.to_resource_spec.config,
        createOf "talk" talk.to_resource_spec.config] []) = Except.ok p := ok
    cases plan
    refine ⟨fun _ => rfl,fun _ => rfl,⟨fun name provider named builtin => ?_,fun name provider named builtin => ?_,trivial⟩⟩
    · cases named
      cases builtin
      exact ⟨rfl,draw,rfl⟩
    · cases named
      cases builtin
      exact ⟨rfl,draw,rfl⟩
  · have provider := deployed_pools rfl ok deployed talk.to_resource_spec
      (by simp [talking,Topology.to_resource_specs])
    replace provider : "channel" = "agent_pool" := provider
    exact absurd provider (by decide)

end Daf.Topologies
