import Daf.SpecialistRouting
import Daf.UuidText

/-!
The load of the agents as the orchestrator and its router count it: dispatching, the two
ways in which a dispatch is taken back, completions, removals, and the leases that
missions hold on their agents while a worker executes.
-/
namespace Daf.LoadAccounting
open Daf.GraphNodes Daf.MissionPlan Daf.SpecialistRouting

structure AgentEntry where
  manifest : AgentManifest
  status : AgentStatus
  active_tasks : Nat

/-- The future of a mission. It holds the lease of its current task from the dispatch to the end of the attempt. -/
inductive MissionFuture where
  | running (lease : Option AgentId)
  /-- It returned or was dropped. -/
  | over
deriving DecidableEq,Repr

/-- What is recorded of the calls; a task is taken and completed by a mission or by a caller of the orchestrator. -/
inductive Event where
  | taken (holder : Option Nat) (agent : AgentId)
  | completed (holder : Option Nat) (agent : AgentId)
  | spawned (agent : AgentId)
  | removed (agent : AgentId)
deriving DecidableEq,Repr

structure Orchestrator where
  max_tasks_per_agent : Nat
  workers : Finset AgentId
  agents : AList (fun _ : AgentId => AgentEntry)
  router : SpecialistRouter
  shutdown_flag : Bool
  /-- The futures of the missions in the order in which they were started. -/
  missions : List MissionFuture
  trace : List Event

def Orchestrator.with_config (max_tasks_per_agent : Nat) : Orchestrator := ⟨max_tasks_per_agent,∅,∅,.new,false,[],[]⟩

/-! ### The calls -/

def Orchestrator.spawn_agent (o : Orchestrator) (manifest : AgentManifest) : Orchestrator :=
  { o with
    agents := o.agents.insert manifest.id ⟨manifest,.Idle,0⟩
    router := o.router.register_agent manifest
    trace := o.trace ++ [.spawned manifest.id] }

def Orchestrator.register_worker (o : Orchestrator) (id : AgentId) : Orchestrator :=
  if (o.agents.lookup id).isSome then { o with workers := insert id o.workers } else o

def Orchestrator.remove_agent (o : Orchestrator) (agent_id : AgentId) : Orchestrator :=
  match o.agents.lookup agent_id with
  | none => o
  | some _ => { o with
      agents := o.agents.erase agent_id
      workers := o.workers.erase agent_id
      router := o.router.deregister_agent agent_id
      trace := o.trace ++ [.removed agent_id] }

def slotsExhausted : DispatchError := .daf (.ResourceExhausted "agent task slots")

def Orchestrator.dispatch_executable_task (o : Orchestrator) (order : List AgentId) (task : TaskSpec) (required_capabilities : List String)
    (require_worker : Bool) : Except DispatchError AgentId × Orchestrator :=
  if o.shutdown_flag then (.error (.daf (.Internal "orchestrator is shutting down, cannot dispatch")),o)
  else
    match o.router.route_task_filtered order task required_capabilities (if require_worker then some o.workers else none) with
    | (.error e,router) => (.error e,{ o with router })
    | (.ok decision,router) =>
      match o.agents.lookup decision.agent_id with
      | some entry =>
        if o.max_tasks_per_agent ≤ entry.active_tasks then
          (.error slotsExhausted,{ o with router := router.record_task_completion decision.agent_id })
        else
          (.ok decision.agent_id,{ o with
            agents := o.agents.insert decision.agent_id { entry with active_tasks := entry.active_tasks + 1, status := .Executing }
            router })
      | none =>
        (.error (.daf (.NotFound "agent" (UuidText.toText decision.agent_id.uuid))),
          { o with router := router.record_task_completion decision.agent_id })

def Orchestrator.record_task_done (o : Orchestrator) (agent_id : AgentId) : Orchestrator :=
  { o with
    agents := match o.agents.lookup agent_id with
      | some entry =>
        let active_tasks := entry.active_tasks - 1
        o.agents.insert agent_id { entry with active_tasks, status := if active_tasks = 0 then .Idle else entry.status }
      | none => o.agents
    router := o.router.record_task_completion agent_id }

/-- A successful dispatch is recorded for its holder. -/
def dispatched (holder : Option Nat) (result : Except DispatchError AgentId × Orchestrator) : Orchestrator :=
  match result with
  | (.ok agent,o) => { o with trace := o.trace ++ [.taken holder agent] }
  | (.error _,o) => o

/-- The lease of a mission is dropped. -/
def Orchestrator.dropLease (o : Orchestrator) (mission : Nat) (agent : AgentId) : Orchestrator :=
  { o.record_task_done agent with trace := o.trace ++ [.completed (some mission) agent] }

def Orchestrator.setMission (o : Orchestrator) (mission : Nat) (future : MissionFuture) : Orchestrator :=
  { o with missions := o.missions.set mission future }

inductive Call where
  | spawn_agent (manifest : AgentManifest)
  | register_worker (id : AgentId)
  | remove_agent (agent_id : AgentId)
  /-- The router iterates its agents in this order. -/
  | dispatch_task (order : List AgentId) (task : TaskSpec) (required_capabilities : List String)
  | record_task_done (agent_id : AgentId)
  | update_status (agent_id : AgentId) (status : AgentStatus)
  | shutdown
  | missionStart
  /-- A mission sends its next attempt to an agent. -/
  | missionDispatch (mission : Nat) (order : List AgentId) (task : TaskSpec) (required_capabilities : List String)
  /-- The attempt of a mission has ended. -/
  | missionRelease (mission : Nat)
  | missionReturn (mission : Nat)
  /-- The future of a mission is dropped while it sleeps or awaits a worker. -/
  | missionDrop (mission : Nat)

def step (o : Orchestrator) : Call → Orchestrator
  | .spawn_agent manifest => o.spawn_agent manifest
  | .register_worker id => o.register_worker id
  | .remove_agent agent_id => o.remove_agent agent_id
  | .dispatch_task order task required_capabilities =>
    if order.Perm o.router.agents.keys then dispatched none (o.dispatch_executable_task order task required_capabilities false) else o
  | .record_task_done agent_id => { o.record_task_done agent_id with trace := o.trace ++ [.completed none agent_id] }
  | .update_status agent_id status => { o with router := o.router.update_status agent_id status }
  | .shutdown => { o with shutdown_flag := true }
  | .missionStart => { o with missions := o.missions ++ [.running none] }
  | .missionDispatch mission order task required_capabilities =>
    if o.missions[mission]? = some (.running none) ∧ order.Perm o.router.agents.keys then
      match o.dispatch_executable_task order task required_capabilities true with
      | (.ok agent,p) => (dispatched (some mission) (.ok agent,p)).setMission mission (.running (some agent))
      | (.error _,p) => p
    else o
  | .missionRelease mission =>
    match o.missions[mission]? with
    | some (.running (some agent)) => (o.dropLease mission agent).setMission mission (.running none)
    | _ => o
  | .missionReturn mission => if o.missions[mission]? = some (.running none) then o.setMission mission .over else o
  | .missionDrop mission =>
    match o.missions[mission]? with
    | some (.running (some agent)) => (o.dropLease mission agent).setMission mission .over
    | some (.running none) => o.setMission mission .over
    | _ => o

def run (calls : List Call) (o : Orchestrator) : Orchestrator := calls.foldl step o

/-! ### The two counters -/

/-- The active tasks of a registered agent. -/
def Orchestrator.active (o : Orchestrator) (id : AgentId) : Option Nat := (o.agents.lookup id).map (·.active_tasks)

/-- The orchestrator and the router know the same agents with the same number of active tasks, within the limit. -/
structure Balanced (o : Orchestrator) : Prop where
  manifests : ∀ id, o.router.agents.lookup id = (o.agents.lookup id).map (·.manifest)
  loads : ∀ id, (o.router.load.lookup id).map (·.active_tasks) = o.active id
  limit : ∀ id n, o.active id = some n → n ≤ o.max_tasks_per_agent

theorem balanced_with_config (max_tasks_per_agent : Nat) : Balanced (.with_config max_tasks_per_agent) where
  manifests id := rfl
  loads id := rfl
  limit id n known := by cases known

/-- What a call does with the number of active tasks of an agent. -/
def effect (a : AgentId) (n : Option Nat) : Event → Option Nat
  | .taken _ agent => if agent = a then n.map (· + 1) else n
  | .completed _ agent => if agent = a then n.map (· - 1) else n
  | .spawned agent => if agent = a then some 0 else n
  | .removed agent => if agent = a then none else n

/-- A call keeps the balance, and changes the numbers as its events say. -/
structure Accounted (o p : Orchestrator) (events : List Event) : Prop where
  balanced : Balanced p
  same : p.max_tasks_per_agent = o.max_tasks_per_agent
  trace : p.trace = o.trace ++ events
  numbers : ∀ a, p.active a = events.foldl (effect a) (o.active a)

theorem active_spawn (o : Orchestrator) (manifest : AgentManifest) (a : AgentId) :
    (o.spawn_agent manifest).active a = if manifest.id = a then some 0 else o.active a := by
  unfold Orchestrator.active Orchestrator.spawn_agent
  by_cases same : manifest.id = a
  · subst same
    simp
  · rw [if_neg same]
    simp only [AList.lookup_insert_ne (Ne.symm same)]

variable {o : Orchestrator}

theorem accounted_spawn (balanced : Balanced o) (manifest : AgentManifest) : Accounted o (o.spawn_agent manifest) [.spawned manifest.id] where
  balanced := by
    refine ⟨fun id => ?_,fun id => ?_,fun id n known => ?_⟩
    · by_cases same : id = manifest.id
      · subst same
        simp [Orchestrator.spawn_agent,SpecialistRouter.register_agent]
      · simp only [Orchestrator.spawn_agent,SpecialistRouter.register_agent,AList.lookup_insert_ne same]
        exact balanced.manifests id
    · rw [active_spawn]
      by_cases same : manifest.id = id
      · subst same
        simp [Orchestrator.spawn_agent,SpecialistRouter.register_agent,AgentLoad.new]
      · simp only [Orchestrator.spawn_agent,SpecialistRouter.register_agent,AList.lookup_insert_ne (Ne.symm same),if_neg same]
        exact balanced.loads id
    · rw [active_spawn] at known
      split at known
      · cases known
        exact Nat.zero_le _
      · exact balanced.limit id n known
  same := rfl
  trace := rfl
  numbers a := active_spawn o manifest a

theorem accounted_remove (balanced : Balanced o) (agent_id : AgentId) :
    Accounted o (o.remove_agent agent_id) [] ∨ Accounted o (o.remove_agent agent_id) [.removed agent_id] := by
  unfold Orchestrator.remove_agent
  cases found : o.agents.lookup agent_id with
  | none => exact .inl ⟨balanced,rfl,by simp,fun a => rfl⟩
  | some entry =>
    have numbers : ∀ a, Option.map (·.active_tasks) ((o.agents.erase agent_id).lookup a) = if agent_id = a then none else o.active a := by
      intro a
      by_cases same : agent_id = a
      · subst same
        simp
      · rw [if_neg same,AList.lookup_erase_ne (Ne.symm same)]
        rfl
    refine .inr ⟨⟨fun id => ?_,fun id => ?_,fun id n known => ?_⟩,rfl,rfl,numbers⟩
    · by_cases same : id = agent_id
      · subst same
        simp [SpecialistRouter.deregister_agent]
      · simp only [SpecialistRouter.deregister_agent,AList.lookup_erase_ne same]
        exact balanced.manifests id
    · refine Eq.trans ?_ (numbers id).symm
      by_cases same : agent_id = id
      · subst same
        simp [SpecialistRouter.deregister_agent]
      · simp only [SpecialistRouter.deregister_agent,AList.lookup_erase_ne (Ne.symm same),if_neg same]
        exact balanced.loads id
    · refine balanced.limit id n ?_
      have after := (numbers id).symm.trans known
      split at after
      · cases after
      · exact after

theorem complete_active (l : AgentLoad) : l.complete.active_tasks = l.active_tasks - 1 := by
  unfold AgentLoad.complete
  split
  · omega
  · rfl

theorem active_done (o : Orchestrator) (agent_id a : AgentId) :
    (o.record_task_done agent_id).active a = if agent_id = a then (o.active a).map (· - 1) else o.active a := by
  unfold Orchestrator.active Orchestrator.record_task_done
  by_cases same : agent_id = a
  · subst same
    cases found : o.agents.lookup agent_id <;> simp [found]
  · rw [if_neg same]
    cases o.agents.lookup agent_id with
    | none => rfl
    | some entry => simp only [AList.lookup_insert_ne (Ne.symm same)]

theorem balanced_done (balanced : Balanced o) (agent_id : AgentId) : Balanced (o.record_task_done agent_id) := by
  refine ⟨fun id => ?_,fun id => ?_,fun id n known => ?_⟩
  · unfold Orchestrator.record_task_done SpecialistRouter.record_task_completion
    rw [agents_onLoad,balanced.manifests id]
    by_cases same : id = agent_id
    · subst same
      cases found : o.agents.lookup id <;> simp [found]
    · cases o.agents.lookup agent_id with
      | none => rfl
      | some entry => simp only [AList.lookup_insert_ne same]
  · rw [active_done]
    show ((o.router.onLoad agent_id .complete).load.lookup id).map (·.active_tasks) = _
    rw [load_onLoad,← balanced.loads id]
    by_cases same : id = agent_id
    · subst same
      rw [if_pos rfl,if_pos rfl,Option.map_map,Option.map_map]
      congr 1
      funext l
      exact complete_active l
    · rw [if_neg same,if_neg (Ne.symm same)]
  · rw [active_done] at known
    show n ≤ o.max_tasks_per_agent
    split at known
    · obtain ⟨before,active,rfl⟩ := Option.map_eq_some_iff.mp known
      have limit := balanced.limit id before active
      omega
    · exact balanced.limit id n known

/-- What a dispatch leaves as it is. -/
structure Aside (o p : Orchestrator) : Prop where
  same : p.max_tasks_per_agent = o.max_tasks_per_agent
  trace : p.trace = o.trace
  missions : p.missions = o.missions

/-- Every agent that may take the task is at the limit. -/
def AllFull (o : Orchestrator) (required_capabilities : List String) (require_worker : Bool) : Prop :=
  ∀ id entry, o.agents.lookup id = some entry →
    Eligible o.router required_capabilities (if require_worker then some o.workers else none) id entry.manifest →
    entry.active_tasks = o.max_tasks_per_agent

/-- The router takes its assignment back when the task is refused. -/
theorem balanced_refused (balanced : Balanced o) (agent_id : AgentId) :
    Balanced { o with router := (o.router.onLoad agent_id .assign).record_task_completion agent_id } := by
  refine ⟨fun id => ?_,fun id => ?_,balanced.limit⟩
  · show (((o.router.onLoad agent_id .assign).onLoad agent_id .complete).agents.lookup id) = _
    rw [agents_onLoad,agents_onLoad]
    exact balanced.manifests id
  · show (((o.router.onLoad agent_id .assign).onLoad agent_id .complete).load.lookup id).map (·.active_tasks) = o.active id
    rw [load_onLoad,load_onLoad,load_onLoad,if_pos rfl,← balanced.loads id]
    by_cases same : id = agent_id
    · subst same
      rw [if_pos rfl,Option.map_map,Option.map_map]
      congr 1
    · rw [if_neg same,if_neg same]

/-- An agent gets one more task. -/
def Orchestrator.take (o : Orchestrator) (agent_id : AgentId) (entry : AgentEntry) : Orchestrator :=
  { o with
    agents := o.agents.insert agent_id { entry with active_tasks := entry.active_tasks + 1, status := .Executing }
    router := o.router.onLoad agent_id .assign }

theorem active_take {agent_id : AgentId} {entry : AgentEntry} (registered : o.agents.lookup agent_id = some entry) (a : AgentId) :
    (o.take agent_id entry).active a = if agent_id = a then (o.active a).map (· + 1) else o.active a := by
  unfold Orchestrator.active Orchestrator.take
  by_cases same : agent_id = a
  · subst same
    simp [registered]
  · rw [if_neg same]
    simp only [AList.lookup_insert_ne (Ne.symm same)]

theorem balanced_take (balanced : Balanced o) {agent_id : AgentId} {entry : AgentEntry} (registered : o.agents.lookup agent_id = some entry)
    (room : ¬ o.max_tasks_per_agent ≤ entry.active_tasks) : Balanced (o.take agent_id entry) := by
  refine ⟨fun id => ?_,fun id => ?_,fun id n active => ?_⟩
  · show (o.router.onLoad agent_id .assign).agents.lookup id =
      ((o.agents.insert agent_id { entry with active_tasks := entry.active_tasks + 1, status := .Executing }).lookup id).map (·.manifest)
    rw [agents_onLoad,balanced.manifests id]
    by_cases same : id = agent_id
    · subst same
      simp [registered]
    · rw [AList.lookup_insert_ne same]
  · rw [active_take registered]
    show ((o.router.onLoad agent_id .assign).load.lookup id).map (·.active_tasks) = _
    rw [load_onLoad,← balanced.loads id]
    by_cases same : id = agent_id
    · subst same
      rw [if_pos rfl,if_pos rfl,Option.map_map,Option.map_map]
      rfl
    · rw [if_neg same,if_neg (Ne.symm same)]
  · rw [active_take registered] at active
    show n ≤ o.max_tasks_per_agent
    split at active
    · rename_i same
      rw [← same,Orchestrator.active,registered] at active
      have next : entry.active_tasks + 1 = n := Option.some.inj active
      omega
    · exact balanced.limit id n active

/-- When the agent that the router picks is at the limit, every eligible agent is. -/
theorem allFull_of_winner (balanced : Balanced o) {order : List AgentId} (whole : order.Perm o.router.agents.keys)
    {required_capabilities : List String} {require_worker : Bool} {winner : RoutingDecision} {entry : AgentEntry}
    (found : best (order.filterMap (o.router.consider required_capabilities (if require_worker then some o.workers else none))) = some winner)
    (registered : o.agents.lookup winner.agent_id = some entry) (full : o.max_tasks_per_agent ≤ entry.active_tasks) :
    AllFull o required_capabilities require_worker := by
  intro id other stored eligible
  have listed : id ∈ order := by
    rw [whole.mem_iff]
    exact AList.mem_keys.mp (AList.lookup_isSome.mp (by rw [eligible.known]; rfl))
  have theirs : o.active id = some other.active_tasks := by rw [Orchestrator.active,stored]; rfl
  have occupied := balanced.loads id
  have counted := balanced.loads winner.agent_id
  rw [theirs] at occupied
  rw [Orchestrator.active,registered] at counted
  obtain ⟨held,lookup,equal⟩ := Option.map_eq_some_iff.mp occupied
  obtain ⟨load,loaded,agree⟩ := Option.map_eq_some_iff.mp counted
  have more := active_of_loadScore lookup loaded ((route_winner found).2 id listed _ eligible)
  have bound := balanced.limit id _ theirs
  dsimp only at agree
  omega

/-- A dispatch either fails and changes no number, or gives one more task to an agent below the limit. It answers that
the slots are exhausted only when every eligible agent is at the limit. -/
theorem dispatch_cases (balanced : Balanced o) {order : List AgentId} (whole : order.Perm o.router.agents.keys) (task : TaskSpec)
    (required_capabilities : List String) (require_worker : Bool) :
    (∃ e p, o.dispatch_executable_task order task required_capabilities require_worker = (.error e,p) ∧ Balanced p ∧ Aside o p ∧
      (∀ a, p.active a = o.active a) ∧ (e = slotsExhausted → AllFull o required_capabilities require_worker)) ∨
    (∃ agent p, o.dispatch_executable_task order task required_capabilities require_worker = (.ok agent,p) ∧ Balanced p ∧ Aside o p ∧
      ∀ a, p.active a = if agent = a then (o.active a).map (· + 1) else o.active a) := by
  unfold Orchestrator.dispatch_executable_task SpecialistRouter.route_task_filtered
  split
  · exact .inl ⟨_,_,rfl,balanced,⟨rfl,rfl,rfl⟩,fun a => rfl,fun wrong => by cases wrong⟩
  cases found : best (order.filterMap (o.router.consider required_capabilities (if require_worker then some o.workers else none))) with
  | none => exact .inl ⟨_,_,rfl,balanced,⟨rfl,rfl,rfl⟩,fun a => rfl,fun wrong => by cases wrong⟩
  | some winner =>
    obtain ⟨manifest,known⟩ := (route_winner found).1
    cases registered : o.agents.lookup winner.agent_id with
    | none =>
      rw [balanced.manifests,registered] at known
      cases known
    | some entry =>
      by_cases full : o.max_tasks_per_agent ≤ entry.active_tasks
      · simp only [registered,if_pos full]
        exact .inl ⟨_,_,rfl,balanced_refused balanced _,⟨rfl,rfl,rfl⟩,fun a => rfl,
          fun _ => allFull_of_winner balanced whole found registered full⟩
      · simp only [registered,if_neg full]
        exact .inr ⟨_,_,rfl,balanced_take balanced registered full,⟨rfl,rfl,rfl⟩,active_take registered⟩

/-! ### Steps -/

theorem Balanced.aside (balanced : Balanced o) {p : Orchestrator} (agents : p.agents = o.agents) (known : p.router.agents = o.router.agents)
    (load : p.router.load = o.router.load) (limit : p.max_tasks_per_agent = o.max_tasks_per_agent) : Balanced p := by
  have numbers : ∀ id, p.active id = o.active id := fun id => by rw [Orchestrator.active,agents]; rfl
  refine ⟨fun id => ?_,fun id => ?_,fun id n active => ?_⟩
  · rw [known,agents]
    exact balanced.manifests id
  · rw [load,numbers]
    exact balanced.loads id
  · rw [limit]
    exact balanced.limit id n ((numbers id).symm.trans active)

/-- A step that changes neither the agents nor the loads. -/
theorem Accounted.aside (balanced : Balanced o) {p : Orchestrator} (agents : p.agents = o.agents) (known : p.router.agents = o.router.agents)
    (load : p.router.load = o.router.load) (limit : p.max_tasks_per_agent = o.max_tasks_per_agent) (trace : p.trace = o.trace) :
    Accounted o p [] where
  balanced := balanced.aside agents known load limit
  same := limit
  trace := by rw [trace,List.append_nil]
  numbers a := by rw [Orchestrator.active,agents]; rfl

theorem accounted_done (balanced : Balanced o) (holder : Option Nat) (agent_id : AgentId) :
    Accounted o { o.record_task_done agent_id with trace := o.trace ++ [.completed holder agent_id] } [.completed holder agent_id] where
  balanced := (balanced_done balanced agent_id).aside rfl rfl rfl rfl
  same := rfl
  trace := rfl
  numbers a := active_done o agent_id a

/-- The future of the missions only matters to the missions. -/
theorem Accounted.setMission {p : Orchestrator} {events : List Event} (accounted : Accounted o p events) (mission : Nat) (future : MissionFuture) :
    Accounted o (p.setMission mission future) events where
  balanced := accounted.balanced.aside rfl rfl rfl rfl
  same := accounted.same
  trace := accounted.trace
  numbers := accounted.numbers

/-- A dispatch is accounted for with the event of its success. -/
theorem accounted_dispatched (balanced : Balanced o) {order : List AgentId} (whole : order.Perm o.router.agents.keys) (task : TaskSpec)
    (required_capabilities : List String) (require_worker : Bool) (holder : Option Nat) :
    (∃ e p, o.dispatch_executable_task order task required_capabilities require_worker = (.error e,p) ∧ Accounted o p [] ∧
      p.missions = o.missions) ∨
    (∃ agent p, o.dispatch_executable_task order task required_capabilities require_worker = (.ok agent,p) ∧
      Accounted o (dispatched holder (.ok agent,p)) [.taken holder agent] ∧ p.missions = o.missions) := by
  rcases dispatch_cases balanced whole task required_capabilities require_worker with ⟨e,p,result,kept,aside,numbers,_⟩ |
    ⟨agent,p,result,kept,aside,numbers⟩
  · exact .inl ⟨e,p,result,⟨kept,aside.same,by rw [aside.trace,List.append_nil],numbers⟩,aside.missions⟩
  · refine .inr ⟨agent,p,result,⟨kept.aside rfl rfl rfl rfl,aside.same,?_,numbers⟩,aside.missions⟩
    show p.trace ++ _ = _
    rw [aside.trace]

/-! ### Leases -/

def MissionFuture.lease : MissionFuture → Option AgentId
  | .running lease => lease
  | .over => none

/-- The lease that a mission holds. -/
def Orchestrator.lease (o : Orchestrator) (mission : Nat) : Option AgentId := o.missions[mission]?.bind MissionFuture.lease

/-- The lease of a mission after an event. -/
def leaseAfter (mission : Nat) (lease : Option AgentId) : Event → Option AgentId
  | .taken holder agent => if holder = some mission then some agent else lease
  | .completed holder _ => if holder = some mission then none else lease
  | _ => lease

/-- A mission takes a task only without a lease, and completes only the task of its lease. -/
def Disciplined (mission : Nat) (lease : Option AgentId) : Event → Prop
  | .taken holder _ => holder = some mission → lease = none
  | .completed holder agent => holder = some mission → lease = some agent
  | _ => True

/-- The leases of the missions follow the events. -/
structure Leased (o p : Orchestrator) (events : List Event) : Prop where
  short : events.length ≤ 1
  started : o.missions.length ≤ p.missions.length
  after : ∀ m < o.missions.length, p.lease m = events.foldl (leaseAfter m) (o.lease m)
  disciplined : ∀ m < o.missions.length, ∀ e ∈ events, Disciplined m (o.lease m) e

/-- A step without events that changes no lease. -/
theorem Leased.still {p : Orchestrator} (started : o.missions.length ≤ p.missions.length)
    (after : ∀ m < o.missions.length, p.lease m = o.lease m) : Leased o p [] where
  short := Nat.zero_le _
  started := started
  after := after
  disciplined m bound e member := by cases member

/-- An event that is nobody's. -/
theorem Leased.foreign {p : Orchestrator} {e : Event} (missions : p.missions = o.missions) (other : ∀ m lease, leaseAfter m lease e = lease)
    (free : ∀ m lease, Disciplined m lease e) : Leased o p [e] where
  short := le_rfl
  started := by rw [missions]
  after m bound := by
    rw [List.foldl_cons,List.foldl_nil,other,Orchestrator.lease,missions]
    rfl
  disciplined m bound f member := by
    rw [List.mem_singleton.mp member]
    exact free m _

theorem lease_set {p : Orchestrator} {mission : Nat} {future : MissionFuture} (missions : p.missions = o.missions.set mission future)
    {m : Nat} (bound : m < o.missions.length) : p.lease m = if mission = m then future.lease else o.lease m := by
  unfold Orchestrator.lease
  rw [missions,List.getElem?_set]
  by_cases same : mission = m
  · subst same
    rw [if_pos rfl,if_pos rfl,if_pos bound]
    rfl
  · rw [if_neg same,if_neg same]

/-- An event of a mission that changes its own lease. -/
theorem Leased.own {p : Orchestrator} {mission : Nat} {future : MissionFuture} (missions : p.missions = o.missions.set mission future)
    {e : Event} (mine : leaseAfter mission (o.lease mission) e = future.lease) (allowed : Disciplined mission (o.lease mission) e)
    (others : ∀ m lease, mission ≠ m → leaseAfter m lease e = lease ∧ Disciplined m lease e) : Leased o p [e] where
  short := le_rfl
  started := by rw [missions,List.length_set]
  after m bound := by
    rw [lease_set missions bound,List.foldl_cons,List.foldl_nil]
    by_cases same : mission = m
    · subst same
      rw [if_pos rfl,mine]
    · rw [if_neg same,(others m _ same).1]
  disciplined m bound f member := by
    rw [List.mem_singleton.mp member]
    by_cases same : mission = m
    · subst same
      exact allowed
    · exact (others m _ same).2

/-- A mission drops its lease. -/
theorem dropLease_accounted (balanced : Balanced o) {mission : Nat} {agent : AgentId} (held : o.missions[mission]? = some (.running (some agent)))
    {future : MissionFuture} (free : future.lease = none) :
    Accounted o ((o.dropLease mission agent).setMission mission future) [.completed (some mission) agent] ∧
      Leased o ((o.dropLease mission agent).setMission mission future) [.completed (some mission) agent] := by
  refine ⟨(accounted_done balanced (some mission) agent).setMission mission future,Leased.own rfl ?_ ?_ ?_⟩
  · rw [free]
    exact if_pos rfl
  · intro _
    rw [Orchestrator.lease,held]
    rfl
  · intro m lease differ
    exact ⟨if_neg (fun same => differ (Option.some.inj same)),fun same => absurd (Option.some.inj same) differ⟩

/-- A mission without a lease ends. -/
theorem setMission_accounted (balanced : Balanced o) {mission : Nat} (idle : o.missions[mission]? = some (.running none)) :
    Accounted o (o.setMission mission .over) [] ∧ Leased o (o.setMission mission .over) [] := by
  refine ⟨.aside balanced rfl rfl rfl rfl rfl,.still (by simp [Orchestrator.setMission]) ?_⟩
  intro m bound
  rw [lease_set rfl bound]
  split
  · rename_i same
    subst same
    rw [Orchestrator.lease,idle]
    rfl
  · rfl

/-- A call without an event that keeps the missions. -/
theorem silent_accounted {p : Orchestrator} (accounted : Accounted o p []) (missions : p.missions = o.missions) :
    ∃ events, Accounted o p events ∧ Leased o p events := by
  refine ⟨[],accounted,.still (by rw [missions]) fun m _ => ?_⟩
  rw [Orchestrator.lease,missions]
  rfl

/-- What one call does to the numbers and to the leases. -/
theorem step_accounted (balanced : Balanced o) (call : Call) : ∃ events, Accounted o (step o call) events ∧ Leased o (step o call) events := by
  cases call with
  | spawn_agent manifest => exact ⟨_,accounted_spawn balanced manifest,.foreign rfl (fun _ _ => rfl) (fun _ _ => trivial)⟩
  | register_worker id =>
    unfold step Orchestrator.register_worker
    dsimp only
    split
    · exact silent_accounted (.aside balanced rfl rfl rfl rfl rfl) rfl
    · exact silent_accounted (.aside balanced rfl rfl rfl rfl rfl) rfl
  | remove_agent agent_id =>
    have missions : (o.remove_agent agent_id).missions = o.missions := by
      unfold Orchestrator.remove_agent
      cases o.agents.lookup agent_id <;> rfl
    rcases accounted_remove balanced agent_id with accounted | accounted
    · exact silent_accounted accounted missions
    · exact ⟨_,accounted,.foreign missions (fun _ _ => rfl) (fun _ _ => trivial)⟩
  | dispatch_task order task required_capabilities =>
    unfold step
    dsimp only
    split
    · rename_i whole
      rcases accounted_dispatched balanced whole task required_capabilities false none with ⟨e,p,result,accounted,missions⟩ |
        ⟨agent,p,result,accounted,missions⟩
      · rw [result]
        exact silent_accounted accounted missions
      · rw [result]
        exact ⟨_,accounted,.foreign missions (fun _ _ => rfl) (fun _ _ wrong => by cases wrong)⟩
    · exact silent_accounted (.aside balanced rfl rfl rfl rfl rfl) rfl
  | record_task_done agent_id =>
    exact ⟨_,accounted_done balanced none agent_id,.foreign rfl (fun _ _ => rfl) (fun _ _ wrong => by cases wrong)⟩
  | update_status agent_id status => exact silent_accounted (.aside balanced rfl rfl rfl rfl rfl) rfl
  | shutdown => exact silent_accounted (.aside balanced rfl rfl rfl rfl rfl) rfl
  | missionStart =>
    refine ⟨[],.aside balanced rfl rfl rfl rfl rfl,.still ?_ ?_⟩
    · simp [step]
    · intro m bound
      simp only [step,Orchestrator.lease]
      rw [List.getElem?_append_left bound]
  | missionDispatch mission order task required_capabilities =>
    by_cases ready : o.missions[mission]? = some (.running none) ∧ order.Perm o.router.agents.keys
    · simp only [step,if_pos ready]
      rcases accounted_dispatched balanced ready.2 task required_capabilities true (some mission) with ⟨e,p,result,accounted,missions⟩ |
        ⟨agent,p,result,accounted,missions⟩
      · rw [result]
        exact silent_accounted accounted missions
      · rw [result]
        have assigned : ((dispatched (some mission) (.ok agent,p)).setMission mission (.running (some agent))).missions =
            o.missions.set mission (.running (some agent)) := by
          show p.missions.set mission _ = _
          rw [missions]
        refine ⟨_,accounted.setMission mission (.running (some agent)),Leased.own assigned (if_pos rfl) ?_ ?_⟩
        · intro _
          rw [Orchestrator.lease,ready.1]
          rfl
        · intro m lease differ
          exact ⟨if_neg (fun same => differ (Option.some.inj same)),fun same => absurd (Option.some.inj same) differ⟩
    · simp only [step,if_neg ready]
      exact silent_accounted (.aside balanced rfl rfl rfl rfl rfl) rfl
  | missionRelease mission =>
    unfold step
    dsimp only
    split
    · rename_i agent held
      exact ⟨_,dropLease_accounted balanced held rfl⟩
    · exact silent_accounted (.aside balanced rfl rfl rfl rfl rfl) rfl
  | missionReturn mission =>
    by_cases idle : o.missions[mission]? = some (.running none)
    · simp only [step,if_pos idle]
      exact ⟨[],setMission_accounted balanced idle⟩
    · simp only [step,if_neg idle]
      exact silent_accounted (.aside balanced rfl rfl rfl rfl rfl) rfl
  | missionDrop mission =>
    unfold step
    dsimp only
    split
    · rename_i agent held
      exact ⟨_,dropLease_accounted balanced held rfl⟩
    · rename_i idle
      exact ⟨[],setMission_accounted balanced idle⟩
    · exact silent_accounted (.aside balanced rfl rfl rfl rfl rfl) rfl

theorem balanced_run (balanced : Balanced o) (calls : List Call) : Balanced (run calls o) := by
  induction calls generalizing o with
  | nil => exact balanced
  | cons call later ih =>
    obtain ⟨events,accounted,_⟩ := step_accounted balanced call
    exact ih accounted.balanced

theorem limit_run (balanced : Balanced o) (calls : List Call) : (run calls o).max_tasks_per_agent = o.max_tasks_per_agent := by
  induction calls generalizing o with
  | nil => rfl
  | cons call later ih =>
    obtain ⟨events,accounted,_⟩ := step_accounted balanced call
    exact (ih accounted.balanced).trans accounted.same

/-! ### Missions -/

/-- Another than the mission takes a task of the agent. -/
def takenByOther (mission : Nat) (a : AgentId) : Event → Bool
  | .taken holder agent => decide (holder ≠ some mission ∧ agent = a)
  | _ => false

/-- Another than the mission records a completion of the agent. -/
def completedByOther (mission : Nat) (a : AgentId) : Event → Bool
  | .completed holder agent => decide (holder ≠ some mission ∧ agent = a)
  | _ => false

def othersTaken (mission : Nat) (a : AgentId) (events : List Event) : Nat := events.countP (takenByOther mission a)

def othersCompleted (mission : Nat) (a : AgentId) (events : List Event) : Nat := events.countP (completedByOther mission a)

theorem othersTaken_concat (mission : Nat) (a : AgentId) (events : List Event) (e : Event) :
    othersTaken mission a (events ++ [e]) = othersTaken mission a events + if takenByOther mission a e then 1 else 0 := by
  rw [othersTaken,List.countP_append,List.countP_singleton]
  rfl

theorem othersCompleted_concat (mission : Nat) (a : AgentId) (events : List Event) (e : Event) :
    othersCompleted mission a (events ++ [e]) = othersCompleted mission a events + if completedByOther mission a e then 1 else 0 := by
  rw [othersCompleted,List.countP_append,List.countP_singleton]
  rfl

/-- The number of active tasks is the one before the mission, with what others have done since and the mission's own task. -/
def Owed (mission : Nat) (a : AgentId) (before : Nat) (number : Option Nat) (lease : Option AgentId) (since : List Event) : Prop :=
  ∃ n, number = some n ∧
    n + othersCompleted mission a since = before + othersTaken mission a since + if lease = some a then 1 else 0

/-- One more event is accounted for, if others do not complete more than there is of theirs. -/
theorem owed_event {mission : Nat} {a : AgentId} {before : Nat} {number : Option Nat} {lease : Option AgentId} {since : List Event}
    (owed : Owed mission a before number lease since) {e : Event} (kept : e ≠ .spawned a ∧ e ≠ .removed a)
    (enough : othersCompleted mission a (since ++ [e]) ≤ before + othersTaken mission a (since ++ [e]))
    (disciplined : Disciplined mission lease e) : Owed mission a before (effect a number e) (leaseAfter mission lease e) (since ++ [e]) := by
  obtain ⟨n,rfl,sum⟩ := owed
  rw [othersCompleted_concat,othersTaken_concat] at enough
  unfold Owed
  rw [othersCompleted_concat,othersTaken_concat]
  cases e with
  | taken holder agent =>
    by_cases own : holder = some mission
    · have free := disciplined own
      subst free
      by_cases same : agent = a
      · exact ⟨n + 1,by simp [effect,same],by simp [takenByOther,completedByOther,leaseAfter,own,same] at sum ⊢; omega⟩
      · exact ⟨n,by simp [effect,same],by simp [takenByOther,completedByOther,leaseAfter,own,same] at sum ⊢; omega⟩
    · by_cases same : agent = a
      · exact ⟨n + 1,by simp [effect,same],by simp [takenByOther,completedByOther,leaseAfter,own,same]; omega⟩
      · exact ⟨n,by simp [effect,same],by simp [takenByOther,completedByOther,leaseAfter,own,same]; omega⟩
  | completed holder agent =>
    by_cases own : holder = some mission
    · have held := disciplined own
      subst held
      by_cases same : agent = a
      · refine ⟨n - 1,by simp [effect,same],?_⟩
        simp [takenByOther,completedByOther,leaseAfter,own,same] at sum enough ⊢
        omega
      · exact ⟨n,by simp [effect,same],by simp [takenByOther,completedByOther,leaseAfter,own,same] at sum ⊢; omega⟩
    · by_cases same : agent = a
      · refine ⟨n - 1,by simp [effect,same],?_⟩
        simp [takenByOther,completedByOther,leaseAfter,own,same] at enough ⊢
        omega
      · exact ⟨n,by simp [effect,same],by simp [takenByOther,completedByOther,leaseAfter,own,same]; omega⟩
  | spawned agent =>
    have differ : agent ≠ a := fun equal => kept.1 (by rw [equal])
    exact ⟨n,by simp [effect,differ],sum⟩
  | removed agent =>
    have differ : agent ≠ a := fun equal => kept.2 (by rw [equal])
    exact ⟨n,by simp [effect,differ],sum⟩

theorem trace_run (balanced : Balanced o) (calls : List Call) : ∃ later, (run calls o).trace = o.trace ++ later := by
  induction calls generalizing o with
  | nil => exact ⟨[],by simp [run]⟩
  | cons call rest ih =>
    obtain ⟨events,accounted,_⟩ := step_accounted balanced call
    obtain ⟨later,grown⟩ := ih accounted.balanced
    refine ⟨events ++ later,?_⟩
    rw [← List.append_assoc,← accounted.trace]
    exact grown

/-- Others leave the registration of the agent alone, and complete no more tasks of it than there are of theirs. -/
structure Orderly (mission : Nat) (a : AgentId) (before : Nat) (since : List Event) : Prop where
  kept : ∀ e ∈ since, e ≠ .spawned a ∧ e ≠ .removed a
  enough : ∀ part, part <+: since → othersCompleted mission a part ≤ before + othersTaken mission a part

/-- From the start of a mission on, the number of active tasks is what others have made of it and the mission's own task. -/
theorem owed_run (balanced : Balanced o) {mission : Nat} (running : mission < o.missions.length) {a : AgentId} {before : Nat}
    {base since : List Event} (split : o.trace = base ++ since) (owed : Owed mission a before (o.active a) (o.lease mission) since)
    {calls : List Call} {all : List Event} (whole : (run calls o).trace = base ++ all) (orderly : Orderly mission a before all) :
    Owed mission a before ((run calls o).active a) ((run calls o).lease mission) all := by
  induction calls generalizing o since with
  | nil =>
    have same : since = all := List.append_cancel_left (split.symm.trans whole)
    rw [← same]
    exact owed
  | cons call later ih =>
    obtain ⟨events,accounted,leased⟩ := step_accounted balanced call
    have extended : (step o call).trace = base ++ (since ++ events) := by rw [accounted.trace,split,List.append_assoc]
    refine ih accounted.balanced (lt_of_lt_of_le running leased.started) extended ?_ whole
    -- a call records at most one event
    rw [accounted.numbers a,leased.after mission running]
    rcases events with _ | ⟨e,rest⟩
    · rw [List.append_nil]
      exact owed
    · obtain rfl : rest = [] := List.length_eq_zero_iff.mp (by have short := leased.short; simp at short; exact short ▸ rfl)
      obtain ⟨more,grown⟩ := trace_run accounted.balanced later
      have part : since ++ [e] <+: all := by
        refine ⟨more,?_⟩
        apply List.append_cancel_left
        rw [← List.append_assoc,← extended,← grown]
        exact whole
      refine owed_event owed (orderly.kept e (part.subset ?_)) (orderly.enough _ part) (leased.disciplined mission running e List.mem_cons_self)
      simp

/-- The mission is over, however it ended. -/
def Orchestrator.isOver (o : Orchestrator) (mission : Nat) : Prop := o.missions[mission]? = some .over

/-- For every sequence of calls: the two counters of every registered agent agree and stay within the limit; a mission
that is over has given back what it took; and the slots are exhausted only when every eligible agent is at the limit. -/
theorem load_accounting (max_tasks_per_agent : Nat) (calls : List Call) :
    (∀ id entry, (run calls (.with_config max_tasks_per_agent)).agents.lookup id = some entry →
      (∃ load, (run calls (.with_config max_tasks_per_agent)).router.load.lookup id = some load ∧ load.active_tasks = entry.active_tasks) ∧
      entry.active_tasks ≤ max_tasks_per_agent) ∧
    (∀ before during a n since, calls = before ++ .missionStart :: during →
      (run before (.with_config max_tasks_per_agent)).active a = some n →
      (run calls (.with_config max_tasks_per_agent)).isOver (run before (.with_config max_tasks_per_agent)).missions.length →
      (run calls (.with_config max_tasks_per_agent)).trace = (run before (.with_config max_tasks_per_agent)).trace ++ since →
      Orderly (run before (.with_config max_tasks_per_agent)).missions.length a n since →
      ∃ now, (run calls (.with_config max_tasks_per_agent)).active a = some now ∧
        now + othersCompleted (run before (.with_config max_tasks_per_agent)).missions.length a since =
          n + othersTaken (run before (.with_config max_tasks_per_agent)).missions.length a since) ∧
    (∀ order task required_capabilities require_worker, order.Perm (run calls (.with_config max_tasks_per_agent)).router.agents.keys →
      ((run calls (.with_config max_tasks_per_agent)).dispatch_executable_task order task required_capabilities require_worker).1 =
        .error slotsExhausted →
      AllFull (run calls (.with_config max_tasks_per_agent)) required_capabilities require_worker) := by
  have balanced := balanced_run (balanced_with_config max_tasks_per_agent) calls
  have limit := limit_run (balanced_with_config max_tasks_per_agent) calls
  refine ⟨?_,?_,?_⟩
  · intro id entry registered
    have active : (run calls (.with_config max_tasks_per_agent)).active id = some entry.active_tasks := by
      rw [Orchestrator.active,registered]
      rfl
    refine ⟨?_,(balanced.limit id _ active).trans limit.le⟩
    have counted := balanced.loads id
    rw [active] at counted
    exact Option.map_eq_some_iff.mp counted
  · intro before during a n since split number finished trace orderly
    generalize earlier : run before (.with_config max_tasks_per_agent) = o at *
    have start : run calls (.with_config max_tasks_per_agent) = run during (step o .missionStart) := by
      rw [← earlier,split,run,List.foldl_append]
      rfl
    have stable : Balanced o := earlier ▸ balanced_run (balanced_with_config max_tasks_per_agent) before
    obtain ⟨events,accounted,leased⟩ := step_accounted stable .missionStart
    rw [start] at finished trace ⊢
    have idle : (step o .missionStart).lease o.missions.length = none := by simp [step,Orchestrator.lease,MissionFuture.lease]
    obtain ⟨now,active,sum⟩ := @owed_run _ accounted.balanced o.missions.length (by simp [step]) a n _ _ (List.append_nil _).symm
      ⟨n,number,by rw [idle]; simp [othersCompleted,othersTaken]⟩ _ _ trace orderly
    refine ⟨now,active,?_⟩
    have free : (run during (step o .missionStart)).lease o.missions.length = none := by
      rw [Orchestrator.lease,finished]
      rfl
    rw [free] at sum
    simpa using sum
  · intro order task required_capabilities require_worker whole exhausted
    rcases dispatch_cases balanced whole task required_capabilities require_worker with ⟨e,p,result,_,_,_,full⟩ | ⟨agent,p,result,_⟩
    · rw [result] at exhausted
      exact full (by injection exhausted)
    · rw [result] at exhausted
      cases exhausted

def soloAgent : AgentId := ⟨1#128⟩

def someTask : TaskSpec := ⟨"build",.null,none,0⟩

/-- The only worker gets a task of a mission, and the mission is dropped while it executes. -/
def droppedMission : List Call :=
  [.spawn_agent ⟨soloAgent,["code"]⟩,.register_worker soloAgent,.missionStart,.missionDispatch 0 [soloAgent] someTask ["code"],.missionDrop 0]

/-- The only worker is busy with a task. -/
def busyAgent : List Call := [.spawn_agent ⟨soloAgent,["code"]⟩,.dispatch_task [soloAgent] someTask ["code"]]

theorem solo_agent_accounted :
    (run droppedMission (.with_config 1)).active soloAgent = some 0 ∧ AllFull (run busyAgent (.with_config 1)) ["code"] false := by
  constructor
  · have quiet : Orderly 0 soloAgent 0 [.taken (some 0) soloAgent,.completed (some 0) soloAgent] := by
      refine ⟨by decide,?_⟩
      intro part inside
      have none : othersCompleted 0 soloAgent part ≤ othersCompleted 0 soloAgent [.taken (some 0) soloAgent,.completed (some 0) soloAgent] :=
        inside.sublist.countP_le
      exact none.trans (Nat.zero_le _)
    obtain ⟨now,active,sum⟩ := (load_accounting 1 droppedMission).2.1 [.spawn_agent ⟨soloAgent,["code"]⟩,.register_worker soloAgent]
      [.missionDispatch 0 [soloAgent] someTask ["code"],.missionDrop 0] soloAgent 0
      [.taken (some 0) soloAgent,.completed (some 0) soloAgent] rfl (by decide) (by unfold Orchestrator.isOver; decide +kernel)
      (by decide +kernel) quiet
    have back : now + 0 = 0 + 0 := sum
    rw [active]
    exact congrArg some back
  · exact (load_accounting 1 busyAgent).2.2 [soloAgent] someTask ["code"] false (by decide +kernel) (by decide +kernel)

end Daf.LoadAccounting
