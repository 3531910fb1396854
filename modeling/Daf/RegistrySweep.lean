import Daf.MissionPlan

/-!
The agent registry with its health monitor, and the sweep that deregisters agents which
have gone silent. A call of `sweep_unhealthy` is one sweep of the health records and then
one deregistration for each selected agent, with other calls in between.
-/
namespace Daf.RegistrySweep
open Daf.GraphNodes Daf.MissionPlan

/-! ### Health records -/

inductive HealthStatus where
  | Healthy | Degraded | Unhealthy | Unknown
deriving DecidableEq,Repr

def HealthStatus.from_failures (consecutive degrade_at unhealthy_at : Nat) : HealthStatus :=
  if unhealthy_at ≤ consecutive then .Unhealthy else if degrade_at ≤ consecutive then .Degraded else .Healthy

structure HealthConfig where
  heartbeat_timeout : Duration
  degrade_after_failures : Nat
  unhealthy_after_failures : Nat
  deregister_after_failures : Nat

structure AgentHealth where
  status : HealthStatus
  last_heartbeat : Int
  consecutive_failures : Nat
  total_failures : Nat
deriving DecidableEq,Repr

def AgentHealth.new (now : Int) : AgentHealth := ⟨.Unknown,now,0,0⟩

def AgentHealth.record_heartbeat (h : AgentHealth) (now : Int) : AgentHealth :=
  { h with last_heartbeat := now, consecutive_failures := 0, status := .Healthy }

/-- The counters are a u32 and a u64. -/
def AgentHealth.record_missed_heartbeat (h : AgentHealth) (config : HealthConfig) : AgentHealth :=
  let consecutive_failures := (h.consecutive_failures + 1) % 4294967296
  { h with
    consecutive_failures
    total_failures := (h.total_failures + 1) % 18446744073709551616
    status := .from_failures consecutive_failures config.degrade_after_failures config.unhealthy_after_failures }

/-- The time since the last heartbeat; zero when the clock was set back. -/
def AgentHealth.time_since_heartbeat (h : AgentHealth) (now : Int) : Duration := (now - h.last_heartbeat).toNat

def AgentHealth.should_deregister (h : AgentHealth) (config : HealthConfig) : Bool :=
  decide (config.deregister_after_failures ≤ h.consecutive_failures)

abbrev Health := AList (fun _ : AgentId => AgentHealth)

def track (health : Health) (id : AgentId) (now : Int) : Health :=
  match health.lookup id with
  | some _ => health
  | none => health.insert id (.new now)

def heartbeat (health : Health) (id : AgentId) (now : Int) : Health :=
  match health.lookup id with
  | some h => health.insert id (h.record_heartbeat now)
  | none => health

/-- What the sweep does with one record; the clock is read for each of them. -/
def visit (config : HealthConfig) (now : AgentId → Int) (swept : Health × List AgentId) (id : AgentId) : Health × List AgentId :=
  match swept.1.lookup id with
  | none => swept
  | some h =>
    if config.heartbeat_timeout < h.time_since_heartbeat (now id) then
      let missed := h.record_missed_heartbeat config
      (swept.1.insert id missed,if missed.should_deregister config then swept.2 ++ [id] else swept.2)
    else swept

/-- The sweep over the records in the order in which the map is iterated. -/
def sweep (config : HealthConfig) (now : AgentId → Int) (order : List AgentId) (health : Health) : Health × List AgentId :=
  order.foldl (visit config now) (health,[])

/-! ### The registry -/

structure RegistryEntry where
  registered_at : Int
  last_heartbeat : Int
  consecutive_failures : Nat

inductive Event where
  | registered (id : AgentId)
  | heartbeat (id : AgentId)
  /-- The sweep of this call selected these agents. -/
  | swept (call : Nat) (ids : List AgentId)
  /-- The call removed the agent; its health record at that moment. -/
  | removed (call : Nat) (id : AgentId) (record : Option AgentHealth)
deriving DecidableEq,Repr

/-- A call of `sweep_unhealthy` after its sweep. -/
structure SweepCall where
  to_remove : List AgentId
  removed : List AgentId

structure Registry where
  config : HealthConfig
  agents : AList (fun _ : AgentId => RegistryEntry)
  health : Health
  /-- The calls of `sweep_unhealthy` in the order of their sweeps. -/
  calls : List SweepCall
  trace : List Event

def Registry.new (config : HealthConfig) : Registry := ⟨config,∅,∅,[],[]⟩

def Registry.register_agent (r : Registry) (id : AgentId) (now : Int) : Registry :=
  match r.agents.lookup id with
  | some _ => r
  | none => { r with health := track r.health id now, agents := r.agents.insert id ⟨now,now,0⟩, trace := r.trace ++ [.registered id] }

def Registry.unregister_agent (r : Registry) (id : AgentId) : Registry :=
  match r.agents.lookup id with
  | some _ => { r with health := r.health.erase id, agents := r.agents.erase id }
  | none => r

def Registry.heartbeat (r : Registry) (id : AgentId) (now : Int) : Registry :=
  match r.agents.lookup id with
  | some entry => { r with
      agents := r.agents.insert id { entry with last_heartbeat := now, consecutive_failures := 0 }
      health := RegistrySweep.heartbeat r.health id now
      trace := r.trace ++ [.heartbeat id] }
  | none => r

/-- The first step of `sweep_unhealthy`. -/
def Registry.sweep (r : Registry) (order : List AgentId) (now : AgentId → Int) : Registry :=
  let (health,to_remove) := RegistrySweep.sweep r.config now order r.health
  { r with health, calls := r.calls ++ [⟨to_remove,[]⟩], trace := r.trace ++ [.swept r.calls.length to_remove] }

/-- The next deregistration of a call of `sweep_unhealthy`. -/
def Registry.sweepNext (r : Registry) (call : Nat) : Registry :=
  match r.calls[call]? with
  | some ⟨id :: later,removed⟩ =>
    match r.agents.lookup id with
    | some _ => { r.unregister_agent id with
        calls := r.calls.set call ⟨later,removed ++ [id]⟩
        trace := r.trace ++ [.removed call id (r.health.lookup id)] }
    | none => { r with calls := r.calls.set call ⟨later,removed⟩ }
  | _ => r

inductive Action where
  | register_agent (id : AgentId) (now : Int)
  | unregister_agent (id : AgentId)
  | heartbeat (id : AgentId) (now : Int)
  | sweep (order : List AgentId) (now : AgentId → Int)
  | sweepNext (call : Nat)

def step (r : Registry) : Action → Registry
  | .register_agent id now => r.register_agent id now
  | .unregister_agent id => r.unregister_agent id
  | .heartbeat id now => r.heartbeat id now
  -- the map is iterated once over every record
  | .sweep order now => if order.Perm r.health.keys then r.sweep order now else r
  | .sweepNext call => r.sweepNext call

def run (actions : List Action) (r : Registry) : Registry := actions.foldl step r

/-! ### What a sweep does -/

/-- A record after the sweep. -/
def aged (config : HealthConfig) (now : Int) (h : AgentHealth) : AgentHealth :=
  if config.heartbeat_timeout < h.time_since_heartbeat now then h.record_missed_heartbeat config else h

/-- Whether the sweep selects the agent of a record. -/
def selects (config : HealthConfig) (now : Int) (h : AgentHealth) : Bool :=
  decide (config.heartbeat_timeout < h.time_since_heartbeat now) && (h.record_missed_heartbeat config).should_deregister config

theorem visit_health (config : HealthConfig) (now : AgentId → Int) (swept : Health × List AgentId) (id other : AgentId) :
    (visit config now swept id).1.lookup other =
      if other = id then (swept.1.lookup id).map (aged config (now id)) else swept.1.lookup other := by
  unfold visit
  by_cases same : other = id
  · subst same
    rw [if_pos rfl]
    cases found : swept.1.lookup other with
    | none => exact found
    | some h =>
      by_cases late : config.heartbeat_timeout < h.time_since_heartbeat (now other)
      · simp [late,aged]
      · simp [late,aged,found]
  · rw [if_neg same]
    cases found : swept.1.lookup id with
    | none => rfl
    | some h =>
      by_cases late : config.heartbeat_timeout < h.time_since_heartbeat (now id)
      · simp only [if_pos late]
        exact AList.lookup_insert_ne same
      · simp only [if_neg late]

theorem visit_selected (config : HealthConfig) (now : AgentId → Int) (swept : Health × List AgentId) (id : AgentId) :
    (visit config now swept id).2 = if (swept.1.lookup id).any (selects config (now id)) then swept.2 ++ [id] else swept.2 := by
  unfold visit
  cases found : swept.1.lookup id with
  | none => rfl
  | some h =>
    by_cases late : config.heartbeat_timeout < h.time_since_heartbeat (now id)
    · simp [selects,late]
    · simp [selects,late]

/-- A sweep ages every record and selects by the records before it. -/
theorem sweep_spec (config : HealthConfig) (now : AgentId → Int) (order : List AgentId) (distinct : order.Nodup) (health : Health)
    (selected : List AgentId) :
    (∀ id, (order.foldl (visit config now) (health,selected)).1.lookup id =
      if id ∈ order then (health.lookup id).map (aged config (now id)) else health.lookup id) ∧
    (order.foldl (visit config now) (health,selected)).2 =
      selected ++ order.filter (fun id => (health.lookup id).any (selects config (now id))) := by
  induction order generalizing health selected with
  | nil => simp
  | cons id later ih =>
    have fresh : id ∉ later := (List.nodup_cons.mp distinct).1
    obtain ⟨records,names⟩ := ih (List.nodup_cons.mp distinct).2 (visit config now (health,selected) id).1 (visit config now (health,selected) id).2
    refine ⟨fun other => ?_,?_⟩
    · rw [List.foldl_cons,records other,visit_health]
      by_cases same : other = id
      · subst same
        simp [fresh]
      · simp [same]
    · rw [List.foldl_cons,names,visit_selected]
      have rest : later.filter (fun other => ((visit config now (health,selected) id).1.lookup other).any (selects config (now other))) =
          later.filter (fun other => (health.lookup other).any (selects config (now other))) := by
        refine List.filter_congr (fun other member => ?_)
        have differ : other ≠ id := fun same => fresh (same ▸ member)
        rw [visit_health,if_neg differ]
      rw [rest,List.filter_cons]
      split
      · simp
      · rfl

/-! ### The condition on a run -/

/-- Some call of `sweep_unhealthy` has selected the agent and not yet reached it. -/
def Registry.pending (r : Registry) (id : AgentId) : Prop := ∃ call ∈ r.calls, id ∈ call.to_remove

/-- No heartbeat or registration comes in for an agent while it is selected, and no counter of a swept record is full. -/
def Undisturbed (r : Registry) : Action → Prop
  | .register_agent id _ => r.agents.lookup id = none → ¬ r.pending id
  | .heartbeat id _ => (r.agents.lookup id).isSome → ¬ r.pending id
  | .sweep _ _ => ∀ id h, r.health.lookup id = some h → h.consecutive_failures + 1 < 4294967296
  | .unregister_agent _ => True
  | .sweepNext _ => True

/-- Every action of the run meets the condition. -/
def Undisturbing : List Action → Registry → Prop
  | [],_ => True
  | action :: later,r => Undisturbed r action ∧ Undisturbing later (step r action)

/-! ### The invariant -/

/-- The record of an agent has reached the limit. -/
def Silent (r : Registry) (id : AgentId) : Prop := ∃ h, r.health.lookup id = some h ∧ r.config.deregister_after_failures ≤ h.consecutive_failures

/-- The sweep step of a call, with what has happened since. -/
def Since (trace : List Event) (call : Nat) (since : List Event) : Prop := ∃ before ids, trace = before ++ .swept call ids :: since

/-- Neither a heartbeat nor a registration of the agent has completed. -/
def Quiet (id : AgentId) (since : List Event) : Prop := .heartbeat id ∉ since ∧ .registered id ∉ since

/-- A removal by a sweep was justified. -/
def Justified (config : HealthConfig) (before : List Event) (call : Nat) (id : AgentId) (record : Option AgentHealth) : Prop :=
  (∃ h, record = some h ∧ config.deregister_after_failures ≤ h.consecutive_failures) ∧
  ∀ since, Since before call since → Quiet id since

structure Inv (config : HealthConfig) (r : Registry) : Prop where
  same : r.config = config
  /-- Every registered agent has a health record. -/
  tracked : ∀ id, (r.agents.lookup id).isSome → (r.health.lookup id).isSome
  /-- A selected agent that is still registered has reached the limit. -/
  selected : ∀ (n : Nat) (call : SweepCall), r.calls[n]? = some call → ∀ id ∈ call.to_remove, (r.agents.lookup id).isSome → Silent r id
  /-- It has been quiet since. -/
  quiet : ∀ (n : Nat) (call : SweepCall), r.calls[n]? = some call → ∀ id ∈ call.to_remove, ∀ since, Since r.trace n since → Quiet id since
  numbered : ∀ n ids, .swept n ids ∈ r.trace → n < r.calls.length
  justified : ∀ before n id record after, r.trace = before ++ .removed n id record :: after → Justified config before n id record

theorem inv_new (config : HealthConfig) : Inv config (.new config) where
  same := rfl
  tracked id known := by cases known
  selected n call known := by cases known
  quiet n call known := by cases known
  numbered n ids member := by cases member
  justified before n id record after split := by simp [Registry.new] at split

/-- Where a list with one more element is split at an element. -/
theorem split_concat {α : Type} {trace before after : List α} {last x : α} (split : trace ++ [last] = before ++ x :: after) :
    (after = [] ∧ last = x ∧ trace = before) ∨ ∃ rest, after = rest ++ [last] ∧ trace = before ++ x :: rest := by
  rcases List.eq_nil_or_concat after with rfl | ⟨rest,final,rfl⟩
  · obtain ⟨front,back⟩ := List.append_inj' split rfl
    exact .inl ⟨rfl,List.singleton_inj.mp back,front⟩
  · rw [List.concat_eq_append,← List.cons_append,← List.append_assoc] at split
    obtain ⟨front,back⟩ := List.append_inj' split rfl
    rw [List.singleton_inj.mp back]
    exact .inr ⟨rest,List.concat_eq_append,front⟩

/-- What has happened since a sweep when one more event is recorded. -/
theorem since_concat {trace since : List Event} {last : Event} {n : Nat} (known : Since (trace ++ [last]) n since) :
    (since = [] ∧ ∃ ids, last = .swept n ids) ∨ ∃ rest, since = rest ++ [last] ∧ Since trace n rest := by
  obtain ⟨before,ids,split⟩ := known
  rcases split_concat split with ⟨empty,same,_⟩ | ⟨rest,same,earlier⟩
  · exact .inl ⟨empty,ids,same⟩
  · exact .inr ⟨rest,same,before,ids,earlier⟩

/-- An event that is neither a heartbeat nor a registration of the agent leaves it quiet. -/
theorem quiet_concat {trace since : List Event} {last : Event} {n : Nat} {id : AgentId}
    (quiet : ∀ since, Since trace n since → Quiet id since) (beat : last ≠ .heartbeat id) (joined : last ≠ .registered id)
    (known : Since (trace ++ [last]) n since) : Quiet id since := by
  rcases since_concat known with ⟨rfl,_⟩ | ⟨rest,rfl,earlier⟩
  · exact ⟨List.not_mem_nil,List.not_mem_nil⟩
  · obtain ⟨noBeat,noJoin⟩ := quiet rest earlier
    constructor
    · intro member
      rcases List.mem_append.mp member with old | new
      · exact noBeat old
      · exact beat (List.mem_singleton.mp new).symm
    · intro member
      rcases List.mem_append.mp member with old | new
      · exact noJoin old
      · exact joined (List.mem_singleton.mp new).symm

/-- An event that removes nobody leaves the removals justified. -/
theorem justified_concat {config : HealthConfig} {trace : List Event} {last : Event}
    (justified : ∀ before n id record after, trace = before ++ .removed n id record :: after → Justified config before n id record)
    (other : ∀ n id record, last = .removed n id record → Justified config trace n id record) (before : List Event) (n : Nat) (id : AgentId)
    (record : Option AgentHealth) (after : List Event) (split : trace ++ [last] = before ++ .removed n id record :: after) :
    Justified config before n id record := by
  rcases split_concat split with ⟨_,same,rfl⟩ | ⟨rest,_,earlier⟩
  · exact other n id record same
  · exact justified before n id record rest earlier

/-- The calls when one more is started. -/
theorem get_concat {calls : List SweepCall} {new call : SweepCall} {n : Nat} (known : (calls ++ [new])[n]? = some call) :
    calls[n]? = some call ∨ (n = calls.length ∧ call = new) := by
  by_cases old : n < calls.length
  · exact .inl (by rwa [List.getElem?_append_left old] at known)
  · rw [List.getElem?_append_right (by omega)] at known
    have first : n - calls.length = 0 := by
      by_contra positive
      rw [List.getElem?_eq_none (by simp; omega)] at known
      cases known
    rw [first] at known
    exact .inr ⟨by omega,(Option.some.inj known).symm⟩

/-- A record at the limit stays there when it ages, unless the counter is full. -/
theorem aged_limit {h : AgentHealth} {limit : Nat} (config : HealthConfig) (now : Int) (room : h.consecutive_failures + 1 < 4294967296)
    (reached : limit ≤ h.consecutive_failures) : limit ≤ (aged config now h).consecutive_failures := by
  unfold aged
  split
  · show limit ≤ (h.consecutive_failures + 1) % 4294967296
    omega
  · exact reached

variable {config : HealthConfig} {r : Registry}

theorem inv_register_agent (inv : Inv config r) (id : AgentId) (now : Int) (undisturbed : Undisturbed r (.register_agent id now)) :
    Inv config (r.register_agent id now) := by
  unfold Registry.register_agent
  cases found : r.agents.lookup id with
  | some entry => exact inv
  | none =>
    have free := undisturbed found
    have other : ∀ (n : Nat) (call : SweepCall), r.calls[n]? = some call → ∀ a ∈ call.to_remove, a ≠ id := by
      rintro n call known a member rfl
      exact free ⟨call,List.mem_of_getElem? known,member⟩
    have kept : ∀ a, a ≠ id → (track r.health id now).lookup a = r.health.lookup a := by
      intro a differ
      unfold track
      cases r.health.lookup id with
      | some h => rfl
      | none => exact AList.lookup_insert_ne differ
    refine { same := inv.same, tracked := ?_, selected := ?_, quiet := ?_, numbered := ?_, justified := ?_ }
    · intro a known
      by_cases same : a = id
      · subst same
        show ((track r.health a now).lookup a).isSome
        unfold track
        cases record : r.health.lookup a with
        | some h => simp [record]
        | none => simp
      · show ((track r.health id now).lookup a).isSome
        rw [kept a same]
        refine inv.tracked a ?_
        rwa [AList.lookup_insert_ne same] at known
    · intro n call known a member registered
      have differ := other n call known a member
      rw [AList.lookup_insert_ne differ] at registered
      obtain ⟨h,record,limit⟩ := inv.selected n call known a member registered
      exact ⟨h,(kept a differ).trans record,limit⟩
    · intro n call known a member since started
      refine quiet_concat (inv.quiet n call known a member) (by simp) ?_ started
      intro same
      exact other n call known a member (Event.registered.inj same).symm
    · intro n ids member
      rcases List.mem_append.mp member with old | new
      · exact inv.numbered n ids old
      · cases List.mem_singleton.mp new
    · exact justified_concat inv.justified (fun n a record same => by cases same)

theorem inv_unregister_agent (inv : Inv config r) (id : AgentId) : Inv config (r.unregister_agent id) := by
  unfold Registry.unregister_agent
  cases found : r.agents.lookup id with
  | none => exact inv
  | some entry =>
    have differ : ∀ {a}, ((r.agents.erase id).lookup a).isSome → a ≠ id := by
      rintro a known rfl
      rw [AList.lookup_erase] at known
      cases known
    refine { inv with tracked := ?_, selected := ?_ }
    · intro a known
      show ((r.health.erase id).lookup a).isSome
      rw [AList.lookup_erase_ne (differ known)]
      exact inv.tracked a (by rwa [AList.lookup_erase_ne (differ known)] at known)
    · intro n call open_ a member known
      obtain ⟨h,record,limit⟩ := inv.selected n call open_ a member (by rwa [AList.lookup_erase_ne (differ known)] at known)
      exact ⟨h,(AList.lookup_erase_ne (differ known)).trans record,limit⟩

theorem inv_heartbeat (inv : Inv config r) (id : AgentId) (now : Int) (undisturbed : Undisturbed r (.heartbeat id now)) :
    Inv config (r.heartbeat id now) := by
  unfold Registry.heartbeat
  cases found : r.agents.lookup id with
  | none => exact inv
  | some entry =>
    have free := undisturbed (by rw [found]; rfl)
    have other : ∀ (n : Nat) (call : SweepCall), r.calls[n]? = some call → ∀ a ∈ call.to_remove, a ≠ id := by
      rintro n call known a member rfl
      exact free ⟨call,List.mem_of_getElem? known,member⟩
    have known : ∀ a, ((r.agents.insert id { entry with last_heartbeat := now, consecutive_failures := 0 }).lookup a).isSome →
        (r.agents.lookup a).isSome := by
      intro a inserted
      by_cases same : a = id
      · rw [same,found]
        rfl
      · rwa [AList.lookup_insert_ne same] at inserted
    have kept : ∀ a, a ≠ id → (RegistrySweep.heartbeat r.health id now).lookup a = r.health.lookup a := by
      intro a differ
      unfold RegistrySweep.heartbeat
      cases r.health.lookup id with
      | none => rfl
      | some h => exact AList.lookup_insert_ne differ
    refine { same := inv.same, tracked := ?_, selected := ?_, quiet := ?_, numbered := ?_, justified := ?_ }
    · intro a registered
      have before := inv.tracked a (known a registered)
      show ((RegistrySweep.heartbeat r.health id now).lookup a).isSome
      by_cases same : a = id
      · subst same
        obtain ⟨h,record⟩ := Option.isSome_iff_exists.mp before
        simp [RegistrySweep.heartbeat,record]
      · rwa [kept a same]
    · intro n call open_ a member registered
      obtain ⟨h,record,limit⟩ := inv.selected n call open_ a member (known a registered)
      exact ⟨h,(kept a (other n call open_ a member)).trans record,limit⟩
    · intro n call open_ a member since started
      refine quiet_concat (inv.quiet n call open_ a member) ?_ (by simp) started
      intro same
      exact other n call open_ a member (Event.heartbeat.inj same).symm
    · intro n ids member
      rcases List.mem_append.mp member with old | new
      · exact inv.numbered n ids old
      · cases List.mem_singleton.mp new
    · exact justified_concat inv.justified (fun n a record same => by cases same)

/-- A sweep does not take a record below the limit, and the records of the agents that it selects have reached it. -/
theorem inv_sweep (inv : Inv config r) {order : List AgentId} (whole : order.Perm r.health.keys) (now : AgentId → Int)
    (undisturbed : Undisturbed r (.sweep order now)) : Inv config (r.sweep order now) := by
  have distinct : order.Nodup := whole.nodup_iff.mpr r.health.keys_nodup
  obtain ⟨records,names⟩ := sweep_spec r.config now order distinct r.health []
  have aging : ∀ id, (RegistrySweep.sweep r.config now order r.health).1.lookup id = (r.health.lookup id).map (aged r.config (now id)) := by
    intro id
    refine (records id).trans ?_
    by_cases member : id ∈ order
    · rw [if_pos member]
    · have absent : r.health.lookup id = none := by
        rw [AList.lookup_eq_none]
        exact fun inside => member (whole.mem_iff.mpr (AList.mem_keys.mp inside))
      rw [if_neg member,absent]
      rfl
  refine { same := inv.same, tracked := ?_, selected := ?_, quiet := ?_, numbered := ?_, justified := ?_ }
  · intro id known
    show ((RegistrySweep.sweep r.config now order r.health).1.lookup id).isSome
    rw [aging,Option.isSome_map]
    exact inv.tracked id known
  · intro n call known id member registered
    rcases get_concat known with old | ⟨_,rfl⟩
    · obtain ⟨h,record,limit⟩ := inv.selected n call old id member registered
      refine ⟨aged r.config (now id) h,?_,aged_limit _ _ (undisturbed id h record) limit⟩
      show (RegistrySweep.sweep r.config now order r.health).1.lookup id = _
      rw [aging,record,Option.map_some]
    · have chosen : id ∈ order.filter (fun id => (r.health.lookup id).any (selects r.config (now id))) := by
        rw [← List.nil_append (order.filter _),← names]
        exact member
      obtain ⟨h,record,selecting⟩ := (Option.any_eq_true _ _).mp (List.mem_filter.mp chosen).2
      simp only [selects,Bool.and_eq_true,decide_eq_true_eq] at selecting
      refine ⟨h.record_missed_heartbeat r.config,?_,of_decide_eq_true selecting.2⟩
      show (RegistrySweep.sweep r.config now order r.health).1.lookup id = _
      rw [aging,record,Option.map_some,aged,if_pos selecting.1]
  · intro n call known id member since started
    rcases get_concat known with old | ⟨rfl,_⟩
    · exact quiet_concat (inv.quiet n call old id member) (by simp) (by simp) started
    · -- a sweep with this number has not been recorded before
      refine quiet_concat ?_ (by simp) (by simp) started
      rintro earlier ⟨before,ids,split⟩
      have listed : .swept r.calls.length ids ∈ r.trace := by
        rw [split]
        exact List.mem_append_right _ List.mem_cons_self
      exact absurd (inv.numbered _ _ listed) (lt_irrefl _)
  · intro n ids member
    show n < (r.calls ++ [_]).length
    rw [List.length_append,List.length_singleton]
    rcases List.mem_append.mp member with old | new
    · exact Nat.lt_succ_of_lt (inv.numbered n ids old)
    · cases List.mem_singleton.mp new
      exact Nat.lt_succ_self _
  · exact justified_concat inv.justified (fun n a record same => by cases same)

/-- The next deregistration of a call removes an agent only with justification. -/
theorem inv_sweepNext (inv : Inv config r) (n : Nat) : Inv config (r.sweepNext n) := by
  unfold Registry.sweepNext
  split
  · rename_i id later removed open_
    -- the calls lose an agent, so what is known of the selected ones stays known
    have shrunk : ∀ {done} {m : Nat} {call : SweepCall}, (r.calls.set n ⟨later,done⟩)[m]? = some call →
        ∃ before, r.calls[m]? = some before ∧ ∀ a ∈ call.to_remove, a ∈ before.to_remove := by
      intro done m call known
      rw [List.getElem?_set] at known
      split at known
      · rename_i same
        subst same
        split at known
        · cases known
          exact ⟨_,open_,fun a member => List.mem_cons_of_mem _ member⟩
        · cases known
      · exact ⟨call,known,fun a member => member⟩
    cases found : r.agents.lookup id with
    | none =>
      refine { inv with selected := ?_, quiet := ?_, numbered := ?_ }
      · intro m call known a member
        obtain ⟨before,old,sub⟩ := shrunk known
        exact inv.selected m before old a (sub a member)
      · intro m call known a member
        obtain ⟨before,old,sub⟩ := shrunk known
        exact inv.quiet m before old a (sub a member)
      · intro m ids member
        show m < (r.calls.set n _).length
        rw [List.length_set]
        exact inv.numbered m ids member
    | some entry =>
      have left := inv_unregister_agent inv id
      have sameCalls : (r.unregister_agent id).calls = r.calls := by
        unfold Registry.unregister_agent
        rw [found]
      have sameTrace : (r.unregister_agent id).trace = r.trace := by
        unfold Registry.unregister_agent
        rw [found]
      refine { same := left.same, tracked := left.tracked, selected := ?_, quiet := ?_, numbered := ?_, justified := ?_ }
      · intro m call known a member registered
        obtain ⟨before,old,sub⟩ := shrunk known
        exact left.selected m before (sameCalls.symm ▸ old) a (sub a member) registered
      · intro m call known a member since started
        obtain ⟨before,old,sub⟩ := shrunk known
        exact quiet_concat (inv.quiet m before old a (sub a member)) (by simp) (by simp) started
      · intro m ids member
        show m < (r.calls.set n _).length
        rw [List.length_set]
        rcases List.mem_append.mp member with old | new
        · exact inv.numbered m ids old
        · cases List.mem_singleton.mp new
      · refine justified_concat inv.justified ?_
        rintro m a record ⟨⟩
        obtain ⟨h,known,limit⟩ := inv.selected n _ open_ id List.mem_cons_self (by rw [found]; rfl)
        exact ⟨⟨h,known,inv.same ▸ limit⟩,inv.quiet n _ open_ id List.mem_cons_self⟩
  · exact inv

theorem inv_step (inv : Inv config r) (action : Action) (undisturbed : Undisturbed r action) : Inv config (step r action) := by
  cases action with
  | register_agent id now => exact inv_register_agent inv id now undisturbed
  | unregister_agent id => exact inv_unregister_agent inv id
  | heartbeat id now => exact inv_heartbeat inv id now undisturbed
  | sweep order now =>
    by_cases whole : order.Perm r.health.keys
    · rw [step,if_pos whole]
      exact inv_sweep inv whole now undisturbed
    · rw [step,if_neg whole]
      exact inv
  | sweepNext call => exact inv_sweepNext inv call

theorem inv_run (inv : Inv config r) {actions : List Action} (undisturbing : Undisturbing actions r) : Inv config (run actions r) := by
  induction actions generalizing r with
  | nil => exact inv
  | cons action later ih => exact ih (inv_step inv action undisturbing.1) undisturbing.2

/-- In every run in which no heartbeat or registration comes in for an agent that a sweep has selected, a sweep removes an
agent only with a health record at the limit, and neither a heartbeat nor a registration has completed since. -/
theorem sweeps_justified (config : HealthConfig) (actions : List Action) (undisturbing : Undisturbing actions (.new config)) :
    ∀ before call id record after, (run actions (.new config)).trace = before ++ .removed call id record :: after →
      Justified config before call id record :=
  (inv_run (inv_new config) undisturbing).justified

/-- An agent that is silent for a minute. -/
def silentAgent : List Action := [.register_agent ⟨1#128⟩ 0,.sweep [⟨1#128⟩] (fun _ => 60000000000),.sweepNext 0]

def strictConfig : HealthConfig := ⟨Duration.from_secs 30,1,1,1⟩

theorem silent_agent_removed :
    Undisturbing silentAgent (.new strictConfig) ∧
    Justified strictConfig [.registered ⟨1#128⟩,.swept 0 [⟨1#128⟩]] 0 ⟨1#128⟩ (some ⟨.Unhealthy,0,1,1⟩) := by
  have undisturbing : Undisturbing silentAgent (.new strictConfig) := by
    refine ⟨?_,?_,trivial,trivial⟩
    · rintro _ ⟨call,member,_⟩
      cases member
    · intro id h found
      have tracked : ((∅ : Health).insert ⟨1#128⟩ (.new 0)).lookup id = some h := found
      by_cases same : id = ⟨1#128⟩
      · rw [same,AList.lookup_insert] at tracked
        rw [← Option.some.inj tracked]
        decide
      · rw [AList.lookup_insert_ne same] at tracked
        cases tracked
  exact ⟨undisturbing,sweeps_justified strictConfig silentAgent undisturbing _ _ _ _ [] (by decide)⟩

/-- A heartbeat after the sweep does not save the agent: it is removed although its record has no failure. -/
theorem beating_agent_removed :
    ¬ ∀ before call id record after,
      (run [.register_agent ⟨1#128⟩ 0,.sweep [⟨1#128⟩] (fun _ => 60000000000),.heartbeat ⟨1#128⟩ 60000000001,.sweepNext 0]
        (.new strictConfig)).trace = before ++ .removed call id record :: after →
      Justified strictConfig before call id record := by
  intro justified
  have wrong := justified [.registered ⟨1#128⟩,.swept 0 [⟨1#128⟩],.heartbeat ⟨1#128⟩] 0 ⟨1#128⟩ (some ⟨.Healthy,60000000001,0,1⟩) []
    (by decide)
  exact (wrong.2 [.heartbeat ⟨1#128⟩] ⟨[.registered ⟨1#128⟩],[⟨1#128⟩],rfl⟩).1 List.mem_cons_self

end Daf.RegistrySweep
