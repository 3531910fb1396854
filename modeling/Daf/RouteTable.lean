import Daf.Buckets
import Daf.MissionPlan
import Mathlib.Algebra.GroupWithZero.Nat
import Mathlib.Data.List.MinMax

/-!
The routing table of a router: each agent with its routes, at most one by each channel. Whatever is inserted, removed and evicted, the
stored routes are the values of a finite map from agents and channels.
-/
namespace Daf.RouteTable
open Daf.Buckets
open Daf.MissionPlan (AgentId)

structure RouteEntry where
  target_agent : AgentId
  channel_id : UInt32
  latency_us : UInt64
  /-- Lower is preferred. -/
  priority : UInt8
  last_seen : Int
  pending_count : UInt64
deriving DecidableEq,Repr

def RouteEntry.new (target_agent : AgentId) (channel_id : UInt32) (now : Int) : RouteEntry where
  target_agent
  channel_id
  latency_us := 0
  priority := 128
  last_seen := now
  pending_count := 0

def RouteEntry.is_stale (route : RouteEntry) (now timeout : Int) : Bool := now - route.last_seen > timeout

structure RoutingTable where
  routes : Table AgentId RouteEntry

def RoutingTable.new : RoutingTable := ⟨∅⟩

/-- A route by the same channel is replaced, another one is appended. -/
def RoutingTable.insert (table : RoutingTable) (entry : RouteEntry) : RoutingTable :=
  match table.routes.lookup entry.target_agent with
  | some entries => ⟨table.routes.insert entry.target_agent (upsert RouteEntry.channel_id entry entries)⟩
  | none => ⟨table.routes.insert entry.target_agent [entry]⟩

def RoutingTable.remove_agent (table : RoutingTable) (agent : AgentId) : Option (List RouteEntry) × RoutingTable :=
  (table.routes.lookup agent,⟨table.routes.erase agent⟩)

def RoutingTable.remove_route (table : RoutingTable) (agent : AgentId) (channel_id : UInt32) : Bool × RoutingTable :=
  match table.routes.lookup agent with
  | some entries =>
    let kept := entries.filter fun route => route.channel_id ≠ channel_id
    (kept.length < entries.length,⟨if kept.isEmpty then table.routes.erase agent else table.routes.insert agent kept⟩)
  | none => (false,table)

def RoutingTable.get (table : RoutingTable) (agent : AgentId) : Option (List RouteEntry) := table.routes.lookup agent

/-- The first of the routes with the lowest priority. -/
def RoutingTable.best_route (table : RoutingTable) (agent : AgentId) : Option RouteEntry :=
  (table.routes.lookup agent).bind fun entries => entries.argmin fun e => e.priority.toNat

/-- The clock is read anew for each route; this is what it says. -/
def RoutingTable.evict_stale (table : RoutingTable) (clock : RouteEntry → Int) (timeout : Int) : Nat × RoutingTable :=
  let kept := fun route : RouteEntry => !route.is_stale (clock route) timeout
  ((table.routes.entries.map fun e => e.2.length - (e.2.filter kept).length).sum,⟨retain kept table.routes⟩)

/-- All routes, agent by agent. -/
def RoutingTable.stored (table : RoutingTable) : List RouteEntry := rows table.routes

inductive Op where
  | insert (entry : RouteEntry)
  | remove_route (agent : AgentId) (channel_id : UInt32)
  | remove_agent (agent : AgentId)
  | evict_stale (clock : RouteEntry → Int) (timeout : Int)

def Op.apply (table : RoutingTable) : Op → RoutingTable
  | .insert entry => table.insert entry
  | .remove_route agent channel_id => (table.remove_route agent channel_id).2
  | .remove_agent agent => (table.remove_agent agent).2
  | .evict_stale clock timeout => (table.evict_stale clock timeout).2

/-! ### The finite map -/

abbrev RouteMap := Pairs AgentId UInt32 RouteEntry

def Op.onMap (map : RouteMap) : Op → RouteMap
  | .insert entry => map.insert (entry.target_agent,entry.channel_id) entry
  | .remove_route agent channel_id => map.erase (agent,channel_id)
  | .remove_agent agent => dropOwner agent map
  | .evict_stale clock timeout => keep (fun route => !route.is_stale (clock route) timeout) map

/-- What the table says is what the map says. -/
structure Refines (table : RoutingTable) (map : RouteMap) : Prop where
  stored : table.stored.Perm (map.entries.map Sigma.snd)
  own : ∀ e ∈ map.entries, e.1 = (e.2.target_agent,e.2.channel_id)
  filled : ∀ agent entries, table.get agent = some entries → entries ≠ []
  channels : ∀ agent entries, table.get agent = some entries → (entries.map RouteEntry.channel_id).Nodup
  removed : ∀ agent channel_id, (table.remove_route agent channel_id).1 = true ↔ (agent,channel_id) ∈ map
  evicted : ∀ clock timeout, (table.evict_stale clock timeout).1 =
    (map.entries.filter fun e => e.1 ∉ Op.onMap map (.evict_stale clock timeout)).length
  best : ∀ agent e, table.best_route agent = some e → map.lookup (agent,e.channel_id) = some e ∧
    ∀ channel_id other, map.lookup (agent,channel_id) = some other → e.priority ≤ other.priority
  unrouted : ∀ agent, table.best_route agent = none ↔ ∀ channel_id, (agent,channel_id) ∉ map

abbrev Shown (table : RoutingTable) (map : RouteMap) : Prop := Shows RouteEntry.target_agent RouteEntry.channel_id table.routes map

variable {table : RoutingTable} {map : RouteMap}

/-! ### One call -/

theorem insert_routes (table : RoutingTable) (entry : RouteEntry) : (table.insert entry).routes =
    setRows table.routes entry.target_agent (upsert RouteEntry.channel_id entry ((table.routes.lookup entry.target_agent).getD [])) := by
  have filled : (upsert RouteEntry.channel_id entry ((table.routes.lookup entry.target_agent).getD [])).isEmpty = false :=
    List.isEmpty_eq_false_iff.mpr (upsert_ne_nil entry)
  rw [setRows,filled,RoutingTable.insert]
  cases table.routes.lookup entry.target_agent <;> rfl

theorem remove_route_routes (table : RoutingTable) (agent : AgentId) (channel_id : UInt32) :
    (table.remove_route agent channel_id).2 = table ∧ table.routes.lookup agent = none ∨
    ∃ entries, table.routes.lookup agent = some entries ∧ (table.remove_route agent channel_id).2.routes =
      setRows table.routes agent (entries.filter fun route => route.channel_id ≠ channel_id) := by
  unfold RoutingTable.remove_route
  cases table.routes.lookup agent with
  | none => exact .inl ⟨rfl,rfl⟩
  | some entries => exact .inr ⟨entries,rfl,rfl⟩

theorem apply_shown (shown : Shown table map) (op : Op) : Shown (op.apply table) (op.onMap map) := by
  cases op with
  | insert entry =>
    show Shows _ _ (table.insert entry).routes _
    rw [insert_routes]
    exact shown.insert entry
  | remove_route agent channel_id =>
    show Shows _ _ (table.remove_route agent channel_id).2.routes _
    rcases remove_route_routes table agent channel_id with ⟨same,absent⟩ | ⟨entries,found,removed⟩
    · rw [same]
      exact shown.remove_absent absent channel_id
    · have remaining := shown.remove agent channel_id
      rw [found,Option.getD_some] at remaining
      rwa [removed]
  | remove_agent agent => exact shown.dropOwner agent
  | evict_stale clock timeout => exact shown.keep _

theorem run_shown (shown : Shown table map) (ops : List Op) : Shown (ops.foldl Op.apply table) (ops.foldl Op.onMap map) := by
  induction ops generalizing table map with
  | nil => exact shown
  | cons op later ih => exact ih (apply_shown shown op)

/-! ### What the calls answer -/

theorem removed_iff (shown : Shown table map) (agent : AgentId) (channel_id : UInt32) :
    (table.remove_route agent channel_id).1 = true ↔ (agent,channel_id) ∈ map := by
  rw [← AList.lookup_isSome,← shown.same,rowAt,RoutingTable.remove_route]
  cases table.routes.lookup agent with
  | none => simp
  | some entries =>
    rw [Option.bind_some,List.find?_isSome,decide_eq_true_iff]
    constructor
    · intro fewer
      obtain ⟨route,member,gone⟩ := List.length_filter_lt_length_iff_exists.mp fewer
      exact ⟨route,member,by simpa using gone⟩
    · rintro ⟨route,member,same⟩
      exact List.length_filter_lt_length_iff_exists.mpr ⟨route,member,by simpa using same⟩

/-- What a filter drops, list by list. -/
theorem sum_dropped (p : RouteEntry → Bool) (entries : List (Σ _ : AgentId, List RouteEntry)) :
    (entries.map fun e => e.2.length - (e.2.filter p).length).sum = (entries.flatMap Sigma.snd).countP fun route => !p route := by
  induction entries with
  | nil => rfl
  | cons e later ih =>
    have split : e.2.length = e.2.countP p + e.2.countP fun route => !p route := by
      rw [List.length_eq_countP_add_countP p]
      congr 2
      funext route
      cases p route <;> rfl
    rw [List.map_cons,List.sum_cons,ih,List.flatMap_cons,List.countP_append,← List.countP_eq_length_filter]
    omega

theorem evicted_eq (shown : Shown table map) (clock : RouteEntry → Int) (timeout : Int) :
    (table.evict_stale clock timeout).1 = (map.entries.filter fun e => e.1 ∉ Op.onMap map (.evict_stale clock timeout)).length := by
  have gone : ∀ e ∈ map.entries, decide (e.1 ∉ Op.onMap map (.evict_stale clock timeout)) = !!e.2.is_stale (clock e.2) timeout := by
    intro e there
    have dropped : e.1 ∉ Op.onMap map (.evict_stale clock timeout) ↔ (!e.2.is_stale (clock e.2) timeout) = false := not_mem_keep there
    rw [Bool.eq_iff_iff,decide_eq_true_iff,dropped,Bool.not_eq_true']
  rw [List.filter_congr gone,← List.countP_eq_length_filter]
  refine (sum_dropped _ _).trans ((shown.perm.countP_eq _).trans ?_)
  rw [List.countP_map]
  rfl

theorem best_route_minimal (shown : Shown table map) {agent : AgentId} {e : RouteEntry} (found : table.best_route agent = some e) :
    map.lookup (agent,e.channel_id) = some e ∧
      ∀ channel_id other, map.lookup (agent,channel_id) = some other → e.priority ≤ other.priority := by
  obtain ⟨entries,there,least⟩ := Option.bind_eq_some_iff.mp found
  have member := List.argmin_mem least
  have listed := shown.kept.mem_iff.mp (mem_rows.mpr ⟨agent,entries,there,member⟩)
  rw [shown.kept.own agent entries there e member,shown.same] at listed
  refine ⟨listed,fun channel_id other stored => ?_⟩
  rw [← shown.same,rowAt,there,Option.bind_some] at stored
  exact UInt8.le_iff_toNat_le.mpr (List.le_of_mem_argmin (f := fun e : RouteEntry => e.priority.toNat) (List.mem_of_find?_eq_some stored) least)

theorem unrouted_iff (shown : Shown table map) (agent : AgentId) : table.best_route agent = none ↔ ∀ channel_id, (agent,channel_id) ∉ map := by
  have absent : ∀ channel_id, (agent,channel_id) ∉ map ↔ rowAt RouteEntry.channel_id table.routes agent channel_id = none := by
    intro channel_id
    rw [shown.same,AList.lookup_eq_none]
  simp only [absent,RoutingTable.best_route,rowAt]
  cases found : table.routes.lookup agent with
  | none => simp
  | some entries =>
    simp only [Option.bind_some,List.argmin_eq_none,List.find?_eq_none]
    constructor
    · rintro rfl channel_id route member
      exact absurd member List.not_mem_nil
    · intro none_there
      by_contra filled
      obtain ⟨route,member⟩ := List.exists_mem_of_ne_nil entries filled
      exact none_there route.channel_id route member (by simp)

/-- After any calls, the table is the finite map that the same calls make. -/
theorem refines (ops : List Op) : Refines (ops.foldl Op.apply .new) (ops.foldl Op.onMap ∅) := by
  have shown : Shown (ops.foldl Op.apply .new) (ops.foldl Op.onMap ∅) := run_shown .empty ops
  exact {
    stored := shown.perm
    own := shown.own
    filled := shown.kept.filled
    channels := shown.kept.distinct
    removed := removed_iff shown
    evicted := evicted_eq shown
    best := fun _ _ found => best_route_minimal shown found
    unrouted := unrouted_iff shown
  }

end Daf.RouteTable
