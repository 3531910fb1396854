import Daf.Rotation
import Daf.RouteTable

/-!
The selection of one agent out of a group of candidates. Two strategies look at the best route of every candidate; the other two take the
candidate at a counter, which all groups share, and look at its best route only.
-/
namespace Daf.GroupSelection
open Daf.Buckets Daf.RouteTable Daf.Rotation
open Daf.MissionPlan (AgentId)

inductive BalancingStrategy where
  | RoundRobin
  | LeastLoaded
  | LowestLatency
  | Random
deriving DecidableEq,Repr

structure Router where
  routing_table : RoutingTable
  balancing_strategy : BalancingStrategy
  rr_counter : UInt64

def Router.with_strategy (strategy : BalancingStrategy) : Router := ⟨.new,strategy,0⟩

/-- The candidate at the counter, which goes on by one. -/
def Router.select_round_robin (router : Router) (candidates : List AgentId) : Option RouteEntry × Router :=
  ((candidates[router.rr_counter.toNat % candidates.length]?).bind router.routing_table.best_route,
    { router with rr_counter := router.rr_counter + 1 })

def Router.select_least_loaded (router : Router) (candidates : List AgentId) : Option RouteEntry :=
  (candidates.filterMap router.routing_table.best_route).argmin fun entry => entry.pending_count.toNat

def Router.select_lowest_latency (router : Router) (candidates : List AgentId) : Option RouteEntry :=
  (candidates.filterMap router.routing_table.best_route).argmin fun entry => entry.latency_us.toNat

/-- No randomness, but the same counter. -/
def Router.select_random (router : Router) (candidates : List AgentId) : Option RouteEntry × Router :=
  ((candidates[router.rr_counter.toNat % candidates.length]?).bind router.routing_table.best_route,
    { router with rr_counter := router.rr_counter + 1 })

def Router.select_from_group (router : Router) (candidates : List AgentId) : Option RouteEntry × Router :=
  if candidates.isEmpty then (none,router)
  else
    match router.balancing_strategy with
    | .RoundRobin => router.select_round_robin candidates
    | .LeastLoaded => (router.select_least_loaded candidates,router)
    | .LowestLatency => (router.select_lowest_latency candidates,router)
    | .Random => router.select_random candidates

/-! ### What one call finds -/

def HasRoute (table : RoutingTable) (agent : AgentId) : Prop := ∃ entries, table.get agent = some entries ∧ entries ≠ []

/-- A route of the agent with its lowest priority. -/
def Best (table : RoutingTable) (agent : AgentId) (e : RouteEntry) : Prop :=
  ∃ entries, table.get agent = some entries ∧ e ∈ entries ∧ ∀ other ∈ entries, e.priority ≤ other.priority

structure Finds (router : Router) (candidates : List AgentId) : Prop where
  found : (router.select_from_group candidates).1.isSome ↔ ∃ a ∈ candidates, HasRoute router.routing_table a
  best : ∀ e, (router.select_from_group candidates).1 = some e → ∃ a ∈ candidates, Best router.routing_table a e
  least_loaded : router.balancing_strategy = .LeastLoaded → ∀ e, (router.select_from_group candidates).1 = some e →
    ∀ b ∈ candidates, ∀ other, router.routing_table.best_route b = some other → e.pending_count ≤ other.pending_count
  lowest_latency : router.balancing_strategy = .LowestLatency → ∀ e, (router.select_from_group candidates).1 = some e →
    ∀ b ∈ candidates, ∀ other, router.routing_table.best_route b = some other → e.latency_us ≤ other.latency_us

theorem best_route_best {table : RoutingTable} {agent : AgentId} {e : RouteEntry} (found : table.best_route agent = some e) : Best table agent e := by
  obtain ⟨entries,there,least⟩ := Option.bind_eq_some_iff.mp found
  exact ⟨entries,there,List.argmin_mem least,fun other member =>
    UInt8.le_iff_toNat_le.mpr (List.le_of_mem_argmin (f := fun e : RouteEntry => e.priority.toNat) member least)⟩

theorem best_route_isSome {table : RoutingTable} {agent : AgentId} : (table.best_route agent).isSome ↔ HasRoute table agent := by
  rw [RoutingTable.best_route,HasRoute,RoutingTable.get]
  cases table.routes.lookup agent with
  | none => simp
  | some entries =>
    rw [Option.bind_some,Option.isSome_iff_ne_none,ne_eq,List.argmin_eq_none]
    constructor
    · exact fun filled => ⟨entries,rfl,filled⟩
    · rintro ⟨others,same,filled⟩
      rwa [Option.some.inj same]

/-- The least of the best routes of all candidates. -/
theorem argmin_finds (table : RoutingTable) (candidates : List AgentId) (cost : RouteEntry → Nat) :
    (((candidates.filterMap table.best_route).argmin cost).isSome ↔ ∃ a ∈ candidates, HasRoute table a) ∧
      ∀ e, (candidates.filterMap table.best_route).argmin cost = some e →
        (∃ a ∈ candidates, Best table a e) ∧ ∀ b ∈ candidates, ∀ other, table.best_route b = some other → cost e ≤ cost other := by
  constructor
  · rw [Option.isSome_iff_ne_none,ne_eq,List.argmin_eq_none,List.filterMap_eq_nil_iff]
    push Not
    refine exists_congr fun a => and_congr_right fun _ => ?_
    rw [← best_route_isSome,Option.isSome_iff_ne_none]
  · intro e least
    obtain ⟨a,member,found⟩ := List.mem_filterMap.mp (List.argmin_mem least)
    refine ⟨⟨a,member,best_route_best found⟩,fun b listed other routed => ?_⟩
    exact List.le_of_mem_argmin (List.mem_filterMap.mpr ⟨b,listed,routed⟩) least

/-- Of the candidate at the counter alone. -/
def Counted (router : Router) (candidates : List AgentId) : Prop :=
  (∃ a, candidates[router.rr_counter.toNat % candidates.length]? = some a ∧ HasRoute router.routing_table a) ∨
    ∀ a ∈ candidates, ¬ HasRoute router.routing_table a

theorem counted_iff {router : Router} {candidates : List AgentId} (filled : candidates ≠ []) :
    (((candidates[router.rr_counter.toNat % candidates.length]?).bind router.routing_table.best_route).isSome ↔
      ∃ a ∈ candidates, HasRoute router.routing_table a) ↔ Counted router candidates := by
  have inside := Nat.mod_lt router.rr_counter.toNat (List.length_pos_iff.mpr filled)
  have at_counter := List.getElem?_eq_getElem inside
  have member := List.getElem_mem inside
  unfold Counted
  rw [at_counter,Option.bind_some,best_route_isSome]
  constructor
  · intro same
    by_cases routed : ∃ a ∈ candidates, HasRoute router.routing_table a
    · exact .inl ⟨_,rfl,same.mpr routed⟩
    · exact .inr fun a listed route => routed ⟨a,listed,route⟩
  · rintro (⟨a,same,route⟩ | none_routed)
    · cases same
      exact ⟨fun _ => ⟨_,member,route⟩,fun _ => route⟩
    · exact ⟨fun route => absurd route (none_routed _ member),fun ⟨a,listed,route⟩ => absurd route (none_routed a listed)⟩

theorem counted_best {router : Router} {candidates : List AgentId} {e : RouteEntry}
    (found : (candidates[router.rr_counter.toNat % candidates.length]?).bind router.routing_table.best_route = some e) :
    ∃ a ∈ candidates, Best router.routing_table a e := by
  obtain ⟨a,there,routed⟩ := Option.bind_eq_some_iff.mp found
  exact ⟨a,List.mem_of_getElem? there,best_route_best routed⟩

/-- A strategy that looks at the candidate at the counter only. -/
theorem counted_finds (router : Router) {candidates : List AgentId} (filled : candidates ≠ []) (no_load : router.balancing_strategy ≠ .LeastLoaded)
    (no_latency : router.balancing_strategy ≠ .LowestLatency) (call : (router.select_from_group candidates).1 =
      (candidates[router.rr_counter.toNat % candidates.length]?).bind router.routing_table.best_route) :
    Finds router candidates ↔ Counted router candidates := by
  constructor
  · intro finds
    have found := finds.found
    rw [call] at found
    exact (counted_iff filled).mp found
  · intro counted
    refine ⟨?_,?_,fun other => absurd other no_load,fun other => absurd other no_latency⟩
    · rw [call]
      exact (counted_iff filled).mpr counted
    · rw [call]
      exact fun e => counted_best

/-- The strategies that look at every candidate find a route whenever there is one; the others find one when the candidate at the counter has one,
    or no candidate has. -/
theorem finds_iff (router : Router) (candidates : List AgentId) (filled : candidates ≠ []) :
    Finds router candidates ↔
      router.balancing_strategy = .LeastLoaded ∨ router.balancing_strategy = .LowestLatency ∨ Counted router candidates := by
  have some_left : candidates.isEmpty = false := List.isEmpty_eq_false_iff.mpr filled
  have scanned := argmin_finds router.routing_table candidates
  cases strategy : router.balancing_strategy with
  | RoundRobin =>
    have whole := counted_finds router filled (by simp [strategy]) (by simp [strategy])
      (by simp [Router.select_from_group,some_left,strategy,Router.select_round_robin])
    simpa using whole
  | LeastLoaded =>
    have call : (router.select_from_group candidates).1 = router.select_least_loaded candidates := by
      simp [Router.select_from_group,some_left,strategy]
    refine ⟨fun _ => .inl rfl,fun _ => ⟨?_,?_,fun _ => ?_,fun other => absurd other (by simp [strategy])⟩⟩
    · rw [call]
      exact (scanned _).1
    · rw [call]
      exact fun e least => ((scanned _).2 e least).1
    · rw [call]
      exact fun e least b listed other routed => UInt64.le_iff_toNat_le.mpr (((scanned _).2 e least).2 b listed other routed)
  | LowestLatency =>
    have call : (router.select_from_group candidates).1 = router.select_lowest_latency candidates := by
      simp [Router.select_from_group,some_left,strategy]
    refine ⟨fun _ => .inr (.inl rfl),fun _ => ⟨?_,?_,fun other => absurd other (by simp [strategy]),fun _ => ?_⟩⟩
    · rw [call]
      exact (scanned _).1
    · rw [call]
      exact fun e least => ((scanned _).2 e least).1
    · rw [call]
      exact fun e least b listed other routed => UInt64.le_iff_toNat_le.mpr (((scanned _).2 e least).2 b listed other routed)
  | Random =>
    have whole := counted_finds router filled (by simp [strategy]) (by simp [strategy])
      (by simp [Router.select_from_group,some_left,strategy,Router.select_random])
    simpa using whole

def near : AgentId := ⟨1⟩
def far : AgentId := ⟨2⟩

/-- A router that knows a way to the second of two agents only. -/
def halfRouted (strategy : BalancingStrategy) : Router := { Router.with_strategy strategy with routing_table := RoutingTable.new.insert (.new far 7 0) }

theorem far_found : ([near,far] : List AgentId) ≠ [] ∧ Finds (halfRouted .LeastLoaded) [near,far] :=
  ⟨by simp,(finds_iff _ [near,far] (by simp)).mpr (.inl rfl)⟩

/-- The first candidate has no route, so a round-robin call finds none although the second has one. -/
theorem far_missed : ¬ Finds (halfRouted .RoundRobin) [near,far] := by
  intro finds
  have routed : ∃ a ∈ [near,far], HasRoute (halfRouted .RoundRobin).routing_table a := ⟨far,by simp,[.new far 7 0],rfl,by simp⟩
  have found := finds.found.mpr routed
  exact absurd found (by decide)

/-! ### Many calls -/

/-- The calls one after the other, with what each selects. -/
def Router.selections : Router → List (List AgentId) → List (List AgentId × Option RouteEntry)
  | _,[] => []
  | router,candidates :: calls =>
    (candidates,(router.select_from_group candidates).1) :: (router.select_from_group candidates).2.selections calls

/-- What the calls on one group select. -/
def Router.selectedFor (router : Router) (calls : List (List AgentId)) (group : List AgentId) : List (Option RouteEntry) :=
  ((router.selections calls).filter fun s => s.1 = group).map Prod.snd

/-- The selections for a group go around its candidates, so after so many whole rounds each was selected as often as it is listed in them. -/
structure Balanced (router : Router) (calls : List (List AgentId)) (group : List AgentId) : Prop where
  around : ∃ start, ∀ j < (router.selectedFor calls group).length,
    ∃ a e, group[(start + j) % group.length]? = some a ∧ router.routing_table.best_route a = some e ∧ (router.selectedFor calls group)[j]? = some (some e)
  counted : ∀ k, k * group.length ≤ (router.selectedFor calls group).length → ∀ a ∈ group,
    ((router.selectedFor calls group).take (k * group.length)).countP (fun selected => selected.map RouteEntry.target_agent = some a) = k * group.count a

/-- A call without candidates leaves the counter. -/
def moves (group : List AgentId) : Nat := if group.isEmpty then 0 else 1

/-- Between two calls on a group that follow each other, the calls on other groups are a multiple of its length. -/
def Undisturbed (calls : List (List AgentId)) : Prop := ∀ group ∈ calls, group ≠ [] → Spaced moves group.length group calls

/-- A table that calls have made. -/
def Reached (table : RoutingTable) : Prop := ∃ ops : List Op, table = ops.foldl Op.apply .new

section
variable {router : Router} {group : List AgentId}

theorem Reached.target {table : RoutingTable} (reached : Reached table) {agent : AgentId} {e : RouteEntry} (found : table.best_route agent = some e) :
    e.target_agent = agent := by
  obtain ⟨ops,rfl⟩ := reached
  obtain ⟨entries,there,least⟩ := Option.bind_eq_some_iff.mp found
  exact (run_shown .empty ops).kept.own agent entries there e (List.argmin_mem least)

theorem select_next (round_robin : router.balancing_strategy = .RoundRobin) (room : router.rr_counter.toNat + 1 < 2 ^ 64) (candidates : List AgentId) :
    ∃ counter : UInt64, (router.select_from_group candidates).2 = ⟨router.routing_table,.RoundRobin,counter⟩ ∧
      counter.toNat = router.rr_counter.toNat + moves candidates := by
  unfold Router.select_from_group moves
  split_ifs
  · exact ⟨router.rr_counter,by rw [← round_robin],rfl⟩
  · rw [round_robin]
    refine ⟨router.rr_counter + 1,by rw [Router.select_round_robin,round_robin],?_⟩
    rw [UInt64.toNat_add]
    exact Nat.mod_eq_of_lt room

/-- The selections for a group are the best routes of its candidates at the counter. -/
theorem selectedFor_eq (round_robin : router.balancing_strategy = .RoundRobin) (filled : group ≠ []) (calls : List (List AgentId))
    (room : router.rr_counter.toNat + calls.length < 2 ^ 64) :
    router.selectedFor calls group =
      (stamps moves group router.rr_counter.toNat calls).map fun c => router.routing_table.best_route (pick group filled c) := by
  induction calls generalizing router with
  | nil => rfl
  | cons candidates calls ih =>
    rw [List.length_cons] at room
    obtain ⟨counter,next,moved⟩ := select_next round_robin (by omega) candidates
    have bound : moves candidates ≤ 1 := by
      unfold moves
      split_ifs <;> omega
    have later := @ih ⟨router.routing_table,.RoundRobin,counter⟩ rfl (by show counter.toNat + _ < _; omega)
    rw [Router.selectedFor,Router.selections,next,List.filter_cons,stamps]
    split_ifs with here this this
    · rw [List.map_cons,List.map_cons,← moved]
      refine congrArg₂ List.cons ?_ later
      have same : candidates = group := this
      rw [same,Router.select_from_group,if_neg (by simpa using filled),round_robin]
      show (group[_]?).bind _ = _
      rw [← @pick_eq _ group filled]
      rfl
    · exact absurd (by simpa using here) this
    · exact absurd this (by simpa using here)
    · rw [← moved]
      exact later

/-- For routes to all candidates, the selections are balanced when the candidates themselves go around. -/
theorem balanced_of_around (reached : Reached router.routing_table) {calls : List (List AgentId)}
    (routed : ∀ a ∈ group, HasRoute router.routing_table a) {agents : List AgentId} (inside : ∀ a ∈ agents, a ∈ group)
    (selected : router.selectedFor calls group = agents.map router.routing_table.best_route) (around : GoesAround group agents) :
    Balanced router calls group := by
  have found : ∀ a ∈ group, ∃ e, router.routing_table.best_route a = some e ∧ e.target_agent = a := by
    intro a member
    obtain ⟨e,best⟩ := Option.isSome_iff_exists.mp (best_route_isSome.mpr (routed a member))
    exact ⟨e,best,reached.target best⟩
  constructor
  · obtain ⟨start,places⟩ := around
    rw [selected]
    refine ⟨start,fun j small => ?_⟩
    rw [List.length_map] at small
    have here := List.getElem?_eq_getElem small
    obtain ⟨e,best,-⟩ := found _ (inside _ (List.getElem_mem small))
    exact ⟨_,e,(places j small).symm.trans here,best,by rw [List.getElem?_map,here,Option.map_some,best]⟩
  · intro k enough a member
    rw [selected,List.length_map] at enough
    rw [selected,← List.map_take,List.countP_map,← around.count enough a,List.count]
    refine List.countP_congr fun b there => ?_
    obtain ⟨e,best,target⟩ := found b (inside b (List.mem_of_mem_take there))
    simp [best,target]

theorem around_of_balanced (reached : Reached router.routing_table) {calls : List (List AgentId)} {agents : List AgentId}
    (selected : router.selectedFor calls group = agents.map router.routing_table.best_route) (balanced : Balanced router calls group) :
    GoesAround group agents := by
  obtain ⟨start,places⟩ := balanced.around
  rw [selected] at places
  refine ⟨start,fun j small => ?_⟩
  obtain ⟨a,e,listed,best,taken⟩ := places j (by rwa [List.length_map])
  rw [List.getElem?_map,List.getElem?_eq_getElem small,Option.map_some,Option.some.injEq] at taken
  rw [listed,List.getElem?_eq_getElem small,← reached.target taken,← reached.target best]

theorem mem_pick {filled : group ≠ []} {l : List Nat} : ∀ a ∈ l.map (pick group filled), a ∈ group := by
  intro a there
  obtain ⟨c,-,rfl⟩ := List.mem_map.mp there
  exact List.get_mem _ _

theorem moves_self (filled : group ≠ []) : moves group = 1 := if_neg (by simpa using filled)

/-- Round-robin calls on several groups are balanced for each of them exactly when the calls on the others come in whole rounds;
    listing a candidate twice can hide that they do not. -/
theorem balanced_iff (router : Router) (round_robin : router.balancing_strategy = .RoundRobin) (reached : Reached router.routing_table)
    (calls : List (List AgentId)) (routed : ∀ group ∈ calls, ∀ a ∈ group, HasRoute router.routing_table a)
    (room : router.rr_counter.toNat + calls.length < 2 ^ 64) :
    (Undisturbed calls → ∀ group ∈ calls, group ≠ [] → Balanced router calls group) ∧
      ((∀ group ∈ calls, group.Nodup) → (∀ group ∈ calls, group ≠ [] → Balanced router calls group) → Undisturbed calls) := by
  have selected : ∀ group : List AgentId, ∀ filled : group ≠ [], router.selectedFor calls group =
      ((stamps moves group router.rr_counter.toNat calls).map (pick group filled)).map router.routing_table.best_route := by
    intro group filled
    rw [selectedFor_eq round_robin filled calls room,List.map_map]
    rfl
  constructor
  · intro undisturbed group member filled
    have steady := (steady_stamps (moves_self filled) router.rr_counter.toNat calls).mpr (undisturbed group member filled)
    exact balanced_of_around reached (routed group member) mem_pick (selected group filled) steady.goesAround
  · intro distinct balanced group member filled
    have around := around_of_balanced reached (selected group filled) (balanced group member filled)
    exact (steady_stamps (moves_self filled) router.rr_counter.toNat calls).mp (steady_of_goesAround (distinct group member) around)

/-- Two agents with a route each. -/
def bothRouted : Router := { Router.with_strategy .RoundRobin with routing_table := (RoutingTable.new.insert (.new near 1 0)).insert (.new far 2 0) }

theorem bothRouted_reached : Reached bothRouted.routing_table := ⟨[.insert (.new near 1 0),.insert (.new far 2 0)],rfl⟩

theorem bothRouted_routed {group : List AgentId} (known : ∀ a ∈ group, a = near ∨ a = far) : ∀ a ∈ group, HasRoute bothRouted.routing_table a := by
  intro a member
  rcases known a member with rfl | rfl
  · exact ⟨[.new near 1 0],rfl,by simp⟩
  · exact ⟨[.new far 2 0],rfl,by simp⟩

/-- Two calls on the second agent alone lie between two calls on both. -/
theorem spaced_balanced :
    let calls := [[near,far],[far],[far],[near,far],[near,far]]
    ∀ group ∈ calls, group ≠ [] → Balanced bothRouted calls group := by
  intro calls
  have listed : ∀ group ∈ calls, group = [near,far] ∨ group = [far] := by decide
  have undisturbed : Undisturbed calls := by
    intro group member filled
    have steady : Steady group.length (stamps moves group 0 calls) := by
      rcases listed group member with rfl | rfl
      · simp [Steady,stamps,moves,near,far,calls,Nat.ModEq]
      · simp [Steady,stamps,moves,near,far,calls,Nat.ModEq]
    exact (steady_stamps (moves_self filled) 0 calls).mp steady
  have routed : ∀ group ∈ calls, ∀ a ∈ group, HasRoute bothRouted.routing_table a := by
    intro group member
    refine bothRouted_routed ?_
    rcases listed group member with rfl | rfl <;> simp
  exact (balanced_iff bothRouted rfl bothRouted_reached calls routed (by decide)).1 undisturbed

/-- One call on the second agent before every other call on both: of the two only the first is ever selected. -/
theorem alternating_unbalanced :
    let calls := [[near,far],[far],[near,far],[far]]
    ¬ ∀ group ∈ calls, group ≠ [] → Balanced bothRouted calls group := by
  intro calls balanced
  have twice := (balanced [near,far] (by simp [calls]) (by simp)).counted 1 (by decide) near (by simp)
  exact absurd twice (by decide)

end

end Daf.GroupSelection
