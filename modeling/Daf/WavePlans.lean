import Daf.GraphOutcome
import Daf.GraphScheduler
import Daf.Layers

/-!
The plans of the wave scheduler for graphs that have not started. Planning simulates the outcome in which every node that runs succeeds: the
planned nodes are those that run in it, each in a wave behind the nodes that lead to it.
-/
namespace Daf.WavePlans
open Daf.Cycles Daf.GraphNodes Daf.GraphDag Daf.GraphInvariant Daf.GraphStates Daf.GraphOutcome Daf.GraphScheduler Daf.Layers

def planned (waves : List Wave) : List NodeId := waves.flatMap (·.nodes)

/-- Of the graph of the simulation: the nodes that are done have succeeded, those that are blocked are skipped, and the others wait. -/
structure Simulates (g : ExecutionGraph) (states : NodeId → NodeState) (done : List NodeId) (sim : ExecutionGraph) : Prop where
  same : shape sim = shape g
  agrees : Agrees states sim
  idle : ∀ id state, stateOf sim id = some state → state = .Pending ∨ state.is_terminal = true
  unblocked : ∀ id, stateOf sim id = some .Pending → ¬ Blocked sim id
  blocked : ∀ id, stateOf sim id = some .Skipped → Blocked sim id
  once : done.Nodup
  succeeded : ∀ id, id ∈ done ↔ stateOf sim id = some .Succeeded

section
variable {g sim : ExecutionGraph} {states : NodeId → NodeState} {done : List NodeId} {id x : NodeId}

/-- A cascade skips blocked nodes. -/
theorem skip_blocked (ok : RepOk g) (skipped : stateOf g.skip_impossible_nodes x = some .Skipped) :
    stateOf g x = some .Skipped ∨ Blocked g.skip_impossible_nodes x := by
  refine skip_induction (P := fun h => stateOf h x = some .Skipped → stateOf g x = some .Skipped ∨ Blocked h x)
    (fun h i id okH skip reached after => ?_) ok .inl skipped
  rw [stateOf_skipAt okH skip.at_i] at after
  by_cases here : x = id
  · subst here
    exact .inr (skip.blocked.extend (skip.extends okH))
  · rw [if_neg here] at after
    exact (reached after).imp_right fun blocked => blocked.extend (skip.extends okH)

/-- What a completion makes of the states. -/
theorem Simulates.after (simulates : Simulates g states done sim) (ok : RepOk g) (ready : id ∈ sim.ready_nodes) :
    ∃ marked, (sim.mark_complete id .Succeeded none).2 = marked.skip_impossible_nodes ∧ RepOk marked ∧ Extends sim marked ∧
      ∀ x, stateOf marked x = if x = id then some .Succeeded else stateOf sim x := by
  have okS := ok.of_shape simulates.same
  have pending := ((mem_ready_nodes okS id).mp ready).1
  obtain ⟨marked,result,okM,same,written⟩ := mark_complete_eq okS ((stateOf_isSome okS id).mp ⟨_,pending⟩) .Succeeded none
  refine ⟨marked,result,okM,⟨same,fun x state known terminal => ?_⟩,written⟩
  have other : x ≠ id := by
    rintro rfl
    rw [pending] at known
    cases known
    cases terminal
  rw [written,if_neg other]
  exact known

/-- A node that is ready runs, and succeeds. -/
theorem Simulates.runs (simulates : Simulates g states done sim) (ok : RepOk g) (consistent : Consistent g (fun _ => true) states)
    (ready : id ∈ sim.ready_nodes) : id ∈ ids g ∧ states id = .Succeeded := by
  have okS := ok.of_shape simulates.same
  obtain ⟨pending,free⟩ := (mem_ready_nodes okS id).mp ready
  have member : id ∈ ids g := ids_of_shape simulates.same ▸ (stateOf_isSome okS id).mp ⟨_,pending⟩
  exact ⟨member,simulates.agrees.runs simulates.same consistent member free⟩

/-- The simulated success of a ready node. -/
theorem Simulates.mark (simulates : Simulates g states done sim) (ok : RepOk g) (consistent : Consistent g (fun _ => true) states)
    (ready : id ∈ sim.ready_nodes) : Simulates g states (done ++ [id]) (sim.mark_complete id .Succeeded none).2 := by
  have okS := ok.of_shape simulates.same
  obtain ⟨member,success⟩ := simulates.runs ok consistent ready
  have pending := ((mem_ready_nodes okS id).mp ready).1
  have agrees := simulates.agrees.mark_complete ok simulates.same consistent (ids_of_shape simulates.same ▸ member) none
  rw [success] at agrees
  have shape_eq := (shape_mark_complete sim id .Succeeded none).trans simulates.same
  obtain ⟨marked,result,okM,grows,written⟩ := simulates.after ok ready
  rw [result] at agrees shape_eq ⊢
  refine ⟨shape_eq,agrees,fun x state known => ?_,fun x waits => skip_fixed okM waits,fun x skipped => ?_,?_,fun x => ?_⟩
  · rcases stateOf_skip okM x with same | ⟨-,skipped⟩
    · rw [same,written] at known
      split_ifs at known
      · cases known
        exact .inr rfl
      · exact simulates.idle x state known
    · rw [skipped] at known
      cases known
      exact .inr rfl
  · rcases skip_blocked okM skipped with before | blocked
    · rw [written] at before
      split_ifs at before
      · cases before
      · exact (simulates.blocked x before).extend (grows.trans (skip_extends okM))
    · exact blocked
  · refine List.nodup_append.mpr ⟨simulates.once,List.nodup_singleton id,?_⟩
    rintro y early z last rfl
    rw [List.mem_singleton.mp last,simulates.succeeded,pending] at early
    cases early
  · have kept : stateOf marked.skip_impossible_nodes x = some .Succeeded ↔ stateOf marked x = some .Succeeded := by
      rcases stateOf_skip okM x with same | ⟨waits,skipped⟩
      · rw [same]
      · rw [waits,skipped]
        simp
    rw [kept,written,List.mem_append,List.mem_singleton,simulates.succeeded]
    by_cases here : x = id
    · simp [here]
    · simp [here]

/-- The other nodes that are ready stay so. -/
theorem Simulates.stays (simulates : Simulates g states done sim) (ok : RepOk g) (consistent : Consistent g (fun _ => true) states)
    (ready : id ∈ sim.ready_nodes) (waits : x ∈ sim.ready_nodes) (other : x ≠ id) : x ∈ (sim.mark_complete id .Succeeded none).2.ready_nodes := by
  have okS := ok.of_shape simulates.same
  obtain ⟨pending,free⟩ := (mem_ready_nodes okS x).mp waits
  have next := simulates.mark ok consistent ready
  have okN := ok.of_shape next.same
  obtain ⟨marked,result,okM,grows,written⟩ := simulates.after ok ready
  rw [result] at next okN ⊢
  refine (mem_ready_nodes okN x).mpr ⟨?_,free.extend (grows.trans (skip_extends okM))⟩
  rcases stateOf_skip okM x with same | ⟨-,skipped⟩
  · rw [same,written,if_neg other]
    exact pending
  · have success := (simulates.runs ok consistent waits).2
    rw [← next.agrees x .Skipped skipped rfl] at success
    cases success

/-- The simulated success of a wave. -/
theorem Simulates.wave (simulates : Simulates g states done sim) (ok : RepOk g) (consistent : Consistent g (fun _ => true) states)
    {wave : List NodeId} (distinct : wave.Nodup) (ready : ∀ id ∈ wave, id ∈ sim.ready_nodes) :
    Simulates g states (done ++ wave) (wave.foldl (fun sim id => (sim.mark_complete id .Succeeded none).2) sim) := by
  induction wave generalizing done sim with
  | nil =>
    rw [List.append_nil]
    exact simulates
  | cons id later ih =>
    obtain ⟨new,distinct⟩ := List.nodup_cons.mp distinct
    obtain ⟨here,rest⟩ := List.forall_mem_cons.mp ready
    have next := ih (simulates.mark ok consistent here) distinct fun x member =>
      simulates.stays ok consistent here (rest x member) fun same => new (same ▸ member)
    rw [List.append_assoc] at next
    exact next

/-- The simulation starts where no node has. -/
theorem Simulates.start (states : NodeId → NodeState) (fresh : ∀ id ∈ ids g, stateOf g id = some .Pending) (ok : RepOk g) :
    Simulates g states [] g := by
  have waits : ∀ id state, stateOf g id = some state → state = .Pending := by
    intro id state known
    have pending := fresh id ((stateOf_isSome ok id).mp ⟨state,known⟩)
    rw [known] at pending
    exact Option.some.inj pending
  refine ⟨rfl,fun id state known terminal => ?_,fun id state known => .inl (waits id state known),fun id _ blocked => ?_,fun id skipped => ?_,
    List.nodup_nil,fun id => ⟨fun member => absurd member List.not_mem_nil,fun success => ?_⟩⟩
  · rw [waits id state known] at terminal
    cases terminal
  · obtain ⟨e,-,-,state,known,terminal,-⟩ := blocked
    rw [waits _ state known] at terminal
    cases terminal
  · cases waits id .Skipped skipped
  · cases waits id .Succeeded success

theorem Simulates.known (simulates : Simulates g states done sim) (ok : RepOk g) : done ⊆ ids g := by
  intro x member
  have success := (simulates.succeeded x).mp member
  exact ids_of_shape simulates.same ▸ (stateOf_isSome (ok.of_shape simulates.same) x).mp ⟨_,success⟩

theorem Simulates.length_le (simulates : Simulates g states done sim) (ok : RepOk g) : done.length ≤ (ids g).length :=
  (List.subperm_of_subset simulates.once (simulates.known ok)).length_le

/-- A node that runs is done or waits. -/
theorem Simulates.waits (simulates : Simulates g states done sim) (ok : RepOk g) (member : id ∈ ids g) (success : states id = .Succeeded)
    (open_ : id ∉ done) : stateOf sim id = some .Pending := by
  obtain ⟨state,known⟩ := (stateOf_isSome (ok.of_shape simulates.same) id).mpr (ids_of_shape simulates.same ▸ member)
  rcases simulates.idle id state known with rfl | terminal
  · exact known
  · rw [simulates.agrees id state known terminal,success] at known
    exact absurd ((simulates.succeeded id).mpr known) open_

/-- When no node is ready, all that run are done. -/
theorem Simulates.complete (simulates : Simulates g states done sim) (ok : RepOk g) (rest : sim.ready_nodes = []) (id : NodeId) :
    id ∈ done ↔ id ∈ ids g ∧ states id = .Succeeded := by
  have okS := ok.of_shape simulates.same
  have terminal := settled okS simulates.idle rest simulates.unblocked
  constructor
  · intro member
    have success := (simulates.succeeded id).mp member
    exact ⟨simulates.known ok member,(simulates.agrees id _ success rfl).symm⟩
  · rintro ⟨member,success⟩
    obtain ⟨state,known⟩ := (stateOf_isSome okS id).mpr (ids_of_shape simulates.same ▸ member)
    rw [simulates.succeeded,known,simulates.agrees id state known (terminal id state known),success]

/-! ### The waves -/

/-- The waves that are planned from a state of the simulation on. -/
inductive History (scheduler : WaveScheduler) (g : ExecutionGraph) (states : NodeId → NodeState) : List NodeId → List Wave → Prop where
  | nil {done : List NodeId} {sim : ExecutionGraph} (simulates : Simulates g states done sim) (rest : sim.ready_nodes = []) :
      History scheduler g states done []
  | cons {done : List NodeId} {sim : ExecutionGraph} {wave : Wave} {later : List Wave} (simulates : Simulates g states done sim)
      (ready : sim.ready_nodes ≠ []) (nodes : wave.nodes = scheduler.nextWave sim)
      (history : History scheduler g states (done ++ wave.nodes) later) : History scheduler g states done (wave :: later)

variable {scheduler : WaveScheduler} {waves before after : List Wave} {wave : Wave}

theorem Simulates.next (scheduler : WaveScheduler) (simulates : Simulates g states done sim) (ok : RepOk g)
    (consistent : Consistent g (fun _ => true) states) : Simulates g states (done ++ scheduler.nextWave sim)
      ((scheduler.nextWave sim).foldl (fun sim id => (sim.mark_complete id .Succeeded none).2) sim) :=
  simulates.wave ok consistent (nextWave_nodup scheduler (ok.of_shape simulates.same)) fun _ member => nextWave_sub scheduler sim member

/-- Every wave has a node that was not done, so that there are not more waves than nodes. -/
theorem Simulates.fewer (simulates : Simulates g states done sim) (ok : RepOk g) (consistent : Consistent g (fun _ => true) states)
    (positive : scheduler.max_concurrency ≠ some 0) (ready : sim.ready_nodes ≠ []) :
    done.length < (done ++ scheduler.nextWave sim).length ∧ (done ++ scheduler.nextWave sim).length ≤ (ids g).length := by
  have filled := List.length_pos_of_ne_nil (nextWave_ne_nil positive ready)
  exact ⟨by rw [List.length_append]; omega,(simulates.next scheduler ok consistent).length_le ok⟩

theorem planLoop_history (ok : RepOk g) (consistent : Consistent g (fun _ => true) states) (positive : scheduler.max_concurrency ≠ some 0)
    {rounds : Nat} (number : Nat) (simulates : Simulates g states done sim) (enough : (ids g).length < rounds + done.length) :
    History scheduler g states done (scheduler.planLoop rounds number sim) := by
  induction rounds generalizing number done sim with
  | zero =>
    have bound := simulates.length_le ok
    omega
  | succ rounds ih =>
    rw [WaveScheduler.planLoop]
    split_ifs with rest
    · exact .nil simulates rest
    · have more := (simulates.fewer ok consistent positive rest).1
      have later := ih (number + 1) (simulates.next scheduler ok consistent) (by omega)
      exact .cons simulates rest rfl later

/-- The safety valve does not cut a plan short. -/
theorem planLoop_more (ok : RepOk g) (consistent : Consistent g (fun _ => true) states) (positive : scheduler.max_concurrency ≠ some 0)
    {rounds : Nat} (number more : Nat) (simulates : Simulates g states done sim) (enough : (ids g).length < rounds + done.length) :
    scheduler.planLoop (rounds + more) number sim = scheduler.planLoop rounds number sim := by
  induction rounds generalizing number done sim with
  | zero =>
    have bound := simulates.length_le ok
    omega
  | succ rounds ih =>
    rw [Nat.add_right_comm,WaveScheduler.planLoop,WaveScheduler.planLoop]
    split_ifs with rest
    · rfl
    · have larger := (simulates.fewer ok consistent positive rest).1
      simp only
      rw [ih (number + 1) (simulates.next scheduler ok consistent) (by omega)]

/-- What is planned behind some waves. -/
theorem History.split (history : History scheduler g states done (before ++ after)) : History scheduler g states (done ++ planned before) after := by
  induction before generalizing done with
  | nil =>
    rw [planned,List.flatMap_nil,List.append_nil]
    exact history
  | cons wave later ih =>
    cases history with
    | cons _ _ _ rest =>
      have next := ih rest
      rw [List.append_assoc] at next
      exact next

theorem History.ended (history : History scheduler g states done waves) : ∃ final, Simulates g states (done ++ planned waves) final ∧ final.ready_nodes = [] := by
  rw [← List.append_nil waves] at history
  cases history.split with
  | nil simulates rest => exact ⟨_,simulates,rest⟩

theorem History.each (history : History scheduler g states done (before ++ wave :: after)) :
    ∃ sim, Simulates g states (done ++ planned before) sim ∧ sim.ready_nodes ≠ [] ∧ wave.nodes = scheduler.nextWave sim := by
  cases history.split with
  | cons simulates ready nodes _ => exact ⟨_,simulates,ready,nodes⟩

theorem planned_append (before after : List Wave) : planned (before ++ after) = planned before ++ planned after := List.flatMap_append

theorem mem_planned (member : wave ∈ waves) (inside : id ∈ wave.nodes) : id ∈ planned waves := List.mem_flatMap.mpr ⟨wave,member,inside⟩

/-- Each of the waves that are planned from the start is the next one of a simulation in which those before it are done. -/
theorem History.at (history : History scheduler g states [] waves) (split : waves = before ++ wave :: after) :
    ∃ sim, Simulates g states (planned before) sim ∧ sim.ready_nodes ≠ [] ∧ wave.nodes = scheduler.nextWave sim := by
  subst split
  exact history.each

/-- The planned nodes are those that run. -/
theorem History.exact (history : History scheduler g states [] waves) (ok : RepOk g) :
    (planned waves).Nodup ∧ ∀ id, id ∈ planned waves ↔ id ∈ ids g ∧ states id = .Succeeded := by
  obtain ⟨final,simulates,rest⟩ := history.ended
  exact ⟨simulates.once,simulates.complete ok rest⟩

theorem History.length_le (history : History scheduler g states [] waves) (ok : RepOk g) (positive : scheduler.max_concurrency ≠ some 0) :
    waves.length ≤ (ids g).length := by
  have filled : ∀ wave ∈ waves, 1 ≤ wave.nodes.length := by
    intro wave member
    obtain ⟨before,after,split⟩ := List.append_of_mem member
    obtain ⟨sim,-,ready,nodes⟩ := history.at split
    rw [nodes]
    exact List.length_pos_of_ne_nil (nextWave_ne_nil positive ready)
  have sum : waves.length ≤ (planned waves).length := by
    clear history
    induction waves with
    | nil => exact Nat.zero_le _
    | cons wave later ih =>
      obtain ⟨here,rest⟩ := List.forall_mem_cons.mp filled
      have more := ih rest
      simp only [planned,List.flatMap_cons,List.length_cons,List.length_append] at more ⊢
      omega
  obtain ⟨final,simulates,-⟩ := history.ended
  exact sum.trans (simulates.length_le ok)

/-- An edge into a node of a wave comes from a node that had come to an end before the wave, and is satisfied. -/
theorem Simulates.sources (simulates : Simulates g states done sim) (ok : RepOk g) (ready : id ∈ sim.ready_nodes) {e : Edge} (member : e ∈ g.edges)
    (target : e.target = id) : ∃ state, stateOf sim e.source = some state ∧ state.is_terminal = true ∧ states e.source = state := by
  obtain ⟨-,free⟩ := (mem_ready_nodes (ok.of_shape simulates.same) id).mp ready
  obtain ⟨state,known,holds⟩ := free e (edges_of_shape simulates.same ▸ member) target
  have terminal := terminal_of_satisfied holds
  exact ⟨state,known,terminal,(simulates.agrees _ state known terminal).symm⟩

/-- The planned nodes that lead to a node of a wave are in earlier waves. -/
theorem History.earlier (history : History scheduler g states [] waves) (ok : RepOk g) (split : waves = before ++ wave :: after) (inside : id ∈ wave.nodes)
    {e : Edge} (member : e ∈ g.edges) (target : e.target = id) (source : e.source ∈ planned waves) : e.source ∈ planned before := by
  obtain ⟨sim,simulates,-,nodes⟩ := history.at split
  obtain ⟨state,known,-,same⟩ := simulates.sources ok (nextWave_sub scheduler sim (nodes ▸ inside)) member target
  rw [simulates.succeeded,known,← same,(((history.exact ok).2 e.source).mp source).2]

theorem priorityOf_shape {h : ExecutionGraph} (same : shape h = shape g) (id : NodeId) : priorityOf h id = priorityOf g id := by
  have seen : ∀ k : ExecutionGraph, priorityOf (shape k) id = priorityOf k id := by
    intro k
    simp only [priorityOf,ExecutionGraph.get_node,shape,List.getElem?_map]
    cases k.index_map.lookup id with
    | none => rfl
    | some i => cases found : k.graph.nodes[i]? <;> simp [found,forget]
  rw [← seen h,same,seen]

/-- The limit and the order within a wave. -/
theorem nextWave_limited (scheduler : WaveScheduler) (sim : ExecutionGraph) {max : Nat} (limit : scheduler.max_concurrency = some max) :
    (scheduler.nextWave sim).length ≤ max := by
  rw [WaveScheduler.nextWave,limit]
  exact List.length_take_le max _

theorem nextWave_sorted (scheduler : WaveScheduler) (sim : ExecutionGraph) :
    (scheduler.nextWave sim).Pairwise fun a b => priorityOf sim b ≤ priorityOf sim a := by
  have sorted := scheduler.order.descending sim sim.ready_nodes
  unfold WaveScheduler.nextWave
  cases scheduler.max_concurrency with
  | none => exact sorted
  | some max => exact sorted.sublist (List.take_sublist max _)

theorem mem_nextWave (unlimited : scheduler.max_concurrency = none) (sim : ExecutionGraph) (id : NodeId) :
    id ∈ scheduler.nextWave sim ↔ id ∈ sim.ready_nodes := by
  rw [WaveScheduler.nextWave,unlimited]
  exact (scheduler.order.perm sim _).mem_iff

/-! ### Waves without a limit -/

/-- So many waves are enough for the node to come to an end: a node that runs needs one more than all that lead to it, and a skipped node is
    skipped as soon as one node that rules it out has come to an end. -/
inductive Over (g : ExecutionGraph) (states : NodeId → NodeState) : Nat → NodeId → Prop where
  | runs {n : Nat} {id : NodeId} (success : states id = .Succeeded) (behind : ∀ e ∈ g.edges, e.target = id → Over g states n e.source) :
      Over g states (n+1) id
  | skipped {n : Nat} {e : Edge} (member : e ∈ g.edges) (fails : satisfied (states e.source) e = false) (source : Over g states n e.source) :
      Over g states n e.target

theorem Over.mono {n m : Nat} (past : Over g states n id) (le : n ≤ m) : Over g states m id := by
  induction past generalizing m with
  | runs success _ ih =>
    obtain ⟨m,rfl⟩ := Nat.exists_eq_add_of_le' (Nat.le_of_add_left_le le)
    exact .runs success fun e member target => ih e member target (by omega)
  | skipped member fails _ ih => exact .skipped member fails (ih le)

/-- A node that an edge rules out is skipped. -/
theorem ruled_out (ok : RepOk g) (consistent : Consistent g (fun _ => true) states) {e : Edge} (member : e ∈ g.edges)
    (fails : satisfied (states e.source) e = false) : states e.target = .Skipped := by
  rw [consistent e.target (precedes_mem ok ⟨e,member,rfl,rfl⟩).2,if_neg]
  rw [admits_iff]
  intro all
  rw [all e member rfl] at fails
  cases fails

/-- An edge into a node that runs is satisfied once its source has come to an end. -/
theorem Simulates.satisfied (simulates : Simulates g states done sim) (ok : RepOk g) (consistent : Consistent g (fun _ => true) states) {e : Edge}
    (member : e ∈ g.edges) (success : states e.target = .Succeeded) {state : NodeState} (known : stateOf sim e.source = some state)
    (terminal : state.is_terminal = true) : satisfied state e = true := by
  by_contra fails
  rw [simulates.agrees e.source state known terminal,Bool.not_eq_true] at fails
  have skipped := ruled_out ok consistent member fails
  rw [success] at skipped
  cases skipped

theorem runs_or_skipped (consistent : Consistent g (fun _ => true) states) (member : id ∈ ids g) (free : states id ≠ .Skipped) :
    states id = .Succeeded := by
  rw [consistent id member] at free ⊢
  split_ifs at free ⊢
  · rfl
  · exact absurd rfl free

/-- When the nodes that run and are over are the ones that are done, those that are over are the ones that have come to an end. -/
theorem Simulates.over_iff (simulates : Simulates g states done sim) (ok : RepOk g) (consistent : Consistent g (fun _ => true) states) {n : Nat}
    (runs : ∀ id ∈ ids g, states id = .Succeeded → (Over g states n id ↔ id ∈ done)) (id : NodeId) (member : id ∈ ids g) :
    Over g states n id ↔ ∃ state, stateOf sim id = some state ∧ state.is_terminal = true := by
  have okS := ok.of_shape simulates.same
  induction id using (precedes_wellFounded ok).induction with
  | _ id ih =>
    constructor
    · intro past
      cases past with
      | @runs m _ success behind =>
        have inside := (runs id member success).mp (.runs success behind)
        exact ⟨_,(simulates.succeeded id).mp inside,rfl⟩
      | @skipped _ e inside fails source =>
        have edge : Precedes g e.source e.target := ⟨e,inside,rfl,rfl⟩
        obtain ⟨before,known,terminal⟩ := (ih e.source edge (precedes_mem ok edge).1).mp source
        rw [← simulates.agrees e.source before known terminal] at fails
        obtain ⟨state,now⟩ := (stateOf_isSome okS e.target).mpr (ids_of_shape simulates.same ▸ member)
        refine ⟨state,now,(simulates.idle e.target state now).resolve_left fun waits => ?_⟩
        exact simulates.unblocked e.target (waits ▸ now) ⟨e,edges_of_shape simulates.same ▸ inside,rfl,before,known,terminal,fails⟩
    · rintro ⟨state,known,terminal⟩
      by_cases skipped : state = .Skipped
      · obtain ⟨e,inside,rfl,before,was,ended,fails⟩ := simulates.blocked id (skipped ▸ known)
        rw [edges_of_shape simulates.same] at inside
        have edge : Precedes g e.source e.target := ⟨e,inside,rfl,rfl⟩
        have source := (ih e.source edge (precedes_mem ok edge).1).mpr ⟨before,was,ended⟩
        rw [simulates.agrees e.source before was ended] at fails
        exact .skipped inside fails source
      · have success := simulates.agrees id state known terminal
        rw [success] at skipped known
        have runs' := runs_or_skipped consistent member skipped
        rw [runs'] at known
        exact (runs id member runs').mpr ((simulates.succeeded id).mpr known)

/-- One more wave without a limit is enough for the nodes that it holds. -/
theorem Simulates.over_next (simulates : Simulates g states done sim) (ok : RepOk g) (consistent : Consistent g (fun _ => true) states)
    (unlimited : scheduler.max_concurrency = none) {n : Nat} (runs : ∀ id ∈ ids g, states id = .Succeeded → (Over g states n id ↔ id ∈ done))
    (id : NodeId) (member : id ∈ ids g) (success : states id = .Succeeded) :
    Over g states (n+1) id ↔ id ∈ done ++ scheduler.nextWave sim := by
  have okS := ok.of_shape simulates.same
  have past := simulates.over_iff ok consistent runs
  rw [List.mem_append,mem_nextWave unlimited]
  constructor
  · intro late
    by_cases inside : id ∈ done
    · exact .inl inside
    · refine .inr ((mem_ready_nodes okS id).mpr ⟨simulates.waits ok member success inside,fun e listed target => ?_⟩)
      rw [edges_of_shape simulates.same] at listed
      have source := (precedes_mem ok ⟨e,listed,rfl,rfl⟩).1
      have ended : Over g states n e.source := by
        cases late with
        | runs _ behind => exact behind e listed target
        | skipped other fails _ =>
          rw [ruled_out ok consistent other fails] at success
          cases success
      obtain ⟨state,known,terminal⟩ := (past e.source source).mp ended
      exact ⟨state,known,simulates.satisfied ok consistent listed (target ▸ success) known terminal⟩
  · rintro (inside | ready)
    · exact ((runs id member success).mpr inside).mono (Nat.le_succ n)
    · refine .runs success fun e listed target => ?_
      obtain ⟨state,known,terminal,-⟩ := simulates.sources ok ready listed target
      exact (past e.source (precedes_mem ok ⟨e,listed,rfl,rfl⟩).1).mpr ⟨state,known,terminal⟩

/-- Without a limit the nodes of the first waves are those that run and are over by then. -/
theorem History.past (history : History scheduler g states done (before ++ after)) (ok : RepOk g) (consistent : Consistent g (fun _ => true) states)
    (unlimited : scheduler.max_concurrency = none) {n : Nat} (runs : ∀ id ∈ ids g, states id = .Succeeded → (Over g states n id ↔ id ∈ done)) :
    ∀ id ∈ ids g, states id = .Succeeded → (Over g states (n + before.length) id ↔ id ∈ done ++ planned before) := by
  induction before generalizing done n with
  | nil =>
    rw [planned,List.flatMap_nil,List.append_nil]
    exact runs
  | cons wave later ih =>
    cases history with
    | cons simulates _ nodes rest =>
      have next := ih rest fun id member success => by
        rw [nodes]
        exact simulates.over_next ok consistent unlimited runs id member success
      rw [List.append_assoc] at next
      rw [List.length_cons,Nat.add_comm later.length,← Nat.add_assoc]
      exact next

/-- Nothing is over before the first wave. -/
theorem not_over_zero (ok : RepOk g) (id : NodeId) : ¬ Over g states 0 id := by
  induction id using (precedes_wellFounded ok).induction with
  | _ id ih =>
    intro past
    cases past with
    | @skipped _ e member _ source => exact ih e.source ⟨e,member,rfl,rfl⟩ source

/-- Without a limit a node runs in the last of the waves that it needs to be over. -/
theorem History.unlimited (history : History scheduler g states [] waves) (ok : RepOk g) (consistent : Consistent g (fun _ => true) states)
    (unlimited : scheduler.max_concurrency = none) (split : waves = before ++ wave :: after) (id : NodeId) :
    id ∈ wave.nodes ↔ id ∈ ids g ∧ states id = .Succeeded ∧ Over g states (before.length + 1) id ∧ ¬ Over g states before.length id := by
  have none_yet : ∀ id ∈ ids g, states id = .Succeeded → (Over g states 0 id ↔ id ∈ []) :=
    fun id _ _ => ⟨fun past => absurd past (not_over_zero ok id),fun member => absurd member List.not_mem_nil⟩
  obtain ⟨distinct,exact⟩ := history.exact ok
  have first : History scheduler g states [] (before ++ wave :: after) := split ▸ history
  have second : History scheduler g states [] ((before ++ [wave]) ++ after) := by
    rw [List.append_assoc]
    exact first
  have early := first.past ok consistent unlimited none_yet id
  have late := second.past ok consistent unlimited none_yet id
  simp only [Nat.zero_add,List.length_append,List.length_singleton,List.nil_append,planned_append,List.mem_append] at early late
  have one : planned [wave] = wave.nodes := List.append_nil wave.nodes
  rw [one] at late
  rw [split,planned_append] at distinct
  constructor
  · intro inside
    obtain ⟨member,success⟩ := (exact id).mp (mem_planned (by rw [split]; simp) inside)
    refine ⟨member,success,(late member success).mpr (.inr inside),fun past => ?_⟩
    have again : id ∈ planned (wave :: after) := mem_planned List.mem_cons_self inside
    exact (List.nodup_append.mp distinct).2.2 id ((early member success).mp past) id again rfl
  · rintro ⟨member,success,past,open_⟩
    exact ((late member success).mp past).resolve_left fun inside => open_ ((early member success).mpr inside)

/-! ### Chains -/

/-- The nodes that lead to a planned node. -/
def needs (g : ExecutionGraph) (waves : List Wave) (a b : NodeId) : Prop := Precedes g b a ∧ b ∈ planned waves

theorem flatten_nodes (waves : List Wave) : (waves.map (·.nodes)).flatten = planned waves := rfl

theorem History.layers (history : History scheduler g states [] waves) (ok : RepOk g) : ∀ before layer after,
    waves.map (·.nodes) = before ++ layer :: after → ∀ a ∈ layer, ∀ b, needs g waves a b → b ∈ before.flatten := by
  rintro before layer after split a inside b ⟨⟨e,member,rfl,target⟩,listed⟩
  obtain ⟨early,rest,rfl,same,behind⟩ := List.map_eq_append_iff.mp split
  obtain ⟨wave,late,rfl,here,-⟩ := List.map_eq_cons_iff.mp behind
  rw [← same,flatten_nodes]
  exact history.earlier ok rfl (here ▸ inside) member target listed

/-- A chain of planned nodes goes through as many waves. -/
theorem History.chain_le (history : History scheduler g states [] waves) (ok : RepOk g) {path : List NodeId} (inside : path ⊆ planned waves)
    (chain : path.IsChain (Precedes g)) : path.length ≤ waves.length := by
  rcases List.eq_nil_or_concat path with rfl | ⟨front,last,rfl⟩
  · exact Nat.zero_le _
  · rw [List.concat_eq_append] at inside chain ⊢
    have down : (last :: front.reverse).IsChain (needs g waves) := by
      have reversed := List.isChain_reverse.mpr chain
      rw [List.reverse_append] at reversed
      refine reversed.imp_of_mem_imp fun a b first second edge => ⟨edge,inside ?_⟩
      simpa [or_comm] using second
    have listed : last ∈ (waves.map (·.nodes)).flatten := inside (List.mem_append_right front List.mem_cons_self)
    obtain ⟨before,layer,after,split,there⟩ := placed listed
    have bound := Layers.chain_le (history.layers ok) front.reverse before layer after last split there down
    have size := congrArg List.length split
    simp only [List.length_map,List.length_append,List.length_cons,List.length_reverse,List.length_nil] at bound size ⊢
    omega

/-- Where no skipped node leads to a planned one, a wave without a limit holds what could not be in an earlier one. -/
theorem History.greedy (history : History scheduler g states [] waves) (ok : RepOk g) (consistent : Consistent g (fun _ => true) states)
    (unlimited : scheduler.max_concurrency = none) (plain : ∀ e ∈ g.edges, states e.target = .Succeeded → states e.source = .Succeeded) :
    Greedy (needs g waves) (planned waves) (waves.map (·.nodes)) := by
  obtain ⟨distinct,exact⟩ := history.exact ok
  constructor
  · rintro layer there
    obtain ⟨wave,member,rfl⟩ := List.mem_map.mp there
    obtain ⟨before,after,split⟩ := List.append_of_mem member
    obtain ⟨sim,-,ready,nodes⟩ := history.at split
    rw [nodes]
    exact nextWave_ne_nil (by simp [unlimited]) ready
  · intro before layer after split a
    have layers := history.layers ok before layer after split
    obtain ⟨early,rest,whole,rfl,behind⟩ := List.map_eq_append_iff.mp split
    obtain ⟨wave,late,rfl,rfl,-⟩ := List.map_eq_cons_iff.mp behind
    rw [flatten_nodes] at layers ⊢
    rw [whole,planned_append] at distinct
    constructor
    · intro inside
      refine ⟨mem_planned (by rw [whole]; simp) inside,fun again => ?_,layers a inside⟩
      exact (List.nodup_append.mp distinct).2.2 a again a (mem_planned List.mem_cons_self inside) rfl
    · rintro ⟨listed,new,before⟩
      obtain ⟨member,success⟩ := (exact a).mp listed
      obtain ⟨sim,simulates,-,nodes⟩ := history.at whole
      rw [nodes,mem_nextWave unlimited]
      refine (mem_ready_nodes (ok.of_shape simulates.same) a).mpr ⟨simulates.waits ok member success new,fun e inside target => ?_⟩
      rw [edges_of_shape simulates.same] at inside
      have source := plain e inside (target ▸ success)
      have first := before e.source ⟨⟨e,inside,rfl,target⟩,(exact e.source).mpr ⟨(precedes_mem ok ⟨e,inside,rfl,rfl⟩).1,source⟩⟩
      have known := (simulates.succeeded e.source).mp first
      exact ⟨_,known,simulates.satisfied ok consistent inside (target ▸ success) known rfl⟩

/-- There is then a chain of planned nodes through all waves. -/
theorem History.chain (history : History scheduler g states [] waves) (ok : RepOk g) (consistent : Consistent g (fun _ => true) states)
    (unlimited : scheduler.max_concurrency = none) (plain : ∀ e ∈ g.edges, states e.target = .Succeeded → states e.source = .Succeeded) :
    ∃ path, path ⊆ planned waves ∧ path.IsChain (Precedes g) ∧ path.length = waves.length := by
  have greedy := history.greedy ok consistent unlimited plain
  rcases List.eq_nil_or_concat waves with rfl | ⟨before,wave,split⟩
  · exact ⟨[],List.nil_subset _,.nil,rfl⟩
  · rw [List.concat_eq_append] at split
    have layers : waves.map (·.nodes) = before.map (·.nodes) ++ wave.nodes :: [] := by rw [split]; simp
    have listed : wave.nodes ∈ waves.map (·.nodes) := by rw [layers]; simp
    obtain ⟨a,inside⟩ := List.exists_mem_of_ne_nil wave.nodes (greedy.filled wave.nodes listed)
    obtain ⟨path,below,length⟩ := greedy.chain _ _ _ a layers inside
    have deeper : ∀ (path : List NodeId) (a : NodeId), Below (needs g waves) a path → path ⊆ planned waves := by
      intro path
      induction path with
      | nil => exact fun _ _ => List.nil_subset _
      | cons b later ih =>
        intro a below
        obtain ⟨here,rest⟩ := below_cons.mp below
        exact List.cons_subset.mpr ⟨here.2,ih b rest⟩
    have known : a :: path ⊆ planned waves := List.cons_subset.mpr ⟨mem_planned (by rw [split]; simp) inside,deeper path a below⟩
    refine ⟨(a :: path).reverse,fun x member => known (List.mem_reverse.mp member),?_,?_⟩
    · exact List.isChain_reverse.mpr (below.imp fun _ _ need => need.1)
    · rw [List.length_reverse,List.length_cons,length,split]
      simp

/-! ### Plans -/

/-- The waves of a plan: every node that runs stands in exactly one of them, behind the planned nodes that lead to it; they are not empty, keep
    the limit and are sorted by priority, and there are not fewer than the nodes of a chain. -/
structure Plan (g : ExecutionGraph) (limit : Option Nat) (states : NodeId → NodeState) (waves : List Wave) : Prop where
  once : (planned waves).Nodup
  exact : ∀ id, id ∈ planned waves ↔ id ∈ ids g ∧ states id = .Succeeded
  earlier : ∀ before wave after, waves = before ++ wave :: after → ∀ id ∈ wave.nodes, ∀ e ∈ g.edges, e.target = id → e.source ∈ planned waves →
    e.source ∈ planned before
  filled : ∀ wave ∈ waves, wave.nodes ≠ []
  limited : ∀ max, limit = some max → ∀ wave ∈ waves, wave.nodes.length ≤ max
  sorted : ∀ wave ∈ waves, wave.nodes.Pairwise fun a b => priorityOf g b ≤ priorityOf g a
  chains : ∀ path, path ⊆ planned waves → path.IsChain (Precedes g) → path.length ≤ waves.length

/-- Without a limit a node runs in the last of the waves that it needs to be over; where no skipped node leads to a planned one, there are as
    many waves as there are nodes in the longest chain. -/
structure Tight (g : ExecutionGraph) (states : NodeId → NodeState) (waves : List Wave) : Prop where
  past : ∀ before wave after, waves = before ++ wave :: after → ∀ id,
    id ∈ wave.nodes ↔ id ∈ ids g ∧ states id = .Succeeded ∧ Over g states (before.length + 1) id ∧ ¬ Over g states before.length id
  chain : (∀ e ∈ g.edges, states e.target = .Succeeded → states e.source = .Succeeded) →
    ∃ path, path ⊆ planned waves ∧ path.IsChain (Precedes g) ∧ path.length = waves.length

theorem History.plan (history : History scheduler g states [] waves) (ok : RepOk g) (positive : scheduler.max_concurrency ≠ some 0) :
    Plan g scheduler.max_concurrency states waves := by
  have wave : ∀ wave ∈ waves, ∃ done sim, Simulates g states done sim ∧ sim.ready_nodes ≠ [] ∧ wave.nodes = scheduler.nextWave sim := by
    intro wave member
    obtain ⟨before,after,split⟩ := List.append_of_mem member
    exact ⟨_,history.at split⟩
  obtain ⟨once,exact⟩ := history.exact ok
  refine ⟨once,exact,fun before wave after split id inside e member target source => history.earlier ok split inside member target source,
    fun w member => ?_,fun max limit w member => ?_,fun w member => ?_,fun path inside chain => history.chain_le ok inside chain⟩
  · obtain ⟨_,sim,-,ready,nodes⟩ := wave w member
    rw [nodes]
    exact nextWave_ne_nil positive ready
  · obtain ⟨_,sim,-,-,nodes⟩ := wave w member
    rw [nodes]
    exact nextWave_limited scheduler sim limit
  · obtain ⟨_,sim,simulates,-,nodes⟩ := wave w member
    rw [nodes]
    refine (nextWave_sorted scheduler sim).imp fun {a b} le => ?_
    rwa [priorityOf_shape simulates.same,priorityOf_shape simulates.same] at le

theorem plan_waves_eq (scheduler : WaveScheduler) (positive : scheduler.max_concurrency ≠ some 0) (g : ExecutionGraph) :
    let waves := scheduler.planLoop (g.node_count + 1) 0 g
    let total := (waves.map (·.estimated_duration)).sum
    scheduler.plan_waves g = if Duration.MAX < total then .overflow else .plan ⟨waves,total⟩ := by
  unfold WaveScheduler.plan_waves
  rw [if_neg positive]
  split_ifs with empty
  · have rest : g.ready_nodes = [] := by
      have none : g.graph.nodes.length = 0 := empty
      simp [ExecutionGraph.ready_nodes,none]
    have waves : scheduler.planLoop (g.node_count + 1) 0 g = [] := by rw [WaveScheduler.planLoop,if_pos rest]
    simp [waves]
  · rfl

/-- Planning a graph that has not started gives the waves of the outcome in which every node that runs succeeds, unless the sum of their
    estimates overflows. The bound on their number is never reached. -/
theorem plan_waves_exact (scheduler : WaveScheduler) (positive : scheduler.max_concurrency ≠ some 0) (ok : RepOk g)
    (fresh : ∀ node ∈ g.nodes, node.state = .Pending) : ∃ states waves, Consistent g (fun _ => true) states ∧
      (scheduler.plan_waves g = if Duration.MAX < (waves.map (·.estimated_duration)).sum then .overflow
        else .plan ⟨waves,(waves.map (·.estimated_duration)).sum⟩) ∧
      waves.length ≤ g.node_count ∧ (∀ rounds, g.node_count < rounds → scheduler.planLoop rounds 0 g = waves) ∧
      Plan g scheduler.max_concurrency states waves ∧ (scheduler.max_concurrency = none → Tight g states waves) := by
  obtain ⟨states,consistent⟩ := consistent_exists ok (fun _ => true)
  have pending : ∀ id ∈ ids g, stateOf g id = some .Pending := by
    intro id member
    obtain ⟨i,at_i⟩ := List.mem_iff_getElem?.mp member
    rw [stateOf_eq ok at_i]
    rw [ids_get] at at_i
    obtain ⟨node,found,-⟩ := Option.map_eq_some_iff.mp at_i
    rw [found,Option.map_some,fresh node (List.mem_of_getElem? found)]
  have simulates := Simulates.start states pending ok
  have size : (ids g).length = g.node_count := by rw [ids,List.length_map]; rfl
  have enough : (ids g).length < g.node_count + 1 + ([] : List NodeId).length := by rw [size]; simp
  have history := planLoop_history ok consistent positive 0 simulates enough
  refine ⟨states,_,consistent,plan_waves_eq scheduler positive g,size ▸ history.length_le ok positive,fun rounds larger => ?_,
    history.plan ok positive,fun unlimited => ⟨fun before wave after split id => history.unlimited ok consistent unlimited split id,
      history.chain ok consistent unlimited⟩⟩
  obtain ⟨more,rfl⟩ := Nat.exists_eq_add_of_le (Nat.succ_le_of_lt larger)
  exact planLoop_more ok consistent positive 0 more simulates enough

end

/-- A chain of three nodes, two at a time. -/
def twoAtATime : WaveScheduler := ⟨some 2,byName⟩

theorem chain_planned : ∃ states waves, Plan (build "chain" (chainCalls.take 5)) (some 2) states waves ∧
    twoAtATime.plan_waves (build "chain" (chainCalls.take 5)) = (if Duration.MAX < (waves.map (·.estimated_duration)).sum then .overflow
      else .plan ⟨waves,(waves.map (·.estimated_duration)).sum⟩) := by
  obtain ⟨states,waves,-,planned,-,-,plan,-⟩ := plan_waves_exact twoAtATime (by decide) (repOk_build "chain" (chainCalls.take 5)) (by decide)
  exact ⟨states,waves,plan,planned⟩

/-- The test rules the rollback out before what it was to roll back is built; the report does not wait for that either. -/
def rollback : ExecutionGraph := build "rollback"
  [.add_node (Node.new ⟨1⟩ .Task "test"),.add_node (Node.new ⟨2⟩ .Task "fetch"),.add_node (Node.new ⟨3⟩ .Task "build"),
    .add_node (Node.new ⟨4⟩ .Task "rollback"),.add_node (Node.new ⟨5⟩ .Task "report"),.add_node (Node.new ⟨6⟩ .Task "archive"),
    .add_edge ⟨⟨1⟩,⟨4⟩,.DependsOn,some .OnFailure,0⟩,.add_edge (Edge.new ⟨2⟩ ⟨3⟩ .DependsOn),.add_edge (Edge.new ⟨3⟩ ⟨4⟩ .DependsOn),
    .add_edge (Edge.new ⟨4⟩ ⟨5⟩ .Triggers),.add_edge (Edge.new ⟨5⟩ ⟨6⟩ .DependsOn)]

instance (g : ExecutionGraph) (a b : NodeId) : Decidable (Precedes g a b) :=
  inferInstanceAs (Decidable (∃ e ∈ g.edges, e.source = a ∧ e.target = b))

theorem rollback_planned : planned (WaveScheduler.planLoop ⟨none,byName⟩ 7 0 rollback) = [⟨2⟩,⟨1⟩,⟨3⟩,⟨5⟩,⟨6⟩] := by decide

theorem rollback_pairs : ∀ a ∈ planned (WaveScheduler.planLoop ⟨none,byName⟩ 7 0 rollback),
    ∀ b ∈ planned (WaveScheduler.planLoop ⟨none,byName⟩ 7 0 rollback), ∀ c ∈ planned (WaveScheduler.planLoop ⟨none,byName⟩ 7 0 rollback),
      Precedes rollback a b → ¬ Precedes rollback b c := by
  rw [rollback_planned]
  decide

/-- The report runs when the rollback is skipped, although the build before the rollback has not run: there are three waves, but no chain of
    three planned nodes along the edges, and one of four where the skipped node may stand between them. -/
theorem rollback_waves : ∃ plan, WaveScheduler.plan_waves ⟨none,byName⟩ rollback = .plan plan ∧ (∀ node ∈ rollback.nodes, node.state = .Pending) ∧
    plan.waves.length = 3 ∧ (∀ path, path ⊆ planned plan.waves → path.IsChain (Precedes rollback) → path.length ≤ 2) ∧
    ∃ path, path ⊆ planned plan.waves ∧ path.IsChain (Relation.TransGen (Precedes rollback)) ∧ path.length = 4 := by
  refine ⟨_,(plan_waves_eq ⟨none,byName⟩ (by decide) rollback).trans (if_neg (by decide)),by decide,by decide,?_,
    [⟨2⟩,⟨3⟩,⟨5⟩,⟨6⟩],?_,?_,rfl⟩
  · intro path inside chain
    rcases path with _ | ⟨a,_ | ⟨b,_ | ⟨c,later⟩⟩⟩
    · exact Nat.zero_le 2
    · exact Nat.le_succ 1
    · exact Nat.le_refl 2
    · obtain ⟨one,two,-⟩ : Precedes rollback a b ∧ Precedes rollback b c ∧ _ := by simpa using chain
      exact absurd two (rollback_pairs a (inside (by simp)) b (inside (by simp)) c (inside (by simp)) one)
  · exact rollback_planned ▸ by decide
  · have step : ∀ a b : NodeId, Precedes rollback a b → Relation.TransGen (Precedes rollback) a b := fun _ _ edge => .single edge
    refine .cons_cons (step _ _ (by decide)) (.cons_cons ?_ (.cons_cons (step _ _ (by decide)) (.singleton _)))
    exact (step ⟨3⟩ ⟨4⟩ (by decide)).tail (by decide)

end Daf.WavePlans
