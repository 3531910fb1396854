import Daf.Runs
import Daf.TopicRegistry
import Daf.GroupSelection
import Mathlib.Algebra.BigOperators.Group.List.Basic

/-!
The message router: where a frame goes that is meant for one agent, for all of them, or for the subscribers of a topic. Whatever is
registered, removed, evicted and subscribed, it resolves what a finite map of routes and a list of subscriptions say.
-/
namespace Daf.MessageRouter
open Daf.RouteTable Daf.GroupSelection
open Daf.MissionPlan (AgentId)
open Daf.TopicRegistry (Topic Subscriptions subscribers addTo retainIn isEmptyEntry lost)

/-- An agent as the topics know it. -/
abbrev Subscriber := TopicRegistry.AgentId

def asSubscriber (agent : AgentId) : Subscriber := ⟨agent.uuid⟩

def asAgent (subscriber : Subscriber) : AgentId := ⟨subscriber.uuid⟩

/-! ### Topics, one call after the other -/

def subscribe (topics : Subscriptions) (topic : Topic) (agent : Subscriber) : Subscriptions := addTo topics topic agent

def unsubscribe (topics : Subscriptions) (topic : Topic) (agent : Subscriber) : Bool × Subscriptions :=
  let kept := retainIn topics topic agent
  (0 < lost topics topic agent,if isEmptyEntry kept topic then kept.erase topic else kept)

/-- The agent is dropped from every entry; then the empty ones are removed. -/
def unsubscribe_all (topics : Subscriptions) (agent : Subscriber) : Nat × Subscriptions :=
  let swept := topics.keys.foldl (fun m topic => retainIn m topic agent) topics
  let empty_topics := topics.keys.filter (isEmptyEntry swept)
  ((topics.keys.map fun topic => lost topics topic agent).sum,empty_topics.foldl (fun m topic => m.erase topic) swept)

def topics_for_agent (topics : Subscriptions) (agent : Subscriber) : List Topic :=
  topics.keys.filter fun topic => agent ∈ subscribers topics topic

def topic_count (topics : Subscriptions) : Nat := topics.keys.length

def subscription_count (topics : Subscriptions) : Nat := (topics.entries.map fun entry => entry.2.length).sum

/-! ### The router -/

structure Router extends GroupSelection.Router where
  topics : Subscriptions

def Router.with_strategy (strategy : BalancingStrategy) : Router := ⟨.with_strategy strategy,∅⟩

def Router.register_route (router : Router) (entry : RouteEntry) : Router :=
  { router with routing_table := router.routing_table.insert entry }

def Router.remove_route (router : Router) (agent : AgentId) (channel_id : UInt32) : Bool × Router :=
  let (removed,routing_table) := router.routing_table.remove_route agent channel_id
  (removed,{ router with routing_table })

def Router.deregister_agent (router : Router) (agent : AgentId) : Router :=
  { router with
    routing_table := (router.routing_table.remove_agent agent).2
    topics := (unsubscribe_all router.topics (asSubscriber agent)).2 }

def agents (table : RoutingTable) : List AgentId := table.routes.keys

def Router.resolve (router : Router) (target : AgentId) : Option RouteEntry := router.routing_table.best_route target

def Router.broadcast (router : Router) : List RouteEntry := (agents router.routing_table).filterMap router.routing_table.best_route

def Router.multicast (router : Router) (targets : List AgentId) : List RouteEntry := targets.filterMap router.routing_table.best_route

def Router.resolve_topic (router : Router) (topic : Topic) : List RouteEntry :=
  router.multicast ((subscribers router.topics topic).map asAgent)

inductive Op where
  | register_route (entry : RouteEntry)
  | remove_route (agent : AgentId) (channel_id : UInt32)
  | evict_stale (clock : RouteEntry → Int) (timeout : Int)
  | deregister_agent (agent : AgentId)
  | subscribe (topic : Topic) (agent : AgentId)
  | unsubscribe (topic : Topic) (agent : AgentId)
  | unsubscribe_all (agent : AgentId)
  | select_from_group (candidates : List AgentId)

def Op.apply (router : Router) : Op → Router
  | .register_route entry => router.register_route entry
  | .remove_route agent channel_id => (router.remove_route agent channel_id).2
  | .evict_stale clock timeout => { router with routing_table := (router.routing_table.evict_stale clock timeout).2 }
  | .deregister_agent agent => router.deregister_agent agent
  | .subscribe topic agent => { router with topics := MessageRouter.subscribe router.topics topic (asSubscriber agent) }
  | .unsubscribe topic agent => { router with topics := (MessageRouter.unsubscribe router.topics topic (asSubscriber agent)).2 }
  | .unsubscribe_all agent => { router with topics := (MessageRouter.unsubscribe_all router.topics (asSubscriber agent)).2 }
  | .select_from_group candidates => { router with toRouter := (router.select_from_group candidates).2 }

/-! ### The map of routes and the list of subscriptions -/

/-- The subscriptions in the order in which they were made. -/
abbrev Subscribed := List (Topic × Subscriber)

structure Contents where
  routes : RouteMap
  subscribed : Subscribed

def Contents.empty : Contents := ⟨∅,[]⟩

def Contents.onRoutes (contents : Contents) (op : RouteTable.Op) : Contents := { contents with routes := op.onMap contents.routes }

def Op.onContents (contents : Contents) : Op → Contents
  | .register_route entry => contents.onRoutes (.insert entry)
  | .remove_route agent channel_id => contents.onRoutes (.remove_route agent channel_id)
  | .evict_stale clock timeout => contents.onRoutes (.evict_stale clock timeout)
  | .deregister_agent agent =>
    { contents.onRoutes (.remove_agent agent) with subscribed := contents.subscribed.filter fun p => p.2 ≠ asSubscriber agent }
  | .subscribe topic agent =>
    { contents with subscribed :=
        if (topic,asSubscriber agent) ∈ contents.subscribed then contents.subscribed else contents.subscribed ++ [(topic,asSubscriber agent)] }
  | .unsubscribe topic agent => { contents with subscribed := contents.subscribed.filter fun p => p ≠ (topic,asSubscriber agent) }
  | .unsubscribe_all agent => { contents with subscribed := contents.subscribed.filter fun p => p.2 ≠ asSubscriber agent }
  | .select_from_group _ => contents

/-- The subscribers of a topic, in order. -/
def listed (subscribed : Subscribed) (topic : Topic) : List Subscriber := (subscribed.filter fun p => p.1 = topic).map Prod.snd

/-- The topics have the subscriptions of the list, and no entry without one. -/
structure Lists (topics : Subscriptions) (subscribed : Subscribed) : Prop where
  same : ∀ topic, subscribers topics topic = listed subscribed topic
  filled : ∀ topic, topics.lookup topic ≠ some []
  distinct : subscribed.Nodup

section
variable {topics : Subscriptions} {subscribed : Subscribed} {topic other : Topic} {agent : Subscriber}

theorem mem_listed : agent ∈ listed subscribed topic ↔ (topic,agent) ∈ subscribed := by
  simp [listed]

theorem listed_concat (subscribed : Subscribed) (topic other : Topic) (agent : Subscriber) :
    listed (subscribed ++ [(topic,agent)]) other = listed subscribed other ++ if other = topic then [agent] else [] := by
  rw [listed,List.filter_append,List.map_append,listed]
  by_cases same : other = topic
  · simp [same]
  · simp [same,Ne.symm same]

theorem listed_filter (q : Topic × Subscriber → Bool) (subscribed : Subscribed) (topic : Topic) :
    listed (subscribed.filter q) topic = (listed subscribed topic).filter fun agent => q (topic,agent) := by
  rw [listed,listed,List.filter_map,List.filter_filter,List.filter_filter]
  congr 1
  refine List.filter_congr ?_
  rintro ⟨other,agent⟩ -
  by_cases same : other = topic <;> simp [same]

theorem subscribers_addTo (topics : Subscriptions) (topic other : Topic) (agent : Subscriber) : subscribers (addTo topics topic agent) other =
    if other = topic ∧ agent ∉ subscribers topics topic then subscribers topics other ++ [agent] else subscribers topics other := by
  unfold addTo
  cases found : topics.lookup topic with
  | none =>
    have vacant : subscribers topics topic = [] := by simp [subscribers,found]
    by_cases same : other = topic <;> simp [TopicRegistry.subscribers_insert,same,vacant]
  | some agents =>
    have here : subscribers topics topic = agents := by simp [subscribers,found]
    by_cases known : agent ∈ agents
    · simp [known,here]
    · by_cases same : other = topic <;> simp [TopicRegistry.subscribers_insert,known,same,here]

theorem subscribers_retainIn (topics : Subscriptions) (topic other : Topic) (agent : Subscriber) : subscribers (retainIn topics topic agent) other =
    if other = topic then (subscribers topics other).filter fun a => a ≠ agent else subscribers topics other := by
  unfold retainIn
  cases found : topics.lookup topic with
  | none =>
    have vacant : subscribers topics topic = [] := by simp [subscribers,found]
    by_cases same : other = topic <;> simp [same,vacant]
  | some agents =>
    have here : subscribers topics topic = agents := by simp [subscribers,found]
    by_cases same : other = topic <;> simp [TopicRegistry.subscribers_insert,same,here]

theorem lookup_eq_nil_iff : topics.lookup topic = some [] ↔ topic ∈ topics.keys ∧ subscribers topics topic = [] := by
  rw [← AList.mem_keys,← AList.lookup_isSome,subscribers]
  cases topics.lookup topic <;> simp

theorem keys_retainIn (topics : Subscriptions) (topic other : Topic) (agent : Subscriber) :
    other ∈ (retainIn topics topic agent).keys ↔ other ∈ topics.keys := by
  unfold retainIn
  cases found : topics.lookup topic with
  | none => rfl
  | some agents =>
    have there : topic ∈ topics := AList.lookup_isSome.mp (by rw [found]; rfl)
    rw [← AList.mem_keys,← AList.mem_keys,AList.mem_insert]
    constructor
    · rintro (rfl | old)
      · exact there
      · exact old
    · exact .inr

/-- An entry that is empty can be removed or not. -/
theorem subscribers_erase (vacant : subscribers topics topic = []) (other : Topic) : subscribers (topics.erase topic) other = subscribers topics other := by
  by_cases same : other = topic
  · rw [same,vacant,subscribers,AList.lookup_erase]
    rfl
  · rw [subscribers,AList.lookup_erase_ne same]
    rfl

theorem sweep_spec (agent : Subscriber) (left : List Topic) (topics : Subscriptions) :
    let swept := left.foldl (fun m topic => retainIn m topic agent) topics
    (∀ other, subscribers swept other = if other ∈ left then (subscribers topics other).filter (fun a => a ≠ agent) else subscribers topics other) ∧
      ∀ other, other ∈ swept.keys ↔ other ∈ topics.keys := by
  induction left generalizing topics with
  | nil => exact ⟨fun _ => by simp,fun _ => Iff.rfl⟩
  | cons topic left ih =>
    obtain ⟨rest,keys⟩ := ih (retainIn topics topic agent)
    refine ⟨fun other => (rest other).trans ?_,fun other => (keys other).trans (keys_retainIn topics topic other agent)⟩
    rw [subscribers_retainIn]
    by_cases here : other = topic <;> by_cases later : other ∈ left <;> simp [here,later,List.filter_filter]

theorem clear_spec (empty_topics : List Topic) (topics : Subscriptions) (vacant : ∀ topic ∈ empty_topics, subscribers topics topic = []) :
    let cleared := empty_topics.foldl (fun m topic => m.erase topic) topics
    (∀ other, subscribers cleared other = subscribers topics other) ∧ ∀ other, other ∈ cleared.keys ↔ other ∈ topics.keys ∧ other ∉ empty_topics := by
  induction empty_topics generalizing topics with
  | nil => exact ⟨fun _ => rfl,fun _ => by simp⟩
  | cons topic left ih =>
    obtain ⟨here,later⟩ := List.forall_mem_cons.mp vacant
    obtain ⟨rest,keys⟩ := ih (topics.erase topic) fun other member => (subscribers_erase here other).trans (later other member)
    refine ⟨fun other => (rest other).trans (subscribers_erase here other),fun other => (keys other).trans ?_⟩
    rw [← AList.mem_keys,AList.mem_erase,← AList.mem_keys,List.mem_cons]
    tauto

theorem Lists.empty : Lists ∅ [] := ⟨fun _ => rfl,fun _ => nofun,List.nodup_nil⟩

theorem Lists.mem_iff (lists : Lists topics subscribed) : agent ∈ subscribers topics topic ↔ (topic,agent) ∈ subscribed := by
  rw [lists.same,mem_listed]

theorem Lists.subscribe (lists : Lists topics subscribed) (topic : Topic) (agent : Subscriber) : Lists (subscribe topics topic agent)
    (if (topic,agent) ∈ subscribed then subscribed else subscribed ++ [(topic,agent)]) := by
  have known : agent ∈ subscribers topics topic ↔ (topic,agent) ∈ subscribed := lists.mem_iff
  refine ⟨fun other => ?_,fun other => ?_,?_⟩
  · rw [MessageRouter.subscribe,subscribers_addTo,lists.same other]
    by_cases old : (topic,agent) ∈ subscribed
    · rw [if_pos old,if_neg fun new => new.2 (known.mpr old)]
    · rw [if_neg old,listed_concat]
      by_cases same : other = topic
      · rw [if_pos ⟨same,fun there => old (known.mp there)⟩,if_pos same]
      · rw [if_neg fun new => same new.1,if_neg same,List.append_nil]
  · intro nothing
    have vacant := (lookup_eq_nil_iff.mp nothing).2
    rw [MessageRouter.subscribe,subscribers_addTo] at vacant
    split_ifs at vacant with new
    · simp at vacant
    · rw [MessageRouter.subscribe,addTo] at nothing
      split at nothing
      · by_cases same : other = topic
        · rw [same,AList.lookup_insert] at nothing
          cases nothing
        · rw [AList.lookup_insert_ne same] at nothing
          exact lists.filled other nothing
      · split_ifs at nothing
        · exact lists.filled other nothing
        · by_cases same : other = topic
          · rw [same,AList.lookup_insert] at nothing
            simp at nothing
          · rw [AList.lookup_insert_ne same] at nothing
            exact lists.filled other nothing
  · split_ifs with old
    · exact lists.distinct
    · exact List.Nodup.append lists.distinct (List.nodup_singleton _) (by simpa using old)

theorem Lists.unsubscribe (lists : Lists topics subscribed) (topic : Topic) (agent : Subscriber) :
    Lists (unsubscribe topics topic agent).2 (subscribed.filter fun p => p ≠ (topic,agent)) := by
  have left : ∀ other, subscribers (MessageRouter.unsubscribe topics topic agent).2 other = subscribers (retainIn topics topic agent) other := by
    intro other
    rw [MessageRouter.unsubscribe]
    split_ifs with nothing
    · exact subscribers_erase (lookup_eq_nil_iff.mp (by simpa [isEmptyEntry] using nothing)).2 other
    · rfl
  refine ⟨fun other => ?_,fun other nothing => ?_,lists.distinct.filter _⟩
  · rw [left,subscribers_retainIn,listed_filter,lists.same other]
    split_ifs with same
    · subst same
      exact List.filter_congr fun a _ => by simp
    · exact (List.filter_eq_self.mpr fun a _ => by simp [same]).symm
  · have there : other ∈ topics.keys := by
      have kept := (lookup_eq_nil_iff.mp nothing).1
      rw [MessageRouter.unsubscribe] at kept
      split_ifs at kept
      · exact (keys_retainIn topics topic other agent).mp (AList.mem_keys.mp (AList.mem_erase.mp (AList.mem_keys.mpr kept)).2)
      · exact (keys_retainIn topics topic other agent).mp kept
    by_cases same : other = topic
    · subst same
      rw [MessageRouter.unsubscribe] at nothing
      split_ifs at nothing with empty
      · rw [AList.lookup_erase] at nothing
        cases nothing
      · exact empty (by simpa [isEmptyEntry] using nothing)
    · refine lists.filled other (lookup_eq_nil_iff.mpr ⟨there,?_⟩)
      have vacant := (lookup_eq_nil_iff.mp nothing).2
      rwa [left,subscribers_retainIn,if_neg same] at vacant

theorem Lists.unsubscribe_all (lists : Lists topics subscribed) (agent : Subscriber) :
    Lists (unsubscribe_all topics agent).2 (subscribed.filter fun p => p.2 ≠ agent) := by
  obtain ⟨swept,keys⟩ := sweep_spec agent topics.keys topics
  have whole : ∀ other, subscribers (topics.keys.foldl (fun m topic => retainIn m topic agent) topics) other =
      (subscribers topics other).filter fun a => a ≠ agent := by
    intro other
    rw [swept]
    split_ifs with there
    · rfl
    · have vacant : subscribers topics other = [] := by
        rw [subscribers,AList.lookup_eq_none.mpr fun member => there (AList.mem_keys.mp member)]
        rfl
      rw [vacant]
      rfl
  obtain ⟨cleared,remaining⟩ := clear_spec (topics.keys.filter (isEmptyEntry (topics.keys.foldl (fun m topic => retainIn m topic agent) topics))) _ (by
    intro topic member
    have nothing := (List.mem_filter.mp member).2
    exact (lookup_eq_nil_iff.mp (by simpa [isEmptyEntry] using nothing)).2)
  refine ⟨fun other => ?_,fun other nothing => ?_,lists.distinct.filter _⟩
  · refine (cleared other).trans ((whole other).trans ?_)
    rw [listed_filter,lists.same other]
  · obtain ⟨there,vacant⟩ := lookup_eq_nil_iff.mp nothing
    obtain ⟨was,stays⟩ := (remaining other).mp there
    have empty : subscribers (topics.keys.foldl (fun m topic => retainIn m topic agent) topics) other = [] := (cleared other).symm.trans vacant
    refine stays (List.mem_filter.mpr ⟨(keys other).mp was,?_⟩)
    simpa [isEmptyEntry] using lookup_eq_nil_iff.mpr ⟨was,empty⟩

/-! ### What the topics answer -/

theorem Lists.mem_keys (lists : Lists topics subscribed) : topic ∈ topics.keys ↔ topic ∈ subscribed.map Prod.fst := by
  rw [List.mem_map]
  constructor
  · intro there
    have filled : subscribers topics topic ≠ [] := fun vacant => lists.filled topic (lookup_eq_nil_iff.mpr ⟨there,vacant⟩)
    obtain ⟨agent,member⟩ := List.exists_mem_of_ne_nil _ filled
    exact ⟨(topic,agent),lists.mem_iff.mp member,rfl⟩
  · rintro ⟨⟨topic,agent⟩,member,rfl⟩
    exact TopicRegistry.key_of_member (lists.mem_iff.mpr member)

/-- Topic by topic all subscriptions are counted. -/
theorem sum_listed (q : Subscriber → Bool) {keys : List Topic} (distinct : keys.Nodup) {subscribed : Subscribed} (inside : ∀ p ∈ subscribed, p.1 ∈ keys) :
    (keys.map fun topic => (listed subscribed topic).countP q).sum = subscribed.countP fun p => q p.2 := by
  induction keys generalizing subscribed with
  | nil =>
    have nothing : subscribed = [] := List.eq_nil_iff_forall_not_mem.mpr fun p member => by cases inside p member
    rw [nothing]
    rfl
  | cons topic keys ih =>
    obtain ⟨fresh,distinct⟩ := List.nodup_cons.mp distinct
    have others := @ih distinct (subscribed.filter fun p => p.1 ≠ topic) fun p member => by
      obtain ⟨old,other⟩ := List.mem_filter.mp member
      exact (List.mem_cons.mp (inside p old)).resolve_left (by simpa using other)
    have same : ∀ other ∈ keys, (listed (subscribed.filter fun p => p.1 ≠ topic) other).countP q = (listed subscribed other).countP q := by
      intro other member
      have apart : other ≠ topic := fun same => fresh (same ▸ member)
      rw [listed_filter,List.filter_eq_self.mpr fun a _ => by simpa using apart]
    rw [List.map_congr_left same] at others
    rw [List.map_cons,List.sum_cons,others,listed,List.countP_map,List.countP_eq_countP_filter_add subscribed _ fun p => decide (p.1 = topic)]
    have apart : (fun p : Topic × Subscriber => decide (p.1 ≠ topic)) = fun p => !decide (p.1 = topic) := by
      funext p
      exact decide_not
    rw [apart]
    rfl

theorem Lists.unsubscribed_iff (lists : Lists topics subscribed) (topic : Topic) (agent : Subscriber) :
    (MessageRouter.unsubscribe topics topic agent).1 = true ↔ (topic,agent) ∈ subscribed := by
  rw [MessageRouter.unsubscribe,decide_eq_true_iff,lost,List.countP_pos_iff,← lists.mem_iff]
  simp

theorem Lists.dropped_eq (lists : Lists topics subscribed) (agent : Subscriber) :
    (MessageRouter.unsubscribe_all topics agent).1 = subscribed.countP fun p => p.2 = agent := by
  have inside : ∀ p ∈ subscribed, p.1 ∈ topics.keys := fun p member => lists.mem_keys.mpr (List.mem_map_of_mem member)
  rw [← sum_listed (fun a => decide (a = agent)) topics.nodupKeys inside,MessageRouter.unsubscribe_all]
  simp only [lost,lists.same]
  rfl

theorem Lists.subscription_count_eq (lists : Lists topics subscribed) : subscription_count topics = subscribed.length := by
  have inside : ∀ p ∈ subscribed, p.1 ∈ topics.keys := fun p member => lists.mem_keys.mpr (List.mem_map_of_mem member)
  have counted := sum_listed (fun _ => true) topics.nodupKeys inside
  simp only [List.countP_true] at counted
  rw [← counted,subscription_count,List.keys,List.map_map]
  congr 1
  refine List.map_congr_left ?_
  rintro ⟨topic,agents⟩ member
  have found : topics.lookup topic = some agents := List.mem_dlookup topics.nodupKeys member
  have here : subscribers topics topic = agents := by rw [subscribers,found]; rfl
  rw [Function.comp_apply,← lists.same,here]

theorem Lists.topic_count_eq (lists : Lists topics subscribed) : topic_count topics = (subscribed.map Prod.fst).dedup.length := by
  refine List.Perm.length_eq ((List.perm_ext_iff_of_nodup topics.nodupKeys (List.nodup_dedup _)).mpr fun topic => ?_)
  rw [List.mem_dedup]
  exact lists.mem_keys

theorem Lists.topics_for_agent_iff (lists : Lists topics subscribed) (topic : Topic) (agent : Subscriber) :
    topic ∈ topics_for_agent topics agent ↔ (topic,agent) ∈ subscribed := by
  rw [topics_for_agent,List.mem_filter,decide_eq_true_iff,lists.mem_iff]
  refine ⟨And.right,fun member => ⟨?_,member⟩⟩
  exact lists.mem_keys.mpr (List.mem_map_of_mem member)

end

/-! ### Runs of the router -/

/-- The router has the routes and the subscriptions of the contents. -/
structure Follows (router : Router) (contents : Contents) : Prop where
  routes : Shown router.routing_table contents.routes
  topics : Lists router.topics contents.subscribed

/-- An agent that the map has a route to. -/
def Routed (routes : RouteMap) (agent : AgentId) : Prop := ∃ channel_id, (agent,channel_id) ∈ routes

/-- A route of the agent with its lowest priority. -/
def Preferred (routes : RouteMap) (agent : AgentId) (e : RouteEntry) : Prop :=
  e.target_agent = agent ∧ routes.lookup (agent,e.channel_id) = some e ∧
    ∀ channel_id other, routes.lookup (agent,channel_id) = some other → e.priority ≤ other.priority

/-- What the router resolves and counts is what the contents say. -/
structure Resolves (router : Router) (contents : Contents) : Prop where
  resolve : ∀ agent e, router.resolve agent = some e → Preferred contents.routes agent e
  routed : ∀ agent, (router.resolve agent).isSome ↔ Routed contents.routes agent
  broadcast : ∀ e ∈ router.broadcast, Preferred contents.routes e.target_agent e
  each_once : (router.broadcast.map RouteEntry.target_agent).Nodup
  everyone : ∀ agent, agent ∈ router.broadcast.map RouteEntry.target_agent ↔ Routed contents.routes agent
  topic : ∀ topic, ∀ e ∈ router.resolve_topic topic, Preferred contents.routes e.target_agent e
  in_order : ∀ topic, (router.resolve_topic topic).map RouteEntry.target_agent =
    ((listed contents.subscribed topic).map asAgent).filter fun agent => (router.resolve agent).isSome
  subscribed_once : contents.subscribed.Nodup
  unsubscribed : ∀ topic agent, (unsubscribe router.topics topic agent).1 = true ↔ (topic,agent) ∈ contents.subscribed
  dropped : ∀ agent, (unsubscribe_all router.topics agent).1 = contents.subscribed.countP fun p => p.2 = agent
  topics_for_agent : ∀ topic agent, topic ∈ topics_for_agent router.topics agent ↔ (topic,agent) ∈ contents.subscribed
  topic_count : topic_count router.topics = (contents.subscribed.map Prod.fst).dedup.length
  subscription_count : subscription_count router.topics = contents.subscribed.length

section
variable {router : Router} {contents : Contents}

theorem select_tables (router : GroupSelection.Router) (candidates : List AgentId) :
    (router.select_from_group candidates).2.routing_table = router.routing_table := by
  unfold GroupSelection.Router.select_from_group
  split_ifs
  · rfl
  · cases router.balancing_strategy <;> rfl

theorem apply_follows (follows : Follows router contents) (op : Op) : Follows (op.apply router) (op.onContents contents) := by
  cases op with
  | register_route entry => exact ⟨apply_shown follows.routes (.insert entry),follows.topics⟩
  | remove_route agent channel_id => exact ⟨apply_shown follows.routes (.remove_route agent channel_id),follows.topics⟩
  | evict_stale clock timeout => exact ⟨apply_shown follows.routes (.evict_stale clock timeout),follows.topics⟩
  | deregister_agent agent =>
    exact ⟨apply_shown follows.routes (.remove_agent agent),follows.topics.unsubscribe_all (asSubscriber agent)⟩
  | subscribe topic agent => exact ⟨follows.routes,follows.topics.subscribe topic (asSubscriber agent)⟩
  | unsubscribe topic agent => exact ⟨follows.routes,follows.topics.unsubscribe topic (asSubscriber agent)⟩
  | unsubscribe_all agent => exact ⟨follows.routes,follows.topics.unsubscribe_all (asSubscriber agent)⟩
  | select_from_group candidates =>
    refine ⟨?_,follows.topics⟩
    show Shown (router.select_from_group candidates).2.routing_table contents.routes
    rw [select_tables]
    exact follows.routes

theorem run_follows (follows : Follows router contents) (ops : List Op) : Follows (ops.foldl Op.apply router) (ops.foldl Op.onContents contents) := by
  induction ops generalizing router contents with
  | nil => exact follows
  | cons op later ih => exact ih (apply_follows follows op)

theorem start_follows (strategy : BalancingStrategy) : Follows (.with_strategy strategy) .empty := ⟨.empty,.empty⟩

theorem resolve_preferred (follows : Follows router contents) {agent : AgentId} {e : RouteEntry} (found : router.resolve agent = some e) :
    Preferred contents.routes agent e := by
  obtain ⟨entries,there,least⟩ := Option.bind_eq_some_iff.mp found
  exact ⟨follows.routes.kept.own agent entries there e (List.argmin_mem least),best_route_minimal follows.routes found⟩

theorem resolve_routed (follows : Follows router contents) (agent : AgentId) : (router.resolve agent).isSome ↔ Routed contents.routes agent := by
  have none_iff := unrouted_iff follows.routes agent
  rw [Option.isSome_iff_ne_none,ne_eq,Router.resolve,none_iff,Routed]
  push Not
  rfl

/-- The routes to some agents, with the agents they lead to. -/
theorem multicast_targets (follows : Follows router contents) (targets : List AgentId) :
    (router.multicast targets).map RouteEntry.target_agent = targets.filter fun agent => (router.resolve agent).isSome := by
  show (targets.filterMap router.resolve).map RouteEntry.target_agent = _
  induction targets with
  | nil => rfl
  | cons agent later ih =>
    cases found : router.resolve agent with
    | none =>
      rw [List.filterMap_cons_none found,List.filter_cons_of_neg (by simp [found])]
      exact ih
    | some e =>
      rw [List.filterMap_cons_some found,List.filter_cons_of_pos (by simp [found]),List.map_cons,ih,(resolve_preferred follows found).1]

theorem multicast_preferred (follows : Follows router contents) {targets : List AgentId} {e : RouteEntry} (member : e ∈ router.multicast targets) :
    Preferred contents.routes e.target_agent e := by
  obtain ⟨agent,-,found⟩ := List.mem_filterMap.mp member
  have preferred := resolve_preferred follows found
  rwa [← preferred.1] at preferred

theorem mem_agents {agent : AgentId} (routed : (router.resolve agent).isSome) : agent ∈ agents router.routing_table := by
  rw [Router.resolve,best_route_isSome] at routed
  obtain ⟨entries,there,-⟩ := routed
  exact AList.mem_keys.mp (AList.lookup_isSome.mp (Option.isSome_iff_exists.mpr ⟨entries,there⟩))

theorem resolves_of_follows (follows : Follows router contents) : Resolves router contents := by
  have targets := multicast_targets follows (agents router.routing_table)
  have distinct : (agents router.routing_table).Nodup := router.routing_table.routes.nodupKeys
  exact {
    resolve := fun agent e found => resolve_preferred follows found
    routed := resolve_routed follows
    broadcast := fun e member => multicast_preferred follows member
    each_once := targets ▸ distinct.filter _
    everyone := fun agent => by
      show agent ∈ (router.multicast (agents router.routing_table)).map RouteEntry.target_agent ↔ _
      rw [targets,List.mem_filter,← resolve_routed follows]
      exact ⟨And.right,fun routed => ⟨mem_agents routed,routed⟩⟩
    topic := fun topic e member => multicast_preferred follows member
    in_order := fun topic => by
      rw [← follows.topics.same]
      exact multicast_targets follows _
    subscribed_once := follows.topics.distinct
    unsubscribed := follows.topics.unsubscribed_iff
    dropped := follows.topics.dropped_eq
    topics_for_agent := follows.topics.topics_for_agent_iff
    topic_count := follows.topics.topic_count_eq
    subscription_count := follows.topics.subscription_count_eq
  }

/-- After any calls the router resolves what the same calls make of a map of routes and a list of subscriptions: one preferred route for each
    agent, all agents once in a broadcast, and the subscribers of a topic that have a route, in the order of their subscriptions. -/
theorem router_run (strategy : BalancingStrategy) (ops : List Op) :
    Resolves (ops.foldl Op.apply (.with_strategy strategy)) (ops.foldl Op.onContents .empty) :=
  resolves_of_follows (run_follows (start_follows strategy) ops)

/-! ### Agents that are gone -/

def Op.registers (agent : AgentId) : Op → Bool
  | .register_route entry => decide (entry.target_agent = agent)
  | _ => false

def Op.subscribes (agent : AgentId) : Op → Bool
  | .subscribe _ other => decide (other = agent)
  | _ => false

theorem onMap_unrouted {agent : AgentId} {routes : RouteMap} (unrouted : ¬ Routed routes agent) {op : RouteTable.Op}
    (other : ∀ entry, op = .insert entry → entry.target_agent ≠ agent) : ¬ Routed (op.onMap routes) agent := by
  rintro ⟨channel_id,there⟩
  refine unrouted ⟨channel_id,?_⟩
  cases op with
  | insert entry =>
    rcases AList.mem_insert _ |>.mp there with same | old
    · exact absurd (Prod.mk.inj same).1.symm (other entry rfl)
    · exact old
  | remove_route gone channel => exact (AList.mem_erase.mp there).2
  | remove_agent gone =>
    have left : (Buckets.dropOwner gone routes).lookup (agent,channel_id) ≠ none := by
      rw [← Option.isSome_iff_ne_none,AList.lookup_isSome]
      exact there
    rw [Buckets.lookup_dropOwner] at left
    split_ifs at left with same
    · exact absurd rfl left
    · exact AList.lookup_isSome.mp (Option.isSome_iff_ne_none.mpr left)
  | evict_stale clock timeout =>
    have left := AList.lookup_isSome.mpr there
    rw [Op.onMap,Buckets.lookup_keep] at left
    exact AList.lookup_isSome.mp (by cases found : routes.lookup (agent,channel_id) <;> simp_all)

theorem onContents_unrouted {agent : AgentId} (unrouted : ¬ Routed contents.routes agent) {op : Op} (silent : op.registers agent = false) :
    ¬ Routed (op.onContents contents).routes agent := by
  cases op with
  | register_route entry =>
    refine onMap_unrouted unrouted fun other same => ?_
    cases same
    simpa [Op.registers] using silent
  | remove_route gone channel_id => exact onMap_unrouted unrouted nofun
  | evict_stale clock timeout => exact onMap_unrouted unrouted nofun
  | deregister_agent gone => exact onMap_unrouted unrouted nofun
  | subscribe => exact unrouted
  | unsubscribe => exact unrouted
  | unsubscribe_all => exact unrouted
  | select_from_group => exact unrouted

theorem onContents_unsubscribed {agent : AgentId} (unsubscribed : ∀ topic, (topic,asSubscriber agent) ∉ contents.subscribed) {op : Op}
    (silent : op.subscribes agent = false) (topic : Topic) : (topic,asSubscriber agent) ∉ (op.onContents contents).subscribed := by
  intro there
  refine unsubscribed topic ?_
  cases op with
  | subscribe new other =>
    simp only [Op.onContents] at there
    split_ifs at there
    · exact there
    · rcases List.mem_append.mp there with old | new
      · exact old
      · have same : asSubscriber agent = asSubscriber other := (Prod.mk.inj (List.mem_singleton.mp new)).2
        obtain rfl : agent = other := by
          cases agent
          cases other
          cases same
          rfl
        simp [Op.subscribes] at silent
  | deregister_agent => exact (List.mem_filter.mp there).1
  | unsubscribe => exact (List.mem_filter.mp there).1
  | unsubscribe_all => exact (List.mem_filter.mp there).1
  | register_route => exact there
  | remove_route => exact there
  | evict_stale => exact there
  | select_from_group => exact there

/-- What is selected from a group is what one of the group resolves to. -/
theorem select_resolved {candidates : List AgentId} {e : RouteEntry} (selected : (router.select_from_group candidates).1 = some e) :
    ∃ agent ∈ candidates, router.resolve agent = some e := by
  unfold GroupSelection.Router.select_from_group at selected
  split_ifs at selected
  have counted : (candidates[router.rr_counter.toNat % candidates.length]?).bind router.routing_table.best_route = some e →
      ∃ agent ∈ candidates, router.resolve agent = some e := by
    intro found
    obtain ⟨agent,there,routed⟩ := Option.bind_eq_some_iff.mp found
    exact ⟨agent,List.mem_of_getElem? there,routed⟩
  cases strategy : router.balancing_strategy <;> rw [strategy] at selected
  · exact counted selected
  · exact List.mem_filterMap.mp (List.argmin_mem selected)
  · exact List.mem_filterMap.mp (List.argmin_mem selected)
  · exact counted selected

/-- A deregistered agent gets nothing until it is registered again, neither by itself nor in a broadcast, a topic or a group; and it is in no
    topic, registered or not, until it subscribes again. -/
theorem deregistered_run (strategy : BalancingStrategy) (before after : List Op) (agent : AgentId) :
    let router := (before ++ .deregister_agent agent :: after).foldl Op.apply (.with_strategy strategy)
    ((∀ op ∈ after, op.registers agent = false) → router.resolve agent = none ∧ agent ∉ router.broadcast.map RouteEntry.target_agent ∧
      (∀ topic, agent ∉ (router.resolve_topic topic).map RouteEntry.target_agent) ∧
      ∀ candidates e, (router.select_from_group candidates).1 = some e → e.target_agent ≠ agent) ∧
    ((∀ op ∈ after, op.subscribes agent = false) → topics_for_agent router.topics (asSubscriber agent) = [] ∧
      ∀ topic, agent ∉ (router.resolve_topic topic).map RouteEntry.target_agent) := by
  intro router
  have follows : Follows router ((before ++ .deregister_agent agent :: after).foldl Op.onContents .empty) := run_follows (start_follows strategy) _
  have resolves := resolves_of_follows follows
  generalize reached : (before ++ .deregister_agent agent :: after).foldl Op.onContents .empty = contents at follows resolves
  rw [List.foldl_append,List.foldl_cons] at reached
  constructor
  · intro silent
    have unrouted : ¬ Routed contents.routes agent := by
      rw [← reached]
      refine (Runs.every_of_mem silent).invariant (I := fun contents : Contents => ¬ Routed contents.routes agent)
        (fun _ _ held quiet => onContents_unrouted held quiet) ?_
      rintro ⟨channel_id,there⟩
      have left := AList.lookup_isSome.mpr there
      simp [Op.onContents,Contents.onRoutes,RouteTable.Op.onMap,Buckets.lookup_dropOwner] at left
    have nothing : router.resolve agent = none := by
      rw [← Option.not_isSome_iff_eq_none,resolves.routed]
      exact unrouted
    refine ⟨nothing,fun there => unrouted ((resolves.everyone agent).mp there),fun topic there => ?_,fun candidates e selected same => ?_⟩
    · rw [resolves.in_order,List.mem_filter,nothing] at there
      exact absurd there.2 (by simp)
    · obtain ⟨other,-,found⟩ := select_resolved selected
      obtain rfl : other = agent := (resolves.resolve other e found).1.symm.trans same
      rw [nothing] at found
      cases found
  · intro silent
    have unsubscribed : ∀ topic, (topic,asSubscriber agent) ∉ contents.subscribed := by
      rw [← reached]
      refine (Runs.every_of_mem silent).invariant (I := fun contents : Contents => ∀ topic, (topic,asSubscriber agent) ∉ contents.subscribed)
        (fun _ _ held quiet topic => onContents_unsubscribed held quiet topic) fun topic there => ?_
      exact absurd (List.mem_filter.mp there).2 (by simp)
    refine ⟨List.eq_nil_iff_forall_not_mem.mpr fun topic there => unsubscribed topic ((resolves.topics_for_agent topic _).mp there),fun topic there => ?_⟩
    rw [resolves.in_order,List.mem_filter,List.mem_map] at there
    obtain ⟨⟨subscriber,member,same⟩,-⟩ := there
    obtain rfl : subscriber = asSubscriber agent := by
      rw [← same]
      rfl
    exact unsubscribed topic (mem_listed.mp member)

def nearKnown : List Op := [.register_route (.new near 1 0),.subscribe "llm.responses" near]

def farJoins : List Op := [.register_route (.new far 2 0),.subscribe "llm.responses" far]

theorem near_gone :
    let router := (nearKnown ++ .deregister_agent near :: farJoins).foldl Op.apply (.with_strategy .RoundRobin)
    router.resolve near = none ∧ topics_for_agent router.topics (asSubscriber near) = [] := by
  have gone := deregistered_run .RoundRobin nearKnown farJoins near
  exact ⟨(gone.1 (by decide)).1,(gone.2 (by decide)).1⟩

end

end Daf.MessageRouter
