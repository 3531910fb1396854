import Daf.AgentInventory

/-!
Members of groups and variables of agents. Groups may be nested, overlap and contain each other. The
variables depend on the order of the groups where two groups of an agent have the same one.
-/
namespace Daf.GroupVars
open Daf.Json Daf.DottedPaths Daf.Variables Daf.AgentInventory Daf.DepthFirst

/-! ### Members -/

def children (i : Inventory) (group_name : String) : List String := (i.groups.lookup group_name).elim [] Group.children

def add_members (i : Inventory) (group_name : String) (result : Finset String) : Finset String :=
  (i.groups.lookup group_name).elim result fun group => group.members.foldl (fun result member => insert member result) result

section
variable {i : Inventory}

/-- Resolving a group is a walk through the groups below it. -/
theorem resolve_visit (depth : Nat) (group_name : String) (s : Finset String × Finset String) :
    i.resolve_group_recursive depth group_name s = visit (children i) (add_members i) depth group_name s := by
  induction depth generalizing group_name s with
  | zero => rfl
  | succ depth ih =>
    obtain ⟨result,visited⟩ := s
    rw [Inventory.resolve_group_recursive,visit]
    refine if_congr Iff.rfl rfl ?_
    cases found : i.groups.lookup group_name with
    | none => simp [children,add_members,found]
    | some group => simp only [children,add_members,found,Option.elim_some,ih]

theorem children_bounded (group_name : String) (edges : children i group_name ≠ []) : group_name ∈ i.groups.keys.toFinset := by
  rw [List.mem_toFinset]
  refine AList.lookup_isSome.mp ?_
  cases found : i.groups.lookup group_name with
  | none => simp [children,found] at edges
  | some group => rfl

theorem depth_enough (i : Inventory) : i.groups.keys.toFinset.card < i.groups.keys.length+1 := Nat.lt_succ_of_le (List.toFinset_card_le _)

theorem mem_insert_all (members : List String) (result : Finset String) (m : String) :
    m ∈ members.foldl (fun result member => insert member result) result ↔ m ∈ members ∨ m ∈ result := by
  induction members generalizing result with
  | nil => simp
  | cons member members ih =>
    rw [List.foldl_cons,ih,Finset.mem_insert,List.mem_cons]
    tauto

/-- The members found are those of the groups visited. -/
def Collected (i : Inventory) (result visited : Finset String) : Prop :=
  ∀ m, m ∈ result ↔ ∃ group_name ∈ visited, ∃ group, i.groups.lookup group_name = some group ∧ m ∈ group.members

theorem collected_enter (group_name : String) (result visited : Finset String) (collected : Collected i result visited) :
    Collected i (add_members i group_name result) (insert group_name visited) := by
  intro m
  rw [Finset.exists_mem_insert,← collected m,add_members]
  cases i.groups.lookup group_name with
  | none => simp
  | some group => simp [mem_insert_all]

/-- The members of a group are those of all groups that are reached from it through children. -/
theorem mem_resolve (i : Inventory) (group_name m : String) :
    m ∈ i.resolve_group_members group_name ↔
      ∃ reached group, Reach (children i) group_name reached ∧ i.groups.lookup reached = some group ∧ m ∈ group.members := by
  have nothing : Collected i ∅ ∅ := fun m => by simp
  have collected : Collected i (visit (children i) (add_members i) (i.groups.keys.length+1) group_name (∅,∅)).1 _ :=
    visit_keeps (fun a found seen _ => collected_enter a found seen) _ group_name (∅,∅) nothing
  rw [Inventory.resolve_group_members,resolve_visit,collected m]
  simp only [visit_reach children_bounded (depth_enough i)]
  constructor
  · rintro ⟨reached,path,group,found,member⟩
    exact ⟨reached,group,path,found,member⟩
  · rintro ⟨reached,group,path,found,member⟩
    exact ⟨reached,path,group,found,member⟩

/-! ### Variables -/

/-- The variables of the groups of an agent, in the order of the groups. -/
def group_vars (i : Inventory) (agent_id : String) : List Vars :=
  ((values i.groups).filter fun group => agent_id ∈ i.resolve_group_members group.name).map Group.vars

def own_var (i : Inventory) (agent_id key : String) : Option Value := (i.agents.lookup agent_id).bind fun agent => agent.vars.lookup key

/-- The own value of an agent, or the one of the last of its groups with the variable. -/
theorem agent_vars_lookup (i : Inventory) (agent_id key : String) :
    (i.agent_vars agent_id).lookup key = (own_var i agent_id key).or ((group_vars i agent_id).reverse.findSome? fun vars => vars.lookup key) := by
  have groups : (values i.groups).foldl (fun merged group =>
      if agent_id ∈ i.resolve_group_members group.name then extend merged group.vars else merged) ∅ = (group_vars i agent_id).foldl extend ∅ := by
    rw [group_vars,List.foldl_map,List.foldl_filter]
    simp
  have from_groups : ((group_vars i agent_id).foldl extend ∅).lookup key =
      ((group_vars i agent_id).reverse.findSome? fun vars : Vars => vars.lookup key).or ((∅ : Vars).lookup key) :=
    lookup_maps (group_vars i agent_id) ∅ key
  rw [AList.lookup_empty,Option.or_none] at from_groups
  rw [Inventory.agent_vars,own_var]
  simp only [groups]
  cases i.agents.lookup agent_id with
  | none => rw [from_groups,Option.bind_none,Option.none_or]
  | some agent =>
    simp only [Option.bind_some]
    rw [extend,lookup_entries _ agent.vars.nodupKeys,from_groups]
    rfl

/-! ### Orders of the groups -/

/-- The same inventory, with its groups in another order. -/
structure Reordered (i other : Inventory) : Prop where
  agents : other.agents = i.agents
  groups : other.groups.entries.Perm i.groups.entries

/-- Groups of the agent that have the same variable, which it has not itself, have the same value for it. -/
def Agree (i : Inventory) (agent_id : String) : Prop :=
  ∀ key, own_var i agent_id key = none → ∀ vars ∈ group_vars i agent_id, ∀ vars' ∈ group_vars i agent_id,
    ∀ value value', vars.lookup key = some value → vars'.lookup key = some value' → value = value'

/-- Where all values that can be found are the same, the order does not count. -/
theorem findSome_perm {α β : Type} {f : α → Option β} {left right : List α} (perm : left.Perm right)
    (agree : ∀ a ∈ left, ∀ b ∈ left, ∀ v w, f a = some v → f b = some w → v = w) : left.findSome? f = right.findSome? f := by
  refine Option.ext fun v => ⟨fun found => ?_,fun found => ?_⟩
  · obtain ⟨a,member,here⟩ := List.exists_of_findSome?_eq_some found
    cases other : right.findSome? f with
    | none => exact nomatch (List.findSome?_eq_none_iff.mp other a (perm.mem_iff.mp member)).symm.trans here
    | some w =>
      obtain ⟨b,member',there⟩ := List.exists_of_findSome?_eq_some other
      rw [agree a member b (perm.mem_iff.mpr member') v w here there]
  · obtain ⟨b,member,there⟩ := List.exists_of_findSome?_eq_some found
    cases other : left.findSome? f with
    | none => exact nomatch (List.findSome?_eq_none_iff.mp other b (perm.mem_iff.mpr member)).symm.trans there
    | some w =>
      obtain ⟨a,member',here⟩ := List.exists_of_findSome?_eq_some other
      rw [agree a member' b (perm.mem_iff.mpr member) w v here there]

variable {other : Inventory} {agent_id : String}

/-- Members do not depend on the order of the groups. -/
theorem Reordered.members (reordered : Reordered i other) (group_name : String) :
    other.resolve_group_members group_name = i.resolve_group_members group_name := by
  have same (name : String) : other.groups.lookup name = i.groups.lookup name := AList.perm_lookup reordered.groups
  have below : children other = children i := funext fun name => by rw [children,children,same]
  ext m
  simp only [mem_resolve,below,same]

theorem Reordered.group_vars (reordered : Reordered i other) (agent_id : String) : (group_vars other agent_id).Perm (group_vars i agent_id) := by
  simp only [GroupVars.group_vars,reordered.members]
  exact ((reordered.groups.map _).filter _).map _

theorem Reordered.own_var (reordered : Reordered i other) (agent_id key : String) : own_var other agent_id key = own_var i agent_id key := by
  rw [GroupVars.own_var,GroupVars.own_var,reordered.agents]

theorem agree_independent (agree : Agree i agent_id) (reordered : Reordered i other) (key : String) :
    (other.agent_vars agent_id).lookup key = (i.agent_vars agent_id).lookup key := by
  rw [agent_vars_lookup,agent_vars_lookup,reordered.own_var]
  cases own : own_var i agent_id key with
  | some value => rfl
  | none =>
    rw [Option.none_or,Option.none_or]
    have perm : (group_vars i agent_id).reverse.Perm (group_vars other agent_id).reverse :=
      (List.reverse_perm _).trans ((reordered.group_vars agent_id).symm.trans (List.reverse_perm _).symm)
    refine (findSome_perm perm ?_).symm
    intro vars here vars' there value value' found found'
    exact agree key own vars (List.mem_reverse.mp here) vars' (List.mem_reverse.mp there) value value' found found'

/-- Some order has the group last, and then its value counts. -/
theorem last_wins {vars : Vars} {key : String} {value : Value} (own : own_var i agent_id key = none) (member : vars ∈ group_vars i agent_id)
    (found : vars.lookup key = some value) : ∃ other, Reordered i other ∧ (other.agent_vars agent_id).lookup key = some value := by
  obtain ⟨group,inside,rfl⟩ := List.mem_map.mp member
  obtain ⟨there,belongs⟩ := List.mem_filter.mp inside
  obtain ⟨entry,stored,rfl⟩ := List.mem_map.mp there
  obtain ⟨before,after,split⟩ := List.append_of_mem stored
  have perm : (before ++ after ++ [entry]).Perm i.groups.entries := by
    rw [split]
    exact (List.perm_append_singleton entry (before ++ after)).trans List.perm_middle.symm
  have reordered : Reordered i ⟨i.agents,⟨before ++ after ++ [entry],(List.perm_nodupKeys perm).mpr i.groups.nodupKeys⟩⟩ := ⟨rfl,perm⟩
  refine ⟨_,reordered,?_⟩
  have here : decide (agent_id ∈ i.resolve_group_members entry.2.name) = true := belongs
  rw [agent_vars_lookup,reordered.own_var,own,Option.none_or,GroupVars.group_vars]
  simp only [reordered.members,values,List.map_append,List.map_cons,List.map_nil,List.filter_append,List.filter_cons,here,if_true,List.reverse_append]
  exact (List.findSome?_cons_of_isSome (by rw [found]; rfl)).trans found

end

/-- The variables of an agent are the same for every order of the groups exactly where its groups agree on the variables it has not itself;
its own variables count first; and members are those of all groups that are reached, found within a bounded depth of calls. -/
theorem agent_vars_order (i : Inventory) (agent_id : String) :
    ((∀ other, Reordered i other → ∀ key, (other.agent_vars agent_id).lookup key = (i.agent_vars agent_id).lookup key) ↔ Agree i agent_id) ∧
    (∀ agent key value, i.agents.lookup agent_id = some agent → agent.vars.lookup key = some value →
      (i.agent_vars agent_id).lookup key = some value) ∧
    ∀ group_name, (∀ m, m ∈ i.resolve_group_members group_name ↔
        ∃ reached group, Reach (children i) group_name reached ∧ i.groups.lookup reached = some group ∧ m ∈ group.members) ∧
      ∀ more, i.resolve_group_recursive (i.groups.keys.length+1+more) group_name (∅,∅) =
        i.resolve_group_recursive (i.groups.keys.length+1) group_name (∅,∅) := by
  refine ⟨⟨fun same => ?_,fun agree other reordered => agree_independent agree reordered⟩,fun agent key value stored found => ?_,
    fun group_name => ⟨mem_resolve i group_name,fun more => ?_⟩⟩
  · intro key own vars here vars' there value value' found found'
    obtain ⟨other,reordered,last⟩ := last_wins own here found
    obtain ⟨other',reordered',last'⟩ := last_wins own there found'
    exact Option.some.inj (last.symm.trans ((same other reordered key).trans ((same other' reordered' key).symm.trans last')))
  · rw [agent_vars_lookup,own_var,stored,Option.bind_some,found]
    rfl
  · rw [resolve_visit,resolve_visit,visit_more children_bounded (depth_enough i)]

/-- An agent with a variable of its own. -/
def owner : Inventory := Inventory.new.add_agent { AgentEntry.new "a" "a" .Worker with vars := AList.insert "k" (.bool true) ∅ }

theorem agent_vars_order_own : (owner.agent_vars "a").lookup "k" = some (.bool true) :=
  (agent_vars_order owner "a").2.1 { AgentEntry.new "a" "a" .Worker with vars := AList.insert "k" (.bool true) ∅ } "k" (.bool true)
    (AList.lookup_insert _) (AList.lookup_insert _)

/-- Two groups of one agent, with the same variable. -/
def shared : Inventory := (Inventory.new.add_group ⟨"g",["a"],[],AList.insert "k" (.bool true) ∅⟩).add_group ⟨"h",["a"],[],AList.insert "k" (.bool false) ∅⟩

theorem shared_vars : AList.insert "k" (.bool true) ∅ ∈ group_vars shared "a" ∧ AList.insert "k" (.bool false) ∅ ∈ group_vars shared "a" := by
  have first : "a" ∈ shared.resolve_group_members "g" := (mem_resolve _ _ _).mpr ⟨"g",_,.refl,rfl,List.mem_cons_self⟩
  have second : "a" ∈ shared.resolve_group_members "h" := (mem_resolve _ _ _).mpr ⟨"h",_,.refl,rfl,List.mem_cons_self⟩
  have both : values shared.groups = [⟨"h",["a"],[],AList.insert "k" (.bool false) ∅⟩,⟨"g",["a"],[],AList.insert "k" (.bool true) ∅⟩] := rfl
  rw [group_vars,both]
  simp [first,second]

theorem order_of_groups_counts : ¬ ∀ (i other : Inventory) (agent_id : String), Reordered i other →
    ∀ key, (other.agent_vars agent_id).lookup key = (i.agent_vars agent_id).lookup key := by
  intro claim
  have own : own_var shared "a" "k" = none := rfl
  obtain ⟨other,reordered,last⟩ := last_wins own shared_vars.1 (AList.lookup_insert _)
  obtain ⟨other',reordered',last'⟩ := last_wins own shared_vars.2 (AList.lookup_insert _)
  have same := last.symm.trans ((claim shared other "a" reordered "k").trans ((claim shared other' "a" reordered' "k").symm.trans last'))
  exact absurd same (by simp)

end Daf.GroupVars
