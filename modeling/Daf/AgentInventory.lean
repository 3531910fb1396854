import Daf.DepthFirst
import Daf.Variables
import Daf.Wildcards

/-!
The inventory of agents: groups with members and children, the agents that a pattern selects, and the
variables of an agent. The order of the entries of a map is the order in which it is gone through.
-/
namespace Daf.AgentInventory
open Daf.Json Daf.Search Daf.DottedPaths Daf.Variables

inductive AgentKind where
  | Orchestrator | Specialist | Worker | Monitor | Router
deriving DecidableEq,Repr

structure AgentEntry where
  id : String
  name : String
  kind : AgentKind
  vars : Vars
  tags : List String

def AgentEntry.new (id name : String) (kind : AgentKind) : AgentEntry := ⟨id,name,kind,∅,[]⟩

def AgentEntry.has_tag (a : AgentEntry) (tag : String) : Bool := a.tags.contains tag

structure Group where
  name : String
  members : List String
  children : List String
  vars : Vars

structure Inventory where
  agents : AList fun _ : String => AgentEntry
  groups : AList fun _ : String => Group

/-- What is stored in a map, in its order. -/
def values {β : Type} (map : AList fun _ : String => β) : List β := map.entries.map fun entry => entry.2

/-- Enter all values of a map into another. -/
def extend (merged : Vars) (vars : Vars) : Vars := vars.entries.foldl (fun merged entry => merged.insert entry.1 entry.2) merged

namespace Inventory

def new : Inventory := ⟨∅,∅⟩

def add_agent (i : Inventory) (agent : AgentEntry) : Inventory := { i with agents := i.agents.insert agent.id agent }

def add_group (i : Inventory) (group : Group) : Inventory := { i with groups := i.groups.insert group.name group }

/-- The members of a group and of the groups below it, beside the names that have been visited; the depth of the calls is bounded. -/
def resolve_group_recursive (i : Inventory) : Nat → String → Finset String × Finset String → Finset String × Finset String
  | 0,_,s => s
  | depth+1,group_name,(result,visited) =>
    if group_name ∈ visited then (result,visited)
    else
      match i.groups.lookup group_name with
      | some group =>
        group.children.foldl (fun s child => i.resolve_group_recursive depth child s)
          (group.members.foldl (fun result member => insert member result) result,insert group_name visited)
      | none => (result,insert group_name visited)

/-- No chain of calls is longer than the groups are many, but for one that finds no group. -/
def resolve_group_members (i : Inventory) (group_name : String) : Finset String :=
  (i.resolve_group_recursive (i.groups.keys.length+1) group_name (∅,∅)).1

/-- The kinds under the names that a pattern has for them. -/
def kind_of (kind_str : List Char) : Option AgentKind :=
  if kind_str = "orchestrator".toList then some .Orchestrator
  else if kind_str = "specialist".toList then some .Specialist
  else if kind_str = "worker".toList then some .Worker
  else if kind_str = "monitor".toList then some .Monitor
  else if kind_str = "router".toList then some .Router
  else none

/-- Matching with stars, as a selection does it: by where the stars stand, with `pat` the pattern without them. -/
def accepts (pattern pat name : List Char) : Bool :=
  if pattern.head? = some '*' ∧ pattern.getLast? = some '*' then decide (pat <:+: name)
  else if pattern.head? = some '*' then decide (pat <:+ name)
  else if pattern.getLast? = some '*' then decide (pat <+: name)
  else decide (pat <:+: name)

def select (i : Inventory) (pattern : List Char) : List AgentEntry :=
  let pattern := trim pattern
  if pattern = "all".toList ∨ pattern = ['*'] then values i.agents
  else
    match pattern.dropPrefix? "group:".toList with
    | some group_name =>
      let members := i.resolve_group_members (String.ofList group_name)
      (values i.agents).filter fun a => a.id ∈ members
    | none =>
      match pattern.dropPrefix? "kind:".toList with
      | some kind_str =>
        match kind_of kind_str with
        | some kind => (values i.agents).filter fun a => a.kind = kind
        | none => []
      | none =>
        match pattern.dropPrefix? "tag:".toList with
        | some tag => (values i.agents).filter fun a => a.has_tag (String.ofList tag)
        | none =>
          if ',' ∈ pattern then
            let ids := (pattern.splitOn ',').map trim
            (values i.agents).filter fun a => a.id.toList ∈ ids
          else if '*' ∈ pattern then (values i.agents).filter fun a => accepts pattern (pattern.filter (· ≠ '*')) a.name.toList
          else (i.agents.lookup (String.ofList pattern)).toList

/-- The variables of the groups that an agent belongs to, one group after the other, and its own over them. -/
def agent_vars (i : Inventory) (agent_id : String) : Vars :=
  let merged := (values i.groups).foldl (fun merged group =>
    if agent_id ∈ i.resolve_group_members group.name then extend merged group.vars else merged) ∅
  match i.agents.lookup agent_id with
  | some agent => extend merged agent.vars
  | none => merged

end Inventory

/-! ### Matching of names in playbooks -/

/-- The text behind a part that it must begin with. -/
def strip_start (first remaining : List Char) : Option (List Char) :=
  if first = [] then some remaining else if first <+: remaining then some (remaining.drop first.length) else none

/-- The text before a part that it must end with. -/
def strip_end (last remaining : List Char) : Option (List Char) :=
  if last = [] then some remaining else if last <:+ remaining then some (remaining.take (remaining.length - last.length)) else none

/-- Each part is looked for behind the one before it. -/
def find_each : List (List Char) → List Char → Bool
  | [],_ => true
  | part :: parts,remaining =>
    if part = [] then find_each parts remaining
    else
      match remaining.dropInfix? part with
      | some (_,remaining) => find_each parts remaining
      | none => false

def glob_match (pattern text : List Char) : Bool :=
  if pattern = ['*'] then true
  else
    let parts := pattern.splitOn '*'
    if parts.length = 1 then decide (pattern = text)
    else
      match (strip_start (parts.headD []) text).bind (strip_end (parts.getLastD [])) with
      | some remaining => find_each parts.tail.dropLast remaining
      | none => false

inductive AgentSelector where
  | All
  | Group (name : String)
  | Pattern (pat : String)
  | Agent (name : String)
  | And (selectors : List AgentSelector)
  | Or (selectors : List AgentSelector)
  | ByKind (kind : AgentKind)
  | Exclude (included excluded : AgentSelector)

mutual

def AgentSelector.matches (agent_name : String) (groups : List String) : AgentSelector → Bool
  | .All => true
  | .Group g => groups.contains g
  | .Pattern pat => glob_match pat.toList agent_name.toList
  | .Agent name => name = agent_name
  -- kinds are not known here
  | .ByKind _ => false
  | .And selectors => AgentSelector.matchesAll agent_name groups selectors
  | .Or selectors => AgentSelector.matchesAny agent_name groups selectors
  | .Exclude included excluded => AgentSelector.matches agent_name groups included && !AgentSelector.matches agent_name groups excluded

def AgentSelector.matchesAll (agent_name : String) (groups : List String) : List AgentSelector → Bool
  | [] => true
  | s :: later => AgentSelector.matches agent_name groups s && AgentSelector.matchesAll agent_name groups later

def AgentSelector.matchesAny (agent_name : String) (groups : List String) : List AgentSelector → Bool
  | [] => false
  | s :: later => AgentSelector.matches agent_name groups s || AgentSelector.matchesAny agent_name groups later

end

end Daf.AgentInventory
