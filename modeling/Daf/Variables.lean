import Mathlib.Data.List.AList
import Mathlib.Data.List.Sort
import Daf.DottedPaths

/-!
Layers of variables: a name is looked up in the layer of the highest scope that has it, of layers of one
scope in the one pushed last.
-/
namespace Daf.Variables
open Daf.Json Daf.DottedPaths

inductive VarScope where
  | Global
  | RoleDefault
  | Role
  | Play
  | Agent
  | Task
deriving DecidableEq,Repr

/-- The place of a scope in the order of precedence. -/
def VarScope.rank : VarScope → Nat
  | .Global => 0
  | .RoleDefault => 1
  | .Role => 2
  | .Play => 3
  | .Agent => 4
  | .Task => 5

/-- The text under which `set` makes a layer. -/
def VarScope.label : VarScope → String
  | .Global => "Global"
  | .RoleDefault => "RoleDefault"
  | .Role => "Role"
  | .Play => "Play"
  | .Agent => "Agent"
  | .Task => "Task"

structure VarLayer where
  scope : VarScope
  label : String
  values : Vars

/-- The layers, from the lowest precedence to the highest. -/
structure VarManager where
  layers : List VarLayer

namespace VarManager

def new : VarManager := ⟨[]⟩

def push_layer (m : VarManager) (scope : VarScope) (label : String) (values : Vars) : VarManager :=
  ⟨(m.layers ++ [VarLayer.mk scope label values]).mergeSort fun a b => a.scope.rank ≤ b.scope.rank⟩

def pop_scope (m : VarManager) (scope : VarScope) : VarManager := ⟨m.layers.filter (·.scope ≠ scope)⟩

/-- The last layer of the scope with the variable in it, if there is a layer of that scope. -/
def setLast (scope : VarScope) (key : String) (value : Value) : List VarLayer → Option (List VarLayer)
  | [] => none
  | layer :: later =>
    match setLast scope key value later with
    | some later => some (layer :: later)
    | none => if layer.scope = scope then some ({ layer with values := layer.values.insert key value } :: later) else none

def set (m : VarManager) (scope : VarScope) (key : String) (value : Value) : VarManager :=
  match setLast scope key value m.layers with
  | some layers => ⟨layers⟩
  | none => m.push_layer scope scope.label (AList.insert key value ∅)

def get (m : VarManager) (key : String) : Option Value := m.layers.reverse.findSome? fun layer => layer.values.lookup key

/-- All layers in one, the higher ones over the lower ones. -/
def merged (m : VarManager) : Vars :=
  m.layers.foldl (fun result layer => layer.values.entries.foldl (fun result entry => result.insert entry.1 entry.2) result) ∅

def register_result (m : VarManager) (name : String) (output : Value) : VarManager := m.set .Task name output

end VarManager

/-- What the entries of a layer leave of what was there. -/
theorem lookup_entries (entries : List (Sigma fun _ : String => Value)) (distinct : entries.NodupKeys) (result : Vars) (key : String) :
    (entries.foldl (fun result entry => result.insert entry.1 entry.2) result).lookup key = (entries.dlookup key).or (result.lookup key) := by
  induction entries generalizing result with
  | nil => rfl
  | cons entry later ih =>
    obtain ⟨fresh,distinct⟩ := List.nodupKeys_cons.mp distinct
    rw [List.foldl_cons,ih distinct]
    by_cases same : key = entry.1
    · obtain ⟨name,value⟩ := entry
      obtain rfl : key = name := same
      rw [List.dlookup_eq_none.mpr fresh,AList.lookup_insert,List.dlookup_cons_eq]
      rfl
    · rw [List.dlookup_cons_ne _ _ same,AList.lookup_insert_ne same]

/-- Of maps that are entered one after the other the last one with the key counts. -/
theorem lookup_maps (maps : List Vars) (result : Vars) (key : String) :
    (maps.foldl (fun result values => values.entries.foldl (fun result entry => result.insert entry.1 entry.2) result) result).lookup key =
      (maps.reverse.findSome? fun values => values.lookup key).or (result.lookup key) := by
  induction maps generalizing result with
  | nil => rfl
  | cons values later ih =>
    rw [List.foldl_cons,ih,lookup_entries _ values.nodupKeys,List.reverse_cons,List.findSome?_append,Option.or_assoc]
    simp [AList.lookup]

theorem lookup_layers (layers : List VarLayer) (result : Vars) (key : String) :
    (layers.foldl (fun result layer => layer.values.entries.foldl (fun result entry => result.insert entry.1 entry.2) result) result).lookup key =
      (layers.reverse.findSome? fun layer => layer.values.lookup key).or (result.lookup key) := by
  have maps := lookup_maps (layers.map VarLayer.values) result key
  rwa [List.foldl_map,← List.map_reverse,List.findSome?_map] at maps

/-- A name is found in the merged variables as it is in the layers. -/
theorem get_merged (m : VarManager) (key : String) : m.get key = m.merged.lookup key := by
  rw [VarManager.merged,lookup_layers]
  simp [VarManager.get]

end Daf.Variables
