import Daf.DepthFirstOrder
import Mathlib.Data.List.AList

/-!
The order in which roles are applied: every role behind those that it depends on.
-/
namespace Daf.RoleOrder
open Daf.Cycles Daf.DepthFirstOrder

structure RoleDependency where
  role_name : String
deriving DecidableEq,Repr

structure Role where
  name : String
  dependencies : List RoleDependency
deriving DecidableEq,Repr

inductive RoleError where
  | NotFound (name : String)
  | Io (message : String)
  | Parse (message : String)
  | CyclicDependency (name : String)
deriving DecidableEq,Repr

abbrev RoleMap := AList (fun _ : String => Role)

/-- The roles by name; a later one of the same name replaces an earlier one. -/
def role_map (roles : List Role) : RoleMap := roles.foldl (fun map role => map.insert role.name role) ∅

/-- The names that a role depends on, none for a name that is not in the list. -/
def dependencies (map : RoleMap) (name : String) : List String :=
  match map.lookup name with
  | some role => role.dependencies.map RoleDependency.role_name
  | none => []

/-- A role behind all that it depends on; the depth of the calls is bounded. -/
def visit_role (map : RoleMap) : Nat → String → Walk String → Option (Except String (Walk String)) := visit (dependencies map)

/-- The names of the roles in order, `none` when the depth of the calls is not enough. -/
def resolve_dependency_order (depth : Nat) (roles : List Role) : Option (Except RoleError (List String)) :=
  match each (fun name w => if name ∉ w.visited then visit_role (role_map roles) depth name w else some (.ok w)) (roles.map Role.name) ⟨∅,∅,[]⟩ with
  | some (.ok w) => some (.ok w.order)
  | some (.error name) => some (.error (.CyclicDependency name))
  | none => none

/-- The first role depends on the second, as the list says. -/
def DependsOn (roles : List Role) (a b : String) : Prop := ∃ role ∈ roles, role.name = a ∧ ∃ dependency ∈ role.dependencies, dependency.role_name = b

section
variable {roles : List Role}

theorem lookup_role_map (distinct : (roles.map Role.name).Nodup) (map : RoleMap) (name : String) :
    (roles.foldl (fun map role => map.insert role.name role) map).lookup name = (roles.find? fun role => role.name = name).or (map.lookup name) := by
  induction roles generalizing map with
  | nil => rfl
  | cons first rest ih =>
    obtain ⟨fresh,others⟩ := List.nodup_cons.mp distinct
    rw [List.foldl_cons,ih others]
    by_cases own : first.name = name
    · have absent : rest.find? (fun role => role.name = name) = none := by
        refine List.find?_eq_none.mpr fun role member same => fresh ?_
        rw [own,← of_decide_eq_true same]
        exact List.mem_map_of_mem member
      rw [absent,List.find?_cons_of_pos (by simpa using own),← own,AList.lookup_insert]
      rfl
    · rw [List.find?_cons_of_neg (by simpa using own),AList.lookup_insert_ne (Ne.symm own)]

theorem edge_iff (distinct : (roles.map Role.name).Nodup) (a b : String) : Edge (dependencies (role_map roles)) a b ↔ DependsOn roles a b := by
  have found : (role_map roles).lookup a = roles.find? fun role => role.name = a := by
    rw [role_map,lookup_role_map distinct]
    exact Option.or_none
  rw [Edge,dependencies,found]
  constructor
  · cases there : roles.find? fun role => role.name = a with
    | none => exact fun edge => by cases edge
    | some role =>
      intro edge
      obtain ⟨dependency,member,named⟩ := List.mem_map.mp edge
      have named_a : role.name = a := by simpa using List.find?_some there
      exact ⟨role,List.mem_of_find?_eq_some there,named_a,dependency,member,named⟩
  · rintro ⟨role,member,rfl,dependency,listed,rfl⟩
    have there : roles.find? (fun other => other.name = role.name) = some role := by
      cases first : roles.find? (fun other => other.name = role.name) with
      | none => exact absurd (by simp) (List.find?_eq_none.mp first role member)
      | some other =>
        have named : other.name = role.name := by simpa using List.find?_some first
        rw [List.inj_on_of_nodup_map distinct (List.mem_of_find?_eq_some first) member named]
    rw [there]
    exact List.mem_map_of_mem listed

/-- The roles, or the cyclic dependency, of the sort of their names. -/
theorem resolve_eq (depth : Nat) (roles : List Role) : resolve_dependency_order depth roles =
    (sort (dependencies (role_map roles)) depth (roles.map Role.name)).map fun result => result.mapError .CyclicDependency := by
  unfold resolve_dependency_order sort visit_role
  split
  · next same => rw [same]; rfl
  · next same => rw [same]; rfl
  · next same => rw [same]; rfl

/-- What the order of the roles is to be. -/
structure Ordered (roles : List Role) (order : List String) : Prop where
  distinct : order.Nodup
  names : ∀ name, name ∈ order ↔ name ∈ roles.map Role.name ∨ ∃ a ∈ roles.map Role.name, DependsOn roles a name
  behind : ∀ before name after, order = before ++ name :: after → ∀ dependency, DependsOn roles name dependency → dependency ∈ before

/-- With a depth of more than the number of roles, the call returns: an error exactly if the dependencies have a
cycle, and otherwise the names in order. -/
theorem role_order (roles : List Role) (distinct : (roles.map Role.name).Nodup) (depth : Nat) (enough : roles.length < depth) :
    ((∃ name, resolve_dependency_order depth roles = some (.error (.CyclicDependency name))) ↔ ¬ Acyclic (DependsOn roles)) ∧
    (Acyclic (DependsOn roles) → ∃ order, resolve_dependency_order depth roles = some (.ok order) ∧ Ordered roles order) := by
  have edges : Edge (dependencies (role_map roles)) = DependsOn roles := by
    funext a b
    exact propext (edge_iff distinct a b)
  have keyed : ∀ a, dependencies (role_map roles) a ≠ [] → a ∈ roles.map Role.name := by
    intro a some_
    obtain ⟨b,edge⟩ := List.exists_mem_of_ne_nil _ some_
    obtain ⟨role,member,rfl,-⟩ := (edge_iff distinct a b).mp edge
    exact List.mem_map_of_mem member
  have few : (roles.map Role.name).toFinset.card < depth := by
    have bound := List.toFinset_card_le (roles.map Role.name)
    rw [List.length_map] at bound
    omega
  have result := sort_spec (fun a some_ => List.mem_toFinset.mpr (keyed a some_)) few (roles.map Role.name)
  rw [edges] at result
  rw [resolve_eq]
  rcases result with ⟨a,failed,cycle⟩ | ⟨order,sorted_ok,once,sorted,names⟩
  · refine ⟨⟨fun _ acyclic => acyclic a cycle,fun _ => ⟨a,by rw [failed]; rfl⟩⟩,fun acyclic => absurd cycle (acyclic a)⟩
  · have acyclic : Acyclic (DependsOn roles) := by
      rw [← edges]
      exact acyclic_of_sorted sorted fun a some_ => (names a).mpr ⟨a,keyed a some_,.refl⟩
    refine ⟨⟨fun ⟨name,failed⟩ => ?_,fun cyclic => absurd acyclic cyclic⟩,fun _ => ⟨order,by rw [sorted_ok]; rfl,once,fun name => ?_,?_⟩⟩
    · rw [sorted_ok] at failed
      cases failed
    · rw [names]
      constructor
      · rintro ⟨a,root,path⟩
        rcases Relation.ReflTransGen.cases_tail path with same | ⟨b,-,edge⟩
        · exact .inl (same ▸ root)
        · have depends := edge
          obtain ⟨role,member,rfl,-⟩ := edge
          exact .inr ⟨_,List.mem_map_of_mem member,depends⟩
      · rintro (root | ⟨a,root,edge⟩)
        · exact ⟨name,root,.refl⟩
        · exact ⟨a,root,.single edge⟩
    · intro before name after split dependency depends
      exact sorted before name after split dependency ((edge_iff distinct name dependency).mpr depends)

end

/-- Two roles, of which the first depends on the second and on a name that is not in the list. -/
theorem two_roles : ((∃ name, resolve_dependency_order 3 [⟨"a",[⟨"b"⟩,⟨"c"⟩]⟩,⟨"b",[]⟩] = some (.error (.CyclicDependency name))) ↔
      ¬ Acyclic (DependsOn [⟨"a",[⟨"b"⟩,⟨"c"⟩]⟩,⟨"b",[]⟩])) ∧
    (Acyclic (DependsOn [⟨"a",[⟨"b"⟩,⟨"c"⟩]⟩,⟨"b",[]⟩]) →
      ∃ order, resolve_dependency_order 3 [⟨"a",[⟨"b"⟩,⟨"c"⟩]⟩,⟨"b",[]⟩] = some (.ok order) ∧ Ordered [⟨"a",[⟨"b"⟩,⟨"c"⟩]⟩,⟨"b",[]⟩] order) :=
  role_order _ (by decide) 3 (by decide)

end Daf.RoleOrder
