import Daf.VersionOrder
import Mathlib.Data.List.AList
import Mathlib.Data.List.Sort

/-!
The capabilities of an agent, by their names, with one version each up to its build metadata: sets of them, their
operations, and the best match for a requirement.
-/
namespace Daf.CapabilitySets
open Daf.Json Daf.Versions

structure Capability where
  name : String
  version : SemVer
  description : String
  parameters : Value
deriving DecidableEq

def Capability.new (name : String) (version : SemVer) (description : String) : Capability := ⟨name,version,description,.null⟩

structure CapabilityRequirement where
  name : String
  version_constraint : VersionConstraint
  required : Bool
deriving DecidableEq,Repr

def CapabilityRequirement.satisfied (req : CapabilityRequirement) (c : Capability) : Bool := req.version_constraint.satisfies c.version

structure CapabilitySet where
  capabilities : AList fun _ : String => List Capability

namespace CapabilitySet

def new : CapabilitySet := ⟨∅⟩

def get (s : CapabilitySet) (name : String) : List Capability := (s.capabilities.lookup name).getD []

def contains (s : CapabilitySet) (name : String) : Bool := (s.capabilities.lookup name).isSome

end CapabilitySet

/-- Replace the one of the same version, or push. -/
def placed (cap : Capability) : List Capability → List Capability
  | [] => [cap]
  | c :: rest => if c.version.eq cap.version then cap :: rest else c :: placed cap rest

namespace CapabilitySet

def insert (s : CapabilitySet) (cap : Capability) : CapabilitySet := ⟨s.capabilities.insert cap.name (placed cap (s.get cap.name))⟩

/-- The set without all versions of a capability, and what was removed. -/
def remove (s : CapabilitySet) (name : String) : List Capability × CapabilitySet := (s.get name,⟨s.capabilities.erase name⟩)

def from_capabilities (caps : List Capability) : CapabilitySet := caps.foldl insert new

/-- The names in the order in which the map is iterated. -/
def names (order : String → Nat) (s : CapabilitySet) : List String := s.capabilities.keys.insertionSort fun a b => order a ≤ order b

def iter (order : String → Nat) (s : CapabilitySet) : List Capability := (s.names order).flatMap s.get

def intersection (order : String → Nat) (s other : CapabilitySet) : CapabilitySet :=
  (s.names order).foldl (fun result name => if other.contains name then (s.get name).foldl insert result else result) new

def union (order : String → Nat) (s other : CapabilitySet) : CapabilitySet := (s.iter order).foldl insert other

def difference (order : String → Nat) (s other : CapabilitySet) : CapabilitySet :=
  (s.names order).foldl (fun result name => if !other.contains name then (s.get name).foldl insert result else result) new

end CapabilitySet

/-- The last of the greatest. -/
def max_by {α : Type} (cmp : α → α → Ordering) (items : List α) : Option α :=
  items.foldl (fun best item => match best with | none => some item | some b => if cmp b item = .gt then some b else some item) none

def CapabilitySet.find_match (s : CapabilitySet) (req : CapabilityRequirement) : Option Capability :=
  match s.capabilities.lookup req.name with
  | none => none
  | some caps => max_by (fun a b => a.version.cmp b.version) (caps.filter req.satisfied)

/-! ### Versions up to build metadata -/

theorem eq_iff {v w : SemVer} : v.eq w = true ↔ v.major = w.major ∧ v.minor = w.minor ∧ v.patch = w.patch ∧ v.pre_release = w.pre_release := by
  simp [SemVer.eq,and_assoc]

theorem eq_symm {v w : SemVer} (same : v.eq w = true) : w.eq v = true := by
  obtain ⟨major,minor,patch,pre⟩ := Iff.mp eq_iff same
  exact Iff.mpr eq_iff ⟨major.symm,minor.symm,patch.symm,pre.symm⟩

theorem eq_trans {u v w : SemVer} (first : u.eq v = true) (second : v.eq w = true) : u.eq w = true := by
  obtain ⟨major,minor,patch,pre⟩ := Iff.mp eq_iff first
  obtain ⟨major',minor',patch',pre'⟩ := Iff.mp eq_iff second
  exact Iff.mpr eq_iff ⟨major.trans major',minor.trans minor',patch.trans patch',pre.trans pre'⟩

theorem eq_refl (v : SemVer) : v.eq v = true := Iff.mpr eq_iff ⟨rfl,rfl,rfl,rfl⟩

/-- A constraint does not look at build metadata. -/
theorem satisfies_eq {v w : SemVer} (same : v.eq w = true) (constraint : VersionConstraint) : constraint.satisfies v = constraint.satisfies w := by
  obtain ⟨major,minor,patch,pre,build⟩ := v
  obtain ⟨major',minor',patch',pre',build'⟩ := w
  obtain ⟨rfl,rfl,rfl,rfl⟩ := Iff.mp eq_iff same
  rfl

/-! ### What a set holds -/

/-- Two capabilities with the same name, and the same version up to build metadata. -/
def SameKey (a b : Capability) : Prop := a.name = b.name ∧ a.version.eq b.version = true

/-- What the set holds under a name and a version up to build metadata. -/
def CapabilitySet.entry (s : CapabilitySet) (name : String) (version : SemVer) : Option Capability := (s.get name).find? fun c => c.version.eq version

/-- No name is listed empty, and no version twice. -/
structure WellFormed (s : CapabilitySet) : Prop where
  nonempty : ∀ name caps, s.capabilities.lookup name = some caps → caps ≠ []
  named : ∀ name, ∀ c ∈ s.get name, c.name = name
  distinct : ∀ name, (s.get name).Pairwise fun a b => ¬ a.version.eq b.version = true

theorem placed_cons (cap first : Capability) (rest : List Capability) :
    placed cap (first :: rest) = if first.version.eq cap.version then cap :: rest else first :: placed cap rest := rfl

theorem placed_ne_nil (cap : Capability) (caps : List Capability) : placed cap caps ≠ [] := by
  cases caps with
  | nil => exact List.cons_ne_nil cap []
  | cons c rest =>
    rw [placed_cons]
    split_ifs <;> simp

theorem mem_placed {cap c : Capability} {caps : List Capability} (member : c ∈ placed cap caps) : c = cap ∨ c ∈ caps := by
  induction caps with
  | nil => exact .inl (List.mem_singleton.mp member)
  | cons first rest ih =>
    rw [placed_cons] at member
    split_ifs at member with same
    · rcases List.mem_cons.mp member with new | old
      · exact .inl new
      · exact .inr (List.mem_cons_of_mem first old)
    · rcases List.mem_cons.mp member with rfl | later
      · exact .inr List.mem_cons_self
      · exact (ih later).imp_right (List.mem_cons_of_mem first)

/-- What was there is there still, or replaced by another of its version. -/
theorem placed_keeps (cap : Capability) {c : Capability} {caps : List Capability} (member : c ∈ caps) :
    c ∈ placed cap caps ∨ cap ∈ placed cap caps ∧ c.version.eq cap.version = true := by
  induction caps with
  | nil => exact absurd member List.not_mem_nil
  | cons first rest ih =>
    rw [placed_cons]
    split_ifs with same
    · rcases List.mem_cons.mp member with rfl | later
      · exact .inr ⟨List.mem_cons_self,same⟩
      · exact .inl (List.mem_cons_of_mem cap later)
    · rcases List.mem_cons.mp member with rfl | later
      · exact .inl List.mem_cons_self
      · rcases ih later with kept | ⟨new,same'⟩
        · exact .inl (List.mem_cons_of_mem first kept)
        · exact .inr ⟨List.mem_cons_of_mem first new,same'⟩

theorem placed_distinct (cap : Capability) {caps : List Capability} (distinct : caps.Pairwise fun a b => ¬ a.version.eq b.version = true) :
    (placed cap caps).Pairwise fun a b => ¬ a.version.eq b.version = true := by
  induction caps with
  | nil => exact List.pairwise_singleton _ cap
  | cons first rest ih =>
    rw [List.pairwise_cons] at distinct
    rw [placed_cons]
    split_ifs with same
    · refine List.pairwise_cons.mpr ⟨fun other later equal => ?_,distinct.2⟩
      exact distinct.1 other later (eq_trans same equal)
    · refine List.pairwise_cons.mpr ⟨fun other later => ?_,ih distinct.2⟩
      rcases mem_placed later with rfl | old
      · exact same
      · exact distinct.1 other old

theorem find_placed (cap : Capability) (caps : List Capability) (version : SemVer) :
    (placed cap caps).find? (fun c => c.version.eq version) = if cap.version.eq version then some cap else caps.find? fun c => c.version.eq version := by
  induction caps with
  | nil =>
    by_cases own : cap.version.eq version = true <;> simp [placed,own]
  | cons first rest ih =>
    rw [placed_cons]
    split_ifs with same own own
    · simp [own]
    · have other : ¬ first.version.eq version = true := fun equal => own (eq_trans (eq_symm same) equal)
      simp [own,other]
    · have other : ¬ first.version.eq version = true := fun equal => same (eq_trans equal (eq_symm own))
      simp [other,ih,own]
    · by_cases there : first.version.eq version = true <;> simp [there,ih,own]

section
variable {s t : CapabilitySet}

theorem get_insert (s : CapabilitySet) (cap : Capability) (name : String) :
    (s.insert cap).get name = if name = cap.name then placed cap (s.get name) else s.get name := by
  unfold CapabilitySet.insert CapabilitySet.get
  by_cases same : name = cap.name
  · subst same
    rw [if_pos rfl,AList.lookup_insert]
    rfl
  · rw [if_neg same,AList.lookup_insert_ne same]

theorem get_remove (s : CapabilitySet) (name other : String) : (s.remove name).2.get other = if other = name then [] else s.get other := by
  unfold CapabilitySet.remove CapabilitySet.get
  by_cases same : other = name
  · subst same
    rw [if_pos rfl,AList.lookup_erase]
    rfl
  · rw [if_neg same,AList.lookup_erase_ne same]

theorem entry_insert (s : CapabilitySet) (cap : Capability) (name : String) (version : SemVer) :
    (s.insert cap).entry name version = if name = cap.name ∧ cap.version.eq version = true then some cap else s.entry name version := by
  unfold CapabilitySet.entry
  rw [get_insert]
  by_cases same : name = cap.name
  · rw [if_pos same,find_placed]
    simp [same]
  · simp [same]

theorem entry_remove (s : CapabilitySet) (removed name : String) (version : SemVer) :
    (s.remove removed).2.entry name version = if name = removed then none else s.entry name version := by
  unfold CapabilitySet.entry
  rw [get_remove]
  split_ifs <;> rfl

theorem wellFormed_new : WellFormed .new where
  nonempty name caps there := by
    rw [CapabilitySet.new,AList.lookup_empty] at there
    exact absurd there.symm (Option.some_ne_none caps)
  named name c member := absurd member List.not_mem_nil
  distinct name := .nil

theorem wellFormed_insert (whole : WellFormed s) (cap : Capability) : WellFormed (s.insert cap) where
  nonempty name caps there := by
    by_cases same : name = cap.name
    · subst same
      rw [CapabilitySet.insert,AList.lookup_insert] at there
      rw [← Option.some.inj there]
      exact placed_ne_nil cap _
    · rw [CapabilitySet.insert,AList.lookup_insert_ne same] at there
      exact whole.nonempty name caps there
  named name c member := by
    rw [get_insert] at member
    split_ifs at member with same
    · rcases mem_placed member with rfl | old
      · exact same.symm
      · exact whole.named name c old
    · exact whole.named name c member
  distinct name := by
    rw [get_insert]
    split_ifs
    · exact placed_distinct cap (whole.distinct name)
    · exact whole.distinct name

theorem wellFormed_remove (whole : WellFormed s) (name : String) : WellFormed (s.remove name).2 where
  nonempty other caps there := by
    by_cases same : other = name
    · subst same
      rw [CapabilitySet.remove,AList.lookup_erase] at there
      exact absurd there.symm (Option.some_ne_none caps)
    · rw [CapabilitySet.remove,AList.lookup_erase_ne same] at there
      exact whole.nonempty other caps there
  named other c member := by
    rw [get_remove] at member
    split_ifs at member
    · exact absurd member List.not_mem_nil
    · exact whole.named other c member
  distinct other := by
    rw [get_remove]
    split_ifs
    · exact .nil
    · exact whole.distinct other

theorem wellFormed_inserts (whole : WellFormed s) (caps : List Capability) : WellFormed (caps.foldl CapabilitySet.insert s) := by
  induction caps generalizing s with
  | nil => exact whole
  | cons cap caps ih => exact ih (wellFormed_insert whole cap)

/-- In a list without two items of one kind, the first item of a kind is the only one. -/
theorem find_unique {α : Type} {p : α → Bool} {items : List α} (once : items.Pairwise fun a b => ¬ (p a = true ∧ p b = true)) {a : α} :
    items.find? p = some a ↔ a ∈ items ∧ p a = true := by
  constructor
  · intro found
    exact ⟨List.mem_of_find?_eq_some found,List.find?_some found⟩
  · rintro ⟨member,good⟩
    induction items with
    | nil => exact absurd member List.not_mem_nil
    | cons first rest ih =>
      rw [List.pairwise_cons] at once
      rcases List.mem_cons.mp member with rfl | later
      · exact List.find?_cons_of_pos good
      · rw [List.find?_cons_of_neg fun own => once.1 a later ⟨own,good⟩]
        exact ih once.2 later

theorem entry_iff (whole : WellFormed s) {name : String} {version : SemVer} {c : Capability} :
    s.entry name version = some c ↔ c ∈ s.get name ∧ c.version.eq version = true := by
  refine find_unique ((whole.distinct name).imp fun {a b} apart both => apart ?_)
  exact eq_trans both.1 (eq_symm both.2)

theorem lookup_of_mem {name : String} {c : Capability} (member : c ∈ s.get name) : s.contains name = true := by
  unfold CapabilitySet.get at member
  unfold CapabilitySet.contains
  cases listed : s.capabilities.lookup name with
  | none => simp [listed] at member
  | some caps => rfl

theorem contains_iff (whole : WellFormed s) {name : String} : s.contains name = true ↔ ∃ c, c ∈ s.get name := by
  constructor
  · intro there
    obtain ⟨caps,listed⟩ := Option.isSome_iff_exists.mp there
    obtain ⟨c,rest,split⟩ := List.exists_cons_of_ne_nil (whole.nonempty name caps listed)
    refine ⟨c,?_⟩
    rw [CapabilitySet.get,listed,split]
    exact List.mem_cons_self
  · rintro ⟨c,member⟩
    exact lookup_of_mem member

variable (order : String → Nat)

theorem mem_names {name : String} : name ∈ s.names order ↔ s.contains name = true := by
  rw [CapabilitySet.names,List.mem_insertionSort,← AList.mem_keys,← AList.lookup_isSome]
  rfl

theorem names_nodup : (s.names order).Nodup :=
  (List.perm_insertionSort _ _).nodup_iff.mpr s.capabilities.nodupKeys

/-- The names that satisfy a condition, with what is listed under each of them. -/
def listed (order : String → Nat) (s : CapabilitySet) (wanted : String → Bool) : List Capability := ((s.names order).filter wanted).flatMap s.get

theorem listed_distinct (whole : WellFormed s) (wanted : String → Bool) : (listed order s wanted).Pairwise fun a b => ¬ SameKey a b := by
  refine List.pairwise_flatMap.mpr ⟨fun name _ => (whole.distinct name).imp fun apart same => apart same.2,?_⟩
  refine ((names_nodup order).filter wanted).imp fun {a b} differs c member d member' same => differs ?_
  rw [← whole.named a c member,← whole.named b d member',same.1]

theorem mem_listed (whole : WellFormed s) {wanted : String → Bool} {c : Capability} :
    c ∈ listed order s wanted ↔ c ∈ s.get c.name ∧ wanted c.name = true := by
  unfold listed
  rw [List.mem_flatMap]
  constructor
  · rintro ⟨name,member,there⟩
    obtain ⟨-,good⟩ := List.mem_filter.mp member
    rw [whole.named name c there]
    exact ⟨there,good⟩
  · rintro ⟨there,good⟩
    exact ⟨c.name,List.mem_filter.mpr ⟨(mem_names order).mpr (lookup_of_mem there),good⟩,there⟩

/-- Inserted into another set, capabilities with different keys are all there, in front of what was there. -/
theorem entry_inserts {caps : List Capability} (distinct : caps.Pairwise fun a b => ¬ SameKey a b) (t : CapabilitySet) (name : String) (version : SemVer) :
    (caps.foldl CapabilitySet.insert t).entry name version =
      (caps.find? fun c => c.name = name && c.version.eq version).or (t.entry name version) := by
  induction caps generalizing t with
  | nil => rfl
  | cons cap caps ih =>
    rw [List.pairwise_cons] at distinct
    rw [List.foldl_cons,ih distinct.2,entry_insert]
    by_cases own : cap.name = name ∧ cap.version.eq version = true
    · have others : (caps.find? fun c => c.name = name && c.version.eq version) = none := by
        refine List.find?_eq_none.mpr fun other member good => distinct.1 other member ?_
        obtain ⟨name',version'⟩ : other.name = name ∧ other.version.eq version = true := by simpa using good
        exact ⟨own.1.trans name'.symm,eq_trans own.2 (eq_symm version')⟩
      rw [others,if_pos ⟨own.1.symm,own.2⟩]
      simp [own]
    · rw [if_neg fun own' => own ⟨own'.1.symm,own'.2⟩,List.find?_cons_of_neg (by simpa using own)]

theorem find_listed (whole : WellFormed s) (wanted : String → Bool) (name : String) (version : SemVer) :
    ((listed order s wanted).find? fun c => c.name = name && c.version.eq version) = if wanted name then s.entry name version else none := by
  have once : (listed order s wanted).Pairwise fun a b => ¬ ((a.name = name && a.version.eq version) = true ∧ (b.name = name && b.version.eq version) = true) := by
    refine (listed_distinct order whole wanted).imp fun {a b} apart both => apart ?_
    simp only [Bool.and_eq_true,decide_eq_true_eq] at both
    exact ⟨both.1.1.trans both.2.1.symm,eq_trans both.1.2 (eq_symm both.2.2)⟩
  ext c
  rw [find_unique once,mem_listed order whole]
  simp only [Bool.and_eq_true,decide_eq_true_eq]
  by_cases good : wanted name = true
  · rw [if_pos good,entry_iff whole]
    constructor
    · rintro ⟨⟨there,-⟩,rfl,version'⟩
      exact ⟨there,version'⟩
    · rintro ⟨there,version'⟩
      have named := whole.named name c there
      rw [named]
      exact ⟨⟨there,good⟩,rfl,version'⟩
  · rw [if_neg good]
    constructor
    · rintro ⟨⟨-,good'⟩,rfl,-⟩
      exact absurd good' good
    · intro found
      exact absurd found.symm (Option.some_ne_none c)

/-! ### The operations -/

theorem entry_new (name : String) (version : SemVer) : CapabilitySet.new.entry name version = none := rfl

/-- Inserting what is listed under the wanted names, name after name, inserts the list. -/
theorem foldl_listed (wanted : String → Bool) (names : List String) (t : CapabilitySet) :
    names.foldl (fun result name => if wanted name then (s.get name).foldl CapabilitySet.insert result else result) t =
      ((names.filter wanted).flatMap s.get).foldl CapabilitySet.insert t := by
  induction names generalizing t with
  | nil => rfl
  | cons name names ih =>
    rw [List.foldl_cons,ih]
    by_cases good : wanted name = true
    · rw [if_pos good,List.filter_cons_of_pos good,List.flatMap_cons,List.foldl_append]
    · rw [if_neg good,List.filter_cons_of_neg good]

theorem union_listed : s.union order t = (listed order s fun _ => true).foldl CapabilitySet.insert t := by
  rw [CapabilitySet.union,CapabilitySet.iter,listed,List.filter_true]

theorem intersection_listed : s.intersection order t = (listed order s t.contains).foldl CapabilitySet.insert .new := foldl_listed t.contains _ _

theorem difference_listed : s.difference order t = (listed order s fun name => !t.contains name).foldl CapabilitySet.insert .new :=
  foldl_listed (fun name => !t.contains name) _ _

theorem entry_union (whole : WellFormed s) (name : String) (version : SemVer) :
    (s.union order t).entry name version = (s.entry name version).or (t.entry name version) := by
  rw [union_listed,entry_inserts (listed_distinct order whole _),find_listed order whole,if_pos rfl]

theorem entry_intersection (whole : WellFormed s) (name : String) (version : SemVer) :
    (s.intersection order t).entry name version = if t.contains name then s.entry name version else none := by
  rw [intersection_listed,entry_inserts (listed_distinct order whole _),find_listed order whole,entry_new,Option.or_none]

theorem entry_difference (whole : WellFormed s) (name : String) (version : SemVer) :
    (s.difference order t).entry name version = if t.contains name then none else s.entry name version := by
  rw [difference_listed,entry_inserts (listed_distinct order whole _),find_listed order whole,entry_new,Option.or_none]
  cases t.contains name <;> rfl

end

/-! ### The best match -/

section
variable {α : Type} {cmp : α → α → Ordering} [Std.TransCmp cmp]

variable (cmp) in
/-- The better of the best so far and an item. -/
theorem max_by_step (best item : α) :
    ∃ better, (if cmp best item = .gt then some best else some item) = some better ∧ (better = best ∨ better = item) ∧
      (cmp best better).isLE ∧ (cmp item better).isLE := by
  by_cases above : cmp best item = .gt
  · refine ⟨best,if_pos above,.inl rfl,Std.ReflCmp.isLE_rfl,?_⟩
    have swapped : cmp item best = (cmp best item).swap := Std.OrientedCmp.eq_swap
    rw [swapped,above]
    rfl
  · refine ⟨item,if_neg above,.inr rfl,?_,Std.ReflCmp.isLE_rfl⟩
    cases order : cmp best item with
    | lt => rfl
    | eq => rfl
    | gt => exact absurd order above

variable (cmp) in
theorem max_by_from (items : List α) (best : α) :
    ∃ a, items.foldl (fun best item => match best with | none => some item | some b => if cmp b item = .gt then some b else some item) (some best) = some a ∧
      (a = best ∨ a ∈ items) ∧ (cmp best a).isLE ∧ ∀ item ∈ items, (cmp item a).isLE := by
  induction items generalizing best with
  | nil => exact ⟨best,rfl,.inl rfl,Std.ReflCmp.isLE_rfl,fun item member => absurd member List.not_mem_nil⟩
  | cons first items ih =>
    obtain ⟨better,chosen,source,above,above'⟩ := max_by_step cmp best first
    obtain ⟨a,found,member,top,tops⟩ := ih better
    refine ⟨a,?_,?_,Std.TransCmp.isLE_trans above top,?_⟩
    · rw [List.foldl_cons]
      dsimp only
      rw [chosen]
      exact found
    · rcases member with rfl | later
      · rcases source with rfl | rfl
        · exact .inl rfl
        · exact .inr List.mem_cons_self
      · exact .inr (List.mem_cons_of_mem first later)
    · intro item listed
      rcases List.mem_cons.mp listed with rfl | later
      · exact Std.TransCmp.isLE_trans above' top
      · exact tops item later

variable (cmp) in
/-- Of a list that is not empty, a greatest item. -/
theorem max_by_cons (first : α) (items : List α) :
    ∃ a, max_by cmp (first :: items) = some a ∧ a ∈ first :: items ∧ ∀ item ∈ first :: items, (cmp item a).isLE := by
  obtain ⟨a,found,member,top,tops⟩ := max_by_from cmp items first
  refine ⟨a,found,?_,?_⟩
  · rcases member with rfl | later
    · exact List.mem_cons_self
    · exact List.mem_cons_of_mem first later
  · intro item listed
    rcases List.mem_cons.mp listed with rfl | later
    · exact top
    · exact tops item later

end

instance : Std.TransCmp fun a b : Capability => a.version.cmp b.version where
  eq_swap {a b} := show a.version.cmp b.version = (b.version.cmp a.version).swap from Std.OrientedCmp.eq_swap
  isLE_trans {a b c} (first : (a.version.cmp b.version).isLE) (second : (b.version.cmp c.version).isLE) := Std.TransCmp.isLE_trans first second

section
variable {s : CapabilitySet} {req : CapabilityRequirement}

theorem find_match_eq (s : CapabilitySet) (req : CapabilityRequirement) :
    s.find_match req = max_by (fun a b => a.version.cmp b.version) ((s.get req.name).filter req.satisfied) := by
  unfold CapabilitySet.find_match CapabilitySet.get
  cases s.capabilities.lookup req.name <;> rfl

/-- The best match is a capability of the name that satisfies the requirement, and has the highest version of them. -/
structure BestMatch (s : CapabilitySet) (req : CapabilityRequirement) (c : Capability) : Prop where
  listed : c ∈ s.get req.name
  satisfies : req.satisfied c = true
  highest : ∀ other ∈ s.get req.name, req.satisfied other = true → (other.version.cmp c.version).isLE

theorem find_match_some {c : Capability} (found : s.find_match req = some c) : BestMatch s req c := by
  rw [find_match_eq] at found
  cases candidates : (s.get req.name).filter req.satisfied with
  | nil =>
    rw [candidates] at found
    exact absurd found.symm (Option.some_ne_none c)
  | cons first rest =>
    obtain ⟨a,found',member,top⟩ := max_by_cons (fun a b : Capability => a.version.cmp b.version) first rest
    rw [candidates,found'] at found
    rw [← candidates] at member top
    obtain rfl := Option.some.inj found
    obtain ⟨listed,good⟩ := List.mem_filter.mp member
    exact ⟨listed,good,fun other there good' => top other (List.mem_filter.mpr ⟨there,good'⟩)⟩

theorem find_match_isSome : (s.find_match req).isSome = true ↔ ∃ c ∈ s.get req.name, req.satisfied c = true := by
  constructor
  · intro found
    obtain ⟨c,found'⟩ := Option.isSome_iff_exists.mp found
    have best := find_match_some found'
    exact ⟨c,best.listed,best.satisfies⟩
  · rintro ⟨c,listed,good⟩
    rw [find_match_eq]
    cases candidates : (s.get req.name).filter req.satisfied with
    | nil => exact absurd (List.mem_filter.mpr ⟨listed,good⟩) (by simp [candidates])
    | cons first rest =>
      obtain ⟨a,found,-⟩ := max_by_cons (fun a b : Capability => a.version.cmp b.version) first rest
      rw [found]
      rfl

end

/-! ### Reachable sets -/

/-- What the operations make of empty sets. -/
inductive Reachable : CapabilitySet → Prop
  | new : Reachable .new
  | insert {s : CapabilitySet} (cap : Capability) : Reachable s → Reachable (s.insert cap)
  | remove {s : CapabilitySet} (name : String) : Reachable s → Reachable (s.remove name).2
  | union {s t : CapabilitySet} (order : String → Nat) : Reachable s → Reachable t → Reachable (s.union order t)
  | intersection {s t : CapabilitySet} (order : String → Nat) : Reachable s → Reachable t → Reachable (s.intersection order t)
  | difference {s t : CapabilitySet} (order : String → Nat) : Reachable s → Reachable t → Reachable (s.difference order t)

theorem Reachable.wellFormed {s : CapabilitySet} (reachable : Reachable s) : WellFormed s := by
  induction reachable with
  | new => exact wellFormed_new
  | insert cap _ whole => exact wellFormed_insert whole cap
  | remove name _ whole => exact wellFormed_remove whole name
  | union order _ _ _ whole =>
    rw [union_listed]
    exact wellFormed_inserts whole _
  | intersection order _ _ _ _ =>
    rw [intersection_listed]
    exact wellFormed_inserts wellFormed_new _
  | difference order _ _ _ _ =>
    rw [difference_listed]
    exact wellFormed_inserts wellFormed_new _

theorem reachable_from (caps : List Capability) : Reachable (.from_capabilities caps) := by
  have inserts : ∀ (caps : List Capability) (s : CapabilitySet), Reachable s → Reachable (caps.foldl CapabilitySet.insert s) := by
    intro caps
    induction caps with
    | nil => exact fun s reachable => reachable
    | cons cap caps ih => exact fun s reachable => ih (s.insert cap) (reachable.insert cap)
  exact inserts caps .new .new

end Daf.CapabilitySets
