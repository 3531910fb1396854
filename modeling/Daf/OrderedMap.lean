import Mathlib.Data.List.Lex
import Mathlib.Data.List.Nodup
import Mathlib.Order.Lattice
import Mathlib.Order.MinMax

/-!
Finite maps over ordered keys, as the list of their bindings in ascending order: what an ordered store of
keys and values says, and the order in which it is iterated.
-/
namespace Daf.OrderedMap

structure SortedMap (K V : Type) [LinearOrder K] where
  entries : List (K × V)
  ascending : entries.Pairwise fun a b => a.1 < b.1

section
variable {K V : Type} [LinearOrder K]

def SortedMap.empty : SortedMap K V := ⟨[],.nil⟩

def SortedMap.get (map : SortedMap K V) (key : K) : Option V := (map.entries.find? fun entry => entry.1 = key).map Prod.snd

def SortedMap.contains_key (map : SortedMap K V) (key : K) : Bool := (map.get key).isSome

def placed (key : K) (value : V) : List (K × V) → List (K × V)
  | [] => [(key,value)]
  | (key',value') :: rest =>
    if key < key' then (key,value) :: (key',value') :: rest
    else if key' < key then (key',value') :: placed key value rest
    else (key,value) :: rest

theorem mem_placed {key : K} {value : V} {entries : List (K × V)} (ascending : entries.Pairwise fun a b => a.1 < b.1) {entry : K × V} :
    entry ∈ placed key value entries ↔ entry = (key,value) ∨ entry ∈ entries ∧ entry.1 ≠ key := by
  induction entries with
  | nil => simp [placed]
  | cons first rest ih =>
    obtain ⟨key',value'⟩ := first
    rw [List.pairwise_cons] at ascending
    unfold placed
    split_ifs with before after
    · have apart : ∀ other ∈ (key',value') :: rest, other.1 ≠ key := by
        intro other member same
        rcases List.mem_cons.mp member with rfl | later
        · exact before.ne same.symm
        · exact (before.trans (ascending.1 other later)).ne same.symm
      rw [List.mem_cons]
      constructor
      · rintro (new | old)
        · exact .inl new
        · exact .inr ⟨old,apart entry old⟩
      · rintro (new | ⟨old,-⟩)
        · exact .inl new
        · exact .inr old
    · rw [List.mem_cons,ih ascending.2,List.mem_cons]
      constructor
      · rintro (rfl | new | ⟨old,other⟩)
        · exact .inr ⟨.inl rfl,after.ne⟩
        · exact .inl new
        · exact .inr ⟨.inr old,other⟩
      · rintro (new | ⟨rfl | old,other⟩)
        · exact .inr (.inl new)
        · exact .inl rfl
        · exact .inr (.inr ⟨old,other⟩)
    · have same : key' = key := le_antisymm (not_lt.mp before) (not_lt.mp after)
      subst same
      rw [List.mem_cons,List.mem_cons]
      constructor
      · rintro (new | old)
        · exact .inl new
        · exact .inr ⟨.inr old,(ascending.1 entry old).ne'⟩
      · rintro (new | ⟨rfl | old,other⟩)
        · exact .inl new
        · exact absurd rfl other
        · exact .inr old

theorem placed_ascending (key : K) (value : V) {entries : List (K × V)} (ascending : entries.Pairwise fun a b => a.1 < b.1) :
    (placed key value entries).Pairwise fun a b => a.1 < b.1 := by
  induction entries with
  | nil => simp [placed]
  | cons first rest ih =>
    obtain ⟨key',value'⟩ := first
    rw [List.pairwise_cons] at ascending
    unfold placed
    split_ifs with before after
    · refine List.pairwise_cons.mpr ⟨fun other member => ?_,List.pairwise_cons.mpr ascending⟩
      rcases List.mem_cons.mp member with rfl | later
      · exact before
      · exact before.trans (ascending.1 other later)
    · refine List.pairwise_cons.mpr ⟨fun other member => ?_,ih ascending.2⟩
      rcases (mem_placed ascending.2).mp member with rfl | ⟨old,-⟩
      · exact after
      · exact ascending.1 other old
    · have same : key' = key := le_antisymm (not_lt.mp before) (not_lt.mp after)
      subst same
      exact List.pairwise_cons.mpr ascending

def SortedMap.insert (map : SortedMap K V) (key : K) (value : V) : SortedMap K V :=
  ⟨placed key value map.entries,placed_ascending key value map.ascending⟩

def SortedMap.remove (map : SortedMap K V) (key : K) : SortedMap K V :=
  ⟨map.entries.filter fun entry => entry.1 ≠ key,map.ascending.filter _⟩

theorem mem_insert {map : SortedMap K V} {key : K} {value : V} {entry : K × V} :
    entry ∈ (map.insert key value).entries ↔ entry = (key,value) ∨ entry ∈ map.entries ∧ entry.1 ≠ key := mem_placed map.ascending

theorem mem_remove {map : SortedMap K V} {key : K} {entry : K × V} : entry ∈ (map.remove key).entries ↔ entry ∈ map.entries ∧ entry.1 ≠ key := by
  unfold SortedMap.remove
  rw [List.mem_filter,decide_eq_true_eq]

theorem keys_distinct (map : SortedMap K V) : (map.entries.map Prod.fst).Nodup :=
  List.pairwise_map.mpr (map.ascending.imp fun before => before.ne)

/-- A map is what it answers. -/
theorem get_eq_some {map : SortedMap K V} {key : K} {value : V} : map.get key = some value ↔ (key,value) ∈ map.entries := by
  unfold SortedMap.get
  rw [Option.map_eq_some_iff]
  constructor
  · rintro ⟨⟨key',value'⟩,found,rfl⟩
    have same : key' = key := by simpa using List.find?_some found
    exact same ▸ List.mem_of_find?_eq_some found
  · intro member
    cases found : map.entries.find? fun entry => entry.1 = key with
    | none => exact absurd (decide_eq_true rfl) (List.find?_eq_none.mp found _ member)
    | some entry =>
      have same : entry.1 = key := by simpa using List.find?_some found
      have equal := List.inj_on_of_nodup_map (keys_distinct map) (List.mem_of_find?_eq_some found) member same
      exact ⟨entry,rfl,by rw [equal]⟩

@[simp] theorem get_empty (key : K) : (SortedMap.empty : SortedMap K V).get key = none := rfl

end

/-! ### Keys that are texts -/

section
variable {A V : Type} [LinearOrder A] {start key later : List A}

/-- The bindings from the first key on that does not come before the start. -/
def SortedMap.from_key (map : SortedMap (List A) V) (start : List A) : List (List A × V) := map.entries.dropWhile fun entry => entry.1 < start

theorem not_lt_of_prefix (begins : start <+: key) : ¬ key < start := by
  induction start generalizing key with
  | nil => exact List.not_lt_nil key
  | cons a start ih =>
    cases key with
    | nil => exact absurd begins (by simp)
    | cons b key =>
      obtain ⟨rfl,rest⟩ := List.cons_prefix_cons.mp begins
      rw [List.cons_lt_cons_iff]
      rintro (before | ⟨-,less⟩)
      · exact lt_irrefl _ before
      · exact ih rest less

/-- The keys with one prefix stand together. -/
theorem prefix_between (above : ¬ key < start) (below : ¬ later < key) (begins : start <+: later) : start <+: key := by
  induction start generalizing key later with
  | nil => exact List.nil_prefix
  | cons a start ih =>
    cases key with
    | nil => exact absurd (List.nil_lt_cons a start) above
    | cons b key =>
      cases later with
      | nil => exact absurd begins (by simp)
      | cons c later =>
        obtain ⟨rfl,rest⟩ := List.cons_prefix_cons.mp begins
        rw [List.cons_lt_cons_iff,not_or] at above below
        obtain rfl : b = a := le_antisymm (not_lt.mp below.1) (not_lt.mp above.1)
        exact List.cons_prefix_cons.mpr ⟨rfl,ih (fun less => above.2 ⟨rfl,less⟩) (fun less => below.2 ⟨rfl,less⟩) rest⟩

/-- A scan from a prefix to the first key without it finds all keys with it. -/
theorem takeWhile_from_key (map : SortedMap (List A) V) (start : List A) :
    (map.from_key start).takeWhile (fun entry => start <+: entry.1) = map.entries.filter fun entry => start <+: entry.1 := by
  have stops : ∀ entries : List (List A × V), entries.Pairwise (fun a b => a.1 < b.1) → (∀ entry ∈ entries, ¬ entry.1 < start) →
      entries.takeWhile (fun entry => start <+: entry.1) = entries.filter fun entry => start <+: entry.1 := by
    intro entries ascending above
    induction entries with
    | nil => rfl
    | cons entry entries ih =>
      rw [List.pairwise_cons] at ascending
      have rest := ih ascending.2 fun other inside => above other (List.mem_cons_of_mem _ inside)
      by_cases begins : start <+: entry.1
      · rw [List.takeWhile_cons_of_pos (by simpa using begins),List.filter_cons_of_pos (by simpa using begins),rest]
      · rw [List.takeWhile_cons_of_neg (by simpa using begins),List.filter_cons_of_neg (by simpa using begins)]
        symm
        apply List.filter_eq_nil_iff.mpr
        intro other inside found
        exact begins (prefix_between (above entry List.mem_cons_self) (ascending.1 other inside).not_gt (by simpa using found))
  obtain ⟨entries,ascending⟩ := map
  show (entries.dropWhile _).takeWhile _ = entries.filter _
  induction entries with
  | nil => rfl
  | cons entry entries ih =>
    by_cases before : entry.1 < start
    · have other : ¬ start <+: entry.1 := fun begins => not_lt_of_prefix begins before
      rw [List.dropWhile_cons_of_pos (by simpa using before),List.filter_cons_of_neg (by simpa using other),ih (List.pairwise_cons.mp ascending).2]
    · rw [List.dropWhile_cons_of_neg (by simpa using before)]
      apply stops _ ascending
      intro other inside less
      rcases List.mem_cons.mp inside with rfl | later
      · exact before less
      · exact before (((List.pairwise_cons.mp ascending).1 other later).trans less)

end
end Daf.OrderedMap
