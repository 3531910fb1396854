import Mathlib.Data.List.Nodup
import Mathlib.Data.List.Flatten
import Mathlib.Data.List.Pairwise

/-!
A store of keys kept as a log of operations, each of which writes some keys at once. When no key is
written twice, what is found under a key is what was written there, and a longer log still has it.
-/
namespace Daf.WriteOnce

section
variable {Op Key Val : Type} (writes : Op → List (Key × Val))

/-- All that was written, in the order of the log. -/
def entries (log : List Op) : List (Key × Val) := log.flatMap writes

/-- What is stored under a key: what was written there last. -/
def get [DecidableEq Key] (log : List Op) (key : Key) : Option Val := (entries writes log).reverse.lookup key

def Once (log : List Op) : Prop := ((entries writes log).map Prod.fst).Nodup

variable {writes} {log more : List Op} {op : Op} {key : Key} {val : Val}

theorem mem_entries : (key,val) ∈ entries writes log ↔ ∃ op ∈ log, (key,val) ∈ writes op := List.mem_flatMap

theorem entries_append : entries writes (log ++ more) = entries writes log ++ entries writes more := List.flatMap_append

theorem Once.left (once : Once writes (log ++ more)) : Once writes log := by
  unfold Once at once
  rw [entries_append,List.map_append] at once
  exact once.of_append_left

theorem Once.take (once : Once writes log) (n : Nat) : Once writes (log.take n) := by
  rw [← List.take_append_drop n log] at once
  exact once.left

theorem Once.snoc (once : Once writes log) (distinct : ((writes op).map Prod.fst).Nodup)
    (fresh : ∀ key val, (key,val) ∈ writes op → ∀ old, (key,old) ∉ entries writes log) : Once writes (log ++ [op]) := by
  unfold Once
  rw [entries_append,List.map_append]
  refine List.Nodup.append once (by simpa [entries] using distinct) ?_
  intro key old new
  obtain ⟨⟨_,val⟩,there,rfl⟩ := List.mem_map.mp old
  obtain ⟨⟨_,val'⟩,here,same⟩ := List.mem_map.mp new
  rw [show entries writes [op] = writes op by simp [entries]] at here
  cases same
  exact fresh _ _ here _ there

/-- A key is written by one operation. -/
theorem Once.writer (once : Once writes log) {op' : Op} {val' : Val} (inside : op ∈ log) (inside' : op' ∈ log)
    (written : (key,val) ∈ writes op) (written' : (key,val') ∈ writes op') : op = op' := by
  by_contra differ
  have keys : ((entries writes log).map Prod.fst) = log.flatMap (fun o => (writes o).map Prod.fst) := List.map_flatMap
  unfold Once at once
  rw [keys,List.nodup_flatMap] at once
  have symmetric : Std.Symm (Function.onFun List.Disjoint fun o => (writes o).map Prod.fst) := ⟨fun _ _ disjoint _ left right => disjoint right left⟩
  have apart := once.2.forall inside inside' differ
  exact apart (List.mem_map.mpr ⟨_,written,rfl⟩) (List.mem_map.mpr ⟨_,written',rfl⟩)

variable [DecidableEq Key]

theorem mem_of_get (found : get writes log key = some val) : (key,val) ∈ entries writes log := by
  obtain ⟨before,after,split,-⟩ := List.lookup_eq_some_iff.mp found
  exact List.mem_reverse.mp (split ▸ by simp)

theorem get_eq_none : get writes log key = none ↔ ∀ val, (key,val) ∉ entries writes log := by
  unfold get
  rw [List.lookup_eq_none_iff]
  constructor
  · intro none val inside
    simpa using none (key,val) (List.mem_reverse.mpr inside)
  · rintro none ⟨other,val⟩ inside
    by_cases same : key = other
    · exact absurd (List.mem_reverse.mp (same ▸ inside)) (none val)
    · simpa using same

theorem Once.get_iff (once : Once writes log) : get writes log key = some val ↔ (key,val) ∈ entries writes log := by
  refine ⟨mem_of_get,fun inside => ?_⟩
  cases found : get writes log key with
  | none => exact absurd inside (Iff.mp get_eq_none found val)
  | some other =>
    have same : other = val := by
      have pair := List.inj_on_of_nodup_map once (mem_of_get found) inside rfl
      exact (Prod.mk.inj pair).2
    rw [same]

theorem Once.get_of_writes (once : Once writes log) (inside : op ∈ log) (written : (key,val) ∈ writes op) : get writes log key = some val :=
  once.get_iff.mpr (mem_entries.mpr ⟨op,inside,written⟩)

/-- A longer log still has it. -/
theorem Once.kept (once : Once writes (log ++ more)) (found : get writes log key = some val) : get writes (log ++ more) key = some val := by
  refine once.get_iff.mpr ?_
  rw [entries_append]
  exact List.mem_append_left _ (mem_of_get found)

end
end Daf.WriteOnce
