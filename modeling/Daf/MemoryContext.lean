import Daf.LruCache
import Daf.Memories

/-!
The working memory of an agent, in the order of use: it does what an ideal cache of its capacity does.
-/
namespace Daf.MemoryContext
open Daf.LruCache Daf.Memories Daf.UuidText

section
variable {F : Type}

/-- Memories with distinct ids, no more of them than the capacity, the most recently used last. -/
structure WorkingMemory (F : Type) where
  entries : List (Memory F)
  capacity : Nat
  positive : 0 < capacity
  distinct : (entries.map Memory.id).Nodup
  bounded : entries.length ≤ capacity

def WorkingMemory.new (capacity : Nat) (positive : 0 < capacity) : WorkingMemory F := ⟨[],capacity,positive,List.nodup_nil,Nat.zero_le capacity⟩

def WorkingMemory.len (wm : WorkingMemory F) : Nat := wm.entries.length

def WorkingMemory.all (wm : WorkingMemory F) : List (Memory F) := wm.entries

def WorkingMemory.most_recent (wm : WorkingMemory F) (n : Nat) : List (Memory F) := wm.entries.reverse.take n

/-- The most recent memories are the last ones. -/
theorem most_recent_all (wm : WorkingMemory F) (n : Nat) : (wm.most_recent n).reverse = wm.all.drop (wm.len - n) := by
  rw [WorkingMemory.most_recent,List.take_reverse,List.reverse_reverse]
  rfl

/-- The entries without the one with this id. -/
def without (entries : List (Memory F)) (id : Uuid) : List (Memory F) := entries.filter fun m => m.id ≠ id

theorem pushed_distinct {entries rest : List (Memory F)} (distinct : (entries.map Memory.id).Nodup) {memory : Memory F}
    (sub : rest.Sublist (without entries memory.id)) : ((rest ++ [memory]).map Memory.id).Nodup := by
  rw [List.map_append,List.map_singleton]
  refine List.nodup_append.mpr ⟨distinct.sublist ((sub.trans List.filter_sublist).map _),List.nodup_singleton _,?_⟩
  intro id old last new
  obtain ⟨m,member,rfl⟩ := List.mem_map.mp old
  have other : m.id ≠ memory.id := of_decide_eq_true (List.mem_filter.mp (sub.subset member)).2
  exact fun same => other (same.trans (List.mem_singleton.mp new))

/-- Where ids are distinct, the entry at the first position with this id is the only one. -/
theorem removed_without {entries : List (Memory F)} (distinct : (entries.map Memory.id).Nodup) (id : Uuid) :
    entries.eraseP (fun m => m.id = id) = without entries id := by
  induction entries with
  | nil => rfl
  | cons m entries ih =>
    rw [List.map_cons,List.nodup_cons] at distinct
    by_cases same : m.id = id
    · have others : ∀ other ∈ entries, other.id ≠ id := fun other member equal => distinct.1 (by
        rw [same,← equal]
        exact List.mem_map_of_mem member)
      rw [List.eraseP_cons_of_pos (by simp [same]),without,List.filter_cons_of_neg (by simp [same])]
      exact (List.filter_eq_self.mpr fun other member => decide_eq_true (others other member)).symm
    · rw [List.eraseP_cons_of_neg (by simp [same]),without,List.filter_cons_of_pos (by simp [same]),ih distinct.2]
      rfl

/-- Drop the entry with the same id, evict the first when the rest is at capacity, and push to the back. -/
def WorkingMemory.add (wm : WorkingMemory F) (memory : Memory F) : Option (Memory F) × WorkingMemory F :=
  let others := without wm.entries memory.id
  if full : wm.capacity ≤ others.length then
    (others.head?,{ wm with
      entries := others.tail ++ [memory]
      distinct := pushed_distinct wm.distinct (List.tail_sublist others)
      bounded := by
        have room := List.length_filter_le (fun m : Memory F => m.id ≠ memory.id) wm.entries
        have bounded := wm.bounded
        have positive := wm.positive
        rw [List.length_append,List.length_tail,List.length_singleton]
        simp only [others,without] at full ⊢
        omega })
  else
    (none,{ wm with
      entries := others ++ [memory]
      distinct := pushed_distinct wm.distinct (List.Sublist.refl others)
      bounded := by
        rw [List.length_append,List.length_singleton]
        omega })

/-- Move the entry with this id to the back. -/
def WorkingMemory.get (wm : WorkingMemory F) (id : Uuid) : Option (Memory F) × WorkingMemory F :=
  match found : wm.entries.find? fun m => m.id = id with
  | some memory =>
    (some memory,{ wm with
      entries := wm.entries.eraseP (fun m => m.id = id) ++ [memory]
      distinct := by
        have same : memory.id = id := by simpa using List.find?_some found
        rw [removed_without wm.distinct]
        exact pushed_distinct wm.distinct (by rw [same])
      bounded := by
        have there := List.length_eraseP_of_mem (List.mem_of_find?_eq_some found) (List.find?_some found)
        have some_entry := List.length_pos_of_mem (List.mem_of_find?_eq_some found)
        have bounded := wm.bounded
        rw [List.length_append,List.length_singleton,there]
        omega })
  | none => (none,wm)

def WorkingMemory.remove (wm : WorkingMemory F) (id : Uuid) : Option (Memory F) × WorkingMemory F :=
  match wm.entries.find? fun m => m.id = id with
  | some memory =>
    (some memory,{ wm with
      entries := wm.entries.eraseP fun m => m.id = id
      distinct := wm.distinct.sublist (List.eraseP_sublist.map _)
      bounded := (List.eraseP_sublist.length_le).trans wm.bounded })
  | none => (none,wm)

def WorkingMemory.clear (wm : WorkingMemory F) : WorkingMemory F :=
  { wm with entries := [], distinct := List.nodup_nil, bounded := Nat.zero_le wm.capacity }

/-- The state after a call, with what it returns. -/
def WorkingMemory.call (wm : WorkingMemory F) : Call Uuid (Memory F) → Option (Memory F) × WorkingMemory F
  | .add memory => wm.add memory
  | .get id => wm.get id
  | .remove id => wm.remove id
  | .clear => (none,wm.clear)

def WorkingMemory.calls (wm : WorkingMemory F) : List (Call Uuid (Memory F)) → List (Option (Memory F)) × WorkingMemory F
  | [] => ([],wm)
  | call :: calls =>
    let (out,wm') := wm.call call
    let (outs,wm'') := wm'.calls calls
    (out :: outs,wm'')

/-! ### The ideal cache -/

theorem add_room {wm : WorkingMemory F} {memory : Memory F} (room : ¬ wm.capacity ≤ (without wm.entries memory.id).length) :
    (wm.add memory).1 = none ∧ (wm.add memory).2.entries = without wm.entries memory.id ++ [memory] := by
  unfold WorkingMemory.add
  dsimp only
  rw [dif_neg room]
  exact ⟨rfl,rfl⟩

theorem add_full {wm : WorkingMemory F} {memory first : Memory F} {rest : List (Memory F)} (others : without wm.entries memory.id = first :: rest)
    (full : wm.capacity ≤ (without wm.entries memory.id).length) :
    (wm.add memory).1 = some first ∧ (wm.add memory).2.entries = rest ++ [memory] := by
  unfold WorkingMemory.add
  dsimp only
  rw [dif_pos full]
  exact ⟨congrArg List.head? others,congrArg (fun others => others.tail ++ [memory]) others⟩

theorem get_hit {wm : WorkingMemory F} {id : Uuid} {memory : Memory F} (found : wm.entries.find? (fun m => m.id = id) = some memory) :
    (wm.get id).1 = some memory ∧ (wm.get id).2.entries = without wm.entries id ++ [memory] := by
  unfold WorkingMemory.get
  split
  case h_1 m found' =>
    rw [found] at found'
    rw [Option.some.inj found']
    exact ⟨rfl,congrArg (· ++ [m]) (removed_without wm.distinct id)⟩
  case h_2 absent => exact absurd (absent.symm.trans found).symm (Option.some_ne_none memory)

theorem get_miss {wm : WorkingMemory F} {id : Uuid} (absent : wm.entries.find? (fun m => m.id = id) = none) : wm.get id = (none,wm) := by
  unfold WorkingMemory.get
  split
  case h_1 m found => exact absurd (absent.symm.trans found).symm (Option.some_ne_none m)
  case h_2 => rfl

theorem remove_hit {wm : WorkingMemory F} {id : Uuid} {memory : Memory F} (found : wm.entries.find? (fun m => m.id = id) = some memory) :
    (wm.remove id).1 = some memory ∧ (wm.remove id).2.entries = without wm.entries id := by
  unfold WorkingMemory.remove
  rw [found]
  exact ⟨rfl,removed_without wm.distinct id⟩

theorem remove_miss {wm : WorkingMemory F} {id : Uuid} (absent : wm.entries.find? (fun m => m.id = id) = none) : wm.remove id = (none,wm) := by
  unfold WorkingMemory.remove
  rw [absent]

theorem call_capacity (wm : WorkingMemory F) (call : Call Uuid (Memory F)) : (wm.call call).2.capacity = wm.capacity := by
  cases call with
  | add memory =>
    show (wm.add memory).2.capacity = _
    unfold WorkingMemory.add
    dsimp only
    split_ifs <;> rfl
  | get id =>
    show (wm.get id).2.capacity = _
    unfold WorkingMemory.get
    split <;> rfl
  | remove id =>
    show (wm.remove id).2.capacity = _
    unfold WorkingMemory.remove
    split <;> rfl
  | clear => rfl

theorem calls_capacity (wm : WorkingMemory F) (calls : List (Call Uuid (Memory F))) : (wm.calls calls).2.capacity = wm.capacity := by
  induction calls generalizing wm with
  | nil => rfl
  | cons call calls ih => exact (ih (wm.call call).2).trans (call_capacity wm call)

section
variable {wm : WorkingMemory F} {c : Cache Uuid (Memory F)} (represents : Represents Memory.id wm.entries c)
include represents

theorem find_held (id : Uuid) : wm.entries.find? (fun m => m.id = id) = c.held id := by
  cases held : c.held id with
  | some m =>
    have own := represents.keyed id m held
    subst own
    cases found : wm.entries.find? fun other => other.id = m.id with
    | none => exact absurd (decide_eq_true rfl) (List.find?_eq_none.mp found m ((represents.mem m).mpr held))
    | some other =>
      have same : other.id = m.id := by simpa using List.find?_some found
      rw [List.inj_on_of_nodup_map wm.distinct (List.mem_of_find?_eq_some found) ((represents.mem m).mpr held) same]
  | none =>
    rw [List.find?_eq_none]
    intro m member same
    have there := (represents.mem m).mp member
    rw [of_decide_eq_true same,held] at there
    exact absurd there.symm (Option.some_ne_none m)

omit represents in
/-- Without the first of the others, the rest of them is left. -/
theorem first_without {entries : List (Memory F)} {id : Uuid} {first : Memory F} {rest : List (Memory F)} (others : without entries id = first :: rest)
    (distinct : (entries.map Memory.id).Nodup) : (without entries id).filter (fun m => m.id ≠ first.id) = rest := by
  have ids := distinct.sublist (List.filter_sublist (p := fun m => decide (m.id ≠ id)).map Memory.id)
  have others' : entries.filter (fun m => m.id ≠ id) = first :: rest := others
  rw [others',List.map_cons,List.nodup_cons] at ids
  rw [others,List.filter_cons_of_neg (by simp)]
  refine List.filter_eq_self.mpr fun m member => decide_eq_true fun same => ids.1 ?_
  rw [← same]
  exact List.mem_map_of_mem member

theorem add_step (memory : Memory F) :
    ∃ d, Step Memory.id wm.capacity c (.add memory) (wm.add memory).1 d ∧ Represents Memory.id (wm.add memory).2.entries d := by
  have others : Represents Memory.id (without wm.entries memory.id) (c.forget memory.id) := represents.forget memory.id
  have fresh : ∀ other ∈ without wm.entries memory.id, other.id ≠ memory.id := fun other member => of_decide_eq_true (List.mem_filter.mp member).2
  by_cases full : wm.capacity ≤ (without wm.entries memory.id).length
  · cases rest : without wm.entries memory.id with
    | nil =>
      rw [rest] at full
      exact absurd full (not_le.mpr wm.positive)
    | cons first later =>
      obtain ⟨out,entries⟩ := add_full rest full
      have member : first ∈ c.others Memory.id memory.id := by
        rw [represents.others]
        show first ∈ without wm.entries memory.id
        rw [rest]
        exact List.mem_cons_self
      have evicted := others.forget first.id
      rw [first_without rest wm.distinct,forget_comm] at evicted
      refine ⟨((c.forget first.id).put Memory.id memory).tick,?_,?_⟩
      · rw [out]
        exact .evict memory first (by rw [represents.ncard_others]; exact full) member (represents.oldest rest)
      · rw [entries,← put_forget]
        exact evicted.put fun other later => fresh other (rest ▸ List.mem_cons_of_mem first later)
  · obtain ⟨out,entries⟩ := add_room full
    refine ⟨(c.put Memory.id memory).tick,?_,?_⟩
    · rw [out]
      exact .room memory (by rw [represents.ncard_others]; exact not_le.mp full)
    · rw [entries,← put_forget]
      exact others.put fresh

theorem get_step (id : Uuid) : ∃ d, Step Memory.id wm.capacity c (.get id) (wm.get id).1 d ∧ Represents Memory.id (wm.get id).2.entries d := by
  cases held : c.held id with
  | none =>
    rw [get_miss ((find_held represents id).trans held)]
    exact ⟨_,.miss id held,represents.tick⟩
  | some m =>
    obtain ⟨out,entries⟩ := get_hit ((find_held represents id).trans held)
    have own := represents.keyed id m held
    subst own
    refine ⟨(c.touch m.id).tick,?_,?_⟩
    · rw [out]
      exact .hit m.id m held
    · rw [entries,touch_held held,← put_forget]
      exact (represents.forget m.id).put fun other member => of_decide_eq_true (List.mem_filter.mp member).2

theorem remove_step (id : Uuid) : ∃ d, Step Memory.id wm.capacity c (.remove id) (wm.remove id).1 d ∧ Represents Memory.id (wm.remove id).2.entries d := by
  have forgets := (represents.forget id).tick
  refine ⟨(c.forget id).tick,?_,?_⟩
  · have out : (wm.remove id).1 = c.held id := by
      cases held : c.held id with
      | none => rw [remove_miss ((find_held represents id).trans held)]
      | some m => exact (remove_hit ((find_held represents id).trans held)).1
    rw [out]
    exact .remove id
  · cases held : c.held id with
    | none =>
      have absent := (find_held represents id).trans held
      have all : wm.entries.filter (fun m => m.id ≠ id) = wm.entries := by
        refine List.filter_eq_self.mpr fun m member => ?_
        simpa using List.find?_eq_none.mp absent m member
      rw [remove_miss absent]
      exact all ▸ forgets
    | some m =>
      rw [(remove_hit ((find_held represents id).trans held)).2]
      exact forgets

/-- A call does what the ideal cache does, and returns the same. -/
theorem call_step (call : Call Uuid (Memory F)) :
    ∃ d, Step Memory.id wm.capacity c call (wm.call call).1 d ∧ Represents Memory.id (wm.call call).2.entries d := by
  cases call with
  | add memory => exact add_step represents memory
  | get id => exact get_step represents id
  | remove id => exact remove_step represents id
  | clear => exact ⟨_,.clear,(represents_clear c).tick⟩

end

/-- A sequence of calls does what the ideal cache does. -/
theorem calls_steps {wm : WorkingMemory F} {c : Cache Uuid (Memory F)} (represents : Represents Memory.id wm.entries c)
    (calls : List (Call Uuid (Memory F))) :
    ∃ d, Steps Memory.id wm.capacity c calls (wm.calls calls).1 d ∧ Represents Memory.id (wm.calls calls).2.entries d := by
  induction calls generalizing wm c with
  | nil => exact ⟨c,.nil c,represents⟩
  | cons call calls ih =>
    obtain ⟨d,step,represents'⟩ := call_step represents call
    obtain ⟨e,steps,represents''⟩ := ih represents'
    rw [call_capacity] at steps
    exact ⟨e,.cons step steps,represents''⟩

/-- It is the only thing that the ideal cache can do. -/
theorem calls_unique {wm : WorkingMemory F} {c : Cache Uuid (Memory F)} (represents : Represents Memory.id wm.entries c)
    {calls : List (Call Uuid (Memory F))} {outs : List (Option (Memory F))} {d d' : Cache Uuid (Memory F)}
    (steps : Steps Memory.id wm.capacity c calls outs d) (steps' : Steps Memory.id wm.capacity c calls (wm.calls calls).1 d') :
    outs = (wm.calls calls).1 ∧ d = d' := by
  induction calls generalizing wm c outs with
  | nil =>
    cases steps
    cases steps'
    exact ⟨rfl,rfl⟩
  | cons call calls ih =>
    obtain ⟨e,step,represents'⟩ := call_step represents call
    cases steps with
    | cons first rest =>
      cases steps' with
      | cons first' rest' =>
        obtain ⟨out,same⟩ := represents.step_unique first step
        obtain ⟨-,same'⟩ := represents.step_unique first' step
        subst same same'
        obtain ⟨outs,same''⟩ := ih represents' (by rw [call_capacity]; exact rest) (by rw [call_capacity]; exact rest')
        exact ⟨by rw [out,outs]; rfl,same''⟩

/-- An added memory evicts at most one other, which was used longest ago, and everything else stays. -/
structure Adds (wm : WorkingMemory F) (c : Cache Uuid (Memory F)) (memory : Memory F) : Prop where
  oldest : ∀ evicted, (wm.add memory).1 = some evicted →
    evicted ∈ wm.all ∧ evicted.id ≠ memory.id ∧ ∀ other ∈ wm.all, other.id ≠ memory.id → c.used evicted.id ≤ c.used other.id
  kept : ∀ other, other ∈ (wm.add memory).2.all ↔ other = memory ∨ other ∈ wm.all ∧ other.id ≠ memory.id ∧ (wm.add memory).1 ≠ some other

/-- A memory leaves when it is replaced or evicted, removed, or cleared with the others. -/
def Leaves (call : Call Uuid (Memory F)) (out : Option (Memory F)) (m : Memory F) : Prop :=
  (∃ added, call = .add added ∧ (added.id = m.id ∨ out = some m)) ∨ call = .remove m.id ∨ call = .clear

theorem adds {wm : WorkingMemory F} {c : Cache Uuid (Memory F)} (represents : Represents Memory.id wm.entries c) (memory : Memory F) : Adds wm c memory := by
  obtain ⟨d,step,represents'⟩ := call_step represents (.add memory)
  have kept : ∀ other, other ∈ (wm.add memory).2.all ↔ d.held other.id = some other := represents'.mem
  cases out : (wm.add memory).1 with
  | none =>
    rw [show (wm.call (.add memory)).1 = none from out] at step
    cases step with
    | room _ room =>
      refine ⟨fun evicted found => absurd (found.symm.trans out) (Option.some_ne_none evicted),fun other => ?_⟩
      rw [kept,out,held_tick,held_put,WorkingMemory.all,represents.mem]
      by_cases same : other.id = memory.id
      · simp [same,eq_comm]
      · have differs : other ≠ memory := fun equal => same (congrArg Memory.id equal)
        simp [same,differs]
  | some victim =>
    rw [show (wm.call (.add memory)).1 = some victim from out] at step
    cases step with
    | evict _ _ full there oldest =>
      constructor
      · intro evicted found
        rw [← Option.some.inj (out.symm.trans found)]
        exact ⟨(represents.mem victim).mpr there.1,there.2,fun other member differs => oldest other ⟨(represents.mem other).mp member,differs⟩⟩
      · intro other
        rw [kept,out,held_tick,held_put,held_forget,WorkingMemory.all,represents.mem]
        by_cases same : other.id = memory.id
        · simp [same,eq_comm]
        · have differs : other ≠ memory := fun equal => same (congrArg Memory.id equal)
          by_cases evicted : other.id = victim.id
          · have only : c.held other.id = some other → victim = other := fun found => Option.some.inj (there.1.symm.trans (evicted ▸ found))
            rw [if_neg same,if_pos evicted]
            constructor
            · intro absent
              exact absurd absent.symm (Option.some_ne_none other)
            · rintro (equal | ⟨found,-,stays⟩)
              · exact absurd equal differs
              · exact absurd (congrArg some (only found)) stays
          · have stays : victim ≠ other := fun equal => evicted (congrArg Memory.id equal.symm)
            simp [same,differs,evicted,stays]

/-- In every reachable state the working memory is the ideal cache of its capacity. -/
theorem working_memory_lru (capacity : Nat) (positive : 0 < capacity) (calls : List (Call Uuid (Memory F))) :
    let result := (WorkingMemory.new capacity positive).calls calls
    ∃ c, Steps Memory.id capacity .empty calls result.1 c ∧ (∀ outs c', Steps Memory.id capacity .empty calls outs c' → outs = result.1 ∧ c' = c) ∧
      Represents Memory.id result.2.all c ∧ (result.2.all.map Memory.id).Nodup ∧ (∀ m ∈ result.2.all, lastAdded Memory.id calls m.id = some m) ∧
      result.2.len ≤ capacity ∧ (∀ memory, Adds result.2 c memory) ∧
      ∀ call m, m ∈ result.2.all → m ∉ (result.2.call call).2.all → Leaves call (result.2.call call).1 m := by
  intro result
  have fresh : Represents Memory.id (WorkingMemory.new capacity positive : WorkingMemory F).entries .empty := represents_clear .empty
  obtain ⟨c,steps,represents⟩ := calls_steps fresh calls
  refine ⟨c,steps,fun outs c' steps' => calls_unique fresh steps' steps,represents,result.2.distinct,?_,?_,fun memory => adds represents memory,?_⟩
  · intro m member
    rcases steps.held ((represents.mem m).mp member) with added | ⟨-,before⟩
    · exact added
    · exact absurd before.symm (Option.some_ne_none m)
  · exact result.2.bounded.trans (calls_capacity _ calls).le
  · intro call m member left
    obtain ⟨d,step,represents'⟩ := call_step represents call
    refine step.leaves ((represents.mem m).mp member) ?_
    exact fun stays => left ((represents'.mem m).mpr stays)

end

def note (id : Uuid) : Memory Int := ⟨id,.Working,.Hot,.null,0,0,0,0,[],none,none,none⟩

def threeNotes : List (Call Uuid (Memory Int)) := [.add (note 1),.add (note 2),.add (note 3),.get 1,.add (note 4)]

theorem three_notes_lru :
    let result := (WorkingMemory.new 3 (by decide)).calls threeNotes
    ∃ c, Steps Memory.id 3 .empty threeNotes result.1 c ∧ (∀ outs c', Steps Memory.id 3 .empty threeNotes outs c' → outs = result.1 ∧ c' = c) ∧
      Represents Memory.id result.2.all c ∧ (result.2.all.map Memory.id).Nodup ∧ (∀ m ∈ result.2.all, lastAdded Memory.id threeNotes m.id = some m) ∧
      result.2.len ≤ 3 ∧ (∀ memory, Adds result.2 c memory) ∧
      ∀ call m, m ∈ result.2.all → m ∉ (result.2.call call).2.all → Leaves call (result.2.call call).1 m :=
  working_memory_lru 3 (by decide) threeNotes

/-- The memory that was not read again is evicted. -/
example : ((WorkingMemory.new 3 (by decide)).calls threeNotes).1.map (·.map Memory.id) = [none,none,none,some 1,some 2] := by decide

end Daf.MemoryContext
