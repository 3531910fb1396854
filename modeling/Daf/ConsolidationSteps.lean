import Daf.Consolidation

/-!
What the phases of a consolidation can do to a store, one memory or one pair at a time, and the rules by which an invariant
of the store is kept through each of them.
-/
namespace Daf.ConsolidationSteps
open Daf.UuidText Daf.Memories Daf.Consolidation

/-- The tag of what is distilled from a memory. -/
def distilled_from (id : Uuid) : String := "distilled_from:mem:" ++ toText id

theorem distilled_from_injective {a b : Uuid} (same : distilled_from a = distilled_from b) : a = b := by
  unfold distilled_from at same
  generalize "distilled_from:mem:" = before at same
  have chars := congrArg String.toList same
  rw [String.toList_append,String.toList_append] at chars
  have texts := List.append_cancel_left chars
  rw [toText,toText,String.toList_ofList,String.toList_ofList] at texts
  exact toChars_inj texts

theorem isProvenance_distilled_from (id : Uuid) : isProvenance (distilled_from id) = true := by
  have literal : "distilled_from:".toList ++ "mem:".toList = "distilled_from:mem:".toList := by decide
  unfold isProvenance distilled_from
  rw [String.toList_append,← literal,List.append_assoc,List.isPrefixOf_iff_prefix]
  exact List.prefix_append _ _

section
variable {F : Type} [LinearOrder F]

/-- A memory is distilled: an important episode that nothing in the store was distilled from. -/
structure Wanted (scores : Scores F) (s : Store F) (m : Memory F) : Prop where
  kind : m.kind = .Episodic
  important : scores.distill_floor ≤ m.importance
  first : ∀ old ∈ s.memories, distilled_from m.id ∉ old.tags

variable {scores : Scores F} {config : ConsolidationConfig F} {out : Surroundings} {s : Store F} {memories : List (Memory F)} {I : Store F → Prop}

omit [LinearOrder F] in
theorem list_by_nil {key : Uuid → Nat} {holds : Memory F → Bool} : s.list_by key 1 holds = [] ↔ ∀ m ∈ s.memories, holds m = false := by
  rw [Store.list_by,List.take_eq_nil_iff,or_iff_right (by decide),List.filter_eq_nil_iff]
  simp only [mem_iter,Bool.not_eq_true]

theorem distillOne_wanted {state : Store F × List Uuid} {m : Memory F} (wanted : Wanted scores state.1 m) :
    distillOne scores out state m = (state.1.insert (distillate scores out.now (out.draw m.id) m),state.2 ++ [out.draw m.id]) := by
  rw [distillOne,if_neg (not_not.mpr wanted.kind),if_neg wanted.important.not_gt,if_neg (not_not.mpr (Iff.mpr list_by_nil fun old stored => ?_))]
  exact Bool.not_eq_true _ ▸ mt List.contains_iff_mem.mp (wanted.first old stored)

theorem distillOne_skips {state : Store F × List Uuid} {m : Memory F} (unwanted : ¬ Wanted scores state.1 m) : distillOne scores out state m = state := by
  unfold distillOne
  split_ifs with kind important first
  · rfl
  · rfl
  · rfl
  · refine absurd ⟨not_not.mp kind,not_lt.mp important,fun old stored => ?_⟩ unwanted
    exact fun tagged => Bool.false_ne_true ((list_by_nil.mp (not_not.mp first) old stored).symm.trans (List.contains_iff_mem.mpr tagged))

theorem distill_keeps {state : Store F × List Uuid}
    (create : ∀ s, ∀ m ∈ memories, Wanted scores s m → I s → I (s.insert (distillate scores out.now (out.draw m.id) m)))
    (holds : I state.1) : I (memories.foldl (distillOne scores out) state).1 := by
  refine List.foldlRecOn (motive := fun state : Store F × List Uuid => I state.1) memories _ holds fun state holds m member => ?_
  by_cases wanted : Wanted scores state.1 m
  · rw [distillOne_wanted wanted]
    exact create state.1 m member wanted holds
  · rwa [distillOne_skips wanted]

/-- A merge of two memories of a batch keeps the invariant: what is stored under the first takes up the second, which is deleted. -/
def PairKeeps (scores : Scores F) (config : ConsolidationConfig F) (I : Store F → Prop) (memories : List (Memory F)) : Prop :=
  ∀ s, ∀ i ∈ memories, ∀ j ∈ memories, i.id ≠ j.id → alike scores config i j = true → ∀ kept, s.retrieve i.id = some kept → I s →
    I ((s.insert (absorb kept j)).remove j.id)

theorem group_keeps {acc : Merging F} (pair : PairKeeps scores config I memories) (distinct : (memories.map Memory.id).Nodup) (holds : I acc.store) :
    I (mergeGroup scores config acc memories).store := by
  induction memories generalizing acc with
  | nil => exact holds
  | cons i rest ih =>
    rw [List.map_cons,List.nodup_cons] at distinct
    rw [mergeGroup]
    refine ih (fun s i first j second => pair s i (List.mem_cons_of_mem _ first) j (List.mem_cons_of_mem _ second)) distinct.2 ?_
    split
    · exact holds
    · refine List.foldlRecOn (motive := fun acc : Merging F => I acc.store) rest _ holds fun acc holds j member => ?_
      cases found : keeper scores config acc i j with
      | none => rwa [mergePair_none found]
      | some kept =>
        rw [mergePair_some found]
        obtain ⟨similar,-,read⟩ := keeper_some found
        have apart : i.id ≠ j.id := fun equal => distinct.1 (equal ▸ List.mem_map_of_mem member)
        exact pair acc.store i List.mem_cons_self j (List.mem_cons_of_mem _ member) apart similar kept read holds

theorem merge_keeps {acc : Merging F} (pair : PairKeeps scores config I memories) (distinct : (memories.map Memory.id).Nodup) (holds : I acc.store) :
    I (merge_similar_batch scores config out acc memories).store := by
  refine List.foldlRecOn (motive := fun acc : Merging F => I acc.store) (kinds out) _ holds fun acc holds kind _ => ?_
  refine group_keeps (fun s i first j second => ?_) (group_distinct distinct kind) holds
  exact pair s i (mem_group.mp first).1 j (mem_group.mp second).1

end
end Daf.ConsolidationSteps
