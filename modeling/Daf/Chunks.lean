import Mathlib.Data.List.Basic
import Mathlib.Data.List.Nodup

/-!
Lists cut into chunks of a bounded size, and the chunks of several lists one behind the other, each with the list it comes from.
-/
namespace Daf.Chunks

section
variable {α β : Type}

/-- The chunks of a list that is at most so long. -/
def cut (size : Nat) : Nat → List α → List (List α)
  | 0,_ => []
  | _ + 1,[] => []
  | length + 1,a :: l => (a :: l).take size :: cut size length ((a :: l).drop size)

/-- All chunks but the last have the size. -/
def chunks (size : Nat) (l : List α) : List (List α) := cut size l.length l

theorem cut_flatten {size : Nat} (positive : 0 < size) (length : Nat) : ∀ l : List α, l.length ≤ length → (cut size length l).flatten = l := by
  induction length with
  | zero =>
    intro l short
    rw [List.eq_nil_of_length_eq_zero (Nat.le_zero.mp short)]
    rfl
  | succ length ih =>
    intro l short
    cases l with
    | nil => rfl
    | cons a l =>
      have shorter : ((a :: l).drop size).length ≤ length := by
        rw [List.length_drop]
        omega
      rw [cut,List.flatten_cons,ih _ shorter,List.take_append_drop]

theorem chunks_flatten {size : Nat} (positive : 0 < size) (l : List α) : (chunks size l).flatten = l := cut_flatten positive l.length l (Nat.le_refl _)

theorem mem_chunks {size : Nat} (positive : 0 < size) {l chunk : List α} (member : chunk ∈ chunks size l) : chunk ≠ [] ∧ chunk.length ≤ size := by
  unfold chunks at member
  generalize l.length = length at member
  induction length generalizing l with
  | zero => cases member
  | succ length ih =>
    cases l with
    | nil => cases member
    | cons a l =>
      rcases List.mem_cons.mp member with rfl | later
      · refine ⟨fun empty => ?_,by rw [List.length_take]; exact Nat.min_le_left _ _⟩
        have nothing := congrArg List.length empty
        simp only [List.length_take,List.length_cons,List.length_nil] at nothing
        omega
      · exact ih later

theorem chunks_ne_nil {size : Nat} {l : List α} (filled : l ≠ []) : chunks size l ≠ [] := by
  cases l with
  | nil => exact absurd rfl filled
  | cons a l => exact List.cons_ne_nil _ _

/-! ### One list behind the other -/

/-- The parts of each element, with the element. -/
def tagged (parts : α → List β) (order : List α) : List (α × β) := order.flatMap fun a => (parts a).map (a,·)

variable {parts : α → List β} {order before after : List α} {a b : α}

theorem tagged_append (parts : α → List β) (before after : List α) : tagged parts (before ++ after) = tagged parts before ++ tagged parts after :=
  List.flatMap_append

theorem mem_tagged {x : α × β} : x ∈ tagged parts order ↔ x.1 ∈ order ∧ x.2 ∈ parts x.1 := by
  obtain ⟨a,p⟩ := x
  simp only [tagged,List.mem_flatMap,List.mem_map,Prod.mk.injEq]
  constructor
  · rintro ⟨b,listed,q,part,rfl,rfl⟩
    exact ⟨listed,part⟩
  · rintro ⟨listed,part⟩
    exact ⟨a,listed,p,part,rfl,rfl⟩

/-- The parts of an element that is there once. -/
theorem tagged_filter [DecidableEq α] (distinct : order.Nodup) (listed : a ∈ order) :
    ((tagged parts order).filter fun x => x.1 = a).map Prod.snd = parts a := by
  have none_else : ∀ l : List α, a ∉ l → (tagged parts l).filter (fun x => x.1 = a) = [] := by
    intro l outside
    rw [List.filter_eq_nil_iff]
    intro x member
    simpa using fun same : x.1 = a => outside (same ▸ (Iff.mp mem_tagged member).1)
  obtain ⟨before,after,rfl⟩ := List.append_of_mem listed
  obtain ⟨-,rest,apart⟩ := List.nodup_append.mp distinct
  have early : a ∉ before := fun there => apart a there a List.mem_cons_self rfl
  have late : a ∉ after := (List.nodup_cons.mp rest).1
  have own : ((parts a).map (a,·)).filter (fun x => x.1 = a) = (parts a).map (a,·) := List.filter_eq_self.mpr fun x member => by
    obtain ⟨p,-,rfl⟩ := List.mem_map.mp member
    simp
  rw [tagged_append,List.filter_append,none_else before early,List.nil_append,tagged,List.flatMap_cons,List.filter_append,own,← tagged,
    none_else after late,List.append_nil,List.map_map]
  exact List.map_id' _

/-- Behind the first part of an element come the others of it and those of later elements. -/
theorem tagged_at (parts : α → List β) (before after : List α) (a : α) (filled : parts a ≠ []) :
    ∃ p, (tagged parts (before ++ a :: after))[(tagged parts before).length]? = some (a,p) := by
  obtain ⟨p,rest,split⟩ := List.exists_cons_of_ne_nil filled
  refine ⟨p,?_⟩
  rw [tagged_append,List.getElem?_append_right (Nat.le_refl _),Nat.sub_self,tagged,List.flatMap_cons,split]
  rfl

/-- All parts of `b` come before those of `a` exactly when `b` does. -/
theorem tagged_before_iff (distinct : order.Nodup) (a_listed : a ∈ order) (b_listed : b ∈ order) (a_filled : parts a ≠ []) (b_filled : parts b ≠ []) :
    (∀ (k l : Nat) p q, (tagged parts order)[k]? = some (a,p) → (tagged parts order)[l]? = some (b,q) → l < k) ↔
      ∃ before after, order = before ++ a :: after ∧ b ∈ before := by
  obtain ⟨before,after,rfl⟩ := List.append_of_mem a_listed
  obtain ⟨-,rest,apart⟩ := List.nodup_append.mp distinct
  have early : a ∉ before := fun there => apart a there a List.mem_cons_self rfl
  constructor
  · intro later
    refine ⟨before,after,rfl,?_⟩
    by_contra outside
    have behind : b ∈ a :: after := (List.mem_append.mp b_listed).resolve_left outside
    obtain ⟨p,first⟩ := tagged_at parts before after a a_filled
    obtain ⟨middle,rest,split⟩ := List.append_of_mem behind
    obtain ⟨q,place⟩ := tagged_at parts (before ++ middle) rest b b_filled
    have whole : before ++ a :: after = (before ++ middle) ++ b :: rest := by rw [split,List.append_assoc]
    have small := later _ _ p q first (by rw [whole]; exact place)
    rw [tagged_append,List.length_append] at small
    omega
  · rintro ⟨before',after',split,member⟩ k l p q at_k at_l
    have same : before' = before := by
      have early' : a ∉ before' := fun there => (List.nodup_append.mp (split ▸ distinct)).2.2 a there a List.mem_cons_self rfl
      classical
      have places := congrArg (List.idxOf a) split
      rw [List.idxOf_append_of_notMem early,List.idxOf_append_of_notMem early',List.idxOf_cons_self,List.idxOf_cons_self] at places
      exact ((List.append_inj split (by omega)).1).symm
    subst same
    rw [tagged_append] at at_k at_l
    have high : (tagged parts before').length ≤ k := by
      by_contra low
      rw [List.getElem?_append_left (by omega)] at at_k
      exact early (mem_tagged.mp (List.mem_of_getElem? at_k)).1
    have low : l < (tagged parts before').length := by
      by_contra high
      rw [List.getElem?_append_right (by omega)] at at_l
      have behind := (mem_tagged.mp (List.mem_of_getElem? at_l)).1
      exact apart b member b behind rfl
    omega

end
end Daf.Chunks
