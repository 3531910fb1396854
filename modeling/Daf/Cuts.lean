import Mathlib.Data.List.Basic

/-!
A list cut at ascending positions: the pieces are not empty, make up the list, and end exactly at the positions.
-/
namespace Daf.Cuts

section
variable {α : Type}

/-- The pieces from each position to the next. -/
def cut : List Nat → Nat → List α → List (List α)
  | [],_,_ => []
  | stop :: stops,start,items => (items.take stop).drop start :: cut stops stop items

variable {stops : List Nat} {start : Nat} {items : List α}

@[simp] theorem length_cut : (cut stops start items).length = stops.length := by
  induction stops generalizing start with
  | nil => rfl
  | cons stop stops ih => exact congrArg (· + 1) ih

theorem take_cut (n : Nat) : (cut stops start items).take n = cut (stops.take n) start items := by
  induction stops generalizing start n with
  | nil => rw [List.take_nil,cut,List.take_nil]
  | cons stop stops ih =>
    cases n with
    | zero => rfl
    | succ n => exact congrArg (_ :: ·) (ih n)

theorem drop_take_append {stop last : Nat} (before : start ≤ stop) (behind : stop ≤ last) (inside : stop ≤ items.length) :
    (items.take stop).drop start ++ (items.take last).drop stop = (items.take last).drop start := by
  have front : items.take stop = (items.take last).take stop := by rw [List.take_take,Nat.min_eq_left behind]
  have length : start ≤ ((items.take last).take stop).length := by
    rw [← front,List.length_take]
    omega
  rw [front,← List.drop_append_of_le_length length,List.take_append_drop]

/-- The last position is behind the first ones. -/
theorem le_last {stop : Nat} (ascending : (stop :: stops).Pairwise (· < ·)) : stop ≤ (stop :: stops).getLast (List.cons_ne_nil _ _) := by
  rcases List.mem_cons.mp (List.getLast_mem (List.cons_ne_nil stop stops)) with same | later
  · exact Nat.le_of_eq same.symm
  · exact Nat.le_of_lt ((List.pairwise_cons.mp ascending).1 _ later)

/-- The pieces make up the list from the start to the last position. -/
theorem flatten_cut (ascending : (start :: stops).Pairwise (· < ·)) (inside : ∀ stop ∈ stops, stop ≤ items.length) :
    (cut stops start items).flatten = (items.take ((start :: stops).getLast (List.cons_ne_nil _ _))).drop start := by
  induction stops generalizing start with
  | nil => simp [cut]
  | cons stop stops ih =>
    rw [List.pairwise_cons] at ascending
    have rest := ih ascending.2 fun later member => inside later (List.mem_cons_of_mem stop member)
    rw [cut,List.flatten_cons,rest,List.getLast_cons_cons]
    exact drop_take_append (Nat.le_of_lt (ascending.1 stop List.mem_cons_self)) (le_last ascending.2) (inside stop List.mem_cons_self)

theorem cut_ne_nil (ascending : (start :: stops).Pairwise (· < ·)) (inside : ∀ stop ∈ stops, stop ≤ items.length) :
    ∀ piece ∈ cut stops start items, piece ≠ [] := by
  induction stops generalizing start with
  | nil => exact fun piece member => absurd member List.not_mem_nil
  | cons stop stops ih =>
    rw [List.pairwise_cons] at ascending
    intro piece member
    rcases List.mem_cons.mp member with rfl | later
    · have before := ascending.1 stop List.mem_cons_self
      have within := inside stop List.mem_cons_self
      refine List.ne_nil_of_length_pos ?_
      rw [List.length_drop,List.length_take]
      omega
    · exact ih ascending.2 (fun later member => inside later (List.mem_cons_of_mem stop member)) piece later

/-- The pieces end exactly at the positions. -/
theorem ends_cut (ascending : (0 :: stops).Pairwise (· < ·)) (inside : ∀ stop ∈ stops, stop ≤ items.length) {i : Nat} (positive : 0 < i) :
    (∃ k, ((cut stops 0 items).take k).flatten.length = i) ↔ i ∈ stops := by
  have length : ∀ k, ((cut stops 0 items).take k).flatten.length = (0 :: stops.take k).getLast (List.cons_ne_nil _ _) := by
    intro k
    have sub : (0 :: stops.take k).Sublist (0 :: stops) := (List.take_sublist k stops).cons_cons 0
    rw [take_cut,flatten_cut (ascending.sublist sub) fun stop member => inside stop (List.mem_of_mem_take member),List.drop_zero,List.length_take]
    rcases List.mem_cons.mp (List.getLast_mem (List.cons_ne_nil 0 (stops.take k))) with none_yet | member
    · rw [none_yet]
      exact Nat.zero_min _
    · exact Nat.min_eq_left (inside _ (List.mem_of_mem_take member))
  constructor
  · rintro ⟨k,rfl⟩
    rw [length] at positive ⊢
    rcases List.mem_cons.mp (List.getLast_mem (List.cons_ne_nil 0 (stops.take k))) with none_yet | member
    · omega
    · exact List.mem_of_mem_take member
  · intro member
    obtain ⟨n,inside',rfl⟩ := List.getElem_of_mem member
    refine ⟨n + 1,?_⟩
    rw [length]
    have last : stops.take (n + 1) = stops.take n ++ [stops[n]] := by
      rw [List.take_add_one,List.getElem?_eq_getElem inside',Option.toList_some]
    have whole : 0 :: stops.take (n + 1) = (0 :: stops.take n) ++ [stops[n]] := by rw [last,List.cons_append]
    rw [List.getLast_congr _ (by simp) whole,List.getLast_append_singleton]

/-- Each piece starts where the one before it ends. -/
theorem head_cut (ascending : (start :: stops).Pairwise (· < ·)) {k : Nat} {piece : List α} (there : (cut stops start items)[k]? = some piece) :
    ∃ begin, (start :: stops)[k]? = some begin ∧ piece.head? = items[begin]? := by
  induction stops generalizing start k with
  | nil => simp [cut] at there
  | cons stop stops ih =>
    rw [List.pairwise_cons] at ascending
    cases k with
    | zero =>
      have first : (items.take stop).drop start = piece := by simpa [cut] using there
      refine ⟨start,rfl,?_⟩
      rw [← first,List.head?_drop,List.getElem?_take_of_lt (ascending.1 stop List.mem_cons_self)]
    | succ k =>
      rw [cut,List.getElem?_cons_succ] at there
      exact ih ascending.2 there

/-! ### Where pieces end -/

/-- Some of the first pieces are this long together. -/
def CutAt (pieces : List (List α)) (n : Nat) : Prop := ∃ k, ((pieces.take k).flatten).length = n

theorem cutAt_total (pieces : List (List α)) : CutAt pieces pieces.flatten.length := ⟨pieces.length,by rw [List.take_length]⟩

theorem cutAt_le {pieces : List (List α)} {n : Nat} (there : CutAt pieces n) : n ≤ pieces.flatten.length := by
  obtain ⟨k,rfl⟩ := there
  have whole : pieces.flatten = (pieces.take k).flatten ++ (pieces.drop k).flatten := by rw [← List.flatten_append,List.take_append_drop]
  rw [whole,List.length_append]
  exact Nat.le_add_right _ _

/-- One more piece ends behind the others. -/
theorem cutAt_concat {pieces : List (List α)} {piece : List α} {n : Nat} :
    CutAt (pieces ++ [piece]) n ↔ CutAt pieces n ∨ n = pieces.flatten.length + piece.length := by
  constructor
  · rintro ⟨k,rfl⟩
    rcases Nat.lt_or_ge pieces.length k with behind | inside
    · refine .inr ?_
      rw [List.take_of_length_le (by rw [List.length_append,List.length_singleton]; omega)]
      simp
    · rw [List.take_append_of_le_length inside]
      exact .inl ⟨k,rfl⟩
  · rintro (⟨k,rfl⟩ | rfl)
    · refine ⟨min k pieces.length,?_⟩
      rw [List.take_append_of_le_length (Nat.min_le_right _ _)]
      rcases Nat.le_total k pieces.length with inside | behind
      · rw [Nat.min_eq_left inside]
      · rw [Nat.min_eq_right behind,List.take_of_length_le behind,List.take_length]
    · refine ⟨(pieces ++ [piece]).length,?_⟩
      rw [List.take_length]
      simp

/-- While the last piece grows, the pieces end before it where they did. -/
theorem cutAt_grow {pieces : List (List α)} {piece : List α} (more : List α) {n : Nat} (less : n < (pieces ++ [piece]).flatten.length) :
    CutAt (pieces ++ [piece ++ more]) n ↔ CutAt (pieces ++ [piece]) n := by
  have total : (pieces ++ [piece]).flatten.length = pieces.flatten.length + piece.length := by simp
  rw [cutAt_concat,cutAt_concat,List.length_append]
  constructor <;> exact fun there => .inl (there.resolve_right (by omega))

/-- A piece that has grown does not end where it ended. -/
theorem not_cutAt_grow {pieces : List (List α)} {piece more : List α} (filled : piece ≠ []) (grows : more ≠ []) :
    ¬ CutAt (pieces ++ [piece ++ more]) (pieces ++ [piece]).flatten.length := by
  have long := List.length_pos_of_ne_nil filled
  have longer := List.length_pos_of_ne_nil grows
  have total : (pieces ++ [piece]).flatten.length = pieces.flatten.length + piece.length := by simp
  rw [total]
  intro there
  rcases cutAt_concat.mp there with earlier | last
  · have bound := cutAt_le earlier
    omega
  · rw [List.length_append] at last
    omega

end
end Daf.Cuts
