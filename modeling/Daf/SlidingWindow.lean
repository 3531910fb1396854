import Mathlib.Algebra.Order.Monoid.Defs
import Mathlib.Data.List.Basic

/-!
A log of instants under a budget for every interval of a fixed length. The log is kept
in two parts: the instants that are too old to matter, and the recent ones that count
against the next batch.
-/
namespace Daf.SlidingWindow
variable {G : Type} [AddCommMonoid G] [LinearOrder G]

/-- The number of instants in the closed interval that starts at `start`. -/
def within (window start : G) (log : List G) : Nat := log.countP (fun t => start ≤ t ∧ t ≤ start + window)

/-- No interval of the length holds more than `most` instants. -/
def Bounded (window : G) (most : Nat) (log : List G) : Prop := ∀ start, within window start log ≤ most

variable {window now : G} {most : Nat}

theorem bounded_nil : Bounded window most ([] : List G) := fun _ => Nat.zero_le most

theorem within_eq_zero {start : G} {log : List G} (outside : ∀ t ∈ log, ¬ (start ≤ t ∧ t ≤ start + window)) :
    within window start log = 0 := by
  rw [within,List.countP_eq_zero]
  intro t member inside
  exact outside t member (by simpa using inside)

theorem within_le_length (start : G) (log : List G) : within window start log ≤ log.length := List.countP_le_length

theorem within_append (start : G) (log later : List G) :
    within window start (log ++ later) = within window start log + within window start later := List.countP_append

/-- A batch at or after `now` fits when it fits beside the part of the log that is not older than the window. -/
theorem Bounded.append [IsOrderedCancelAddMonoid G] {old recent batch : List G} (bounded : Bounded window most (old ++ recent))
    (expired : ∀ t ∈ old, t + window < now) (later : ∀ t ∈ batch, now ≤ t) (room : recent.length + batch.length ≤ most) :
    Bounded window most (old ++ recent ++ batch) := by
  intro start
  by_cases reached : ∃ t ∈ batch, start ≤ t ∧ t ≤ start + window
  · -- the interval reaches the batch, so it starts after the expired part
    obtain ⟨t,member,_,upper⟩ := reached
    have empty : within window start old = 0 := by
      apply within_eq_zero
      intro e inside inner
      have far : e + window < start + window := (expired e inside).trans_le ((later t member).trans upper)
      exact (not_lt_of_ge inner.1) (lt_of_add_lt_add_right far)
    rw [within_append,within_append,empty]
    have first : within window start recent ≤ _ := within_le_length start recent
    have second : within window start batch ≤ _ := within_le_length start batch
    omega
  · have none : within window start batch = 0 := within_eq_zero (fun t member inside => reached ⟨t,member,inside⟩)
    rw [within_append,none]
    exact bounded start

end Daf.SlidingWindow
