import Mathlib.Algebra.Ring.Nat
import Mathlib.Data.List.Basic

/-!
Runs of a system that takes one event at a time, and what holds in every state that they reach: of all
runs, or of those each of whose steps meets a condition on the state before it.
-/
namespace Daf.Runs

section
variable {σ ε : Type} (step : σ → ε → σ)

def run (s : σ) (events : List ε) : σ := events.foldl step s

/-- Every step of the run meets the condition. -/
def Every (ok : σ → ε → Prop) : σ → List ε → Prop
  | _,[] => True
  | s,event :: events => ok s event ∧ Every ok (step s event) events

instance decidableEvery (ok : σ → ε → Prop) [∀ s event, Decidable (ok s event)] : ∀ s events, Decidable (Every step ok s events)
  | _,[] => isTrue trivial
  | s,event :: events => have := decidableEvery ok (step s event) events; inferInstanceAs (Decidable (_ ∧ _))

variable {step} {ok : σ → ε → Prop} {I : σ → Prop} {s : σ}

theorem run_append (events more : List ε) : run step s (events ++ more) = run step (run step s events) more := List.foldl_append

theorem run_snoc (events : List ε) (event : ε) : run step s (events ++ [event]) = step (run step s events) event := by
  rw [run_append]
  rfl

theorem Every.invariant (keeps : ∀ s event, I s → ok s event → I (step s event)) {events : List ε} (every : Every step ok s events) (initial : I s) :
    I (run step s events) := by
  induction events generalizing s with
  | nil => exact initial
  | cons event events ih => exact ih every.2 (keeps s event initial every.1)

theorem Every.and {ok' : σ → ε → Prop} {events : List ε} (every : Every step ok s events) (also : Every step ok' s events) :
    Every step (fun s event => ok s event ∧ ok' s event) s events := by
  induction events generalizing s with
  | nil => trivial
  | cons event events ih => exact ⟨⟨every.1,also.1⟩,ih every.2 also.2⟩

/-- What is true of all events of a run is true at each of its steps. -/
theorem every_of_mem {P : ε → Prop} {events : List ε} (all : ∀ event ∈ events, P event) : Every step (fun _ event => P event) s events := by
  induction events generalizing s with
  | nil => trivial
  | cons event events ih => exact ⟨all event List.mem_cons_self,ih fun later member => all later (List.mem_cons_of_mem _ member)⟩

/-- What every step keeps holds after every run. -/
theorem invariant (keeps : ∀ s event, I s → I (step s event)) (initial : I s) (events : List ε) : I (run step s events) := by
  induction events generalizing s with
  | nil => exact initial
  | cons event events ih => exact ih (keeps s event initial)

theorem every_append {events more : List ε} : Every step ok s (events ++ more) ↔ Every step ok s events ∧ Every step ok (run step s events) more := by
  induction events generalizing s with
  | nil => exact ⟨fun every => ⟨trivial,every⟩,fun every => every.2⟩
  | cons event events ih =>
    show ok s event ∧ Every step ok (step s event) (events ++ more) ↔ (ok s event ∧ Every step ok (step s event) events) ∧ _
    rw [ih,and_assoc]
    rfl

/-- Conditions that agree where an invariant holds agree on runs that keep it. -/
theorem every_congr {ok' : σ → ε → Prop} (same : ∀ s event, I s → (ok s event ↔ ok' s event)) (keeps : ∀ s event, I s → ok s event → I (step s event))
    (initial : I s) {events : List ε} : Every step ok s events ↔ Every step ok' s events := by
  induction events generalizing s with
  | nil => exact Iff.rfl
  | cons event events ih =>
    constructor
    · rintro ⟨first,rest⟩
      exact ⟨(same s event initial).mp first,(ih (keeps s event initial first)).mp rest⟩
    · rintro ⟨first,rest⟩
      have met := (same s event initial).mpr first
      exact ⟨met,(ih (keeps s event initial met)).mpr rest⟩

end

/-! ### Systems that answer -/

section
variable {σ τ ι ο : Type}

/-- The answers to the requests, one after the other, and the state behind them. -/
def replies (answer : σ → ι → ο × σ) : σ → List ι → List ο × σ
  | s,[] => ([],s)
  | s,request :: later =>
    let (reply,t) := answer s request
    let (rest,last) := replies answer t later
    (reply :: rest,last)

/-- From related states on the system answers as the other one does, as long as the states that it comes to are fine. -/
def Implements (answer : σ → ι → ο × σ) (spec : τ → ι → ο × τ) (R : τ → σ → Prop) (fine : σ → Prop) : Prop :=
  ∀ t s, R t s → ∀ request, fine (answer s request).2 →
    (answer s request).1 = (spec t request).1 ∧ R (spec t request).2 (answer s request).2

variable {answer : σ → ι → ο × σ} {spec : τ → ι → ο × τ} {R : τ → σ → Prop} {fine : σ → Prop}

theorem fine_before (earlier : ∀ s request, fine (answer s request).2 → fine s) {s : σ} {requests : List ι} (last : fine (replies answer s requests).2) :
    fine s := by
  induction requests generalizing s with
  | nil => exact last
  | cons request later ih => exact earlier s request (ih last)

theorem Implements.replies (implements : Implements answer spec R fine) (earlier : ∀ s request, fine (answer s request).2 → fine s) {t : τ} {s : σ}
    (related : R t s) (requests : List ι) (last : fine (replies answer s requests).2) :
    (replies answer s requests).1 = (replies spec t requests).1 ∧ R (Runs.replies spec t requests).2 (Runs.replies answer s requests).2 := by
  induction requests generalizing t s with
  | nil => exact ⟨rfl,related⟩
  | cons request later ih =>
    obtain ⟨same,next⟩ := implements t s related request (fine_before earlier last)
    obtain ⟨rest,after⟩ := ih next last
    exact ⟨congrArg₂ List.cons same rest,after⟩

end
end Daf.Runs
