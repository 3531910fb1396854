import Daf.Interrupted

/-!
Programs that return a value, fail with an error, or are interrupted. A specification says
separately what holds in each of the three cases.
-/
namespace Daf.Fallible
open Daf.Interrupted

abbrev Call (ε σ α : Type) := ExceptT ε (Prog σ) α

/-- How a program ends: with a value or an error, or interrupted; and the state it leaves. -/
abbrev Ending (ε σ α : Type) := Option (Except ε α) × σ

section
variable {ε σ α β : Type}

/-- The program that does this. -/
def step (f : σ → Ending ε σ α) : Call ε σ α := ExceptT.mk (OptionT.mk (f : StateM σ (Option (Except ε α))))

def ending (m : Call ε σ α) (s : σ) : Ending ε σ α := exec m.run s

/-- Go on after a value. -/
def continue_ (f : α → Call ε σ β) : Ending ε σ α → Ending ε σ β
  | (some (.ok a),t) => ending (f a) t
  | (some (.error e),t) => (some (.error e),t)
  | (none,t) => (none,t)

@[simp] theorem ending_step (f : σ → Ending ε σ α) (s : σ) : ending (step f) s = f s := rfl
@[simp] theorem ending_pure (a : α) (s : σ) : ending (pure a : Call ε σ α) s = (some (.ok a),s) := rfl
@[simp] theorem ending_throw (e : ε) (s : σ) : ending (throw e : Call ε σ α) s = (some (.error e),s) := rfl

theorem ending_bind (m : Call ε σ α) (f : α → Call ε σ β) (s : σ) : ending (m >>= f) s = continue_ f (ending m s) := by
  have run : (m >>= f).run = (m.run >>= ExceptT.bindCont f : Prog σ _) := rfl
  rw [ending,run,exec_bind]
  show goOn _ (ending m s) = _
  rcases ending m s with ⟨_ | e | a,t⟩ <;> rfl

/-- Started with `P`, a program returns with `Q`, fails with `E` or is interrupted with `D`. -/
def Spec (P : σ → Prop) (m : Call ε σ α) (Q : α → σ → Prop) (E : ε → σ → Prop) (D : σ → Prop) : Prop :=
  ∀ s, P s → match ending m s with
    | (some (.ok a),t) => Q a t
    | (some (.error e),t) => E e t
    | (none,t) => D t

variable {P : σ → Prop} {m : Call ε σ α} {Q : α → σ → Prop} {E : ε → σ → Prop} {D : σ → Prop}

theorem Spec.returns (spec : Spec P m Q E D) {s t : σ} {a : α} (before : P s) (ended : ending m s = (some (.ok a),t)) : Q a t := by
  have := spec s before
  rw [ended] at this
  exact this

theorem Spec.fails (spec : Spec P m Q E D) {s t : σ} {e : ε} (before : P s) (ended : ending m s = (some (.error e),t)) : E e t := by
  have := spec s before
  rw [ended] at this
  exact this

theorem Spec.interrupted (spec : Spec P m Q E D) {s t : σ} (before : P s) (ended : ending m s = (none,t)) : D t := by
  have := spec s before
  rw [ended] at this
  exact this

theorem spec_pure {a : α} (post : ∀ s, P s → Q a s) : Spec P (pure a) Q E D := fun s before => post s before

theorem spec_throw {e : ε} (post : ∀ s, P s → E e s) : Spec P (throw e) Q E D := fun s before => post s before

theorem spec_bind {R : α → σ → Prop} {Q : β → σ → Prop} {f : α → Call ε σ β} (first : Spec P m R E D) (rest : ∀ a, Spec (R a) (f a) Q E D) :
    Spec P (m >>= f) Q E D := by
  intro s before
  rw [ending_bind]
  rcases ended : ending m s with ⟨_ | e | a,t⟩
  · exact first.interrupted before ended
  · exact first.fails before ended
  · exact rest a t (first.returns before ended)

theorem Spec.weaken {P' : σ → Prop} {Q' : α → σ → Prop} {E' : ε → σ → Prop} {D' : σ → Prop} (spec : Spec P m Q E D) (pre : ∀ s, P' s → P s)
    (post : ∀ a s, Q a s → Q' a s) (error : ∀ e s, E e s → E' e s) (drop : ∀ s, D s → D' s) : Spec P' m Q' E' D' := by
  intro s before
  rcases ended : ending m s with ⟨_ | e | a,t⟩
  · exact drop t (spec.interrupted (pre s before) ended)
  · exact error e t (spec.fails (pre s before) ended)
  · exact post a t (spec.returns (pre s before) ended)

theorem Spec.pre {P' : σ → Prop} (spec : Spec P m Q E D) (imp : ∀ s, P' s → P s) : Spec P' m Q E D :=
  spec.weaken imp (fun _ _ same => same) (fun _ _ same => same) (fun _ same => same)

theorem Spec.post {Q' : α → σ → Prop} (spec : Spec P m Q E D) (imp : ∀ a s, Q a s → Q' a s) : Spec P m Q' E D :=
  spec.weaken (fun _ same => same) imp (fun _ _ same => same) (fun _ same => same)

/-- A program that cannot fail returns. -/
theorem Spec.total {s : σ} (spec : Spec P m Q (fun _ _ => False) (fun _ => False)) (before : P s) :
    ∃ a t, ending m s = (some (.ok a),t) ∧ Q a t := by
  rcases ended : ending m s with ⟨_ | e | a,t⟩
  · exact (spec.interrupted before ended).elim
  · exact (spec.fails before ended).elim
  · exact ⟨a,t,rfl,spec.returns before ended⟩

/-- A program that can only fail does. -/
theorem Spec.refuses {s : σ} (spec : Spec P m (fun _ _ => False) E (fun _ => False)) (before : P s) :
    ∃ e t, ending m s = (some (.error e),t) ∧ E e t := by
  rcases ended : ending m s with ⟨_ | e | a,t⟩
  · exact (spec.interrupted before ended).elim
  · exact ⟨e,t,rfl,spec.fails before ended⟩
  · exact (spec.returns before ended).elim

/-- However it ends, the program keeps this. -/
def Invariant (P : σ → Prop) (m : Call ε σ α) : Prop := Spec P m (fun _ => P) (fun _ => P) P

theorem Invariant.after {s : σ} (invariant : Invariant P m) (before : P s) : P (ending m s).2 := by
  have after := invariant s before
  rcases ended : ending m s with ⟨_ | _ | _,t⟩
  all_goals
    rw [ended] at after
    exact after

theorem invariant_step {f : σ → Ending ε σ α} (keeps : ∀ s, P s → P (f s).2) : Invariant P (step f) := by
  intro s before
  have after := keeps s before
  rw [ending_step]
  generalize f s = ended at after ⊢
  rcases ended with ⟨_ | _ | _,t⟩ <;> exact after

theorem spec_ite {c : Prop} [Decidable c] {n : Call ε σ α} (yes : c → Spec P m Q E D) (no : ¬ c → Spec P n Q E D) :
    Spec P (if c then m else n) Q E D := by
  by_cases holds : c
  · rw [if_pos holds]
    exact yes holds
  · rw [if_neg holds]
    exact no holds

end
end Daf.Fallible
