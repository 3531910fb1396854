import Mathlib.Init

/-!
Programs over a state that can be interrupted at any point. An interrupted program
leaves the state as it is at that point and returns nothing. A triple says what holds
when a program returns and, separately, what holds when it was interrupted.
-/
namespace Daf.Interrupted

/-- A program that returns a value or is interrupted. -/
abbrev Prog (σ α : Type) := OptionT (StateM σ) α

section
variable {σ α β : Type}

def exec (m : Prog σ α) (s : σ) : Option α × σ := (m.run.run s).run

@[simp] theorem exec_pure (a : α) (s : σ) : exec (pure a : Prog σ α) s = (some a,s) := rfl
@[simp] theorem exec_failure (s : σ) : exec (failure : Prog σ α) s = (none,s) := rfl
@[simp] theorem exec_get (s : σ) : exec (get : Prog σ σ) s = (some s,s) := rfl
@[simp] theorem exec_set (s t : σ) : exec (set t : Prog σ PUnit) s = (some ⟨⟩,t) := rfl
@[simp] theorem exec_modify (f : σ → σ) (s : σ) : exec (modify f : Prog σ PUnit) s = (some ⟨⟩,f s) := rfl

/-- Go on after a program, unless it was interrupted. -/
def goOn (f : α → Prog σ β) : Option α × σ → Option β × σ
  | (some a,t) => exec (f a) t
  | (none,t) => (none,t)

theorem exec_bind (m : Prog σ α) (f : α → Prog σ β) (s : σ) : exec (m >>= f) s = goOn f (exec m s) := by
  have run : exec (m >>= f) s = (m.run >>= fun a => a.elim (pure none) (fun a => (f a).run)) s := by
    simp [exec,OptionT.run_bind,Option.elimM]
    rfl
  rw [run]
  show (match exec m s with | (a,t) => (a.elim (pure none) (fun a => (f a).run) : StateM σ _) t) = _
  rcases exec m s with ⟨_ | a,t⟩ <;> rfl

/-- Started in a state with `P`, a program returns with `Q` or is interrupted with `D`. -/
def Triple (P : σ → Prop) (m : Prog σ α) (Q : α → σ → Prop) (D : σ → Prop) : Prop :=
  ∀ s, P s → (∀ a t, exec m s = (some a,t) → Q a t) ∧ (∀ t, exec m s = (none,t) → D t)

variable {P : σ → Prop} {Q : α → σ → Prop} {D : σ → Prop} {m : Prog σ α}

theorem Triple.returns (triple : Triple P m Q D) {s t : σ} {a : α} (before : P s) (ended : exec m s = (some a,t)) : Q a t :=
  (triple s before).1 a t ended

theorem Triple.interrupted (triple : Triple P m Q D) {s t : σ} (before : P s) (ended : exec m s = (none,t)) : D t :=
  (triple s before).2 t ended

theorem triple_of_eq {f : σ → α} {g : σ → σ} (runs : ∀ s, exec m s = (some (f s),g s)) (post : ∀ s, P s → Q (f s) (g s)) :
    Triple P m Q D := by
  intro s before
  constructor
  · intro a t ended
    rw [runs] at ended
    cases ended
    exact post s before
  · intro t ended
    rw [runs] at ended
    cases ended

theorem triple_pure {a : α} (post : ∀ s, P s → Q a s) : Triple P (pure a) Q D :=
  triple_of_eq (fun s => exec_pure a s) post

theorem triple_get {Q : σ → σ → Prop} (post : ∀ s, P s → Q s s) : Triple P (get : Prog σ σ) Q D :=
  triple_of_eq exec_get post

theorem triple_modify {f : σ → σ} {Q : PUnit → σ → Prop} (post : ∀ s, P s → Q ⟨⟩ (f s)) : Triple P (modify f : Prog σ PUnit) Q D :=
  triple_of_eq (exec_modify f) post

theorem triple_failure (post : ∀ s, P s → D s) : Triple P (failure : Prog σ α) Q D := by
  intro s before
  constructor
  · intro a t ended
    cases ended
  · intro t ended
    cases ended
    exact post s before

theorem triple_bind {R : α → σ → Prop} {Q : β → σ → Prop} {f : α → Prog σ β} (first : Triple P m R D)
    (rest : ∀ a, Triple (R a) (f a) Q D) : Triple P (m >>= f) Q D := by
  intro s before
  have run := exec_bind m f s
  rcases ended : exec m s with ⟨_ | a,t⟩
  · rw [ended] at run
    constructor
    · intro b u same
      rw [run] at same
      cases same
    · intro u same
      rw [run] at same
      cases same
      exact first.interrupted before ended
  · rw [ended] at run
    rw [run]
    exact rest a t (first.returns before ended)

theorem Triple.weaken {P' : σ → Prop} {Q' : α → σ → Prop} {D' : σ → Prop} (triple : Triple P m Q D) (pre : ∀ s, P' s → P s)
    (post : ∀ a s, Q a s → Q' a s) (drop : ∀ s, D s → D' s) : Triple P' m Q' D' := fun s before =>
  ⟨fun a t ended => post a t (triple.returns (pre s before) ended),fun t ended => drop t (triple.interrupted (pre s before) ended)⟩

theorem triple_ite {c : Prop} [Decidable c] {n : Prog σ α} (yes : c → Triple P m Q D) (no : ¬ c → Triple P n Q D) :
    Triple P (if c then m else n) Q D := by
  by_cases holds : c
  · rw [if_pos holds]
    exact yes holds
  · rw [if_neg holds]
    exact no holds

/-! ### What a program leaves as it is -/

variable {γ : Type}

/-- The program does not change what is observed of the state. -/
def Keeps (obs : σ → γ) (m : Prog σ α) : Prop := ∀ s, obs (exec m s).2 = obs s

variable {obs : σ → γ}

theorem keeps_pure (a : α) : Keeps obs (pure a : Prog σ α) := fun _ => rfl
theorem keeps_failure : Keeps obs (failure : Prog σ α) := fun _ => rfl

theorem keeps_bind {f : α → Prog σ β} (first : Keeps obs m) (rest : ∀ a, Keeps obs (f a)) : Keeps obs (m >>= f) := by
  intro s
  rw [exec_bind]
  have before := first s
  generalize exec m s = ended at before ⊢
  rcases ended with ⟨_ | a,t⟩
  · exact before
  · exact (rest a t).trans before

theorem keeps_ite {c : Prop} [Decidable c] {n : Prog σ α} (yes : Keeps obs m) (no : Keeps obs n) : Keeps obs (if c then m else n) := by
  by_cases holds : c
  · rw [if_pos holds]
    exact yes
  · rw [if_neg holds]
    exact no

/-- What is known of the observation stays known. -/
theorem Keeps.triple (keeps : Keeps obs m) {R : γ → Prop} (drop : ∀ s, R (obs s) → D s) :
    Triple (fun s => R (obs s)) m (fun _ s => R (obs s)) D := by
  intro s before
  constructor
  · intro a t ended
    have same : obs t = obs s := by rw [← keeps s,ended]
    show R (obs t)
    rwa [same]
  · intro t ended
    have same : obs t = obs s := by rw [← keeps s,ended]
    exact drop t (by rwa [same])

end
end Daf.Interrupted
