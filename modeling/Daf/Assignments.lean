import Mathlib.Data.List.Induction

/-!
Lists of assignments: each gives a key a value, or takes it away. What is wanted of a key is compared by a relation that need not be equality.
Doing all of them leaves nothing to do exactly where no two of them contradict each other.
-/
namespace Daf.Assignments

section
variable {κ α : Type} [DecidableEq κ]

/-- What a key is to have; `none` is nothing. -/
structure Op (κ α : Type) where
  key : κ
  target : Option α

def Op.apply (op : Op κ α) (s : κ → Option α) : κ → Option α := fun key => if key = op.key then op.target else s key

def apply (ops : List (Op κ α)) (s : κ → Option α) : κ → Option α := ops.foldl (fun s op => op.apply s) s

/-- The last assignment to a key. -/
def lastFor (key : κ) (ops : List (Op κ α)) : Option (Op κ α) := ops.reverse.find? fun op => decide (op.key = key)

/-- Both are nothing, or two values that are the same. -/
def agrees (same : α → α → Bool) : Option α → Option α → Bool
  | none,none => true
  | some a,some b => same a b
  | _,_ => false

/-- There is nothing to do. -/
def Met (same : α → α → Bool) (s : κ → Option α) (op : Op κ α) : Prop := agrees same (s op.key) op.target = true

def Consistent (same : α → α → Bool) (ops : List (Op κ α)) : Prop :=
  ∀ a ∈ ops, ∀ b ∈ ops, a.key = b.key → agrees same a.target b.target = true

variable {same : α → α → Bool} {ops : List (Op κ α)} {s : κ → Option α} {key : κ} {op : Op κ α}

/-! ### The state behind -/

theorem apply_snoc (ops : List (Op κ α)) (op : Op κ α) (s : κ → Option α) : apply (ops ++ [op]) s = op.apply (apply ops s) := by
  simp [apply]

theorem lastFor_snoc (key : κ) (ops : List (Op κ α)) (op : Op κ α) :
    lastFor key (ops ++ [op]) = if op.key = key then some op else lastFor key ops := by
  rw [lastFor,List.reverse_append,List.reverse_singleton,List.singleton_append,List.find?_cons]
  by_cases here : op.key = key
  · simp [here]
  · simp [here,lastFor]

/-- A key has what the last assignment to it says, or what it had. -/
theorem apply_key (ops : List (Op κ α)) (s : κ → Option α) (key : κ) : apply ops s key = ((lastFor key ops).map Op.target).getD (s key) := by
  induction ops using List.reverseRecOn with
  | nil => rfl
  | append_singleton ops op ih =>
    rw [apply_snoc,lastFor_snoc,Op.apply]
    by_cases here : op.key = key
    · rw [if_pos here,if_pos here.symm]
      rfl
    · rw [if_neg here,if_neg (Ne.symm here),ih]

theorem lastFor_mem (last : lastFor key ops = some op) : op ∈ ops ∧ op.key = key := by
  have there := List.mem_of_find?_eq_some last
  exact ⟨List.mem_reverse.mp there,by simpa using List.find?_some last⟩

theorem lastFor_exists (member : op ∈ ops) : ∃ last, lastFor op.key ops = some last := by
  cases found : lastFor op.key ops with
  | some last => exact ⟨last,rfl⟩
  | none =>
    have absent := List.find?_eq_none.mp found op (List.mem_reverse.mpr member)
    exact absurd (decide_eq_true rfl) absent

theorem apply_last (last : lastFor key ops = some op) (s : κ → Option α) : apply ops s key = op.target := by
  rw [apply_key,last]
  rfl

/-! ### Nothing more to do -/

/-- What is the same as itself, whichever way round, and as what is the same. -/
structure Equal (same : α → α → Bool) : Prop where
  refl : ∀ a, same a a = true
  symm : ∀ {a b}, same a b = true → same b a = true
  trans : ∀ {a b c}, same a b = true → same b c = true → same a c = true

theorem Equal.agrees_refl (equal : Equal same) : ∀ a, agrees same a a = true
  | none => rfl
  | some a => equal.refl a

theorem Equal.agrees_symm (equal : Equal same) : ∀ {a b}, agrees same a b = true → agrees same b a = true
  | none,none,_ => rfl
  | some _,some _,both => equal.symm both

theorem Equal.agrees_trans (equal : Equal same) : ∀ {a b c}, agrees same a b = true → agrees same b c = true → agrees same a c = true
  | none,none,none,_,_ => rfl
  | some _,some _,some _,first,second => equal.trans first second

/-- All assignments together are done when they have been carried out, exactly where no two contradict each other. -/
theorem met_apply_iff (equal : Equal same) (ops : List (Op κ α)) (s : κ → Option α) :
    (∀ op ∈ ops, Met same (apply ops s) op) ↔ Consistent same ops := by
  constructor
  · intro met a here b there together
    have first : agrees same (apply ops s a.key) a.target = true := met a here
    have second : agrees same (apply ops s b.key) b.target = true := met b there
    rw [← together] at second
    exact equal.agrees_trans (equal.agrees_symm first) second
  · intro consistent op member
    obtain ⟨last,found⟩ := lastFor_exists member
    obtain ⟨inside,key⟩ := lastFor_mem found
    rw [Met,apply_last found]
    exact consistent last inside op member key

/-- Nothing is changed exactly where the last assignment to each key is done. -/
theorem apply_same_iff (equal : Equal same) (ops : List (Op κ α)) (s : κ → Option α) :
    (∀ key, agrees same (apply ops s key) (s key) = true) ↔ ∀ key op, lastFor key ops = some op → Met same s op := by
  constructor
  · intro unchanged key op last
    obtain ⟨-,rfl⟩ := lastFor_mem last
    have here := unchanged op.key
    rw [apply_last last] at here
    exact equal.agrees_symm here
  · intro met key
    cases found : lastFor key ops with
    | none =>
      rw [apply_key,found]
      exact equal.agrees_refl _
    | some last =>
      have done := met key last found
      obtain ⟨-,rfl⟩ := lastFor_mem found
      rw [apply_last found]
      exact equal.agrees_symm done

/-- Where all is done already, carrying it out changes nothing. -/
theorem apply_of_met (equal : Equal same) (met : ∀ op ∈ ops, Met same s op) (key : κ) : agrees same (apply ops s key) (s key) = true :=
  (apply_same_iff equal ops s).mpr (fun _ op last => met op (lastFor_mem last).1) key

end
end Daf.Assignments
