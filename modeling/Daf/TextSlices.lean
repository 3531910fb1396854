import Mathlib.Algebra.BigOperators.Group.List.Basic
import Mathlib.Algebra.Ring.Nat
import Mathlib.Data.List.Basic

/-!
Texts in UTF-8, cut at offsets in bytes. A cut inside a character has no result.
-/
namespace Daf.TextSlices

/-- The length in bytes. -/
def size (text : List Char) : Nat := (text.map Char.utf8Size).sum

/-- The text behind its first bytes. -/
def dropBytes : Nat → List Char → Option (List Char)
  | 0,text => some text
  | _ + 1,[] => none
  | n + 1,c :: text => if c.utf8Size ≤ n + 1 then dropBytes (n + 1 - c.utf8Size) text else none

/-- The first bytes of the text. -/
def takeBytes : Nat → List Char → Option (List Char)
  | 0,_ => some []
  | _ + 1,[] => none
  | n + 1,c :: text => if c.utf8Size ≤ n + 1 then (takeBytes (n + 1 - c.utf8Size) text).map (c :: ·) else none

/-- The bytes from one offset to another. -/
def slice (text : List Char) (start stop : Nat) : Option (List Char) := (dropBytes start text).bind (takeBytes (stop - start))

section
variable {before text after : List Char}

@[simp] theorem size_nil : size [] = 0 := rfl
@[simp] theorem size_cons (c : Char) (text : List Char) : size (c :: text) = c.utf8Size + size text := rfl
@[simp] theorem size_append (a b : List Char) : size (a ++ b) = size a + size b := by simp [size]

theorem dropBytes_append (before text : List Char) : dropBytes (size before) (before ++ text) = some text := by
  induction before with
  | nil => cases text <;> rfl
  | cons c before ih =>
    have positive := c.utf8Size_pos
    obtain ⟨n,step⟩ : ∃ n, size (c :: before) = n + 1 := ⟨size (c :: before) - 1,by simp; omega⟩
    have rest : n + 1 - c.utf8Size = size before := by simp at step; omega
    rw [step,List.cons_append,dropBytes,if_pos (by simp at step; omega),rest]
    exact ih

theorem takeBytes_append (text after : List Char) : takeBytes (size text) (text ++ after) = some text := by
  induction text with
  | nil => cases after <;> rfl
  | cons c text ih =>
    have positive := c.utf8Size_pos
    obtain ⟨n,step⟩ : ∃ n, size (c :: text) = n + 1 := ⟨size (c :: text) - 1,by simp; omega⟩
    have rest : n + 1 - c.utf8Size = size text := by simp at step; omega
    rw [step,List.cons_append,takeBytes,if_pos (by simp at step; omega),rest,ih]
    rfl

theorem slice_eq {start stop : Nat} (from_here : size before = start) : slice (before ++ text) start stop = takeBytes (stop - start) text := by
  rw [slice,← from_here,dropBytes_append]
  rfl

theorem slice_append {start stop : Nat} (from_here : size before = start) (to_here : start + size text = stop) :
    slice (before ++ (text ++ after)) start stop = some text := by
  have length : stop - start = size text := by omega
  rw [slice_eq from_here,length,takeBytes_append]

end
end Daf.TextSlices
