import Mathlib.Data.List.Basic
import Mathlib.Tactic.SplitIfs

/-!
Texts cut into lines by a symbol that ends each line: the complete lines, and the rest behind the last of them.
-/
namespace Daf.TextLines

section
variable {α : Type} [DecidableEq α] {stop : α} {text more line : List α}

/-- The complete lines and the rest. -/
def cut (stop : α) : List α → List (List α) × List α
  | [] => ([],[])
  | a :: text =>
    if a = stop then ([] :: (cut stop text).1,(cut stop text).2)
    else
      match (cut stop text).1 with
      | [] => ([],a :: (cut stop text).2)
      | line :: lines => ((a :: line) :: lines,(cut stop text).2)

def lines (stop : α) (text : List α) : List (List α) := (cut stop text).1

/-- Nothing stands behind the last complete line. -/
def Whole (stop : α) (text : List α) : Prop := (cut stop text).2 = []

instance decidableWhole (stop : α) (text : List α) : Decidable (Whole stop text) := inferInstanceAs (Decidable (_ = _))

theorem cut_cons (a : α) (text : List α) :
    cut stop (a :: text) =
      if a = stop then ([] :: (cut stop text).1,(cut stop text).2)
      else
        match (cut stop text).1 with
        | [] => ([],a :: (cut stop text).2)
        | line :: lines => ((a :: line) :: lines,(cut stop text).2) := rfl

theorem cut_append (text more : List α) :
    cut stop (text ++ more) = (lines stop text ++ (cut stop ((cut stop text).2 ++ more)).1,(cut stop ((cut stop text).2 ++ more)).2) := by
  induction text with
  | nil => rfl
  | cons a text ih =>
    rw [List.cons_append,lines,cut_cons,cut_cons]
    by_cases ends : a = stop
    · rw [if_pos ends,if_pos ends,ih]
      rfl
    · rw [if_neg ends,if_neg ends,ih,lines]
      cases before : (cut stop text).1 with
      | nil =>
        simp only [List.nil_append,List.cons_append]
        rw [cut_cons,if_neg ends]
      | cons line lines => rfl

theorem lines_append (whole : Whole stop text) (more : List α) : lines stop (text ++ more) = lines stop text ++ lines stop more := by
  rw [lines,cut_append,whole]
  rfl

theorem cut_free (free : stop ∉ text) : cut stop text = ([],text) := by
  induction text with
  | nil => rfl
  | cons a text ih =>
    rw [List.mem_cons,not_or] at free
    rw [cut_cons,if_neg (Ne.symm free.1),ih free.2]

theorem lines_free (free : stop ∉ text) : lines stop text = [] := congrArg Prod.fst (cut_free free)

theorem cut_line (free : stop ∉ line) : cut stop (line ++ [stop]) = ([line],[]) := by
  induction line with
  | nil => exact if_pos rfl
  | cons a line ih =>
    rw [List.mem_cons,not_or] at free
    rw [List.cons_append,cut_cons,if_neg (Ne.symm free.1),ih free.2]

theorem lines_line (free : stop ∉ line) : lines stop (line ++ [stop]) = [line] := congrArg Prod.fst (cut_line free)

/-- The start of a line is the whole line or holds none. -/
theorem lines_take (free : stop ∉ line) (k : Nat) : lines stop ((line ++ [stop]).take k) = [line] ∨ lines stop ((line ++ [stop]).take k) = [] := by
  by_cases long : line.length < k
  · left
    rw [List.take_of_length_le (by simp; omega)]
    exact lines_line free
  · right
    apply lines_free
    rw [List.take_append_of_le_length (by omega)]
    exact fun inside => free (List.mem_of_mem_take inside)

/-- All pieces between the symbols, the rest included. -/
def split (stop : α) (text : List α) : List (List α) := lines stop text ++ [(cut stop text).2]

theorem split_append (text more : List α) : split stop (text ++ more) = lines stop text ++ split stop ((cut stop text).2 ++ more) := by
  rw [split,lines,cut_append,List.append_assoc]
  rfl

theorem rest_free (stop : α) (text : List α) : stop ∉ (cut stop text).2 := by
  induction text with
  | nil => exact List.not_mem_nil
  | cons a text ih =>
    rw [cut_cons]
    split_ifs with ends
    · exact ih
    · cases (cut stop text).1 with
      | nil =>
        rw [List.mem_cons,not_or]
        exact ⟨Ne.symm ends,ih⟩
      | cons line lines => exact ih

/-- A text without the symbol begins the first piece, which goes on up to the symbol. -/
theorem split_free (free : stop ∉ line) (more : List α) : ∃ pieces, split stop (line ++ more) = (line ++ more.takeWhile fun a => decide (a ≠ stop)) :: pieces := by
  induction more generalizing line with
  | nil => exact ⟨[],by simp [split,lines,cut_free free]⟩
  | cons a more ih =>
    by_cases ends : a = stop
    · have whole : line ++ a :: more = (line ++ [stop]) ++ more := by simp [ends]
      refine ⟨split stop more,?_⟩
      rw [whole,split_append,lines_line free,cut_line free]
      simp [ends]
    · have longer : stop ∉ line ++ [a] := by simp [free,Ne.symm ends]
      obtain ⟨pieces,first⟩ := ih longer
      refine ⟨pieces,?_⟩
      simpa [ends] using first

end
end Daf.TextLines
