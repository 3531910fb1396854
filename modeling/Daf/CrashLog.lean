import Mathlib.Data.List.Basic
import Mathlib.Data.List.TakeDrop

/-!
A log of operations of which a crash keeps some prefix: all that was there at the last flush,
and any part of what came later. What is to survive a crash has to hold of every such prefix.
-/
namespace Daf.CrashLog

structure Disk (Op : Type) where
  log : List Op
  /-- How many operations a crash is sure to keep. -/
  durable : Nat
  bound : durable ≤ log.length

section
variable {Op : Type}

def Disk.empty : Disk Op := ⟨[],0,Nat.le_refl _⟩

def Disk.write (d : Disk Op) (op : Op) : Disk Op := ⟨d.log ++ [op],d.durable,by have := d.bound; simp; omega⟩

def Disk.flush (d : Disk Op) : Disk Op := ⟨d.log,d.log.length,Nat.le_refl _⟩

/-- What is left after a crash; it is on the disk now. -/
def Disk.crash (d : Disk Op) (keep : Nat) : Disk Op :=
  ⟨d.log.take (max d.durable keep),(d.log.take (max d.durable keep)).length,Nat.le_refl _⟩

@[simp] theorem write_log (d : Disk Op) (op : Op) : (d.write op).log = d.log ++ [op] := rfl
@[simp] theorem flush_log (d : Disk Op) : d.flush.log = d.log := rfl

/-- It holds of everything that a crash can leave, and of the log as it is. -/
def Survives (P : List Op → Prop) (d : Disk Op) : Prop := ∀ k, d.durable ≤ k → P (d.log.take k)

variable {P : List Op → Prop} {d : Disk Op}

theorem Survives.now (survives : Survives P d) : P d.log := by
  have all := survives d.log.length d.bound
  rwa [List.take_length] at all

theorem Survives.mono {Q : List Op → Prop} (survives : Survives P d) (imp : ∀ log, P log → Q log) : Survives Q d :=
  fun k kept => imp _ (survives k kept)

theorem Survives.write (survives : Survives P d) {op : Op} (after : P (d.log ++ [op])) : Survives P (d.write op) := by
  intro k kept
  by_cases old : k ≤ d.log.length
  · rw [write_log,List.take_append_of_le_length old]
    exact survives k kept
  · rw [write_log,List.take_of_length_le (by simp; omega)]
    exact after

/-- After a flush only the log itself can be left. -/
theorem survives_flush (now : P d.log) : Survives P d.flush := by
  intro k kept
  have whole : d.log.length ≤ k := kept
  rw [flush_log,List.take_of_length_le whole]
  exact now

theorem Survives.flush (survives : Survives P d) : Survives P d.flush := survives_flush survives.now

theorem Survives.crash (survives : Survives P d) (keep : Nat) : Survives P (d.crash keep) := by
  intro k kept
  have whole : (d.log.take (max d.durable keep)).length ≤ k := kept
  show P ((d.log.take (max d.durable keep)).take k)
  rw [List.take_of_length_le whole]
  exact survives _ (Nat.le_max_left _ _)

end
end Daf.CrashLog
