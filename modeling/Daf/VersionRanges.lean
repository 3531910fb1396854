import Daf.VersionOrder

/-!
The versions that a caret and a tilde stand for, and compatible versions.
-/
namespace Daf.VersionRanges
open Daf.Versions Daf.VersionOrder

/-- The next release with another leftmost number that is not zero. -/
def next (base : SemVer) : SemVer :=
  if base.major ≠ 0 then .new (base.major+1) 0 0
  else if base.minor ≠ 0 then .new 0 (base.minor+1) 0
  else .new 0 0 (base.patch+1)

/-- The two are of the kind 0.0, with different patches. -/
def PatchesApart (v base : SemVer) : Prop := base.major = 0 ∧ base.minor = 0 ∧ v.major = 0 ∧ v.minor = 0 ∧ v.patch ≠ base.patch

section
variable {v base : SemVer}

theorem numeric_lt (v w : SemVer) :
    v.numeric_cmp w = .lt ↔ v.major < w.major ∨ v.major = w.major ∧ (v.minor < w.minor ∨ v.minor = w.minor ∧ v.patch < w.patch) := by
  simp [SemVer.numeric_cmp,Ordering.then_eq_lt,Nat.compare_eq_lt]

/-- A release is below another version only by its numbers. -/
theorem release_lt (release : v.pre_release = none) (w : SemVer) : v.cmp w = .lt ↔ v.numeric_cmp w = .lt := by
  rw [cmp_then,Ordering.then_eq_lt,tag_cmp,release]
  cases w.pre_release <;> simp [pre_cmp]

theorem le_iff_not_lt (base v : SemVer) : (base.cmp v).isLE ↔ ¬ v.cmp base = .lt := by
  have swapped : base.cmp v = (v.cmp base).swap := Std.OrientedCmp.eq_swap
  rw [swapped]
  cases v.cmp base <;> simp

theorem not_lt_numbers (above : ¬ v.cmp base = .lt) : ¬ v.numeric_cmp base = .lt := fun below => above (by rw [cmp_then,below]; rfl)

theorem caret_iff : VersionConstraint.satisfies v (.Caret base) ↔ ¬ v.cmp base = .lt ∧
    (base.major ≠ 0 ∧ v.major = base.major ∨ base.major = 0 ∧ base.minor ≠ 0 ∧ v.major = 0 ∧ v.minor = base.minor ∨
      base.major = 0 ∧ base.minor = 0 ∧ v.major = 0 ∧ v.minor = 0 ∧ v.patch = base.patch) := by
  rw [VersionConstraint.satisfies]
  split_ifs with below major minor
  · simp [below]
  · simp [below,major,minor,and_assoc]
  · simp [below,major,minor]
  · simp [below,major]

theorem tilde_iff : VersionConstraint.satisfies v (.Tilde base) ↔ ¬ v.cmp base = .lt ∧ v.major = base.major ∧ v.minor = base.minor := by
  rw [VersionConstraint.satisfies]
  split_ifs with below
  · simp [below]
  · simp [below]

theorem compatible_iff : v.is_compatible_with base ↔ v.major = base.major ∧ (v.major = 0 → v.minor = base.minor) := by
  rw [SemVer.is_compatible_with]
  split_ifs with other zero
  · simp [other]
  · have same := not_not.mp other
    simp [← same,zero]
  · have same := not_not.mp other
    simp [← same,zero]

/-- From the base on, a caret ends before the next version. -/
theorem caret_interval (release : v.pre_release = none) :
    VersionConstraint.satisfies v (.Caret base) ↔ (base.cmp v).isLE ∧ v.cmp (next base) = .lt := by
  rw [caret_iff,le_iff_not_lt,release_lt release,release_lt release,numeric_lt,numeric_lt,next]
  split_ifs with major minor
  · simp only [SemVer.new]
    omega
  · simp only [SemVer.new]
    omega
  · simp only [SemVer.new]
    omega

theorem compatible_caret (above : (base.cmp v).isLE) :
    v.is_compatible_with base = VersionConstraint.satisfies v (.Caret base) ↔ ¬ PatchesApart v base := by
  have above := (le_iff_not_lt base v).mp above
  have numbers := not_lt_numbers above
  rw [numeric_lt] at numbers
  rw [Bool.eq_iff_iff,caret_iff,compatible_iff,PatchesApart]
  simp only [above,not_false_eq_true,true_and]
  omega

end

/-- A caret and a tilde stand for their intervals; compatible are the versions that a caret stands for, and others of the kind 0.0. -/
theorem intervals (base v : SemVer) :
    (v.pre_release = none → (VersionConstraint.satisfies v (.Caret base) ↔ (base.cmp v).isLE ∧ v.cmp (next base) = .lt)) ∧
    (v.pre_release = none →
      (VersionConstraint.satisfies v (.Tilde base) ↔ (base.cmp v).isLE ∧ v.major = base.major ∧ v.minor = base.minor)) ∧
    ((base.cmp v).isLE → (v.is_compatible_with base = VersionConstraint.satisfies v (.Caret base) ↔ ¬ PatchesApart v base)) := by
  refine ⟨caret_interval,fun _ => ?_,compatible_caret⟩
  rw [tilde_iff,le_iff_not_lt]

theorem intervals_minor : (VersionConstraint.satisfies (SemVer.new 0 2 5) (.Caret (SemVer.new 0 2 3)) ∧
    VersionConstraint.satisfies (SemVer.new 0 2 5) (.Tilde (SemVer.new 0 2 3))) ∧
    (SemVer.new 0 2 5).is_compatible_with (SemVer.new 0 2 3) = VersionConstraint.satisfies (SemVer.new 0 2 5) (.Caret (SemVer.new 0 2 3)) :=
  have meant := intervals (SemVer.new 0 2 3) (SemVer.new 0 2 5)
  ⟨⟨(meant.1 rfl).mpr (by decide),(meant.2.1 rfl).mpr (by decide)⟩,(meant.2.2 (by decide)).mpr fun apart => absurd apart.2.1 (by decide)⟩

/-- 0.0.5 is compatible with 0.0.3, which a caret does not say. -/
theorem patch_compatible : ¬ ∀ base v : SemVer, v.pre_release = none → (base.cmp v).isLE →
    v.is_compatible_with base = VersionConstraint.satisfies v (.Caret base) := by
  intro claim
  exact absurd (claim (SemVer.new 0 0 3) (SemVer.new 0 0 5) rfl (by decide)) (by decide)

end Daf.VersionRanges
