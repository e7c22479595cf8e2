import Mathlib
import LoxLanguage.Store.Basic
import LoxLanguage.Proofs.Number.Display

/-! Equality of values. The comparison goes by the kind of its left operand, with rules of its own for the not-a-number
and for the two zeros; it comes out as being the same value (`isEqual_iff`). Since no two numbers are displayed alike,
numbers are equal when they print the same. -/

namespace LoxLanguage

/-- Numbers compare as the same when they are. -/
theorem Number.same_iff {x y : Number} : Number.same x y = true ↔ x = y := by
  unfold Number.same
  rw [Float.isNaN_eq_decide_eq_nan, Float.isNaN_eq_decide_eq_nan]
  by_cases hx : x = Float.nan
  · by_cases hy : y = Float.nan
    · simp [hx, hy]
    · simp [hx, hy, Ne.symm hy]
  · by_cases hy : y = Float.nan
    · simp [hx, hy]
    · rw [if_neg (by simp [hx, hy]), Bool.and_eq_true, Float.beq_iff_ne_nan_and_eq, beq_iff_eq]
      constructor
      · -- Comparing by value identifies just the two zeros, and their signs differ.
        rintro ⟨⟨-, -, rfl | ⟨rfl, rfl⟩ | ⟨rfl, rfl⟩⟩, hsign⟩
        · rfl
        · cases hsign
        · cases hsign
      · rintro rfl
        exact ⟨⟨hx, hx, .inl rfl⟩, rfl⟩

namespace Value

/-- The kinds of value. -/
inductive Kind where
  | nil
  | bool
  | number
  | text
  | builtIn
  | function
  | classKind
  | instanceKind
  deriving DecidableEq

/-- The kind of a value. -/
def kind : Value → Kind
  | .nil => .nil
  | .bool _ => .bool
  | .number _ => .number
  | .text _ => .text
  | .clock => .builtIn
  | .closure _ => .function
  | .classValue _ => .classKind
  | .instanceValue _ => .instanceKind

/-- The comparison holds of a value and itself only. -/
theorem isEqual_iff {v w : Value} : v.isEqual w = true ↔ v = w := by
  constructor
  · intro h
    unfold isEqual at h
    split at h
    · rfl
    · exact congrArg bool (beq_iff_eq.mp h)
    · exact congrArg number (Number.same_iff.mp h)
    · exact congrArg text (beq_iff_eq.mp h)
    · rfl
    · exact congrArg closure (beq_iff_eq.mp h)
    · exact congrArg classValue (beq_iff_eq.mp h)
    · exact congrArg instanceValue (beq_iff_eq.mp h)
    · cases h
  · rintro rfl
    cases v with
    | nil => rfl
    | bool b => exact beq_self_eq_true b
    | number x => exact Number.same_iff.mpr rfl
    | text t => exact beq_self_eq_true t
    | clock => rfl
    | closure f => exact beq_self_eq_true f
    | classValue c => exact beq_self_eq_true c
    | instanceValue i => exact beq_self_eq_true i

/-- Equality is an equivalence and keeps kinds, truth and texts. Numbers are equal just when they print the same, and
    functions, classes and instances when they are in the same place. -/
theorem isEqual_equivalence_and_display (s : Store) :
    Equivalence (fun v w : Value => v.isEqual w = true) ∧
      (∀ v w : Value, v.isEqual w = true →
        v.kind = w.kind ∧ v.isTruthy = w.isTruthy ∧ s.display v = s.display w) ∧
      (∀ x y : Number,
        (number x).isEqual (number y) = true ↔ s.display (number x) = s.display (number y)) ∧
      (∀ f g : ClosureId, (closure f).isEqual (closure g) = true ↔ f = g) ∧
      (∀ c d : ClassId, (classValue c).isEqual (classValue d) = true ↔ c = d) ∧
      (∀ i j : InstanceId, (instanceValue i).isEqual (instanceValue j) = true ↔ i = j) := by
  refine ⟨⟨fun v => isEqual_iff.mpr rfl, ?_, ?_⟩, ?_, fun x y => ⟨?_, ?_⟩, ?_, ?_, ?_⟩
  · intro v w h
    exact isEqual_iff.mpr (isEqual_iff.mp h).symm
  · intro u v w h h'
    exact isEqual_iff.mpr ((isEqual_iff.mp h).trans (isEqual_iff.mp h'))
  · intro v w h
    obtain rfl := isEqual_iff.mp h
    exact ⟨rfl, rfl, rfl⟩
  · intro h
    rw [isEqual_iff.mp h]
  · intro h
    exact isEqual_iff.mpr (congrArg number (Number.displayText_injective h))
  · intro f g
    rw [isEqual_iff, closure.injEq]
  · intro c d
    rw [isEqual_iff, classValue.injEq]
  · intro i j
    rw [isEqual_iff, instanceValue.injEq]

end Value

end LoxLanguage
