import Mathlib
import LoxLanguage.Number.Binary

/-! A number and its parts. Nothing is lost when a number is taken apart: there is one not-a-number, and of two other
numbers the parts tell which they are (`parts_injective`). The parts of a finite number are in normal form, so
that no value is written with two mantissas. -/

namespace LoxLanguage.Number

open Float.Model (Format)
open Float.Model.UnpackedFloat (unpackExponent unpackMantissa packedNaN)

variable {x y : Number} {m : Nat} {q : Int} {b : Bool}

theorem toBits_injective (h : x.toBits = y.toBits) : x = y := by
  rw [← Float.ofBits_toBits x, ← Float.ofBits_toBits y, h]

/-- The sign, the exponent and the fraction make up all bits. -/
theorem eq_of_fields (hnegative : negative x = negative y) (hexponent : exponentField x = exponentField y)
    (hfraction : fractionField x = fractionField y) : x = y := by
  have hx := x.toBits.toNat_lt
  have hy := y.toBits.toNat_lt
  have hsign : x.toBits.toNat / 2 ^ 63 = y.toBits.toNat / 2 ^ 63 := by
    have hsame : (x.toBits.toNat / 2 ^ 63 == 1) = (y.toBits.toNat / 2 ^ 63 == 1) := hnegative
    rw [Bool.eq_iff_iff, beq_iff_eq, beq_iff_eq] at hsame
    omega
  replace hexponent : x.toBits.toNat / 2 ^ 52 % 2 ^ 11 = y.toBits.toNat / 2 ^ 52 % 2 ^ 11 := hexponent
  replace hfraction : x.toBits.toNat % 2 ^ 52 = y.toBits.toNat % 2 ^ 52 := hfraction
  exact toBits_injective (UInt64.toNat_inj.mp (by omega))

/-! ### The one that is not a number -/

theorem toNat_unpackExponent (x : Number) :
    (@unpackExponent Format.binary64 x.toBits.toBitVec).toNat = exponentField x := by
  rw [Float.Model.UnpackedFloat.unpackExponent_def, BitVec.extractLsb'_toNat, Nat.shiftRight_eq_div_pow]
  rfl

theorem toNat_unpackMantissa (x : Number) :
    (@unpackMantissa Format.binary64 x.toBits.toBitVec).toNat = fractionField x := by
  rw [Float.Model.UnpackedFloat.unpackMantissa_def, BitVec.extractLsb'_toNat, Nat.shiftRight_zero]
  rfl

theorem toBits_of_notANumber (hexponent : exponentField x = 2047) (hfraction : fractionField x ≠ 0) :
    x.toBits.toBitVec = packedNaN Format.binary64 := by
  refine x.toModel.valid.eq_packedNaN ?_ ?_
  · apply BitVec.eq_of_toNat_eq
    exact (toNat_unpackExponent x).trans hexponent
  · intro hzero
    exact hfraction ((toNat_unpackMantissa x).symm.trans (congrArg BitVec.toNat hzero))

/-! ### Finite numbers -/

/-- The mantissas and exponents that numbers have: only with the least exponent there is no leading one. -/
structure Canonical (m : Nat) (q : Int) : Prop where
  lt : m < 2 ^ 53
  le : -1074 ≤ q
  lead : q ≠ -1074 → 2 ^ 52 ≤ m

/-- A number with a mantissa and an exponent. -/
def IsFinite (x : Number) : Prop :=
  ∃ b m q, parts x = .finite b m q

theorem fractionField_lt (x : Number) : fractionField x < 2 ^ 52 :=
  Nat.mod_lt _ (Nat.two_pow_pos 52)

/-- The three kinds of number. -/
theorem parts_cases (x : Number) :
    (parts x = .notANumber ∧ x.toBits.toBitVec = packedNaN Format.binary64) ∨
      (parts x = .infinite (negative x) ∧ exponentField x = 2047 ∧ fractionField x = 0) ∨
      ∃ m q, parts x = .finite (negative x) m q ∧ Canonical m q := by
  have hlt := fractionField_lt x
  by_cases hexponent : exponentField x = 2047
  · by_cases hfraction : fractionField x = 0
    · exact .inr (.inl ⟨by rw [parts, if_pos hexponent, if_pos hfraction], hexponent, hfraction⟩)
    · exact .inl ⟨by rw [parts, if_pos hexponent, if_neg hfraction], toBits_of_notANumber hexponent hfraction⟩
  · refine .inr (.inr ?_)
    by_cases hzero : exponentField x = 0
    · refine ⟨_, _, by rw [parts, if_neg hexponent, if_pos hzero], by omega, Int.le_refl _, fun h => absurd rfl h⟩
    · have hparts : parts x =
          .finite (negative x) (2 ^ 52 + fractionField x) ((exponentField x : Int) - 1075) := by
        rw [parts, if_neg hexponent, if_neg hzero]
        rfl
      exact ⟨_, _, hparts, by omega, by omega, fun _ => Nat.le_add_right _ _⟩

theorem canonical_of_parts (h : parts x = .finite b m q) : Canonical m q := by
  rcases parts_cases x with ⟨hparts, -⟩ | ⟨hparts, -⟩ | ⟨m', q', hparts, hcanonical⟩
  · cases h.symm.trans hparts
  · cases h.symm.trans hparts
  · cases h.symm.trans hparts
    exact hcanonical

theorem fields_of_finite (h : parts x = .finite b m q) :
    b = negative x ∧ exponentField x = (if m < 2 ^ 52 then 0 else (q + 1075).toNat) ∧ fractionField x = m % 2 ^ 52 := by
  have hlt := fractionField_lt x
  unfold parts at h
  split at h
  · split at h <;> cases h
  · split at h
    · rename_i hzero
      cases h
      exact ⟨rfl, by rw [if_pos hlt, hzero], (Nat.mod_eq_of_lt hlt).symm⟩
    · cases h
      have hle : ¬ Nat.pow 2 52 + fractionField x < 2 ^ 52 := Nat.not_lt.mpr (Nat.le_add_right _ _)
      refine ⟨rfl, ?_, ?_⟩
      · rw [if_neg hle]
        omega
      · show fractionField x = (2 ^ 52 + fractionField x) % 2 ^ 52
        omega

/-- No two numbers have the same parts. -/
theorem parts_injective (h : parts x = parts y) : x = y := by
  rcases parts_cases x with ⟨hx, hbits⟩ | ⟨hx, hexponent, hfraction⟩ | ⟨m, q, hx, -⟩
  · rcases parts_cases y with ⟨-, hbits'⟩ | ⟨hy, -⟩ | ⟨m', q', hy, -⟩
    · exact toBits_injective (UInt64.toBitVec_inj.mp (hbits.trans hbits'.symm))
    · cases hx.symm.trans (h.trans hy)
    · cases hx.symm.trans (h.trans hy)
  · rcases parts_cases y with ⟨hy, -⟩ | ⟨hy, hexponent', hfraction'⟩ | ⟨m', q', hy, -⟩
    · cases hx.symm.trans (h.trans hy)
    · have hnegative : negative x = negative y := Parts.infinite.inj (hx.symm.trans (h.trans hy))
      exact eq_of_fields hnegative (hexponent.trans hexponent'.symm) (hfraction.trans hfraction'.symm)
    · cases hx.symm.trans (h.trans hy)
  · obtain ⟨hnegative, hexponent, hfraction⟩ := fields_of_finite hx
    obtain ⟨hnegative', hexponent', hfraction'⟩ := fields_of_finite (h.symm.trans hx)
    exact eq_of_fields hnegative' (hexponent.trans hexponent'.symm) (hfraction.trans hfraction'.symm)

end LoxLanguage.Number
