import Mathlib
import LoxLanguage.Number.Shortest
import LoxLanguage.Proofs.Number.Parts

/-! The decimal that is written for a number belongs to that number alone. It lies in the rounding interval of
`m * 2 ^ q` (`shortest_roundsTo`), because the grid of seventeen digits is finer than any such interval is wide; and the
rounding intervals of different numbers do not meet (`RoundsTo.unique`). -/

namespace LoxLanguage.Number

variable {m m' n : Nat} {q q' k : Int} {r : ℚ}

/-- What a decimal stands for. -/
def Decimal.value (d : Decimal) : ℚ :=
  d.coefficient * 10 ^ d.exponent

/-- How far below `m * 2 ^ q` its interval reaches, in quarters of `2 ^ q`. -/
def below (m : Nat) (q : Int) : Nat :=
  if m = 2 ^ 52 ∧ -1074 < q then 1 else 2

/-- The lower end of the rounding interval. -/
def lowerEnd (m : Nat) (q : Int) : ℚ :=
  (4 * m - below m q) * 2 ^ (q - 2)

/-- The upper end of the rounding interval. -/
def upperEnd (m : Nat) (q : Int) : ℚ :=
  (4 * m + 2) * 2 ^ (q - 2)

/-- The values nearer to `m * 2 ^ q` than to any other number; one halfway between two belongs to the even one. -/
def RoundsTo (m : Nat) (q : Int) (r : ℚ) : Prop :=
  if m % 2 = 0 then lowerEnd m q ≤ r ∧ r ≤ upperEnd m q else lowerEnd m q < r ∧ r < upperEnd m q

/-! ### Scales -/

theorem zpow_mul_toNat_neg (b : ℚ) (hb : b ≠ 0) (k : Int) : b ^ k * b ^ (-k).toNat = b ^ k.toNat := by
  rw [← zpow_natCast b (-k).toNat, ← zpow_natCast b k.toNat, ← zpow_add₀ hb]
  congr 1
  omega

/-- What the whole-number scale of `rounding` multiplies every value by. -/
def scale (q k : Int) : ℚ :=
  2 ^ (2 - q).toNat * 10 ^ (-k).toNat

theorem scale_pos (q k : Int) : 0 < scale q k := by
  unfold scale
  positivity

theorem binary_mul_scale (c : ℚ) (q k : Int) :
    c * 2 ^ (q - 2) * scale q k = c * (2 ^ (q - 2).toNat * 10 ^ (-k).toNat) := by
  have h := zpow_mul_toNat_neg 2 two_ne_zero (q - 2)
  rw [Int.neg_sub] at h
  rw [← h, scale]
  ring

theorem decimal_mul_scale (d : ℚ) (q k : Int) :
    d * 10 ^ k * scale q k = d * (10 ^ k.toNat * 2 ^ (2 - q).toNat) := by
  rw [← zpow_mul_toNat_neg 10 (by norm_num) k, scale]
  ring

theorem below_le (m : Nat) (q : Int) : below m q ≤ 2 := by
  unfold below
  split <;> omega

/-- A grid point is accepted just when it lies in the rounding interval. -/
theorem holds_iff (hm : 0 < m) (d : Nat) :
    (rounding m q k).holds d = true ↔ RoundsTo m q (d * 10 ^ k) := by
  have hscale := scale_pos q k
  have hbelow : below m q ≤ 4 * m := (below_le m q).trans (by omega)
  have hpoint : (d : ℚ) * 10 ^ k * scale q k = ((d * (rounding m q k).unit : Nat) : ℚ) := by
    rw [decimal_mul_scale]
    simp [rounding]
  have hlower : lowerEnd m q * scale q k = (((rounding m q k).lower : Nat) : ℚ) := by
    rw [lowerEnd, binary_mul_scale, show (rounding m q k).lower =
      (4 * m - below m q) * (2 ^ (q - 2).toNat * 10 ^ (-k).toNat) from rfl]
    push_cast [Nat.cast_sub hbelow]
    rfl
  have hupper : upperEnd m q * scale q k = (((rounding m q k).upper : Nat) : ℚ) := by
    rw [upperEnd, binary_mul_scale]
    simp [rounding]
  -- Both ends and the point are compared after the same positive scale.
  have hle {a b : ℚ} {a' b' : Nat} (ha : a * scale q k = a') (hb : b * scale q k = b') : a ≤ b ↔ a' ≤ b' := by
    rw [← mul_le_mul_iff_of_pos_right hscale, ha, hb, Nat.cast_le]
  have hlt {a b : ℚ} {a' b' : Nat} (ha : a * scale q k = a') (hb : b * scale q k = b') : a < b ↔ a' < b' := by
    rw [← mul_lt_mul_iff_of_pos_right hscale, ha, hb, Nat.cast_lt]
  have hclosed : (rounding m q k).closed = (m % 2 == 0) := rfl
  unfold Rounding.holds RoundsTo
  rw [hle hlower hpoint, hle hpoint hupper, hlt hlower hpoint, hlt hpoint hupper, hclosed]
  by_cases heven : m % 2 = 0 <;> simp [heven]

/-! ### Seventeen digits suffice -/

theorem lt_pow_digitCount (n : Nat) : n < 10 ^ digitCount n := by
  unfold digitCount
  split
  · omega
  · exact (Nat.length_toDigits_le_iff (by norm_num) Nat.length_toDigits_pos).mp le_rfl

theorem pow_digitCount_le (hn : 0 < n) : 10 ^ (digitCount n - 1) ≤ n := by
  have hcount : digitCount n = (Nat.toDigits 10 n).length := if_neg hn.ne'
  have hpos : 0 < digitCount n := hcount ▸ Nat.length_toDigits_pos
  by_cases hone : digitCount n = 1
  · rw [hone]
    exact hn
  · refine Nat.le_of_not_lt fun hlt => ?_
    have hle := (Nat.length_toDigits_le_iff (b := 10) (by norm_num) (by omega)).mpr hlt
    omega

theorem one_le_digitCount (hn : 0 < n) : 1 ≤ digitCount n := by
  rw [digitCount, if_neg hn.ne']
  exact Nat.length_toDigits_pos

theorem ten_zpow_digitCount_le (hn : 0 < n) : (10 : ℚ) ^ ((digitCount n : Int) - 1) ≤ n := by
  have hcast : (digitCount n : Int) - 1 = ((digitCount n - 1 : Nat) : Int) := by
    have hone := one_le_digitCount hn
    omega
  rw [hcast, zpow_natCast]
  exact_mod_cast pow_digitCount_le hn

/-- The power of the leading digit is no larger than the value. -/
theorem ten_zpow_leadingPower_le (hm : 0 < m) : (10 : ℚ) ^ leadingPower m q ≤ m * 2 ^ q := by
  cases q with
  | ofNat k =>
    have hle := ten_zpow_digitCount_le (Nat.mul_pos hm (Nat.two_pow_pos k))
    rw [Int.ofNat_eq_natCast, zpow_natCast]
    exact_mod_cast hle
  | negSucc k =>
    have hs : (0 : ℚ) < 2 ^ (k + 1) := by positivity
    have hvalue : (m : ℚ) * 2 ^ Int.negSucc k = m / 2 ^ (k + 1) := by
      rw [zpow_negSucc, div_eq_mul_inv]
    rw [hvalue]
    by_cases hle : 2 ^ (k + 1) ≤ m
    · have hlead : leadingPower m (.negSucc k) = (digitCount (m / 2 ^ (k + 1)) : Int) - 1 := if_pos hle
      rw [hlead]
      calc (10 : ℚ) ^ ((digitCount (m / 2 ^ (k + 1)) : Int) - 1) ≤ ((m / 2 ^ (k + 1) : Nat) : ℚ) :=
            ten_zpow_digitCount_le (Nat.div_pos hle (Nat.two_pow_pos _))
        _ ≤ (m : ℚ) / ((2 ^ (k + 1) : Nat) : ℚ) := Nat.cast_div_le
        _ = m / 2 ^ (k + 1) := by norm_num
    · -- Below one, the power is the least `p` with `2 ^ (k + 1) ≤ 10 ^ p * m`.
      obtain ⟨p, hp⟩ : ∃ p, p = digitCount ((2 ^ (k + 1) + m - 1) / m - 1) := ⟨_, rfl⟩
      have hlead : leadingPower m (.negSucc k) = -(p : Int) := hp ▸ if_neg hle
      have hup : (2 ^ (k + 1) + m - 1) / m ≤ 10 ^ p := by
        have hlt := lt_pow_digitCount ((2 ^ (k + 1) + m - 1) / m - 1)
        rw [← hp] at hlt
        omega
      have hscale : 2 ^ (k + 1) ≤ 10 ^ p * m := by
        have hdiv := Nat.lt_div_mul_add hm (a := 2 ^ (k + 1) + m - 1)
        have hmul := Nat.mul_le_mul_right m hup
        omega
      rw [hlead, zpow_neg, zpow_natCast, inv_le_comm₀ (by positivity) (by positivity), inv_div, div_le_iff₀ (by positivity)]
      exact_mod_cast hscale

theorem roundsTo_of_between (hlower : lowerEnd m q < r) (hupper : r < upperEnd m q) : RoundsTo m q r := by
  unfold RoundsTo
  split
  · exact ⟨hlower.le, hupper.le⟩
  · exact ⟨hlower, hupper⟩

theorem RoundsTo.bounds (h : RoundsTo m q r) : lowerEnd m q ≤ r ∧ r ≤ upperEnd m q := by
  unfold RoundsTo at h
  split at h
  · exact h
  · exact ⟨h.1.le, h.2.le⟩

/-- The value stands in quarters of its unit. -/
theorem binary_eq_quarters (m : Nat) (q : Int) : (m : ℚ) * 2 ^ q = 4 * m * 2 ^ (q - 2) := by
  rw [zpow_sub₀ two_ne_zero]
  norm_num
  ring

theorem one_le_below (m : Nat) (q : Int) : 1 ≤ below m q := by
  unfold below
  split <;> omega

theorem lowerEnd_lt (m : Nat) (q : Int) : lowerEnd m q < m * 2 ^ q := by
  have hbelow : (1 : ℚ) ≤ below m q := by exact_mod_cast one_le_below m q
  rw [binary_eq_quarters, lowerEnd]
  gcongr
  linarith

theorem lt_upperEnd (m : Nat) (q : Int) : m * 2 ^ q < upperEnd m q := by
  rw [binary_eq_quarters, upperEnd]
  gcongr
  linarith

/-- The value itself lies in its interval. -/
theorem roundsTo_self (m : Nat) (q : Int) : RoundsTo m q (m * 2 ^ q) :=
  roundsTo_of_between (lowerEnd_lt m q) (lt_upperEnd m q)

/-- The grid of seventeen digits is finer than the interval is wide. -/
theorem unit_lt_width (hcanonical : Canonical m q) (hm : 0 < m) :
    (10 : ℚ) ^ (leadingPower m q - 16) < upperEnd m q - lowerEnd m q := by
  have hwidth : upperEnd m q - lowerEnd m q = (2 + below m q) * 2 ^ (q - 2) := by
    rw [upperEnd, lowerEnd]
    ring
  have hroom : (4 * m : ℚ) < (2 + below m q) * 10 ^ 16 := by
    have hlt := hcanonical.lt
    unfold below
    split
    · rename_i hleast
      rw [hleast.1]
      norm_num
    · have hcast : (m : ℚ) < 2 ^ 53 := by exact_mod_cast hlt
      push_cast
      linarith
  rw [hwidth, zpow_sub₀ (by norm_num), div_lt_iff₀ (by positivity)]
  calc (10 : ℚ) ^ leadingPower m q ≤ m * 2 ^ q := ten_zpow_leadingPower_le hm
    _ = 4 * m * 2 ^ (q - 2) := binary_eq_quarters m q
    _ < (2 + below m q) * 10 ^ 16 * 2 ^ (q - 2) := by gcongr
    _ = (2 + below m q) * 2 ^ (q - 2) * 10 ^ (16 : Int) := by norm_num; ring

/-- The two grid points about a value. -/
theorem neighbours (m : Nat) (q k : Int) :
    let d := (rounding m q k).value / (rounding m q k).unit
    (d : ℚ) * 10 ^ k ≤ m * 2 ^ q ∧ m * 2 ^ q < ((d + 1 : Nat) : ℚ) * 10 ^ k := by
  intro d
  have hscale := scale_pos q k
  have hunit : 0 < (rounding m q k).unit :=
    Nat.mul_pos (Nat.pow_pos (by norm_num)) (Nat.pow_pos (by norm_num))
  have hvalue : (m : ℚ) * 2 ^ q * scale q k = (((rounding m q k).value : Nat) : ℚ) := by
    rw [binary_eq_quarters, binary_mul_scale]
    simp [rounding]
  have hpoint (c : Nat) : (c : ℚ) * 10 ^ k * scale q k = ((c * (rounding m q k).unit : Nat) : ℚ) := by
    rw [decimal_mul_scale]
    simp [rounding]
  rw [← mul_le_mul_iff_of_pos_right hscale, ← mul_lt_mul_iff_of_pos_right hscale, hvalue, hpoint, hpoint,
    Nat.cast_le, Nat.cast_lt]
  exact ⟨Nat.div_mul_le_self _ _, Nat.lt_mul_of_div_lt (Nat.lt_succ_self _) hunit⟩

theorem holds_of_nearest? {g : Rounding} {d : Nat} (h : g.nearest? = some d) : g.holds d = true := by
  simp only [Rounding.nearest?] at h
  split at h
  · rename_i hbelow habove
    split at h
    · cases h; exact hbelow
    · split at h
      · cases h; exact habove
      · split at h
        · cases h; exact hbelow
        · cases h; exact habove
  · rename_i hbelow _
    cases h; exact hbelow
  · rename_i _ habove
    cases h; exact habove
  · cases h

theorem nearest?_eq_none {g : Rounding} (h : g.nearest? = none) :
    g.holds (g.value / g.unit) = false ∧ g.holds (g.value / g.unit + 1) = false := by
  simp only [Rounding.nearest?] at h
  split at h
  · split at h
    · cases h
    · split at h
      · cases h
      · split at h <;> cases h
  · cases h
  · cases h
  · rename_i hbelow habove
    exact ⟨hbelow, habove⟩

theorem nearest?_ne_none (hcanonical : Canonical m q) (hm : 0 < m) :
    (rounding m q (leadingPower m q - 16)).nearest? ≠ none := by
  intro hnone
  obtain ⟨hbelow, habove⟩ := nearest?_eq_none hnone
  obtain ⟨hle, hlt⟩ := neighbours m q (leadingPower m q - 16)
  have hfine := unit_lt_width hcanonical hm
  rw [← Bool.not_eq_true, holds_iff hm] at hbelow habove
  set k := leadingPower m q - 16
  set d := (rounding m q k).value / (rounding m q k).unit
  have hlower : (d : ℚ) * 10 ^ k ≤ lowerEnd m q := by
    by_contra hnot
    exact hbelow (roundsTo_of_between (not_le.mp hnot) (hle.trans_lt (lt_upperEnd m q)))
  have hupper : upperEnd m q ≤ ((d + 1 : Nat) : ℚ) * 10 ^ k := by
    by_contra hnot
    exact habove (roundsTo_of_between ((lowerEnd_lt m q).trans hlt) (not_le.mp hnot))
  push_cast at hupper
  linarith

theorem value_dropZeros (fuel : Nat) (d : Decimal) : (d.dropZeros fuel).value = d.value := by
  induction fuel generalizing d with
  | zero => rfl
  | succ fuel ih =>
    unfold Decimal.dropZeros
    split
    · rename_i hzero
      rw [ih]
      have htens : (d.coefficient : ℚ) = ((d.coefficient / 10 : Nat) : ℚ) * 10 := by
        exact_mod_cast (Nat.div_mul_cancel (Nat.dvd_of_mod_eq_zero hzero.2)).symm
      show ((d.coefficient / 10 : Nat) : ℚ) * 10 ^ (d.exponent + 1) = d.coefficient * 10 ^ d.exponent
      rw [htens, zpow_add_one₀ (by norm_num)]
      ring
    · rfl

/-- The decimal that is written reads back as the value it is written for. -/
theorem shortest_roundsTo (hcanonical : Canonical m q) (hm : 0 < m) : RoundsTo m q (shortest m q).value := by
  unfold shortest
  rw [value_dropZeros]
  generalize hfound : (List.range 17).findSome? _ = found
  cases found with
  | none =>
    rw [List.findSome?_eq_none_iff] at hfound
    have hlast := hfound 16 (by simp)
    rw [Option.map_eq_none_iff] at hlast
    exact absurd hlast (nearest?_ne_none hcanonical hm)
  | some d =>
    obtain ⟨n, -, hn⟩ := List.exists_of_findSome?_eq_some hfound
    obtain ⟨c, hc, rfl⟩ := Option.map_eq_some_iff.mp hn
    exact (holds_iff hm c).mp (holds_of_nearest? hc)

/-! ### Intervals of different numbers -/

/-- One interval lies below another, and they share no end that belongs to both. -/
def Apart (m : Nat) (q : Int) (m' : Nat) (q' : Int) : Prop :=
  upperEnd m q ≤ lowerEnd m' q' ∧ (m % 2 = 0 → m' % 2 = 0 → upperEnd m q < lowerEnd m' q')

theorem Apart.not_roundsTo (h : Apart m q m' q') (hr : RoundsTo m q r) : ¬ RoundsTo m' q' r := by
  intro hr'
  have hupper := hr.bounds.2
  have hlower := hr'.bounds.1
  by_cases heven : m % 2 = 0
  · by_cases heven' : m' % 2 = 0
    · exact absurd (hlower.trans hupper) (not_le.mpr (h.2 heven heven'))
    · rw [RoundsTo, if_neg heven'] at hr'
      exact absurd (hr'.1.trans_le hupper) (not_lt.mpr h.1)
  · rw [RoundsTo, if_neg heven] at hr
    exact absurd (hlower.trans_lt hr.2) (not_lt.mpr h.1)

/-- Mantissas `s` apart leave a gap of all but one of these units. -/
theorem upperEnd_add_le_of_mantissa {s : Nat} (h : m + s ≤ m') :
    upperEnd m q + 4 * (s - 1) * 2 ^ (q - 2) ≤ lowerEnd m' q := by
  have hbelow : (below m' q : ℚ) ≤ 2 := by exact_mod_cast below_le m' q
  have hcast : (m : ℚ) + s ≤ m' := by exact_mod_cast h
  rw [upperEnd, lowerEnd, ← add_mul]
  gcongr
  linarith

/-- No interval of a number with a larger exponent reaches below `2 ^ 53 - 1 / 2` of the smaller unit. -/
theorem upperEnd_add_le_of_exponent {s : Nat} (hlt : m + s ≤ 2 ^ 53) (hlead : 2 ^ 52 ≤ m') (hq : -1074 ≤ q)
    (h : q < q') : upperEnd m q + 4 * (s - 1) * 2 ^ (q - 2) ≤ lowerEnd m' q' := by
  have hcast : (m : ℚ) + s ≤ 2 ^ 53 := by exact_mod_cast hlt
  have hpow : (2 : ℚ) * 2 ^ (q - 2) ≤ 2 ^ (q' - 2) := by
    rw [← zpow_one_add₀ two_ne_zero]
    exact zpow_le_zpow_right₀ (by norm_num) (by omega)
  -- At the least mantissa the interval reaches down only a quarter.
  have hfloor : (2 : ℚ) ^ 54 - 1 ≤ 4 * m' - below m' q' := by
    unfold below
    split
    · rename_i hleast
      rw [hleast.1]
      norm_num
    · rename_i hnot
      have hgt : 2 ^ 52 + 1 ≤ m' := by
        rcases Nat.eq_or_lt_of_le hlead with heq | hgt
        · exact absurd ⟨heq.symm, by omega⟩ hnot
        · exact hgt
      have hcast' : (2 : ℚ) ^ 52 + 1 ≤ m' := by exact_mod_cast hgt
      push_cast
      linarith
  have hpos : (0 : ℚ) ≤ 4 * m' - below m' q' := le_trans (by norm_num) hfloor
  rw [upperEnd, lowerEnd, ← add_mul]
  calc (4 * m + 2 + 4 * (s - 1) : ℚ) * 2 ^ (q - 2) ≤ (2 ^ 54 - 1) * 2 * 2 ^ (q - 2) := by
        gcongr
        linarith
    _ = (2 ^ 54 - 1) * (2 * 2 ^ (q - 2)) := by ring
    _ ≤ (4 * m' - below m' q') * 2 ^ (q' - 2) := mul_le_mul hfloor hpow (by positivity) hpos

/-- A unit more between the mantissas parts the ends. -/
theorem apart_of_gap (hone : upperEnd m q + 4 * ((1 : Nat) - 1) * 2 ^ (q - 2) ≤ lowerEnd m' q')
    (htwo : m % 2 = 0 → m' % 2 = 0 → upperEnd m q + 4 * ((2 : Nat) - 1) * 2 ^ (q - 2) ≤ lowerEnd m' q') :
    Apart m q m' q' := by
  have hpos : (0 : ℚ) < 2 ^ (q - 2) := by positivity
  refine ⟨?_, fun heven heven' => ?_⟩
  · push_cast at hone
    linarith
  · have hgap := htwo heven heven'
    push_cast at hgap
    linarith

theorem apart_of_mantissa (h : m < m') : Apart m q m' q :=
  apart_of_gap (upperEnd_add_le_of_mantissa h) fun _ _ => upperEnd_add_le_of_mantissa (by omega)

theorem Canonical.apart_of_exponent (hc : Canonical m q) (hc' : Canonical m' q') (h : q < q') : Apart m q m' q' := by
  have hle := hc.le
  have hlt := hc.lt
  have hlead : 2 ^ 52 ≤ m' := hc'.lead (by omega)
  exact apart_of_gap (upperEnd_add_le_of_exponent hlt hlead hle h) fun _ _ =>
    upperEnd_add_le_of_exponent (by omega) hlead hle h

/-- No value rounds to two numbers. -/
theorem RoundsTo.unique (hc : Canonical m q) (hc' : Canonical m' q') (hr : RoundsTo m q r) (hr' : RoundsTo m' q' r) :
    m = m' ∧ q = q' := by
  rcases lt_trichotomy q q' with hlt | rfl | hgt
  · exact absurd hr' ((hc.apart_of_exponent hc' hlt).not_roundsTo hr)
  · rcases lt_trichotomy m m' with hlt | rfl | hgt
    · exact absurd hr' ((apart_of_mantissa hlt).not_roundsTo hr)
    · exact ⟨rfl, rfl⟩
    · exact absurd hr ((apart_of_mantissa hgt).not_roundsTo hr')
  · exact absurd hr ((hc'.apart_of_exponent hc hgt).not_roundsTo hr')

end LoxLanguage.Number
