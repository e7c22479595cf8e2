import Mathlib
import LoxLanguage.Number.Text
import LoxLanguage.Proofs.Number.Shortest

/-! The display form of a number tells which number it is (`displayText_injective`).

A written decimal is read back by `readDecimal`, so its text fixes its value, and its value fixes the number whose rounding
interval it lies in. A whole number shows digits only, while the text of any other number has a point or an exponent.
The sign, the infinities and the not-a-number are told apart by how their texts begin. -/

namespace LoxLanguage.Number

variable {x y : Number} {m m' n n' : Nat} {q q' : Int} {b : Bool} {c : Char} {l before after : List Char}

/-! ### Reading decimals back -/

/-- What stands in front of the first `c`. -/
def ahead (c : Char) (text : List Char) : List Char :=
  text.takeWhile (· != c)

/-- What stands behind the first `c`. -/
def behind (c : Char) (text : List Char) : List Char :=
  (text.dropWhile (· != c)).tail

/-- The exponent that is written with a sign, zero when there is none. -/
def readExponent : List Char → Int
  | [] => 0
  | sign :: digits => if sign = '-' then -(Nat.ofDigitChars 10 digits 0 : Int) else Nat.ofDigitChars 10 digits 0

/-- The value of digits with a point in them; the point may be missing. -/
def readPlain (text : List Char) : ℚ :=
  Nat.ofDigitChars 10 (ahead '.' text ++ behind '.' text) 0 * 10 ^ (-((behind '.' text).length : Int))

/-- The value that is written with a point and an exponent, either of which may be missing. -/
def readDecimal (text : List Char) : ℚ :=
  readPlain (ahead 'e' text) * 10 ^ readExponent (behind 'e' text)

theorem ahead_append (h : ∀ c' ∈ l, c' ≠ c) : ahead c (l ++ c :: after) = l := by
  rw [ahead, List.takeWhile_append_of_pos fun a ha => bne_iff_ne.mpr (h a ha)]
  simp

theorem behind_append (h : ∀ c' ∈ l, c' ≠ c) : behind c (l ++ c :: after) = after := by
  rw [behind, List.dropWhile_append_of_pos fun a ha => bne_iff_ne.mpr (h a ha)]
  simp

theorem ahead_eq_self (h : ∀ c' ∈ l, c' ≠ c) : ahead c l = l :=
  List.takeWhile_eq_self_iff.mpr fun a ha => bne_iff_ne.mpr (h a ha)

theorem behind_eq_nil (h : ∀ c' ∈ l, c' ≠ c) : behind c l = [] := by
  rw [behind, List.dropWhile_eq_nil_iff.mpr fun a ha => bne_iff_ne.mpr (h a ha)]
  rfl

/-- A row of digits. -/
def Digits (l : List Char) : Prop :=
  ∀ c ∈ l, c.isDigit = true

theorem Digits.ne (h : Digits l) (hc : c.isDigit = false) : ∀ c' ∈ l, c' ≠ c := by
  rintro c' hc' rfl
  exact Bool.noConfusion ((h c' hc').symm.trans hc)

theorem Digits.append (hl : Digits before) (hr : Digits after) : Digits (before ++ after) := by
  intro c hc
  rcases List.mem_append.mp hc with h | h
  · exact hl c h
  · exact hr c h

theorem digits_toDigits (n : Nat) : Digits (Nat.toDigits 10 n) :=
  fun _ hc => Nat.isDigit_of_mem_toDigits (by norm_num) (by norm_num) hc

theorem digits_zeros (k : Nat) : Digits (List.replicate k '0') := by
  intro c hc
  rw [List.eq_of_mem_replicate hc]
  rfl

theorem readPlain_point (hb : Digits before) :
    readPlain (before ++ '.' :: after) = Nat.ofDigitChars 10 (before ++ after) 0 * 10 ^ (-(after.length : Int)) := by
  rw [readPlain, ahead_append (hb.ne rfl), behind_append (hb.ne rfl)]

theorem readPlain_digits (h : Digits l) : readPlain l = Nat.ofDigitChars 10 l 0 := by
  rw [readPlain, ahead_eq_self (h.ne rfl), behind_eq_nil (h.ne rfl)]
  simp

theorem readDecimal_plain (h : ∀ c ∈ l, c ≠ 'e') : readDecimal l = readPlain l := by
  rw [readDecimal, ahead_eq_self h, behind_eq_nil h]
  simp [readExponent]

theorem readDecimal_exponent {exponent : List Char} (h : ∀ c ∈ l, c ≠ 'e') :
    readDecimal (l ++ 'e' :: exponent) = readPlain l * 10 ^ readExponent exponent := by
  rw [readDecimal, ahead_append h, behind_append h]

/-- Digits with a point between them hold no exponent. -/
theorem ne_exponent_of_point (hb : Digits before) (ha : Digits after) : ∀ c ∈ before ++ '.' :: after, c ≠ 'e' := by
  intro c hc
  rcases List.mem_append.mp hc with h | h
  · exact hb.ne rfl c h
  · rcases List.mem_cons.mp h with rfl | h
    · decide
    · exact ha.ne rfl c h

/-- Zeros in front of digits stand for nothing. -/
theorem ofDigitChars_zeros_append (k : Nat) (l : List Char) :
    Nat.ofDigitChars 10 (List.replicate k '0' ++ l) 0 = Nat.ofDigitChars 10 l 0 := by
  rw [Nat.ofDigitChars_append, Nat.ofDigitChars_replicate_zero, Nat.mul_zero]

/-! ### What is written -/

theorem Decimal.digits_digits (d : Decimal) : Digits d.digits :=
  digits_toDigits d.coefficient

theorem Decimal.ofDigitChars_digits (d : Decimal) : Nat.ofDigitChars 10 d.digits 0 = d.coefficient :=
  Nat.ofDigitChars_ten_toDigits

theorem Decimal.digits_length_pos (d : Decimal) : 0 < d.digits.length :=
  Nat.length_toDigits_pos

/-- A decimal without an exponent is two rows of digits about a point. -/
theorem Decimal.positional_eq (d : Decimal) :
    ∃ before after, d.positional.toList = before ++ '.' :: after ∧ before ≠ [] ∧ Digits before ∧ Digits after ∧
      (Nat.ofDigitChars 10 (before ++ after) 0 : ℚ) * 10 ^ (-(after.length : Int)) = d.value := by
  have hdigits := d.digits_digits
  have hread := d.ofDigitChars_digits
  have hpos := d.digits_length_pos
  unfold Decimal.positional
  generalize hlead : d.leading = lead
  have hexponent : d.exponent = lead + 1 - d.digits.length := by
    rw [← hlead, Decimal.leading]
    omega
  cases lead with
  | ofNat k =>
    rw [Int.ofNat_eq_natCast] at hexponent
    by_cases hlong : k + 1 < d.digits.length
    · -- The point stands inside the digits.
      refine ⟨d.digits.take (k + 1), d.digits.drop (k + 1), ?_, ?_, ?_, ?_, ?_⟩
      · have hlength : (d.digits.take (k + 1)).length = k + 1 := List.length_take_of_le hlong.le
        have hrest : (d.digits.drop (k + 1)).isEmpty = false := by
          rw [List.isEmpty_eq_false_iff, ne_eq, List.drop_eq_nil_iff]
          omega
        simp [hlength, hrest]
      · rw [ne_eq, ← List.length_eq_zero_iff, List.length_take_of_le hlong.le]
        omega
      · exact fun c hc => hdigits c (List.mem_of_mem_take hc)
      · exact fun c hc => hdigits c (List.mem_of_mem_drop hc)
      · rw [List.take_append_drop, hread, Decimal.value, hexponent, List.length_drop]
        congr 2
        push_cast [Nat.cast_sub hlong.le]
        omega
    · -- All digits stand in front of the point, with zeros behind them up to it.
      have hle : d.digits.length ≤ k + 1 := Nat.le_of_not_lt hlong
      refine ⟨d.digits ++ List.replicate (k + 1 - d.digits.length) '0', ['0'], ?_, ?_, ?_, digits_zeros 1, ?_⟩
      · simp [List.take_of_length_le hle, List.drop_of_length_le hle]
      · exact List.append_ne_nil_of_left_ne_nil (List.length_pos_iff.mp hpos) _
      · exact hdigits.append (digits_zeros _)
      · rw [List.append_assoc, ← List.replicate_one, List.replicate_append_replicate, Nat.ofDigitChars_append, hread,
          Nat.ofDigitChars_replicate_zero, Decimal.value]
        have hzeros : d.exponent = ((k + 1 - d.digits.length + 1 : Nat) : Int) + -1 := by
          push_cast [Nat.cast_sub hle]
          omega
        rw [hzeros, zpow_add₀ (by norm_num), zpow_natCast]
        rw [List.length_replicate]
        push_cast
        ring
  | negSucc k =>
    refine ⟨['0'], List.replicate k '0' ++ d.digits, ?_, List.cons_ne_nil _ _, digits_zeros 1,
      (digits_zeros k).append hdigits, ?_⟩
    · simp
    · rw [← List.append_assoc, ← List.replicate_one, List.replicate_append_replicate, ofDigitChars_zeros_append, hread,
        Decimal.value, hexponent, List.length_append, List.length_replicate]
      congr 2
      push_cast
      omega

theorem exponentText_eq (e : Int) :
    ∃ sign digits, (exponentText e).toList = 'e' :: sign :: digits ∧ (sign = '-' ∨ sign = '+') ∧ Digits digits ∧
      readExponent (sign :: digits) = e := by
  -- Padding to two digits changes nothing.
  obtain ⟨digits, hdigits, hrow, hread⟩ : ∃ digits, digits = (if (Nat.toDigits 10 e.natAbs).length < 2 then
      '0' :: Nat.toDigits 10 e.natAbs else Nat.toDigits 10 e.natAbs) ∧ Digits digits ∧
        Nat.ofDigitChars 10 digits 0 = e.natAbs := by
    refine ⟨_, rfl, ?_⟩
    split
    · exact ⟨(digits_zeros 1).append (digits_toDigits _), Nat.ofDigitChars_ten_toDigits⟩
    · exact ⟨digits_toDigits _, Nat.ofDigitChars_ten_toDigits⟩
  by_cases hneg : e < 0
  · refine ⟨'-', digits, ?_, .inl rfl, hrow, ?_⟩
    · simp [exponentText, hneg, hdigits]
    · rw [readExponent, if_pos rfl, hread]
      omega
  · refine ⟨'+', digits, ?_, .inr rfl, hrow, ?_⟩
    · simp [exponentText, hneg, hdigits]
    · rw [readExponent, if_neg (by decide), hread]
      omega

/-- The characters of written numbers. -/
def isNumeral (c : Char) : Bool :=
  c.isDigit || c == '.' || c == 'e' || c == '-' || c == '+'

/-- What the text of a decimal is like. -/
structure Decimal.Written (d : Decimal) (text : List Char) : Prop where
  begins : ∃ c rest, text = c :: rest ∧ c.isDigit = true
  numeral : ∀ c ∈ text, isNumeral c = true
  marked : ∃ c ∈ text, c.isDigit = false
  reads : readDecimal text = d.value

theorem Digits.numeral (h : Digits l) : ∀ c ∈ l, isNumeral c = true := by
  intro c hc
  simp [isNumeral, h c hc]

theorem Digits.begins (h : Digits l) (hne : l ≠ []) (rest : List Char) :
    ∃ c tail, l ++ rest = c :: tail ∧ c.isDigit = true := by
  obtain ⟨c, tail, rfl⟩ := List.exists_cons_of_ne_nil hne
  exact ⟨c, tail ++ rest, rfl, h c List.mem_cons_self⟩

theorem Decimal.written_positional (d : Decimal) : d.Written d.positional.toList := by
  obtain ⟨before, after, htext, hne, hb, ha, hvalue⟩ := d.positional_eq
  rw [htext]
  refine ⟨hb.begins hne _, ?_, ⟨'.', by simp, rfl⟩, ?_⟩
  · intro c hc
    rcases List.mem_append.mp hc with h | h
    · exact hb.numeral c h
    · rcases List.mem_cons.mp h with rfl | h
      · rfl
      · exact ha.numeral c h
  · rw [readDecimal_plain (ne_exponent_of_point hb ha), readPlain_point hb, hvalue]

/-- Digits, with a point perhaps, in front of an exponent. -/
theorem Decimal.written_exponent {d : Decimal} (e : Int) (hbegins : ∃ c rest, l = c :: rest ∧ c.isDigit = true)
    (hnumeral : ∀ c ∈ l, isNumeral c = true) (hplain : ∀ c ∈ l, c ≠ 'e') (hvalue : readPlain l * 10 ^ e = d.value) :
    d.Written (l ++ (exponentText e).toList) := by
  obtain ⟨sign, digits, htext, hsign, hdigits, hread⟩ := exponentText_eq e
  obtain ⟨c, rest, rfl, hc⟩ := hbegins
  rw [htext]
  refine ⟨⟨c, _, rfl, hc⟩, ?_, ⟨'e', by simp, rfl⟩, ?_⟩
  · intro c' hc'
    rcases List.mem_append.mp hc' with h | h
    · exact hnumeral c' h
    · rcases List.mem_cons.mp h with rfl | h
      · rfl
      · rcases List.mem_cons.mp h with rfl | h
        · rcases hsign with rfl | rfl <;> rfl
        · exact hdigits.numeral c' h
  · rw [readDecimal_exponent hplain, hread, hvalue]

theorem Decimal.written_scientific (d : Decimal) : d.Written d.scientific.toList := by
  have hdigits := d.digits_digits
  have hread := d.ofDigitChars_digits
  have hpos := d.digits_length_pos
  have hleading : d.leading = d.exponent + (d.digits.length : Int) - 1 := rfl
  unfold Decimal.scientific
  generalize d.digits = digits at hdigits hread hpos hleading
  match digits with
  | [] => exact absurd hpos (Nat.lt_irrefl 0)
  | [c] =>
    rw [String.toList_append, String.toList_ofList]
    refine Decimal.written_exponent _ ⟨c, [], rfl, hdigits c List.mem_cons_self⟩ hdigits.numeral (hdigits.ne rfl) ?_
    rw [readPlain_digits hdigits, hread, hleading, Decimal.value]
    simp
  | c :: c' :: rest =>
    have hfirst : Digits [c] := fun _ h => hdigits _ (List.mem_cons.mpr (.inl (List.mem_singleton.mp h)))
    have hrest : Digits (c' :: rest) := fun _ h => hdigits _ (List.mem_cons_of_mem _ h)
    rw [String.toList_append, String.toList_ofList]
    have hplain : ∀ a ∈ [c] ++ '.' :: c' :: rest, a ≠ 'e' := ne_exponent_of_point hfirst hrest
    refine Decimal.written_exponent _ ⟨c, _, rfl, hdigits c List.mem_cons_self⟩ ?_ hplain ?_
    · intro a ha
      rcases List.mem_cons.mp ha with rfl | ha
      · exact hfirst.numeral _ List.mem_cons_self
      · rcases List.mem_cons.mp ha with rfl | ha
        · rfl
        · exact hrest.numeral a ha
    · rw [show c :: '.' :: c' :: rest = [c] ++ '.' :: c' :: rest from rfl, readPlain_point hfirst,
        show [c] ++ c' :: rest = c :: c' :: rest from rfl, hread, hleading, Decimal.value, mul_assoc,
        ← zpow_add₀ (by norm_num)]
      congr 2
      simp only [List.length_cons]
      push_cast
      omega

theorem Decimal.written_write (layout : Layout) (d : Decimal) : d.Written (d.write layout).toList := by
  unfold Decimal.write
  split
  · exact d.written_positional
  · exact d.written_scientific

/-! ### Whole numbers and others -/

theorem whole?_eq_some (h : whole? m q = some n) : (n : ℚ) = m * 2 ^ q := by
  unfold whole? at h
  split at h
  · cases h
    rw [Int.ofNat_eq_natCast, zpow_natCast]
    exact_mod_cast rfl
  · rename_i k
    split at h
    · rename_i hdvd
      cases h
      have hmul : m / 2 ^ (k + 1) * 2 ^ (k + 1) = m := Nat.div_mul_cancel (Nat.dvd_of_mod_eq_zero hdvd)
      rw [zpow_negSucc, ← div_eq_mul_inv, eq_div_iff (by positivity)]
      exact_mod_cast hmul
    · cases h

theorem pos_of_whole?_eq_none (h : whole? m q = none) : 0 < m := by
  rw [Nat.pos_iff_ne_zero]
  rintro rfl
  cases q <;> simp [whole?] at h

/-- The text of a finite number behind its sign. -/
def unsignedText (m : Nat) (q : Int) : String :=
  match whole? m q with
  | some n => String.ofList (Nat.toDigits 10 n)
  | none => finiteText m q

theorem unsignedText_whole (h : whole? m q = some n) : (unsignedText m q).toList = Nat.toDigits 10 n := by
  rw [unsignedText, h]
  exact String.toList_ofList

theorem unsignedText_other (h : whole? m q = none) :
    (shortest m q).Written (unsignedText m q).toList := by
  rw [unsignedText, h]
  show (shortest m q).Written (finiteText m q).toList
  rw [finiteText, if_neg (pos_of_whole?_eq_none h).ne']
  exact Decimal.written_write plainLayout _

theorem unsignedText_begins (m : Nat) (q : Int) :
    ∃ c rest, (unsignedText m q).toList = c :: rest ∧ c.isDigit = true := by
  cases h : whole? m q with
  | some n =>
    rw [unsignedText_whole h]
    obtain ⟨c, rest, hrow, hc⟩ := (digits_toDigits n).begins Nat.toDigits_ne_nil []
    exact ⟨c, rest, (List.append_nil _).symm.trans hrow, hc⟩
  | none => exact (unsignedText_other h).begins

theorem unsignedText_numeral (m : Nat) (q : Int) : ∀ c ∈ (unsignedText m q).toList, isNumeral c = true := by
  cases h : whole? m q with
  | some n =>
    rw [unsignedText_whole h]
    exact (digits_toDigits n).numeral
  | none => exact (unsignedText_other h).numeral

/-- A whole number shows digits only, and any other something else. -/
theorem unsignedText_ne (h : whole? m q = some n) (h' : whole? m' q' = none) : unsignedText m q ≠ unsignedText m' q' := by
  intro heq
  obtain ⟨c, hc, hnot⟩ := (unsignedText_other h').marked
  rw [← heq, unsignedText_whole h] at hc
  exact Bool.noConfusion ((digits_toDigits n c hc).symm.trans hnot)

theorem unsignedText_injective (hc : Canonical m q) (hc' : Canonical m' q') (h : unsignedText m q = unsignedText m' q') :
    m = m' ∧ q = q' := by
  cases hw : whole? m q with
  | some n =>
    cases hw' : whole? m' q' with
    | none => exact absurd h (unsignedText_ne hw hw')
    | some n' =>
      have hrow : Nat.toDigits 10 n = Nat.toDigits 10 n' := by
        rw [← unsignedText_whole hw, ← unsignedText_whole hw', h]
      have hsame : n = n' := by
        rw [← Nat.ofDigitChars_ten_toDigits (n := n), hrow, Nat.ofDigitChars_ten_toDigits]
      have hvalue : (m : ℚ) * 2 ^ q = m' * 2 ^ q' := by
        rw [← whole?_eq_some hw, ← whole?_eq_some hw', hsame]
      exact (roundsTo_self m q).unique hc hc' (hvalue ▸ roundsTo_self m' q')
  | none =>
    cases hw' : whole? m' q' with
    | some n' => exact absurd h.symm (unsignedText_ne hw' hw)
    | none =>
      have hvalue : (shortest m q).value = (shortest m' q').value := by
        rw [← (unsignedText_other hw).reads, ← (unsignedText_other hw').reads, h]
      have hround := shortest_roundsTo hc (pos_of_whole?_eq_none hw)
      rw [hvalue] at hround
      exact hround.unique hc hc' (shortest_roundsTo hc' (pos_of_whole?_eq_none hw'))

/-! ### All numbers -/

/-- Whether a sign is written. -/
def Parts.signed : Parts → Bool
  | .notANumber => false
  | .infinite negative => negative
  | .finite negative _ _ => negative

/-- What is written behind the sign. -/
def Parts.unsigned : Parts → String
  | .notANumber => "NaN"
  | .infinite _ => "Infinity"
  | .finite _ m q => unsignedText m q

theorem displayText_eq (x : Number) : displayText x = signText (parts x).signed ++ (parts x).unsigned := by
  unfold displayText
  cases parts x with
  | notANumber => rfl
  | infinite negative => rfl
  | finite negative m q => rfl

/-- No sign is written behind the sign. -/
theorem unsigned_begins (p : Parts) : ∃ c rest, p.unsigned.toList = c :: rest ∧ c ≠ '-' := by
  cases p with
  | notANumber => exact ⟨'N', "aN".toList, by decide, by decide⟩
  | infinite negative => exact ⟨'I', "nfinity".toList, show "Infinity".toList = _ by decide, by decide⟩
  | finite negative m q =>
    obtain ⟨c, rest, hrow, hc⟩ := unsignedText_begins m q
    refine ⟨c, rest, hrow, ?_⟩
    rintro rfl
    cases hc

/-- The signs can be read off two equal texts. -/
theorem signed_injective {b b' : Bool} {p p' : Parts} (h : signText b ++ p.unsigned = signText b' ++ p'.unsigned) :
    b = b' ∧ p.unsigned = p'.unsigned := by
  obtain ⟨c, rest, hrow, hc⟩ := unsigned_begins p
  obtain ⟨c', rest', hrow', hc'⟩ := unsigned_begins p'
  have hlist : (signText b).toList ++ c :: rest = (signText b').toList ++ c' :: rest' := by
    rw [← hrow, ← hrow', ← String.toList_append, ← String.toList_append, h]
  cases b with
  | false =>
    cases b' with
    | false => exact ⟨rfl, (String.append_right_inj _).mp h⟩
    | true => exact absurd (List.cons.inj hlist).1 hc
  | true =>
    cases b' with
    | false => exact absurd (List.cons.inj hlist).1.symm hc'
    | true => exact ⟨rfl, (String.append_right_inj _).mp h⟩

/-- Only finite numbers begin with a digit. -/
theorem unsignedText_ne_of_begins {word : String} (hword : ∀ c rest, word.toList = c :: rest → c.isDigit = false) :
    unsignedText m q ≠ word := by
  rintro rfl
  obtain ⟨c, rest, hrow, hc⟩ := unsignedText_begins m q
  exact Bool.noConfusion (hc.symm.trans (hword c rest hrow))

theorem unsignedText_ne_notANumber : unsignedText m q ≠ "NaN" :=
  unsignedText_ne_of_begins fun _ _ h => (List.cons.inj h).1 ▸ rfl

theorem unsignedText_ne_infinity : unsignedText m q ≠ "Infinity" :=
  unsignedText_ne_of_begins fun _ _ h => (List.cons.inj h).1 ▸ rfl

/-- Different numbers are displayed differently. -/
theorem displayText_injective (h : displayText x = displayText y) : x = y := by
  rw [displayText_eq, displayText_eq] at h
  obtain ⟨hsign, htext⟩ := signed_injective h
  refine parts_injective ?_
  cases hx : parts x with
  | notANumber =>
    cases hy : parts y with
    | notANumber => rfl
    | infinite b' =>
      rw [hx, hy] at htext
      exact absurd htext (show "NaN" ≠ "Infinity" by decide)
    | finite b' m' q' =>
      rw [hx, hy] at htext
      exact absurd htext.symm unsignedText_ne_notANumber
  | infinite b =>
    cases hy : parts y with
    | notANumber =>
      rw [hx, hy] at htext
      exact absurd htext (show "Infinity" ≠ "NaN" by decide)
    | infinite b' =>
      rw [hx, hy] at hsign
      exact congrArg Parts.infinite hsign
    | finite b' m' q' =>
      rw [hx, hy] at htext
      exact absurd htext.symm unsignedText_ne_infinity
  | finite b m q =>
    cases hy : parts y with
    | notANumber =>
      rw [hx, hy] at htext
      exact absurd htext unsignedText_ne_notANumber
    | infinite b' =>
      rw [hx, hy] at htext
      exact absurd htext unsignedText_ne_infinity
    | finite b' m' q' =>
      rw [hx, hy] at hsign htext
      obtain ⟨rfl, rfl⟩ := unsignedText_injective (canonical_of_parts hx) (canonical_of_parts hy) htext
      exact congrArg (Parts.finite · m q) hsign

/-- The text of a finite number is made of numerals, and it begins with a digit or a sign. -/
theorem displayText_numeral (h : IsFinite x) :
    ∃ c rest, (displayText x).toList = c :: rest ∧ (c.isDigit = true ∨ c = '-') ∧ ∀ d ∈ c :: rest, isNumeral d = true := by
  obtain ⟨b, m, q, hparts⟩ := h
  obtain ⟨c, rest, hrow, hc⟩ := unsignedText_begins m q
  have hnumeral := unsignedText_numeral m q
  have htext : (displayText x).toList = (signText b).toList ++ c :: rest := by
    rw [displayText_eq, hparts, String.toList_append, ← hrow]
    rfl
  rw [hrow] at hnumeral
  cases b with
  | false => exact ⟨c, rest, htext, .inl hc, hnumeral⟩
  | true => exact ⟨'-', c :: rest, htext, .inr rfl, List.forall_mem_cons.mpr ⟨rfl, hnumeral⟩⟩

end LoxLanguage.Number
