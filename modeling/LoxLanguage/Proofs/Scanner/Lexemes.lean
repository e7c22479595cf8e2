import Mathlib
import LoxLanguage.Proofs.Scanner.Words

/-! The lexical grammar. `Lexeme.Valid` says which texts are lexemes of which kind, `Lexeme.IsComment` which are
comments; neither knows how a text is cut. What a lexeme or a comment can be is told by its first character
(`Lexeme.Written.shape`), so a longer one at the same place is of the same class. -/

namespace LoxLanguage

open Token (Kind)

namespace Lexeme

/-- The symbols. -/
def symbols : List (List Char × Kind) :=
  [(['('], .leftParen), ([')'], .rightParen), (['\x7b'], .leftBrace), (['\x7d'], .rightBrace), ([','], .comma),
    (['.'], .dot), (['-'], .minus), (['+'], .plus), ([';'], .semicolon), (['/'], .slash), (['*'], .star),
    (['!'], .bang), (['!', '='], .bangEqual), (['='], .equal), (['=', '='], .equalEqual),
    (['>'], .greater), (['>', '='], .greaterEqual), (['<'], .less), (['<', '='], .lessEqual)]

/-- The lexemes of each kind. A word is a name unless it is reserved; the fraction of a number has a digit or more;
    a string ends at the first quote behind its opening one. -/
inductive Valid : Kind → List Char → Prop where
  | symbol {kind : Kind} {text : List Char} (h : (text, kind) ∈ symbols) : Valid kind text
  | keyword {kind : Kind} {text : List Char} (h : (String.ofList text, kind) ∈ keywords) : Valid kind text
  | identifier {c : Char} {rest : List Char} (hc : isLetter c) (hrest : ∀ d ∈ rest, isWordPart d)
      (h : String.ofList (c :: rest) ∉ keywords.map Prod.fst) : Valid .identifier (c :: rest)
  | string {body : List Char} (h : '"' ∉ body) : Valid .string ('"' :: body ++ ['"'])
  | whole {digits : List Char} (hne : digits ≠ []) (h : ∀ d ∈ digits, isDigit d) : Valid .number digits
  | decimal {digits fraction : List Char} (hne : digits ≠ []) (h : ∀ d ∈ digits, isDigit d) (hne' : fraction ≠ [])
      (h' : ∀ d ∈ fraction, isDigit d) : Valid .number (digits ++ '.' :: fraction)

/-- Two slashes and the rest of a line. -/
def IsComment (text : List Char) : Prop :=
  ∃ body, text = '/' :: '/' :: body ∧ '\n' ∉ body

/-- What the lexical grammar describes: lexemes and comments. -/
def Written (text : List Char) : Prop :=
  (∃ kind, Valid kind text) ∨ IsComment text

/-- A text at the front of another one, such that the grammar has no longer one there. -/
structure Longest (piece text : List Char) : Prop where
  front : piece <+: text
  longest : ∀ other, other <+: text → Written other → other.length ≤ piece.length

/-- The value that a lexeme stands for. -/
inductive Denotes : Kind → List Char → Literal → Prop where
  | string {body : List Char} (h : '"' ∉ body) :
      Denotes .string ('"' :: body ++ ['"']) (.text (String.ofList body))
  | whole {digits : List Char} (h : ∀ d ∈ digits, isDigit d) :
      Denotes .number digits (.number (Number.ofDecimal digits []))
  | decimal {digits fraction : List Char} (h : ∀ d ∈ digits, isDigit d) (h' : ∀ d ∈ fraction, isDigit d) :
      Denotes .number (digits ++ '.' :: fraction) (.number (Number.ofDecimal digits fraction))
  | nothing {kind : Kind} {text : List Char} (hstring : kind ≠ .string) (hnumber : kind ≠ .number) :
      Denotes kind text .nil

/-! ### What the first character tells -/

/-- What can follow the first character of a lexeme or a comment. -/
inductive Shape (c : Char) (rest : List Char) : Prop where
  | symbol {kind : Kind} (h : (c :: rest, kind) ∈ symbols)
  | word (hc : isLetter c) (h : ∀ d ∈ rest, isWordPart d)
  | string {body : List Char} (hc : c = '"') (h : '"' ∉ body) (hrest : rest = body ++ ['"'])
  | whole (hc : isDigit c) (h : ∀ d ∈ rest, isDigit d)
  | decimal {digits fraction : List Char} (hc : isDigit c) (h : ∀ d ∈ digits, isDigit d) (hne : fraction ≠ [])
      (h' : ∀ d ∈ fraction, isDigit d) (hrest : rest = digits ++ '.' :: fraction)
  | comment {body : List Char} (hc : c = '/') (h : '\n' ∉ body) (hrest : rest = '/' :: body)

theorem word_of_keyword : ∀ p ∈ keywords, ∃ c rest, p.1.toList = c :: rest ∧ isLetter c ∧ ∀ d ∈ rest, isWordPart d := by
  have hkeywords : ∀ p ∈ keywords, (p.1.toList.head?.any isLetter && p.1.toList.tail.all isWordPart) = true := by
    decide
  intro p hp
  have h := hkeywords p hp
  cases htext : p.1.toList with
  | nil =>
    rw [htext] at h
    cases h
  | cons c rest =>
    rw [htext, Bool.and_eq_true] at h
    exact ⟨c, rest, rfl, h.1, List.all_eq_true.mp h.2⟩

theorem not_written_nil : ¬ Written [] := by
  rintro (⟨kind, h⟩ | ⟨body, h, -⟩)
  · generalize htext : ([] : List Char) = text at h
    cases h with
    | symbol h => subst htext; simp [symbols] at h
    | keyword h =>
      obtain ⟨c, rest, heq, -⟩ := word_of_keyword _ h
      subst htext
      simp at heq
    | identifier => cases htext
    | string => cases htext
    | whole hne => exact hne htext.symm
    | decimal => simp at htext
  · cases h

theorem Written.shape {c : Char} {rest : List Char} (h : Written (c :: rest)) : Shape c rest := by
  rcases h with ⟨kind, h⟩ | ⟨body, h, hbody⟩
  · generalize htext : c :: rest = text at h
    cases h with
    | symbol h => subst htext; exact .symbol h
    | keyword h =>
      obtain ⟨c', rest', heq, hc, hrest⟩ := word_of_keyword _ h
      rw [String.toList_ofList, ← htext] at heq
      cases heq
      exact .word hc hrest
    | identifier hc hrest => cases htext; exact .word hc hrest
    | string h => cases htext; exact .string rfl h rfl
    | whole _ h =>
      subst htext
      obtain ⟨hc, hrest⟩ := List.forall_mem_cons.mp h
      exact .whole hc hrest
    | @decimal digits fraction hne h hne' h' =>
      cases digits with
      | nil => exact absurd rfl hne
      | cons d digits =>
        cases htext
        obtain ⟨hc, hdigits⟩ := List.forall_mem_cons.mp h
        exact .decimal hc hdigits hne' h' rfl
  · cases h
    exact .comment rfl hbody rfl

/-- A prefix that is written begins with the first character and what that character allows. -/
theorem Longest.of_shape {c : Char} {piece rest : List Char} (hfront : c :: piece <+: c :: rest)
    (h : ∀ other, other <+: rest → Shape c other → other.length ≤ piece.length) : Longest (c :: piece) (c :: rest) := by
  refine ⟨hfront, fun other hother hwritten => ?_⟩
  cases other with
  | nil => exact absurd hwritten not_written_nil
  | cons d other =>
    obtain ⟨rfl, hinitial⟩ := List.cons_prefix_cons.mp hother
    exact Nat.succ_le_succ (h other hinitial hwritten.shape)

/-! ### Classes of first characters -/

/-- A character that begins no symbol. -/
structure Plain (c : Char) : Prop where
  single : single? c = none
  double : double? c = none
  slash : c ≠ '/'

theorem Plain.not_symbol {c : Char} (h : Plain c) {rest : List Char} {kind : Kind} : (c :: rest, kind) ∉ symbols := by
  have hheads : ∀ p ∈ symbols, (p.1.head?.all fun d => (single? d).isSome || (double? d).isSome || d == '/') = true := by
    decide
  intro hmem
  have hc := hheads _ hmem
  simp [h.single, h.double, h.slash] at hc

theorem not_isLetter_of_isDigit {c : Char} (h : isDigit c) : ¬ isLetter c := by
  have hbound : c.toNat ≤ '9'.toNat := by
    simp only [isDigit, Bool.and_eq_true, decide_eq_true_eq] at h
    exact h.2
  intro hletter
  simp only [isLetter, Bool.or_eq_true, Bool.and_eq_true, decide_eq_true_eq, beq_iff_eq] at hletter
  rcases hletter with (⟨hle, -⟩ | ⟨hle, -⟩) | rfl
  · exact absurd (Nat.le_trans (show 'a'.toNat ≤ c.toNat from hle) hbound) (by decide)
  · exact absurd (Nat.le_trans (show 'A'.toNat ≤ c.toNat from hle) hbound) (by decide)
  · exact absurd hbound (by decide)

/-- Where neither a word nor a number nor a string nor a comment can begin, only a symbol can. -/
theorem Shape.symbol_of {c : Char} {rest : List Char} (h : Shape c rest)
    (hc : isLetter c = false ∧ isDigit c = false ∧ c ≠ '"' ∧ c ≠ '/') : ∃ kind, (c :: rest, kind) ∈ symbols := by
  obtain ⟨hletter, hdigit, hquote, hslash⟩ := hc
  cases h with
  | symbol h => exact ⟨_, h⟩
  | word hc => rw [hletter] at hc; cases hc
  | string hc => exact absurd hc hquote
  | whole hc => rw [hdigit] at hc; cases hc
  | decimal hc => rw [hdigit] at hc; cases hc
  | comment hc => exact absurd hc hslash

theorem symbol_of_single? {c : Char} {kind : Kind} (h : single? c = some kind) :
    ([c], kind) ∈ symbols ∧ ∀ rest, Shape c rest → rest = [] := by
  unfold single? at h
  split at h <;> cases h
  all_goals
    refine ⟨by decide, fun rest hshape => ?_⟩
    simpa [symbols] using hshape.symbol_of (by decide)

theorem symbol_of_double? {c : Char} {long short : Kind} (h : double? c = some (long, short)) :
    ([c, '='], long) ∈ symbols ∧ ([c], short) ∈ symbols ∧ ∀ rest, Shape c rest → rest = [] ∨ rest = ['='] := by
  unfold double? at h
  split at h <;> cases h
  all_goals
    refine ⟨by decide, by decide, fun rest hshape => ?_⟩
    simpa [symbols, exists_or] using hshape.symbol_of (by decide)

theorem valid_word {c : Char} {rest : List Char} (hc : isLetter c) (hrest : ∀ d ∈ rest, isWordPart d) :
    Valid (wordKind (c :: rest)) (c :: rest) := by
  unfold wordKind
  cases h : keywords.lookup (String.ofList (c :: rest)) with
  | some kind => exact .keyword (mem_keywords h)
  | none =>
    refine .identifier hc hrest fun hmem => ?_
    obtain ⟨p, hp, heq⟩ := List.mem_map.mp hmem
    have hne := List.lookup_eq_none_iff.mp h p hp
    simp [heq] at hne

end Lexeme

end LoxLanguage
