import Mathlib
import LoxLanguage.Proofs.Scanner.Writing
import LoxLanguage.Tree.Parser

/-! What a token says is told by its lexeme. A lexeme is of one kind (`Lexeme.Valid.kind_unique`) and stands for one value, so
that two tokens of scanned texts with the same lexeme differ in their lines only; and a kind has few lexemes, unless it is
that of names, numbers and strings. -/

namespace LoxLanguage

open Token (Kind)

/-- A lexeme is of one kind. -/
theorem Lexeme.Valid.kind_unique {kind kind' : Kind} {text : List Char} (h : Valid kind text) (h' : Valid kind' text) :
    kind = kind' := by
  cases text with
  | nil => exact absurd (.inl ⟨kind, h⟩) not_written_nil
  | cons c rest =>
    have hcut := Piece.cut_lexeme h Stops.nil
    rw [Piece.cut_lexeme h' Stops.nil] at hcut
    exact (Piece.token.inj (Prod.ext_iff.mp hcut).1).1.symm

/-- A token whose lexeme is one of its kind and stands for its value. -/
def Token.Scanned (t : Token) : Prop :=
  Lexeme.Valid t.kind t.lexeme.toList ∧ Lexeme.Denotes t.kind t.lexeme.toList t.literal

/-- Of two rows that match, every member of the second is matched. -/
theorem exists_of_forall₂ {α β : Type} {R : α → β → Prop} {as : List α} {bs : List β} (h : List.Forall₂ R as bs) :
    ∀ b ∈ bs, ∃ a ∈ as, R a b := by
  induction h with
  | nil => exact nofun
  | @cons a b as bs hfirst _ ih =>
    refine List.forall_mem_cons.mpr ⟨⟨a, List.mem_cons_self, hfirst⟩, fun b' hb' => ?_⟩
    obtain ⟨a', ha', hmatch⟩ := ih b' hb'
    exact ⟨a', List.mem_cons_of_mem _ ha', hmatch⟩

theorem scanned_of_mem {source : String} {t : Token} (ht : t ∈ (scan source).1) (hkind : t.kind ≠ .eof) : t.Scanned := by
  obtain ⟨tokens, line, htokens, hyields, -⟩ := scan_ofText source
  rw [htokens, List.mem_append, List.mem_singleton] at ht
  rcases ht with ht | rfl
  · obtain ⟨piece, hpiece, heq, hdenotes⟩ := exists_of_forall₂ hyields t ht
    rw [heq] at hpiece
    exact ⟨Piece.valid_of_tiles (Piece.tiles_ofText source.toList) (List.mem_filter.mp hpiece).1, hdenotes⟩
  · exact absurd rfl hkind

/-- What a scanned token says is told by its lexeme. -/
theorem Token.Scanned.content_eq {t t' : Token} (h : t.Scanned) (h' : t'.Scanned) (hlexeme : t.lexeme = t'.lexeme) :
    t.content = t'.content := by
  have hkind : t.kind = t'.kind := h.1.kind_unique (hlexeme ▸ h'.1)
  have hliteral : t.literal = t'.literal := by
    rw [h.2.eq_literal, h'.2.eq_literal, hkind, hlexeme]
  rw [Token.content, Token.content, hkind, hlexeme, hliteral]

/-! ### Lexemes of a kind -/

namespace Lexeme

variable {kind : Kind} {text : List Char}

theorem Valid.operator (h : Valid kind text) (hkind : (Parser.isUnary kind || Operators.isBinary kind) = true) :
    (text, kind) ∈ symbols := by
  have hkeywords : ∀ p ∈ keywords, (Parser.isUnary p.2 || Operators.isBinary p.2) = false := by decide
  cases h with
  | symbol h => exact h
  | keyword h => exact Bool.noConfusion ((hkeywords _ h).symm.trans hkind)
  | identifier => cases hkind
  | string => cases hkind
  | whole => cases hkind
  | decimal => cases hkind

theorem Valid.keyword_of (h : Valid kind text) (hkind : kind ∈ keywords.map Prod.snd) :
    (String.ofList text, kind) ∈ keywords := by
  have hsymbols : ∀ p ∈ symbols, p.2 ∉ keywords.map Prod.snd := by decide
  cases h with
  | symbol h => exact absurd hkind (hsymbols _ h)
  | keyword h => exact h
  | identifier => exact absurd hkind (by decide)
  | string => exact absurd hkind (by decide)
  | whole => exact absurd hkind (by decide)
  | decimal => exact absurd hkind (by decide)

theorem Valid.name (h : Valid .identifier text) : ∃ c rest, text = c :: rest ∧ isLetter c ∧ (∀ d ∈ rest, isWordPart d) ∧
    String.ofList text ∉ keywords.map Prod.fst := by
  have hsymbols : ∀ p ∈ symbols, p.2 ≠ .identifier := by decide
  have hkeywords : ∀ p ∈ keywords, p.2 ≠ .identifier := by decide
  cases h with
  | symbol h => exact absurd rfl (hsymbols _ h)
  | keyword h => exact absurd rfl (hkeywords _ h)
  | identifier hc hrest h => exact ⟨_, _, rfl, hc, hrest, h⟩

theorem Valid.closing (h : Valid .rightParen text) : text = [')'] := by
  have hsymbols : ∀ p ∈ symbols, p.2 = .rightParen → p.1 = [')'] := by decide
  have hkeywords : ∀ p ∈ keywords, p.2 ≠ .rightParen := by decide
  cases h with
  | symbol h => exact hsymbols _ h rfl
  | keyword h => exact absurd rfl (hkeywords _ h)

end Lexeme

theorem Token.Scanned.operator {t : Token} (h : t.Scanned)
    (hkind : (Parser.isUnary t.kind || Operators.isBinary t.kind) = true) : (t.lexeme.toList, t.kind) ∈ Lexeme.symbols :=
  h.1.operator hkind

theorem Token.Scanned.connective {t : Token} (h : t.Scanned) (hkind : t.kind = .andWord ∨ t.kind = .orWord) :
    t.lexeme = "and" ∨ t.lexeme = "or" := by
  have hkeywords : ∀ p ∈ Lexeme.keywords, p.2 = .andWord ∨ p.2 = .orWord → p.1 = "and" ∨ p.1 = "or" := by decide
  have hmem := h.1.keyword_of (by rcases hkind with hkind | hkind <;> rw [hkind] <;> decide)
  rw [String.ofList_toList] at hmem
  exact hkeywords _ hmem hkind

theorem Token.Scanned.this {t : Token} (h : t.Scanned ∧ t.kind = .thisWord) : t.lexeme = "this" := by
  have hkeywords : ∀ p ∈ Lexeme.keywords, p.2 = .thisWord → p.1 = "this" := by decide
  have hmem := h.1.1.keyword_of (by rw [h.2]; decide)
  rw [String.ofList_toList] at hmem
  exact hkeywords _ hmem h.2

theorem Token.Scanned.closing {t : Token} (h : t.Scanned ∧ t.kind = .rightParen) : t.lexeme = ")" := by
  have htext := (h.2 ▸ h.1.1 : Lexeme.Valid .rightParen t.lexeme.toList).closing
  exact String.toList_injective htext

end LoxLanguage
