import Mathlib
import LoxLanguage.Proofs.Scanner.Tiling

/-! Lines. The line of a token, and that of a problem, is told by the newlines in front of its place in the text: up to the
end of a lexeme, up to a character at which nothing begins, and in the whole text for a string that is never closed. At
every step the scanner has come to the line on which the text that it has read ends (`Scan.EndsLine.step`), wherever in
that text the newlines are. -/

namespace LoxLanguage

/-- A piece, and the text in front of it. -/
structure Place where
  before : List Char
  piece : Piece

namespace Place

/-- The places of the pieces that follow a text. -/
def along (before : List Char) : List Piece → List Place
  | [] => []
  | piece :: rest => ⟨before, piece⟩ :: along (before ++ piece.text) rest

/-- The token of a lexeme has the line on which the lexeme ends. -/
def Numbers (p : Place) (t : Token) : Prop :=
  p.piece = .token t.kind t.lexeme.toList ∧ t.line = 1 + ((p.before ++ t.lexeme.toList).count '\n' : Nat)

/-- A character at which nothing begins is reported on its line, an unclosed string on the last line of the text. -/
inductive Reports (source : List Char) : Place → Problem → Prop where
  | stray {before : List Char} {c : Char} :
      Reports source ⟨before, .stray c⟩ (.onLine (1 + (before.count '\n' : Nat)) .unexpectedCharacter)
  | unclosed {before text : List Char} :
      Reports source ⟨before, .unclosed text⟩ (.onLine (1 + (source.count '\n' : Nat)) .unterminatedString)

/-- A place is one of the text: what stands in front of it and its piece begin the text. -/
theorem prefix_of_mem {text : List Char} {pieces : List Piece} (h : Tiles text pieces) (before : List Char) :
    ∀ p ∈ along before pieces, p.before ++ p.piece.text <+: before ++ text := by
  induction h generalizing before with
  | nil => nofun
  | @cons piece after pieces _ _ ih =>
    rw [← List.append_assoc]
    exact List.forall_mem_cons.mpr ⟨List.prefix_append _ _, ih (before ++ piece.text)⟩

end Place

namespace Scan

/-- The scan has come to the line on which a text ends. -/
def EndsLine (s : Scan) (before : List Char) : Prop :=
  s.line = 1 + (before.count '\n' : Nat)

section Steps
variable {s : Scan} {before : List Char}

theorem EndsLine.add (h : s.EndsLine before) (piece : Piece) :
    s.line + (piece.newlines : Int) = 1 + ((before ++ piece.text).count '\n' : Nat) := by
  rw [h, List.count_append, Piece.newlines]
  push_cast
  ring

/-- A step takes a piece off the text and comes to the line on which the piece ends. -/
theorem EndsLine.step (h : s.EndsLine before) (c : Char) (rest : List Char) :
    (s.step c rest).1.EndsLine (before ++ (Piece.cut c rest).1.text) := by
  have hline := h.add (Piece.cut c rest).1
  rw [step_eq]
  generalize (Piece.cut c rest).1 = piece at hline ⊢
  cases piece <;> exact hline

/-- The lines of the tokens do not go down, and the line reached is not above them. -/
structure Ascends (s : Scan) : Prop where
  tokens : s.tokens.toList.Pairwise (·.line ≤ ·.line)
  reached : ∀ t ∈ s.tokens.toList, t.line ≤ s.line

theorem Ascends.step (h : s.Ascends) (c : Char) (rest : List Char) : (s.step c rest).1.Ascends := by
  rw [step_eq]
  generalize (Piece.cut c rest).1 = piece
  have hline : s.line ≤ s.line + (piece.newlines : Int) := by omega
  have hreached : ∀ t ∈ s.tokens.toList, t.line ≤ s.line + (piece.newlines : Int) := fun t ht =>
    Int.le_trans (h.reached t ht) hline
  cases piece with
  | token kind lexeme =>
    constructor
    · rw [Scan.add, Array.toList_push, List.pairwise_append]
      exact ⟨h.tokens, List.pairwise_singleton _ _, fun t ht last hlast => List.mem_singleton.mp hlast ▸ hreached t ht⟩
    · rw [Scan.add, Array.toList_push]
      exact List.forall_mem_append.mpr ⟨hreached, List.forall_mem_singleton.mpr (Int.le_refl _)⟩
  | _ => exact ⟨h.tokens, hreached⟩

theorem Ascends.run (h : s.Ascends) (fuel : Nat) (text : List Char) : (run fuel s text).Ascends := by
  induction fuel generalizing s text with
  | zero => exact h
  | succ fuel ih =>
    cases text with
    | nil => exact h
    | cons c rest => exact ih (h.step c rest) _

end Steps

/-- From the line on which a text ends, a run over the text behind it adds tokens and problems with the lines of their
    places, and comes to the line on which that text ends. -/
theorem run_places {fuel : Nat} {s : Scan} {before text source : List Char} (hfuel : text.length ≤ fuel)
    (hline : s.EndsLine before) (hsource : before ++ text = source) :
    (run fuel s text).EndsLine source ∧
      ∃ pieces tokens problems, Tiles text pieces ∧ (run fuel s text).tokens.toList = s.tokens.toList ++ tokens ∧
        (run fuel s text).problems.toList = s.problems.toList ++ problems ∧
        List.Forall₂ Place.Numbers ((Place.along before pieces).filter (·.piece.isToken)) tokens ∧
        List.Forall₂ (Place.Reports source) ((Place.along before pieces).filter (·.piece.isBad)) problems := by
  induction fuel generalizing s before text with
  | zero =>
    cases List.eq_nil_of_length_eq_zero (Nat.le_zero.mp hfuel)
    rw [List.append_nil] at hsource
    exact ⟨hsource ▸ hline, [], [], [], .nil, (List.append_nil _).symm, (List.append_nil _).symm, .nil, .nil⟩
  | succ fuel ih =>
    cases text with
    | nil =>
      rw [List.append_nil] at hsource
      exact ⟨hsource ▸ hline, [], [], [], .nil, (List.append_nil _).symm, (List.append_nil _).symm, .nil, .nil⟩
    | cons c rest =>
      have hstep := s.step_eq c rest
      have hnext := hline.step c rest
      have hends := hline.add (Piece.cut c rest).1
      have hfits := Piece.fits_cut c rest
      have hshorter := Nat.le_trans (Piece.length_cut c rest) (Nat.le_of_succ_le_succ hfuel)
      rw [← Piece.text_cut c rest] at hfits hsource ⊢
      rw [← List.append_assoc] at hsource
      rw [hstep] at hnext
      obtain ⟨hlast, pieces, tokens, problems, htiles, htokens, hproblems, hnumbers, hreports⟩ := ih hshorter hnext hsource
      have hrun : run (fuel + 1) s ((Piece.cut c rest).1.text ++ (Piece.cut c rest).2) =
          run fuel (s.add (Piece.cut c rest).1) (Piece.cut c rest).2 := by
        rw [Piece.text_cut, run, hstep]
      rw [hrun, htokens, hproblems]
      generalize Piece.cut c rest = next at *
      obtain ⟨piece, after⟩ := next
      refine ⟨hlast, piece :: pieces, ?_⟩
      cases piece with
      | token kind lexeme =>
        refine ⟨_ :: tokens, problems, .cons hfits htiles, toList_push_append _ _ _, rfl, .cons ⟨?_, ?_⟩ hnumbers, hreports⟩
        · simp
        · rw [String.toList_ofList]
          exact hends
      | skipped gap => exact ⟨tokens, problems, .cons hfits htiles, rfl, rfl, hnumbers, hreports⟩
      | stray c =>
        refine ⟨tokens, _ :: problems, .cons hfits htiles, rfl, toList_push_append _ _ _, hnumbers, .cons ?_ hreports⟩
        rw [hline]
        exact .stray
      | unclosed gap =>
        refine ⟨tokens, _ :: problems, .cons hfits htiles, rfl, toList_push_append _ _ _, hnumbers, .cons ?_ hreports⟩
        -- An unclosed string is all that is left.
        have hnil : after = [] := List.append_right_eq_self.mp hfits.1.symm
        rw [hends, ← hsource, hnil, List.append_nil]
        exact .unclosed

end Scan

/-- Every text is cut into pieces such that each token has the line on which its lexeme ends, the end mark the last line,
    a character at which nothing begins is reported on its own line and a string without an end on the last one. Lines are
    counted by the newlines in front; along the tokens they do not go down. -/
theorem scan_lines (source : String) :
    ∃ pieces tokens, Tiles source.toList pieces ∧
      (∀ p ∈ Place.along [] pieces, p.before ++ p.piece.text <+: source.toList) ∧
      (scan source).1 = tokens ++ [⟨.eof, "", .nil, 1 + (source.toList.count '\n' : Nat)⟩] ∧
      List.Forall₂ Place.Numbers ((Place.along [] pieces).filter (·.piece.isToken)) tokens ∧
      List.Forall₂ (Place.Reports source.toList) ((Place.along [] pieces).filter (·.piece.isBad)) (scan source).2 ∧
      (scan source).1.Pairwise (·.line ≤ ·.line) := by
  have hfirst : Scan.start.EndsLine [] := rfl
  obtain ⟨hlast, pieces, tokens, problems, htiles, htokens, hproblems, hnumbers, hreports⟩ :=
    Scan.run_places (Nat.le_refl _) hfirst rfl
  have hascends : Scan.start.Ascends := ⟨.nil, nofun⟩
  have hordered := hascends.run source.toList.length source.toList
  refine ⟨pieces, tokens, htiles, Place.prefix_of_mem htiles [], ?_, hnumbers, ?_, ?_⟩
  · rw [scan, Array.toList_push, htokens, Scan.eof, hlast]
    rfl
  · rw [scan, hproblems]
    exact hreports
  · rw [scan, Array.toList_push, List.pairwise_append]
    exact ⟨hordered.tokens, List.pairwise_singleton _ _, fun t ht last hlast => List.mem_singleton.mp hlast ▸ hordered.reached t ht⟩

example : ((scan "\"a\nb\" c // d\n#").1.map Token.line, (scan "\"a\nb\" c // d\n#").2) =
    ([2, 2, 3], [.onLine 3 .unexpectedCharacter]) := by decide +kernel

end LoxLanguage
