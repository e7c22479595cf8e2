import Mathlib
import LoxLanguage.Token.Scan

/-! The pieces of a text. Each step of the scanner takes a piece off the front of what is left: a lexeme, a gap between
lexemes, a character that belongs nowhere, or a string whose closing quote is missing. Which piece that is does not depend
on what has been read before (`Piece.cut`), and what the step does is told by the piece (`Scan.step_eq`): above all, the
line goes on by the newlines in the piece, although it is counted in two places only, between the tokens and in strings.
So scanning a text is the same as reading its pieces one after the other (`scan_eq`). -/

namespace LoxLanguage

open Token (Kind)

/-- A piece of program text. -/
inductive Piece where
  | token (kind : Kind) (text : List Char)
  | skipped (text : List Char)
  | stray (c : Char)
  | unclosed (text : List Char)
  deriving DecidableEq

namespace Piece

/-- The characters of a piece. -/
def text : Piece → List Char
  | .token _ text => text
  | .skipped text => text
  | .stray c => [c]
  | .unclosed text => text

/-- A number is a piece. -/
def cutNumber (c : Char) (rest : List Char) : Piece × List Char :=
  (Lexeme.number c rest).map (.token .number) id

/-- A string runs up to the next quote, over any number of lines. -/
def cutString (rest : List Char) : Piece × List Char :=
  match rest.dropWhile (· != '"') with
  | quote :: after => (.token .string ('"' :: rest.takeWhile (· != '"') ++ [quote]), after)
  | [] => (.unclosed ('"' :: rest), [])

/-- Two slashes begin a comment, which runs up to the end of the line. -/
def cutSlash (rest : List Char) : Piece × List Char :=
  match rest with
  | '/' :: _ => (.skipped ('/' :: rest.takeWhile (· != '\n')), rest.dropWhile (· != '\n'))
  | _ => (.token .slash ['/'], rest)

/-- The piece at the start of `c :: rest`, and what is left. -/
def cut (c : Char) (rest : List Char) : Piece × List Char :=
  match Lexeme.single? c with
  | some kind => (.token kind [c], rest)
  | none =>
    match Lexeme.double? c with
    | some (long, short) =>
      match rest with
      | '=' :: after => (.token long [c, '='], after)
      | _ => (.token short [c], rest)
    | none =>
      if c = '/' then cutSlash rest
      else if Lexeme.isSpace c ∨ c = '\n' then (.skipped [c], rest)
      else if c = '"' then cutString rest
      else if Lexeme.isDigit c then cutNumber c rest
      else if Lexeme.isLetter c then
        let word := c :: rest.takeWhile Lexeme.isWordPart
        (.token (Lexeme.wordKind word) word, rest.dropWhile Lexeme.isWordPart)
      else (.stray c, rest)

theorem text_cutNumber (c : Char) (rest : List Char) :
    (cutNumber c rest).1.text ++ (cutNumber c rest).2 = c :: rest := by
  have joined := List.takeWhile_append_dropWhile (p := Lexeme.isDigit) (l := rest)
  unfold cutNumber Lexeme.number
  split
  · rename_i d after h
    rw [h] at joined
    split
    · simp [text, List.takeWhile_append_dropWhile, joined]
    · simp [text, joined]
  · simp [text, joined]

theorem text_cutString (rest : List Char) :
    (cutString rest).1.text ++ (cutString rest).2 = '"' :: rest := by
  have joined := List.takeWhile_append_dropWhile (p := (· != '"')) (l := rest)
  unfold cutString
  split
  · rename_i quote after h
    rw [h] at joined
    simp [text, joined]
  · simp [text]

theorem text_cutSlash (rest : List Char) :
    (cutSlash rest).1.text ++ (cutSlash rest).2 = '/' :: rest := by
  unfold cutSlash
  split <;> simp [text, List.takeWhile_append_dropWhile]

/-- A cut loses nothing: the piece and what is left make up the text. -/
theorem text_cut (c : Char) (rest : List Char) : (cut c rest).1.text ++ (cut c rest).2 = c :: rest := by
  unfold cut
  split
  · rfl
  · split
    · split <;> rfl
    · split
      · rename_i h
        rw [h, text_cutSlash]
      · split
        · rfl
        · split
          · rename_i h
            rw [h, text_cutString]
          · split
            · exact text_cutNumber c rest
            · split
              · simp [text, List.takeWhile_append_dropWhile]
              · rfl

/-- Cuts at most `fuel` pieces off a text and adds them to those found before. -/
def cutAll (fuel : Nat) (text : List Char) (found : Array Piece) : Array Piece :=
  match fuel, text with
  | fuel + 1, c :: rest =>
    let (piece, after) := cut c rest
    cutAll fuel after (found.push piece)
  | _, _ => found

/-- The pieces of a text. Each piece takes a character or more, so the length of the text bounds them. -/
def ofText (text : List Char) : Array Piece :=
  cutAll text.length text #[]

/-- How many lines end within a piece. -/
def newlines (piece : Piece) : Nat :=
  piece.text.count '\n'

end Piece

/-! ### What a step of the scanner does -/

namespace Scan

/-- The scan that has passed a number of newlines. -/
def down (s : Scan) (lines : Nat) : Scan :=
  { s with line := s.line + lines }

/-- The scan behind a piece. A token has the line on which it ends, and so has a string that is never closed. -/
def add (s : Scan) (piece : Piece) : Scan :=
  let line := s.line + (piece.newlines : Int)
  match piece with
  | .token kind text =>
    { s with line, tokens := s.tokens.push ⟨kind, String.ofList text, Lexeme.literal kind text, line⟩ }
  | .skipped _ => { s with line }
  | .stray _ => { s with line, problems := s.problems.push (.onLine s.line .unexpectedCharacter) }
  | .unclosed _ => { s with line, problems := s.problems.push (.onLine line .unterminatedString) }

variable {s : Scan} {c : Char} {kind : Kind} {text rest : List Char}

theorem down_zero (s : Scan) : s.down 0 = s := by
  simp [down]

theorem down_newline (s : Scan) (lines : Nat) : s.newline.down lines = s.down (lines + 1) := by
  simp only [down, newline]
  congr 1
  push_cast
  ring

theorem add_token (h : '\n' ∉ text) : s.add (.token kind text) = s.addToken kind text := by
  simp [add, addToken, Piece.newlines, Piece.text, List.count_eq_zero.mpr h]

theorem add_skipped (h : '\n' ∉ text) : s.add (.skipped text) = s := by
  simp [add, Piece.newlines, Piece.text, List.count_eq_zero.mpr h]

theorem add_stray (h : c ≠ '\n') : s.add (.stray c) = s.report .unexpectedCharacter := by
  simp [add, report, Piece.newlines, Piece.text, h]

theorem add_newline : s.add (.skipped ['\n']) = s.newline := by
  simp [add, newline, Piece.newlines, Piece.text]

/-- A comment goes up to the newline that is left in the text. -/
theorem behindComment_eq (rest : List Char) : behindComment rest = rest.dropWhile (· != '\n') := by
  induction rest with
  | nil => rfl
  | cons c rest ih =>
    by_cases hc : c = '\n'
    · rw [behindComment, if_pos hc, List.dropWhile_cons_of_neg (by simp [hc])]
    · rw [behindComment, if_neg hc, List.dropWhile_cons_of_pos (by simp [hc]), ih]

/-- At every turn of the loop over a string, the line has gone on by the newlines that are held back. Either the closing
    quote is found and the token is on its line, or the text is used up and the problem is on the last line. -/
theorem string_eq (s : Scan) (held rest : List Char) :
    s.string held rest =
      match rest.dropWhile (· != '"') with
      | quote :: after =>
        ((s.down ((rest.takeWhile (· != '"')).count '\n')).addToken .string
          (held.reverse ++ rest.takeWhile (· != '"') ++ [quote]), after)
      | [] => ((s.down (rest.count '\n')).report .unterminatedString, []) := by
  induction rest generalizing s held with
  | nil => simp [string, down_zero]
  | cons c rest ih =>
    by_cases hquote : c = '"'
    · simp [string, hquote, down_zero]
    · have htake : (c :: rest).takeWhile (· != '"') = c :: rest.takeWhile (· != '"') :=
        List.takeWhile_cons_of_pos (by simp [hquote])
      have hdrop : (c :: rest).dropWhile (· != '"') = rest.dropWhile (· != '"') :=
        List.dropWhile_cons_of_pos (by simp [hquote])
      rw [string, if_neg hquote, htake, hdrop]
      by_cases hnewline : c = '\n'
      · subst hnewline
        rw [if_pos rfl, ih, List.count_cons_self, List.count_cons_self, ← down_newline, ← down_newline]
        simp
      · rw [if_neg hnewline, ih, List.count_cons_of_ne hnewline, List.count_cons_of_ne hnewline]
        simp

theorem string_eq_cut (s : Scan) (rest : List Char) :
    s.string ['"'] rest = (s.add (Piece.cutString rest).1, (Piece.cutString rest).2) := by
  rw [string_eq, Piece.cutString]
  have hquote := List.head?_dropWhile_not (· != '"') rest
  cases hrest : rest.dropWhile (· != '"') with
  | nil => simp [add, down, report, Piece.newlines, Piece.text]
  | cons quote after =>
    rw [hrest] at hquote
    obtain rfl : quote = '"' := by simpa using hquote
    simp [add, down, addToken, Piece.newlines, Piece.text, List.count_append]

theorem newline_not_mem_takeWhile {p : Char → Bool} (hp : p '\n' = false) (rest : List Char) :
    '\n' ∉ rest.takeWhile p := by
  intro hmem
  have h := List.mem_takeWhile_imp hmem
  rw [hp] at h
  cases h

theorem slash_eq_cut (s : Scan) (rest : List Char) :
    s.slash rest = (s.add (Piece.cutSlash rest).1, (Piece.cutSlash rest).2) := by
  rcases rest with - | ⟨d, after⟩
  · simp [slash, Piece.cutSlash, add_token]
  · by_cases hd : d = '/'
    · subst hd
      have hbody := @newline_not_mem_takeWhile (· != '\n') rfl ('/' :: after)
      rw [slash, behindComment_eq, Piece.cutSlash, add_skipped (by simpa using hbody)]
      rfl
    · simp [slash, Piece.cutSlash, hd, add_token]

theorem newline_not_mem_number (hc : c ≠ '\n') (rest : List Char) : '\n' ∉ (Lexeme.number c rest).1 := by
  have hdigits := @newline_not_mem_takeWhile Lexeme.isDigit (by decide)
  unfold Lexeme.number
  split
  · rename_i d after _
    split
    · rename_i hd
      have hne : '\n' ≠ d := by
        rintro rfl
        exact absurd hd (by decide)
      simp [hc.symm, hdigits, hne]
    · simp [hc.symm, hdigits]
  · simp [hc.symm, hdigits]

/-- A step takes the piece at the front off the text, and the line goes on by the newlines in it. They are counted one by
    one between tokens and in strings; no other piece has any. -/
theorem step_eq (s : Scan) (c : Char) (rest : List Char) :
    s.step c rest = (s.add (Piece.cut c rest).1, (Piece.cut c rest).2) := by
  unfold step Piece.cut
  cases hsingle : Lexeme.single? c with
  | some kind =>
    have hc : c ≠ '\n' := by
      rintro rfl
      cases hsingle
    simp [add_token, hc.symm]
  | none =>
    cases hdouble : Lexeme.double? c with
    | some kinds =>
      have hc : c ≠ '\n' := by
        rintro rfl
        cases hdouble
      dsimp only
      split <;> simp [add_token, hc.symm]
    | none =>
      dsimp only
      split
      · rename_i hslash
        exact slash_eq_cut s rest
      · split
        · rename_i hspace
          have hc : c ≠ '\n' := by
            rintro rfl
            cases hspace
          rw [if_pos (.inl hspace), add_skipped (by simp [hc.symm])]
        · rename_i hspace
          split
          · rename_i hnewline
            rw [if_pos (.inr hnewline), hnewline, add_newline]
          · rename_i hnewline
            rw [if_neg (not_or.mpr ⟨hspace, hnewline⟩)]
            split
            · rename_i hquote
              rw [hquote, string_eq_cut]
            · split
              · have hnumber := newline_not_mem_number hnewline rest
                unfold Piece.cutNumber
                rw [Prod.map_fst, Prod.map_snd, add_token hnumber]
                rfl
              · split
                · have hword := @newline_not_mem_takeWhile Lexeme.isWordPart (by decide)
                  rw [add_token (by simp [hword, Ne.symm hnewline])]
                  rfl
                · rw [add_stray hnewline]

/-- Scanning a text is reading its pieces. -/
theorem run_eq (fuel : Nat) (s : Scan) (text : List Char) (found : Array Piece) (h : found.foldl add start = s) :
    run fuel s text = (Piece.cutAll fuel text found).foldl add start := by
  induction fuel generalizing s text found with
  | zero => exact h.symm
  | succ fuel ih =>
    cases text with
    | nil => exact h.symm
    | cons c rest =>
      rw [run, Piece.cutAll, step_eq]
      refine ih _ _ _ ?_
      rw [Array.foldl_push, h]
      rfl

end Scan

theorem scan_eq (source : String) :
    scan source =
      ((((Piece.ofText source.toList).foldl Scan.add Scan.start).tokens.push
          ((Piece.ofText source.toList).foldl Scan.add Scan.start).eof).toList,
        ((Piece.ofText source.toList).foldl Scan.add Scan.start).problems.toList) := by
  rw [scan, Scan.run_eq _ Scan.start _ #[] rfl]
  rfl

end LoxLanguage
