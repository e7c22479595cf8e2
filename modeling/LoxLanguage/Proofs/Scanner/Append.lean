import Mathlib
import LoxLanguage.Proofs.Scanner.Tiling
import LoxLanguage.Proofs.Tree.Relabel

/-! Texts with a newline between them. No piece but a text without its closing quote reaches over a newline at its end, so
the pieces of the second text are those that it has on its own, on later lines. -/

namespace LoxLanguage

/-! ### Pieces -/

namespace Piece

/-- What is read off the front of a text stays the same in front of more text, if it ends in the text or at its end. -/
theorem span_seam {p : Char → Bool} (text more : List Char) (h : text.dropWhile p = [] → more.takeWhile p = []) :
    (text ++ more).takeWhile p = text.takeWhile p ∧ (text ++ more).dropWhile p = text.dropWhile p ++ more := by
  induction text with
  | nil =>
    have hmore := h rfl
    have hjoined := List.takeWhile_append_dropWhile (p := p) (l := more)
    rw [hmore] at hjoined
    exact ⟨hmore, hjoined⟩
  | cons c rest ih =>
    by_cases hc : p c
    · rw [List.dropWhile_cons_of_pos hc] at h
      obtain ⟨htake, hdrop⟩ := ih h
      rw [List.cons_append, List.takeWhile_cons_of_pos hc, List.dropWhile_cons_of_pos hc, htake, hdrop,
        List.takeWhile_cons_of_pos hc, List.dropWhile_cons_of_pos hc]
      exact ⟨rfl, rfl⟩
    · rw [List.cons_append, List.takeWhile_cons_of_neg hc, List.dropWhile_cons_of_neg hc, List.takeWhile_cons_of_neg hc,
        List.dropWhile_cons_of_neg hc]
      exact ⟨rfl, rfl⟩

/-- Whether a piece is a comment. -/
def isComment : Piece → Bool
  | .skipped ('/' :: _) => true
  | _ => false

/-- Whether a piece is a string that is not closed. -/
def isUnclosed : Piece → Bool
  | .unclosed _ => true
  | _ => false

/-- A text that does not go on with a lexeme in front of it. -/
def Seam (more : List Char) : Prop :=
  ∀ d after, more = d :: after → Lexeme.isWordPart d = false ∧ d ≠ '.' ∧ d ≠ '=' ∧ d ≠ '/'

/-- A piece goes on with what follows it: a comment unless that is a newline, and a text without its closing quote. -/
def GoesOn (piece : Piece) (more : List Char) : Prop :=
  (piece.isComment = true ∧ more.head? ≠ some '\n') ∨ piece.isUnclosed = true

theorem seam_newline (more : List Char) : Seam ('\n' :: more) := by
  rintro d after h
  cases h
  decide

section Seam
variable {c : Char} {rest more : List Char}

theorem Seam.isDigit {d : Char} {after : List Char} (h : Seam (d :: after)) : Lexeme.isDigit d = false := by
  have hd := (h d after rfl).1
  rw [Lexeme.isWordPart, Bool.or_eq_false_iff] at hd
  exact hd.2

theorem Seam.takeWhile_isDigit (h : Seam more) : more.takeWhile Lexeme.isDigit = [] := by
  cases more with
  | nil => rfl
  | cons d after => rw [List.takeWhile_cons_of_neg (by simp [h.isDigit])]

theorem Seam.takeWhile_isWordPart (h : Seam more) : more.takeWhile Lexeme.isWordPart = [] := by
  cases more with
  | nil => rfl
  | cons d after => rw [List.takeWhile_cons_of_neg (by simp [(h d after rfl).1])]

theorem cutSlash_seam (hmore : Seam more) (h : (cutSlash rest).2 = [] → ¬ (cutSlash rest).1.GoesOn more) :
    cutSlash (rest ++ more) = ((cutSlash rest).1, (cutSlash rest).2 ++ more) := by
  cases rest with
  | nil =>
    cases more with
    | nil => rfl
    | cons d after => simp [cutSlash, (hmore d after rfl).2.2.2]
  | cons d rest =>
    by_cases hd : d = '/'
    · subst hd
      have hend : ('/' :: rest).dropWhile (· != '\n') = [] → more.takeWhile (· != '\n') = [] := by
        intro hend
        have hnewline : more.head? = some '\n' := by
          by_contra hother
          exact h hend (.inl ⟨rfl, hother⟩)
        obtain ⟨after, rfl⟩ := List.head?_eq_some_iff.mp hnewline
        rfl
      obtain ⟨htake, hdrop⟩ := span_seam _ _ hend
      rw [List.cons_append] at htake hdrop ⊢
      rw [cutSlash, htake, hdrop]
      rfl
    · simp [cutSlash, hd]

theorem cutString_seam (h : (cutString rest).2 = [] → ¬ (cutString rest).1.GoesOn more) :
    cutString (rest ++ more) = ((cutString rest).1, (cutString rest).2 ++ more) := by
  unfold cutString at h ⊢
  cases hquote : rest.dropWhile (· != '"') with
  | nil =>
    rw [hquote] at h
    exact absurd (.inr rfl) (h rfl)
  | cons quote after =>
    have hinside : rest.dropWhile (· != '"') ≠ [] := by simp [hquote]
    obtain ⟨htake, hdrop⟩ := span_seam rest more fun hend => absurd hend hinside
    rw [htake, hdrop, hquote]
    rfl

theorem cutNumber_seam (hmore : Seam more) (c : Char) (rest : List Char) :
    cutNumber c (rest ++ more) = ((cutNumber c rest).1, (cutNumber c rest).2 ++ more) := by
  obtain ⟨htake, hdrop⟩ := span_seam rest more fun _ => hmore.takeWhile_isDigit
  unfold cutNumber Lexeme.number
  rw [htake, hdrop]
  -- A point behind the digits is part of the number only if a digit follows it.
  rcases rest.dropWhile Lexeme.isDigit with - | ⟨point, - | ⟨d, after⟩⟩
  · rcases more with - | ⟨d, after⟩
    · rfl
    · simp [(hmore d after rfl).2.1]
  · by_cases hpoint : point = '.'
    · subst hpoint
      rcases more with - | ⟨d, after⟩
      · rfl
      · simp [hmore.isDigit]
    · simp [hpoint]
  · by_cases hpoint : point = '.'
    · subst hpoint
      obtain ⟨htake', hdrop'⟩ := span_seam after more fun _ => hmore.takeWhile_isDigit
      simp only [List.cons_append]
      rw [htake', hdrop']
      split <;> rfl
    · simp [hpoint]

/-- A piece is cut off in the same way whatever follows the text, if it ends in the text or does not go on. -/
theorem cut_seam (hmore : Seam more) (h : (cut c rest).2 = [] → ¬ (cut c rest).1.GoesOn more) :
    cut c (rest ++ more) = ((cut c rest).1, (cut c rest).2 ++ more) := by
  unfold cut at h ⊢
  cases hsingle : Lexeme.single? c with
  | some kind => rfl
  | none =>
    rw [hsingle] at h
    cases hdouble : Lexeme.double? c with
    | some kinds =>
      cases rest with
      | nil =>
        cases more with
        | nil => rfl
        | cons d after => simp [(hmore d after rfl).2.2.1]
      | cons d rest =>
        by_cases hd : d = '='
        · subst hd
          rfl
        · simp [hd]
    | none =>
      rw [hdouble] at h
      dsimp only at h ⊢
      split
      · rename_i hslash
        rw [if_pos hslash] at h
        exact cutSlash_seam hmore h
      · rename_i hslash
        rw [if_neg hslash] at h
        split
        · rfl
        · rename_i hspace
          rw [if_neg hspace] at h
          split
          · rename_i hquote
            rw [if_pos hquote] at h
            exact cutString_seam h
          · split
            · exact cutNumber_seam hmore c rest
            · split
              · obtain ⟨htake, hdrop⟩ := span_seam rest more fun _ => hmore.takeWhile_isWordPart
                rw [htake, hdrop]
              · rfl

/-- A piece that is closed is cut off in the same way when a newline and more text follow. -/
theorem cut_newline (h : (cut c rest).1.isUnclosed = false) (more : List Char) :
    cut c (rest ++ '\n' :: more) = ((cut c rest).1, (cut c rest).2 ++ '\n' :: more) := by
  refine cut_seam (seam_newline more) fun _ hgoes => ?_
  rcases hgoes with ⟨-, hother⟩ | hunclosed
  · exact hother rfl
  · rw [h] at hunclosed
    cases hunclosed

end Seam

theorem cutAll_found (fuel : Nat) (text : List Char) (found : Array Piece) :
    cutAll fuel text found = found ++ cutAll fuel text #[] := by
  induction fuel generalizing text found with
  | zero => simp [cutAll]
  | succ fuel ih =>
    cases text with
    | nil => simp [cutAll]
    | cons c rest =>
      rw [cutAll, cutAll]
      dsimp only
      rw [ih _ (found.push _), ih _ (#[].push _)]
      simp

theorem cutAll_enough {fuel fuel' : Nat} {text : List Char} (h : text.length ≤ fuel) (h' : text.length ≤ fuel')
    (found : Array Piece) : cutAll fuel text found = cutAll fuel' text found := by
  induction fuel generalizing fuel' text found with
  | zero =>
    cases List.eq_nil_of_length_eq_zero (Nat.le_zero.mp h)
    cases fuel' <;> rfl
  | succ fuel ih =>
    cases text with
    | nil => cases fuel' <;> rfl
    | cons c rest =>
      cases fuel' with
      | zero => cases h'
      | succ fuel' =>
        have hle := Nat.le_trans (length_cut c rest) (Nat.le_of_succ_le_succ h)
        have hle' := Nat.le_trans (length_cut c rest) (Nat.le_of_succ_le_succ h')
        exact ih hle hle' _

theorem ofText_cons (c : Char) (rest : List Char) : ofText (c :: rest) = #[(cut c rest).1] ++ ofText (cut c rest).2 := by
  have hfirst : ofText (c :: rest) = cutAll rest.length (cut c rest).2 #[(cut c rest).1] := rfl
  rw [hfirst, cutAll_found, cutAll_enough (length_cut c rest) (Nat.le_refl _)]
  rfl

theorem ofText_of_cut {c : Char} {rest after : List Char} {piece : Piece} (h : cut c rest = (piece, after)) :
    (ofText (c :: rest)).toList = piece :: (ofText after).toList := by
  rw [ofText_cons, h, Array.toList_append]
  rfl

/-- Behind a text without an unclosed one, a newline and the pieces of the next text follow. -/
theorem ofText_newline {text : List Char} (h : ∀ piece ∈ ofText text, piece.isUnclosed = false) (more : List Char) :
    ofText (text ++ '\n' :: more) = ofText text ++ (#[.skipped ['\n']] ++ ofText more) := by
  -- What is left behind the first piece is shorter.
  induction hlength : text.length using Nat.strong_induction_on generalizing text with
  | _ length ih =>
    subst hlength
    cases text with
    | nil =>
      have hcut : cut '\n' more = (.skipped ['\n'], more) := rfl
      rw [List.nil_append, ofText_cons, hcut]
      exact (Array.empty_append).symm
    | cons c rest =>
      rw [ofText_cons] at h
      have hfirst := h _ (Array.mem_append_left _ (Array.mem_singleton.mpr rfl))
      have hrest := ih (cut c rest).2.length (Nat.lt_succ_of_le (length_cut c rest))
        (fun piece hpiece => h piece (Array.mem_append_right _ hpiece)) rfl
      rw [List.cons_append, ofText_cons, cut_newline hfirst, ofText_cons, hrest, Array.append_assoc]

end Piece

/-! ### Tokens -/

/-- Tokens and problems that stand a number of lines further down. -/
def Relabelling.down (lines : Nat) : Relabelling :=
  .ofLines fun t => t.line + lines

/-- A problem some lines further down. -/
def Problem.down (lines : Nat) : Problem → Problem
  | .onLine line complaint => .onLine (line + lines) complaint
  | .atToken token complaint => .atToken ((Relabelling.down lines).token token) complaint

namespace Scan

/-- A scan that goes on further down from where another has come to. -/
structure Follows (lines : Nat) (s first second : Scan) : Prop where
  line : s.line = second.line + lines
  tokens : s.tokens = first.tokens ++ second.tokens.map (Relabelling.down lines).token
  problems : s.problems = first.problems ++ second.problems.map (Problem.down lines)

theorem Follows.add {lines : Nat} {s first second : Scan} (h : Follows lines s first second) (piece : Piece) :
    Follows lines (s.add piece) first (second.add piece) := by
  have hline : s.line + (piece.newlines : Int) = second.line + (piece.newlines : Int) + lines := by
    rw [h.line]
    ring
  cases piece with
  | token kind text =>
    refine ⟨hline, ?_, h.problems⟩
    simp [Scan.add, h.tokens, hline, Relabelling.token, Relabelling.down, Relabelling.ofLines]
  | skipped text => exact ⟨hline, h.tokens, h.problems⟩
  | stray c =>
    refine ⟨hline, h.tokens, ?_⟩
    simp [Scan.add, h.problems, h.line, Problem.down]
  | unclosed text =>
    refine ⟨hline, h.tokens, ?_⟩
    simp [Scan.add, h.problems, hline, Problem.down]

theorem Follows.foldl {lines : Nat} {s first second : Scan} (h : Follows lines s first second) (pieces : List Piece) :
    Follows lines (pieces.foldl Scan.add s) first (pieces.foldl Scan.add second) := by
  induction pieces generalizing s second with
  | nil => exact h
  | cons piece rest ih => exact ih (h.add piece)

theorem line_foldl (pieces : List Piece) (s : Scan) :
    (pieces.foldl Scan.add s).line = s.line + ((pieces.flatMap Piece.text).count '\n' : Nat) := by
  induction pieces generalizing s with
  | nil => simp
  | cons piece rest ih =>
    have hline : (s.add piece).line = s.line + (piece.newlines : Int) := by cases piece <;> rfl
    rw [List.foldl_cons, ih, hline, List.flatMap_cons, List.count_append, Piece.newlines]
    push_cast
    ring

/-- Lines are counted from one. -/
def Counts (s : Scan) : Prop :=
  1 ≤ s.line ∧ ∀ t ∈ s.tokens, 1 ≤ t.line

theorem Counts.add {s : Scan} (h : s.Counts) (piece : Piece) : (s.add piece).Counts := by
  obtain ⟨hline, htokens⟩ := h
  have hnext : 1 ≤ s.line + (piece.newlines : Int) := by omega
  cases piece with
  | token kind text =>
    refine ⟨hnext, fun t ht => ?_⟩
    rcases Array.mem_push.mp ht with ht | rfl
    · exact htokens t ht
    · exact hnext
  | _ => exact ⟨hnext, htokens⟩

end Scan

/-- The line of every token of a text is one of the text. -/
theorem one_le_line {source : String} {t : Token} (ht : t ∈ (scan source).1) : 1 ≤ t.line := by
  have hcounts : ∀ (pieces : List Piece) (s : Scan), s.Counts → (pieces.foldl Scan.add s).Counts := by
    intro pieces
    induction pieces with
    | nil => exact fun _ h => h
    | cons piece rest ih => exact fun s h => ih _ (h.add piece)
  have hall := hcounts (Piece.ofText source.toList).toList Scan.start ⟨Int.le_refl 1, by simp [Scan.start]⟩
  rw [Array.foldl_toList] at hall
  rw [scan_eq, Array.toList_push, List.mem_append, List.mem_singleton] at ht
  rcases ht with ht | rfl
  · exact hall.2 t (Array.mem_toList_iff.mp ht)
  · exact hall.1

/-- No piece of a text without lexical problems is bad. -/
theorem good_of_scan {source : String} (h : (scan source).2 = []) :
    ∀ piece ∈ (Piece.ofText source.toList).toList, piece.isBad = false := by
  obtain ⟨-, problems, -, hproblems, -, hreported⟩ := Scan.foldl_tiles (Piece.tiles_ofText source.toList) Scan.start
  rw [Array.foldl_toList] at hproblems
  rw [scan_eq] at h
  have hnone : problems = [] := hproblems.symm.trans h
  rw [hnone, List.forall₂_nil_right_iff, List.filter_eq_nil_iff] at hreported
  exact fun piece hpiece => Bool.of_not_eq_true (hreported piece hpiece)

theorem closed_of_scan {source : String} (h : (scan source).2 = []) :
    ∀ piece ∈ Piece.ofText source.toList, piece.isUnclosed = false := by
  intro piece hpiece
  have hgood := good_of_scan h piece (Array.mem_toList_iff.mpr hpiece)
  cases piece with
  | unclosed text => cases hgood
  | _ => rfl

/-- How many newlines a text has. -/
def newlines (source : String) : Nat :=
  source.toList.count '\n'

/-- Behind a text without lexical problems and a newline, a second text has its own tokens and problems, further down. -/
theorem scan_newline {first : String} (h : (scan first).2 = []) (second : String) :
    scan (first ++ "\n" ++ second) =
      ((scan first).1.dropLast ++ (scan second).1.map (Relabelling.down (newlines first + 1)).token,
        (scan second).2.map (Problem.down (newlines first + 1))) := by
  have htext : (first ++ "\n" ++ second).toList = first.toList ++ '\n' :: second.toList := by
    rw [String.toList_append, String.toList_append, List.append_assoc]
    rfl
  have hpieces := Piece.ofText_newline (closed_of_scan h) second.toList
  generalize hs : (Piece.ofText first.toList).toList.foldl Scan.add Scan.start = s
  have hline : s.line = 1 + (newlines first : Int) := by
    rw [← hs, Scan.line_foldl, (Piece.tiles_ofText first.toList).text]
    rfl
  have hstart : Scan.Follows (newlines first + 1) (s.add (.skipped ['\n'])) s Scan.start := by
    refine ⟨?_, by simp [Scan.add, Scan.start], by simp [Scan.add, Scan.start]⟩
    have hnewline : (s.add (.skipped ['\n'])).line = s.line + 1 := rfl
    rw [hnewline, hline]
    push_cast
    show _ = (1 : Int) + _
    ring
  have hfollows := hstart.foldl (Piece.ofText second.toList).toList
  have hwhole : (Piece.ofText (first ++ "\n" ++ second).toList).toList.foldl Scan.add Scan.start =
      (Piece.ofText second.toList).toList.foldl Scan.add (s.add (.skipped ['\n'])) := by
    rw [htext, hpieces, ← hs]
    simp
  have hclear : s.problems = #[] := by
    rw [scan_eq, ← Array.foldl_toList, hs] at h
    exact Array.toList_eq_nil_iff.mp h
  have heof : (((Piece.ofText second.toList).toList.foldl Scan.add (s.add (.skipped ['\n'])))).eof =
      (Relabelling.down (newlines first + 1)).token ((Piece.ofText second.toList).toList.foldl Scan.add Scan.start).eof := by
    rw [Scan.eof, hfollows.line]
    rfl
  rw [scan_eq, scan_eq first, scan_eq second]
  simp only [← Array.foldl_toList, hwhole, hs, heof, hfollows.tokens, hfollows.problems, hclear]
  simp

end LoxLanguage
