import Mathlib
import LoxLanguage.Proofs.Scanner.Append
import LoxLanguage.Session.Shell

/-! How a text ends. All pieces of a text but the last are the same whatever follows the text (`Piece.ofText_last`), and so is
the last one if it is no comment and a blank or a semicolon follows. A comment takes in what follows it on its line. -/

namespace LoxLanguage

open Token (Kind)
open Lexeme (Valid IsComment Plain)

namespace Piece

/-! ### The last piece -/

/-- All pieces of a text but the last are the same whatever follows the text. -/
theorem ofText_last {text : List Char} (hne : text ≠ []) :
    ∃ front c rest last, cut c rest = (last, []) ∧ (ofText text).toList = front ++ [last] ∧
      ∀ more, Seam more → (ofText (text ++ more)).toList = front ++ (ofText (c :: rest ++ more)).toList := by
  induction hlength : text.length using Nat.strong_induction_on generalizing text with
  | _ length ih =>
    subst hlength
    obtain ⟨c, rest, rfl⟩ := List.exists_cons_of_ne_nil hne
    have hshorter := length_cut c rest
    rcases hfirst : cut c rest with ⟨piece, after⟩
    rw [hfirst] at hshorter
    cases after with
    | nil => exact ⟨[], c, rest, piece, hfirst, ofText_of_cut hfirst, fun _ _ => rfl⟩
    | cons d after =>
      obtain ⟨front, c', rest', last, hcut, hpieces, hseam⟩ :=
        ih (d :: after).length (Nat.lt_succ_of_le hshorter) (List.cons_ne_nil d after) rfl
      refine ⟨piece :: front, c', rest', last, hcut, ?_, fun more hmore => ?_⟩
      · rw [ofText_of_cut hfirst, hpieces]
        rfl
      · have hinside : (cut c rest).2 ≠ [] := by simp [hfirst]
        have hcut := cut_seam hmore fun hend => absurd hend hinside
        rw [hfirst] at hcut
        rw [List.cons_append, ofText_of_cut hcut, hseam more hmore]
        rfl

section Last
variable {c : Char} {rest more : List Char} {last : Piece}

theorem text_of_cut (h : cut c rest = (last, [])) : last.text = c :: rest := by
  have htext := text_cut c rest
  rw [h, List.append_nil] at htext
  exact htext

theorem ofText_of_closed (h : cut c rest = (last, [])) (hcomment : last.isComment = false) (hclosed : last.isUnclosed = false)
    (hmore : Seam more) : (ofText (c :: rest ++ more)).toList = last :: (ofText more).toList := by
  have hstays : ¬ last.GoesOn more := by simp [GoesOn, hcomment, hclosed]
  have hcut : cut c (rest ++ more) = _ := cut_seam hmore fun _ => by rwa [h]
  rw [h, List.nil_append] at hcut
  exact ofText_of_cut hcut

theorem comment_of_cut (h : cut c rest = (last, [])) (hlast : last.isComment = true) :
    ∃ body, c = '/' ∧ rest = '/' :: body ∧ '\n' ∉ body := by
  have hfits := fits_cut c rest
  have htext := text_of_cut h
  rw [h] at hfits
  cases last with
  | skipped text =>
    cases htext
    rcases hfits with ⟨d, hd, hblank⟩ | ⟨⟨body, hbody, hline⟩, -⟩
    · cases hd
      rcases hblank with rfl | rfl | rfl | rfl <;> cases hlast
    · cases hbody
      exact ⟨body, rfl, rfl, hline⟩
  | _ => cases hlast

theorem unclosed_of_cut (h : cut c rest = (last, [])) (hlast : last.isUnclosed = true) : c = '"' ∧ '"' ∉ rest := by
  have hfits := fits_cut c rest
  rw [h] at hfits
  cases last with
  | unclosed text =>
    obtain ⟨-, body, hbody, hquote⟩ := hfits
    cases hbody
    exact ⟨rfl, hquote⟩
  | _ => cases hlast

/-- A gap that is no comment is a blank. -/
theorem blank_of_cut {text : List Char} (h : cut c rest = (.skipped text, [])) (htext : (skipped text).isComment = false) :
    rest = [] ∧ Text.isBlank c = true := by
  have hfits := fits_cut c rest
  rw [h] at hfits
  cases text_of_cut h
  rcases hfits with ⟨d, hd, hblank⟩ | ⟨⟨body, hbody, -⟩, -⟩
  · cases hd
    refine ⟨rfl, ?_⟩
    rcases hblank with rfl | rfl | rfl | rfl <;> decide
  · cases hbody
    cases htext

/-- A comment takes in what follows it on its line. -/
theorem ofText_comment {body : List Char} (h : '\n' ∉ body) (more : List Char) :
    ∃ text, (ofText ('/' :: '/' :: body ++ more)).toList = .skipped text :: (ofText (more.dropWhile (· != '\n'))).toList := by
  have hline : ∀ d ∈ '/' :: body, (d != '\n') = true :=
    List.forall_mem_cons.mpr ⟨rfl, fun d hd => bne_iff_ne.mpr fun heq => h (heq ▸ hd)⟩
  have hcut : cut '/' ('/' :: body ++ more) =
      (.skipped ('/' :: ('/' :: body ++ more).takeWhile (· != '\n')), more.dropWhile (· != '\n')) := by
    show cutSlash ('/' :: body ++ more) = _
    rw [List.cons_append, cutSlash, ← List.cons_append, List.dropWhile_append_of_pos hline]
  exact ⟨_, ofText_of_cut hcut⟩

/-- A string without its closing quote takes in all that follows and has no quote in it. -/
theorem ofText_unclosed (h : '"' ∉ rest) (hmore : '"' ∉ more) :
    ∃ text, (ofText ('"' :: rest ++ more)).toList = [.unclosed text] := by
  have hall : ∀ d ∈ rest ++ more, (d != '"') = true := by
    intro d hd
    refine bne_iff_ne.mpr fun heq => ?_
    rcases List.mem_append.mp hd with hmem | hmem
    · exact h (heq ▸ hmem)
    · exact hmore (heq ▸ hmem)
  have hcut : cut '"' (rest ++ more) = (.unclosed ('"' :: (rest ++ more)), []) := by
    show cutString (rest ++ more) = _
    rw [cutString, List.dropWhile_eq_nil_iff.mpr hall]
  exact ⟨_, ofText_of_cut hcut⟩

end Last

/-! ### Blanks -/

theorem isBlank_ne {c : Char} (h : Text.isBlank c = true) {d : Char} (hd : Text.isBlank d = false) : c ≠ d := by
  rintro rfl
  rw [h] at hd
  cases hd

theorem isWordPart_of_isBlank {c : Char} (h : Text.isBlank c = true) : Lexeme.isWordPart c = false := by
  -- No blank lies between the first digit and the last letter.
  have hoff : ¬ ('0'.toNat ≤ c.toNat ∧ c.toNat ≤ 'z'.toNat) := by
    simp only [Text.isBlank, Bool.or_eq_true, Bool.and_eq_true, decide_eq_true_eq, beq_iff_eq] at h
    show ¬ (48 ≤ c.toNat ∧ c.toNat ≤ 122)
    omega
  by_contra hword
  refine hoff ?_
  simp only [Lexeme.isWordPart, Lexeme.isLetter, Lexeme.isDigit, Bool.not_eq_false, Bool.or_eq_true, Bool.and_eq_true,
    decide_eq_true_eq, beq_iff_eq] at hword
  rcases hword with ((⟨hle, hge⟩ | ⟨hle, hge⟩) | rfl) | ⟨hle, hge⟩
  · exact ⟨Nat.le_trans (by decide) (show 'a'.toNat ≤ c.toNat from hle), hge⟩
  · exact ⟨Nat.le_trans (by decide) (show 'A'.toNat ≤ c.toNat from hle),
      Nat.le_trans (show c.toNat ≤ 'Z'.toNat from hge) (by decide)⟩
  · decide
  · exact ⟨hle, Nat.le_trans (show c.toNat ≤ '9'.toNat from hge) (by decide)⟩

theorem seam_of_blanks {blanks : List Char} (h : ∀ c ∈ blanks, Text.isBlank c = true) : Seam blanks := by
  rintro d after rfl
  have hd := h d List.mem_cons_self
  exact ⟨isWordPart_of_isBlank hd, isBlank_ne hd (by decide), isBlank_ne hd (by decide), isBlank_ne hd (by decide)⟩

theorem seam_nil : Seam [] :=
  seam_of_blanks (List.forall_mem_nil _)

theorem seam_semicolon : Seam [';'] := by
  rintro d after h
  cases h
  decide

/-- No token begins at a blank. -/
theorem cut_isBlank {c : Char} (h : Text.isBlank c = true) (rest : List Char) :
    ∃ piece, cut c rest = (piece, rest) ∧ piece.isToken = false := by
  have hsingle : Lexeme.single? c = none := by
    unfold Lexeme.single?
    split <;> first | rfl | exact absurd rfl (isBlank_ne h (by decide))
  have hdouble : Lexeme.double? c = none := by
    unfold Lexeme.double?
    split <;> first | rfl | exact absurd rfl (isBlank_ne h (by decide))
  have hword := isWordPart_of_isBlank h
  rw [Lexeme.isWordPart, Bool.or_eq_false_iff] at hword
  have hslash : c ≠ '/' := isBlank_ne h (by decide)
  have hquote : c ≠ '"' := isBlank_ne h (by decide)
  by_cases hspace : Lexeme.isSpace c ∨ c = '\n'
  · exact ⟨.skipped [c], by simp [cut, hsingle, hdouble, hslash, hspace], rfl⟩
  · exact ⟨.stray c, by simp [cut, hsingle, hdouble, hslash, hspace, hquote, hword.1, hword.2], rfl⟩

theorem ofText_blanks {blanks : List Char} (h : ∀ c ∈ blanks, Text.isBlank c = true) :
    ∀ piece ∈ (ofText blanks).toList, piece.isToken = false := by
  induction blanks with
  | nil => exact List.forall_mem_nil _
  | cons c rest ih =>
    obtain ⟨hc, hrest⟩ := List.forall_mem_cons.mp h
    obtain ⟨piece, hcut, hpiece⟩ := cut_isBlank hc rest
    rw [ofText_of_cut hcut]
    exact List.forall_mem_cons.mpr ⟨hpiece, ih hrest⟩

end Piece

/-! ### Trimmed texts -/

namespace Text

/-- A text is its trimmed text and blanks. -/
theorem trimEnd_append (text : List Char) :
    ∃ blanks, text = trimEnd text ++ blanks ∧ ∀ c ∈ blanks, isBlank c = true := by
  refine ⟨(text.reverse.takeWhile isBlank).reverse, ?_, fun c hc => List.mem_takeWhile_imp (List.mem_reverse.mp hc)⟩
  rw [trimEnd, ← List.reverse_append, List.takeWhile_append_dropWhile, List.reverse_reverse]

theorem isBlank_of_getLast?_trimEnd {text : List Char} {c : Char} (h : (trimEnd text).getLast? = some c) :
    isBlank c = false := by
  rw [trimEnd, List.getLast?_reverse] at h
  have hhead := List.head?_dropWhile_not isBlank text.reverse
  rw [h] at hhead
  exact hhead

end Text

/-- Whether a text ends in a comment, the blanks behind it apart. -/
def endsInComment (text : String) : Bool :=
  (Piece.ofText (Text.trimEnd text.toList)).toList.getLast?.any Piece.isComment

/-- The end mark of a text. -/
def endMark (source : String) : Token :=
  ⟨.eof, "", .nil, 1 + (newlines source : Int)⟩

theorem getLast?_ne_semicolon {text : List Char} {p : Char → Bool} (h : ∀ d ∈ text, p d) (hp : p ';' = false) :
    text.getLast? ≠ some ';' := by
  intro hlast
  have hmem := h _ (List.mem_of_getLast? hlast)
  rw [hp] at hmem
  cases hmem

/-- Only the semicolon ends with a semicolon. -/
theorem Lexeme.Valid.getLast?_eq_semicolon {kind : Kind} {text : List Char} (h : Valid kind text) :
    text.getLast? = some ';' ↔ kind = .semicolon := by
  have hsymbols : symbols.all (fun p => (p.1.getLast? == some ';') == (p.2 == .semicolon)) = true := by decide
  have hkeywords : ∀ p ∈ keywords, p.2 ≠ .semicolon := by decide
  have hletter : ∀ {c : Char}, isLetter c → isWordPart c = true := fun h => by simp [isWordPart, h]
  cases h with
  | symbol h =>
    have hsame := List.all_eq_true.mp hsymbols _ h
    rwa [beq_iff_eq, Bool.eq_iff_iff, beq_iff_eq, beq_iff_eq] at hsame
  | keyword h =>
    obtain ⟨c, rest, htext, hc, hrest⟩ := word_of_keyword _ h
    rw [String.toList_ofList] at htext
    rw [htext]
    exact iff_of_false (getLast?_ne_semicolon (List.forall_mem_cons.mpr ⟨hletter hc, hrest⟩) rfl) (hkeywords _ h)
  | identifier hc hrest =>
    exact iff_of_false (getLast?_ne_semicolon (List.forall_mem_cons.mpr ⟨hletter hc, hrest⟩) rfl) (by decide)
  | string h =>
    rw [List.getLast?_concat]
    exact iff_of_false (by simp) (by decide)
  | whole hne h => exact iff_of_false (getLast?_ne_semicolon h rfl) (by decide)
  | @decimal digits fraction hne h hne' h' =>
    refine iff_of_false ?_ (by decide)
    rw [List.getLast?_append_of_ne_nil _ (List.cons_ne_nil _ _), List.getLast?_cons_of_ne_nil hne']
    exact getLast?_ne_semicolon h' rfl

/-! ### Scans -/

namespace Scan

theorem foldl_gaps {pieces : List Piece} (h : ∀ piece ∈ pieces, piece.isToken = false ∧ piece.isBad = false) (s : Scan) :
    (pieces.foldl Scan.add s).tokens = s.tokens ∧ (pieces.foldl Scan.add s).problems = s.problems := by
  induction pieces generalizing s with
  | nil => exact ⟨rfl, rfl⟩
  | cons piece rest ih =>
    obtain ⟨hpiece, hrest⟩ := List.forall_mem_cons.mp h
    obtain ⟨htokens, hproblems⟩ := ih hrest (s.add piece)
    rw [List.foldl_cons, htokens, hproblems]
    cases piece with
    | skipped text => exact ⟨rfl, rfl⟩
    | token kind text => cases hpiece.1
    | stray c => cases hpiece.2
    | unclosed text => cases hpiece.2

end Scan

theorem scan_of_pieces {source : String} {pieces : List Piece} (h : (Piece.ofText source.toList).toList = pieces) :
    scan source = ((pieces.foldl Scan.add Scan.start).tokens.toList ++ [endMark source],
      (pieces.foldl Scan.add Scan.start).problems.toList) := by
  have hline : (pieces.foldl Scan.add Scan.start).line = 1 + (newlines source : Int) := by
    rw [Scan.line_foldl, ← h, (Piece.tiles_ofText source.toList).text]
    rfl
  rw [scan_eq, ← Array.foldl_toList, h, Array.toList_push, Scan.eof, hline]
  rfl

/-- Gaps behind the other pieces leave the scan as it is. -/
theorem scan_of_gaps {source : String} {front gaps : List Piece} (h : (Piece.ofText source.toList).toList = front ++ gaps)
    (hgaps : ∀ piece ∈ gaps, piece.isToken = false ∧ piece.isBad = false) :
    scan source = ((front.foldl Scan.add Scan.start).tokens.toList ++ [endMark source],
      (front.foldl Scan.add Scan.start).problems.toList) := by
  obtain ⟨htokens, hproblems⟩ := Scan.foldl_gaps hgaps (front.foldl Scan.add Scan.start)
  rw [scan_of_pieces h, List.foldl_append, htokens, hproblems]

section Ending
variable {text : String} {ts : List Token} {eof : Token}

/-- What is known of a text that scans without problems: its trimmed text, cut behind the last piece, and blanks. -/
theorem exists_ending (h : scan text = (ts ++ [eof], [])) (hne : ts ≠ []) :
    ∃ front c rest last blanks, Piece.cut c rest = (last, []) ∧ (∀ d ∈ blanks, Text.isBlank d = true) ∧
      (Piece.ofText (Text.trimEnd text.toList)).toList = front ++ [last] ∧
      (Piece.ofText text.toList).toList = front ++ (Piece.ofText (c :: rest ++ blanks)).toList ∧
      ∀ more, Piece.Seam more →
        (Piece.ofText (Text.trimEnd text.toList ++ more)).toList = front ++ (Piece.ofText (c :: rest ++ more)).toList := by
  obtain ⟨blanks, htext, hblanks⟩ := Text.trimEnd_append text.toList
  have hgood := good_of_scan (congrArg Prod.snd h)
  have htrimmed : Text.trimEnd text.toList ≠ [] := by
    -- There are no tokens in blanks.
    intro hnil
    rw [hnil, List.nil_append] at htext
    rw [htext] at hgood
    have hgaps := Scan.foldl_gaps
      (fun piece hpiece => ⟨Piece.ofText_blanks hblanks piece hpiece, hgood piece hpiece⟩) Scan.start
    have hpieces : (Piece.ofText text.toList).toList = (Piece.ofText blanks).toList := by rw [htext]
    have hscan := scan_of_pieces hpieces
    rw [h, hgaps.1] at hscan
    obtain ⟨hnone, -⟩ := List.append_inj' (Prod.mk.inj hscan).1 rfl
    exact hne hnone
  obtain ⟨front, c, rest, last, hcut, hpieces, hseam⟩ := Piece.ofText_last htrimmed
  refine ⟨front, c, rest, last, blanks, hcut, hblanks, hpieces, ?_, hseam⟩
  rw [← hseam blanks (Piece.seam_of_blanks hblanks), ← htext]

/-- A text that ends in a comment has the tokens of its trimmed text, with or without a semicolon behind. -/
theorem scan_of_endsInComment (h : scan text = (ts ++ [eof], [])) (hne : ts ≠ []) (hends : endsInComment text = true)
    {source : String} (hsource : source.toList = Text.trimEnd text.toList ∨ source.toList = Text.trimEnd text.toList ++ [';']) :
    scan source = (ts ++ [endMark source], []) := by
  obtain ⟨front, c, rest, last, blanks, hcut, hblanks, hpieces, hwhole, hseam⟩ := exists_ending h hne
  have hlast : last.isComment = true := by simpa [endsInComment, hpieces] using hends
  obtain ⟨body, rfl, rfl, hbody⟩ := Piece.comment_of_cut hcut hlast
  have hgood := good_of_scan (congrArg Prod.snd h)
  obtain ⟨comment, hcomment⟩ := Piece.ofText_comment hbody blanks
  rw [hcomment] at hwhole
  rw [hwhole] at hgood
  have hgaps : ∀ piece ∈ Piece.skipped comment :: (Piece.ofText (blanks.dropWhile (· != '\n'))).toList,
      piece.isToken = false ∧ piece.isBad = false := by
    refine fun piece hpiece => ⟨?_, hgood piece (List.mem_append_right _ hpiece)⟩
    rcases List.mem_cons.mp hpiece with rfl | hpiece
    · rfl
    · exact Piece.ofText_blanks (fun d hd => hblanks d ((List.dropWhile_suffix _).subset hd)) piece hpiece
  have hscan := scan_of_gaps hwhole hgaps
  rw [h] at hscan
  obtain ⟨htokens, hproblems⟩ := Prod.mk.inj hscan
  obtain ⟨rfl, -⟩ := List.append_inj' htokens rfl
  -- The comment takes in the semicolon.
  have hpieces : ∃ comment, (Piece.ofText source.toList).toList = front ++ [.skipped comment] := by
    rcases hsource with hsource | hsource
    · obtain ⟨comment, hcomment⟩ := Piece.ofText_comment hbody []
      refine ⟨comment, ?_⟩
      rw [hsource, ← List.append_nil (Text.trimEnd _), hseam [] Piece.seam_nil, hcomment]
      rfl
    · obtain ⟨comment, hcomment⟩ := Piece.ofText_comment hbody [';']
      refine ⟨comment, ?_⟩
      rw [hsource, hseam [';'] Piece.seam_semicolon, hcomment]
      rfl
  obtain ⟨comment, hpieces⟩ := hpieces
  rw [scan_of_gaps hpieces (List.forall_mem_singleton.mpr ⟨rfl, rfl⟩), ← hproblems]

/-- A text that does not end in a comment ends in a token and blanks. -/
theorem exists_last_token (h : scan text = (ts ++ [eof], [])) (hne : ts ≠ []) (hends : endsInComment text = false) :
    ∃ front kind lexeme gaps, Valid kind lexeme ∧ (Text.trimEnd text.toList).getLast? = lexeme.getLast? ∧
      (∀ piece ∈ gaps, piece.isToken = false ∧ piece.isBad = false) ∧
      (Piece.ofText text.toList).toList = front ++ [.token kind lexeme] ++ gaps ∧
      ∀ more, Piece.Seam more → (Piece.ofText (Text.trimEnd text.toList ++ more)).toList =
        front ++ [.token kind lexeme] ++ (Piece.ofText more).toList := by
  obtain ⟨front, c, rest, last, blanks, hcut, hblanks, hpieces, hwhole, hseam⟩ := exists_ending h hne
  have hlast : last.isComment = false := by simpa [endsInComment, hpieces] using hends
  have hgood := good_of_scan (congrArg Prod.snd h)
  have hclosed : last.isUnclosed = false := by
    by_contra hunclosed
    obtain ⟨rfl, hquote⟩ := Piece.unclosed_of_cut hcut (Bool.of_not_eq_false hunclosed)
    have hnone : '"' ∉ blanks := fun hmem => absurd (hblanks _ hmem) (by decide)
    obtain ⟨body, hbody⟩ := Piece.ofText_unclosed hquote hnone
    rw [hwhole, hbody] at hgood
    cases hgood (.unclosed body) (List.mem_append_right _ List.mem_cons_self)
  have hpast : ∀ {more}, Piece.Seam more → front ++ (Piece.ofText (c :: rest ++ more)).toList =
      front ++ [last] ++ (Piece.ofText more).toList := fun hmore => by
    rw [Piece.ofText_of_closed hcut hlast hclosed hmore, List.append_assoc]
    rfl
  rw [hpast (Piece.seam_of_blanks hblanks)] at hwhole
  rw [hwhole] at hgood
  have hend : (Text.trimEnd text.toList).getLast? = (c :: rest).getLast? := by
    rw [← (Piece.tiles_ofText (Text.trimEnd text.toList)).text, hpieces, List.flatMap_append, List.flatMap_singleton,
      Piece.text_of_cut hcut, List.getLast?_append_of_ne_nil _ (List.cons_ne_nil _ _)]
  cases last with
  | unclosed text => cases hclosed
  | stray d => cases hgood (.stray d) (by simp)
  | skipped text =>
    obtain ⟨rfl, hblank⟩ := Piece.blank_of_cut hcut hlast
    have hend : (Text.trimEnd _).getLast? = some c := hend
    rw [Text.isBlank_of_getLast?_trimEnd hend] at hblank
    cases hblank
  | token kind lexeme =>
    have hfits := Piece.fits_cut c rest
    rw [hcut] at hfits
    refine ⟨front, kind, lexeme, (Piece.ofText blanks).toList, hfits.1, ?_, fun piece hpiece => ?_, hwhole,
      fun more hmore => ?_⟩
    · rw [hend, ← Piece.text_of_cut hcut]
      rfl
    · exact ⟨Piece.ofText_blanks hblanks piece hpiece, hgood piece (List.mem_append_right _ hpiece)⟩
    · rw [hseam more hmore, hpast hmore]

/-- A text that does not end in a comment has the tokens of its trimmed text, and a semicolon behind that is one more. The
    trimmed text ends with a semicolon just if the last token is one. -/
theorem scan_of_not_endsInComment (h : scan text = (ts ++ [eof], [])) (hne : ts ≠ []) (hends : endsInComment text = false) :
    (∃ last, ts.getLast? = some last ∧ ((Text.trimEnd text.toList).getLast? = some ';' ↔ last.kind = .semicolon)) ∧
      ∀ source : String,
        (source.toList = Text.trimEnd text.toList → scan source = (ts ++ [endMark source], [])) ∧
        (source.toList = Text.trimEnd text.toList ++ [';'] →
          scan source = (ts ++ [⟨.semicolon, ";", .nil, 1 + (newlines source : Int)⟩] ++ [endMark source], [])) := by
  obtain ⟨front, kind, lexeme, gaps, hvalid, hend, hgaps, hwhole, hseam⟩ := exists_last_token h hne hends
  have hscan := scan_of_gaps hwhole hgaps
  rw [h] at hscan
  obtain ⟨htokens, hproblems⟩ := Prod.mk.inj hscan
  obtain ⟨rfl, -⟩ := List.append_inj' htokens rfl
  refine ⟨?_, fun source => ⟨fun hsource => ?_, fun hsource => ?_⟩⟩
  · rw [hend, hvalid.getLast?_eq_semicolon, List.foldl_concat, Scan.add, Array.toList_push, List.getLast?_concat]
    exact ⟨_, rfl, Iff.rfl⟩
  · have hpieces : (Piece.ofText source.toList).toList = front ++ [.token kind lexeme] ++ [] := by
      rw [hsource, ← List.append_nil (Text.trimEnd _), hseam [] Piece.seam_nil]
      rfl
    rw [scan_of_gaps hpieces (List.forall_mem_nil _), ← hproblems]
  · have hpieces : (Piece.ofText source.toList).toList = front ++ [.token kind lexeme] ++ [.token .semicolon [';']] := by
      rw [hsource, hseam [';'] Piece.seam_semicolon]
      rfl
    have hline : (List.foldl Scan.add Scan.start (front ++ [.token kind lexeme] ++ [.token .semicolon [';']])).line =
        1 + (newlines source : Int) := by
      rw [Scan.line_foldl, ← hpieces, (Piece.tiles_ofText source.toList).text]
      rfl
    rw [scan_of_pieces hpieces]
    rw [List.foldl_concat] at hline ⊢
    generalize List.foldl Scan.add Scan.start (front ++ [.token kind lexeme]) = s at *
    have hsemicolon : (s.add (.token .semicolon [';'])).tokens =
        s.tokens.push ⟨.semicolon, ";", .nil, (s.add (.token .semicolon [';'])).line⟩ := rfl
    have hproblems : (s.add (.token .semicolon [';'])).problems.toList = [] := hproblems.symm
    rw [hsemicolon, hline, Array.toList_push, hproblems]

end Ending

end LoxLanguage
