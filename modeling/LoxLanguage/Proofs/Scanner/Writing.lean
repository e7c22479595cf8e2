import Mathlib
import LoxLanguage.Proofs.Scanner.Append

/-! Writing tokens out and scanning them again. A lexeme in front of a blank, or at the end of the text, is cut off whole
whatever comes behind the blank, and blanks and comments up to the end of their line leave no trace. So lexemes that are
joined by such separators are the tokens of the text. -/

namespace LoxLanguage

open Token (Kind)
open Lexeme (Valid IsComment Denotes Plain)

/-! ### Separators -/

/-- The characters that divide tokens and are in none. -/
def IsBlank (c : Char) : Prop :=
  c = ' ' ∨ c = '\t' ∨ c = '\r' ∨ c = '\n'

/-- Blanks, and comments with the newlines that end them. -/
inductive IsGap : List Char → Prop where
  | nil : IsGap []
  | blank {c : Char} {rest : List Char} (hc : IsBlank c) (h : IsGap rest) : IsGap (c :: rest)
  | comment {comment rest : List Char} (hcomment : IsComment comment) (h : IsGap rest) : IsGap (comment ++ '\n' :: rest)

/-- What may stand between two lexemes: a gap that begins with a blank. -/
def IsSeparator (text : List Char) : Prop :=
  ∃ c rest, text = c :: rest ∧ IsBlank c ∧ IsGap rest

/-- A text in which lexemes stand in order, with a separator between each two. -/
inductive Joined : List (List Char) → List Char → Prop where
  | none : Joined [] []
  | last (lexeme : List Char) : Joined [lexeme] lexeme
  | more {lexeme separator next text : List Char} {lexemes : List (List Char)} (hseparator : IsSeparator separator)
      (h : Joined (next :: lexemes) text) : Joined (lexeme :: next :: lexemes) (lexeme ++ separator ++ text)

theorem IsSeparator.gap {text : List Char} (h : IsSeparator text) : IsGap text := by
  obtain ⟨c, rest, rfl, hc, hrest⟩ := h
  exact .blank hc hrest

/-- A text behind which no lexeme in front of it goes on. -/
def Stops (rest : List Char) : Prop :=
  ∀ c after, rest = c :: after → IsBlank c

theorem Stops.nil : Stops [] :=
  nofun

theorem IsSeparator.stops {text : List Char} (h : IsSeparator text) (more : List Char) : Stops (text ++ more) := by
  obtain ⟨c, rest, rfl, hc, -⟩ := h
  rintro d after heq
  cases heq
  exact hc

theorem Stops.span {rest : List Char} (h : Stops rest) {p : Char → Bool} (hp : ∀ c, IsBlank c → p c = false)
    {front : List Char} (hfront : ∀ c ∈ front, p c) :
    (front ++ rest).takeWhile p = front ∧ (front ++ rest).dropWhile p = rest := by
  rw [List.takeWhile_append_of_pos hfront, List.dropWhile_append_of_pos hfront]
  cases rest with
  | nil => exact ⟨List.append_nil _, rfl⟩
  | cons c after =>
    have hc : ¬ p c := by simp [hp c (h c after rfl)]
    rw [List.takeWhile_cons_of_neg hc, List.dropWhile_cons_of_neg hc, List.append_nil]
    exact ⟨rfl, rfl⟩

/-! ### Lexemes -/

theorem isDigit_of_blank {c : Char} (h : IsBlank c) : Lexeme.isDigit c = false := by
  rcases h with rfl | rfl | rfl | rfl <;> rfl

theorem isWordPart_of_blank {c : Char} (h : IsBlank c) : Lexeme.isWordPart c = false := by
  rcases h with rfl | rfl | rfl | rfl <;> rfl

/-- A character of a word is no symbol, no blank and no quote. -/
theorem Lexeme.plain_of_wordPart {c : Char} (h : isWordPart c) : Plain c ∧ ¬ (isSpace c ∨ c = '\n') ∧ c ≠ '"' := by
  have hne : ∀ d, isWordPart d = false → c ≠ d := by
    rintro d hd rfl
    rw [hd] at h
    cases h
  refine ⟨⟨?_, ?_, hne '/' rfl⟩, ?_, hne '"' rfl⟩
  · unfold single?
    split <;> first | rfl | exact absurd rfl (hne _ rfl)
  · unfold double?
    split <;> first | rfl | exact absurd rfl (hne _ rfl)
  · simp [isSpace, hne ' ' rfl, hne '\r' rfl, hne '\t' rfl, hne '\n' rfl]

theorem Lexeme.wordKind_keyword {kind : Kind} {text : List Char} (h : (String.ofList text, kind) ∈ keywords) :
    wordKind text = kind := by
  have hlookup : ∀ p ∈ keywords, keywords.lookup p.1 = some p.2 := by decide
  rw [wordKind, hlookup _ h]
  rfl

theorem Lexeme.wordKind_identifier {text : List Char} (h : String.ofList text ∉ keywords.map Prod.fst) :
    wordKind text = .identifier := by
  have hlookup : keywords.lookup (String.ofList text) = none := by
    refine List.lookup_eq_none_iff.mpr fun p hp => bne_iff_ne.mpr fun heq => h ?_
    exact heq ▸ List.mem_map_of_mem hp
  rw [wordKind, hlookup]
  rfl

namespace Piece

theorem cut_symbol {c : Char} {text rest : List Char} {kind : Kind} (h : (c :: text, kind) ∈ Lexeme.symbols)
    (hrest : Stops rest) : cut c (text ++ rest) = (.token kind (c :: text), rest) := by
  have hall : ∀ p ∈ Lexeme.symbols, p.1 = c :: text → cut c (text ++ rest) = (.token p.2 (c :: text), rest) := by
    simp only [Lexeme.symbols, List.forall_mem_cons, List.cons.injEq, List.not_mem_nil, false_imp_iff, implies_true,
      and_true]
    and_intros
    -- What follows matters to the symbols that an equals sign or a slash makes longer.
    all_goals
      rintro ⟨rfl, rfl⟩
      first
      | rfl
      | cases rest with
        | nil => rfl
        | cons b after => rcases hrest b after rfl with rfl | rfl | rfl | rfl <;> rfl
  exact hall _ h rfl

theorem cut_word {c : Char} {text rest : List Char} (hc : Lexeme.isLetter c) (htext : ∀ d ∈ text, Lexeme.isWordPart d)
    (hrest : Stops rest) : cut c (text ++ rest) = (.token (Lexeme.wordKind (c :: text)) (c :: text), rest) := by
  obtain ⟨hplain, hspace, hquote⟩ := Lexeme.plain_of_wordPart (c := c) (by simp [Lexeme.isWordPart, hc])
  have hdigit : ¬ Lexeme.isDigit c := fun hdigit => Lexeme.not_isLetter_of_isDigit hdigit hc
  obtain ⟨htake, hdrop⟩ := hrest.span (fun _ => isWordPart_of_blank) htext
  simp [cut, hplain.single, hplain.double, hplain.slash, hspace, hquote, hdigit, hc, htake, hdrop]

theorem cut_digit {c : Char} (hc : Lexeme.isDigit c) (rest : List Char) : cut c rest = cutNumber c rest := by
  obtain ⟨hplain, hspace, hquote⟩ := Lexeme.plain_of_wordPart (c := c) (by simp [Lexeme.isWordPart, hc])
  simp [cut, hplain.single, hplain.double, hplain.slash, hspace, hquote, hc]

theorem cutNumber_whole {c : Char} {digits rest : List Char} (h : ∀ d ∈ digits, Lexeme.isDigit d) (hrest : Stops rest) :
    cutNumber c (digits ++ rest) = (.token .number (c :: digits), rest) := by
  obtain ⟨htake, hdrop⟩ := hrest.span (fun _ => isDigit_of_blank) h
  unfold cutNumber Lexeme.number
  rw [htake, hdrop]
  cases rest with
  | nil => rfl
  | cons b after => rcases hrest b after rfl with rfl | rfl | rfl | rfl <;> rfl

theorem cutNumber_decimal {c : Char} {digits fraction rest : List Char} (h : ∀ d ∈ digits, Lexeme.isDigit d)
    (hne : fraction ≠ []) (h' : ∀ d ∈ fraction, Lexeme.isDigit d) (hrest : Stops rest) :
    cutNumber c (digits ++ '.' :: fraction ++ rest) = (.token .number (c :: digits ++ '.' :: fraction), rest) := by
  obtain ⟨d, fraction, rfl⟩ := List.exists_cons_of_ne_nil hne
  obtain ⟨hd, hfraction⟩ := List.forall_mem_cons.mp h'
  obtain ⟨htake, hdrop⟩ := hrest.span (fun _ => isDigit_of_blank) hfraction
  have hpoint : ¬ Lexeme.isDigit '.' := by decide
  unfold cutNumber Lexeme.number
  rw [List.append_assoc, List.takeWhile_append_of_pos h, List.dropWhile_append_of_pos h, List.cons_append,
    List.takeWhile_cons_of_neg hpoint, List.dropWhile_cons_of_neg hpoint, List.append_nil]
  simp [hd, htake, hdrop]

theorem cutString_closed {body : List Char} (h : '"' ∉ body) (rest : List Char) :
    cutString (body ++ '"' :: rest) = (.token .string ('"' :: body ++ ['"']), rest) := by
  have hbody : ∀ c ∈ body, (c != '"') = true := fun c hc => bne_iff_ne.mpr fun heq => h (heq ▸ hc)
  unfold cutString
  rw [List.takeWhile_append_of_pos hbody, List.dropWhile_append_of_pos hbody]
  simp

/-- In front of a blank, and at the end of a text, a lexeme is cut off whole. -/
theorem cut_lexeme {kind : Kind} {c : Char} {text rest : List Char} (h : Valid kind (c :: text)) (hrest : Stops rest) :
    cut c (text ++ rest) = (.token kind (c :: text), rest) := by
  generalize hlexeme : c :: text = lexeme at h
  cases h with
  | symbol h =>
    subst hlexeme
    exact cut_symbol h hrest
  | keyword h =>
    obtain ⟨c', text', heq, hc, htext⟩ := Lexeme.word_of_keyword _ h
    rw [String.toList_ofList, ← hlexeme] at heq
    cases heq
    subst hlexeme
    rw [cut_word hc htext hrest, Lexeme.wordKind_keyword h]
  | identifier hc htext h =>
    cases hlexeme
    rw [cut_word hc htext hrest, Lexeme.wordKind_identifier h]
  | string h =>
    obtain ⟨rfl, rfl⟩ := List.cons.inj (hlexeme.trans (List.cons_append ..))
    rw [List.append_assoc]
    exact cutString_closed h rest
  | whole _ h =>
    subst hlexeme
    obtain ⟨hc, htext⟩ := List.forall_mem_cons.mp h
    rw [cut_digit hc, cutNumber_whole htext hrest]
  | @decimal digits fraction hne h hne' h' =>
    obtain ⟨d, digits, rfl⟩ := List.exists_cons_of_ne_nil hne
    obtain ⟨rfl, rfl⟩ := List.cons.inj (hlexeme.trans (List.cons_append ..))
    obtain ⟨hc, hdigits⟩ := List.forall_mem_cons.mp h
    rw [cut_digit hc, cutNumber_decimal hdigits hne' h' hrest]

/-! ### Texts -/

/-- The pieces of a text but for the gaps. -/
def marks (text : List Char) : List Piece :=
  (ofText text).toList.filter fun piece => piece.isToken || piece.isBad

theorem marks_cons (c : Char) (rest : List Char) :
    marks (c :: rest) = [(cut c rest).1].filter (fun piece => piece.isToken || piece.isBad) ++ marks (cut c rest).2 := by
  rw [marks, ofText_cons, Array.toList_append, List.filter_append]
  rfl

theorem marks_lexeme {kind : Kind} {lexeme rest : List Char} (h : Valid kind lexeme) (hrest : Stops rest) :
    marks (lexeme ++ rest) = .token kind lexeme :: marks rest := by
  cases lexeme with
  | nil => exact absurd (.inl ⟨kind, h⟩) Lexeme.not_written_nil
  | cons c text =>
    rw [List.cons_append, marks_cons, cut_lexeme h hrest]
    rfl

theorem marks_blank {c : Char} (h : IsBlank c) (rest : List Char) : marks (c :: rest) = marks rest := by
  have hcut : cut c rest = (.skipped [c], rest) := by
    rcases h with rfl | rfl | rfl | rfl <;> rfl
  rw [marks_cons, hcut]
  rfl

theorem marks_comment {comment : List Char} (h : IsComment comment) (rest : List Char) :
    marks (comment ++ '\n' :: rest) = marks rest := by
  obtain ⟨body, rfl, hbody⟩ := h
  have hline : ∀ c ∈ '/' :: body, (c != '\n') = true :=
    List.forall_mem_cons.mpr ⟨rfl, fun c hc => bne_iff_ne.mpr fun heq => hbody (heq ▸ hc)⟩
  have hcut : cut '/' ('/' :: body ++ '\n' :: rest) = (.skipped ('/' :: '/' :: body), '\n' :: rest) := by
    show cutSlash ('/' :: body ++ '\n' :: rest) = _
    rw [List.cons_append, cutSlash, ← List.cons_append, List.takeWhile_append_of_pos hline,
      List.dropWhile_append_of_pos hline]
    simp
  rw [List.cons_append, marks_cons, hcut]
  exact marks_blank (.inr (.inr (.inr rfl))) rest

theorem marks_gap {gap : List Char} (h : IsGap gap) (rest : List Char) : marks (gap ++ rest) = marks rest := by
  induction h with
  | nil => rfl
  | blank hc _ ih => rw [List.cons_append, marks_blank hc, ih]
  | comment hcomment _ ih => rw [List.append_assoc, List.cons_append, marks_comment hcomment, ih]

/-- Between the gaps of a text with lexemes joined by separators, and perhaps one more separator, are the lexemes. -/
theorem marks_joined {lexemes : List (Kind × List Char)} {text tail : List Char} (hvalid : ∀ p ∈ lexemes, Valid p.1 p.2)
    (h : Joined (lexemes.map Prod.snd) text) (htail : tail = [] ∨ IsSeparator tail) :
    marks (text ++ tail) = lexemes.map fun p => .token p.1 p.2 := by
  have hlast : marks tail = [] ∧ Stops tail := by
    rcases htail with rfl | htail
    · exact ⟨rfl, .nil⟩
    · have hmarks := marks_gap htail.gap []
      have hstops := htail.stops []
      rw [List.append_nil] at hmarks hstops
      exact ⟨hmarks, hstops⟩
  generalize hwritten : lexemes.map Prod.snd = written at h
  induction h generalizing lexemes with
  | none =>
    cases List.map_eq_nil_iff.mp hwritten
    exact hlast.1
  | last lexeme =>
    obtain ⟨⟨kind, lexeme⟩, rfl, rfl⟩ := List.map_eq_singleton_iff.mp hwritten
    rw [marks_lexeme (hvalid _ List.mem_cons_self) hlast.2, hlast.1]
    rfl
  | @more lexeme separator next text written hseparator _ ih =>
    obtain ⟨⟨kind, lexeme⟩, lexemes, rfl, rfl, hrest⟩ := List.map_eq_cons_iff.mp hwritten
    obtain ⟨hlexeme, hlexemes⟩ := List.forall_mem_cons.mp hvalid
    rw [List.append_assoc, List.append_assoc, marks_lexeme hlexeme (hseparator.stops _), marks_gap hseparator.gap,
      ih hlexemes hrest]
    rfl

theorem filter_marks (text : List Char) {p : Piece → Bool} (hp : ∀ gap, p (.skipped gap) = false) :
    (ofText text).toList.filter p = (marks text).filter p := by
  rw [marks, List.filter_filter]
  refine List.filter_congr fun piece _ => ?_
  cases piece with
  | skipped gap => rw [hp, Bool.false_and]
  | _ => exact (Bool.and_true _).symm

theorem valid_of_tiles {text : List Char} {pieces : List Piece} (h : Tiles text pieces) {kind : Kind} {lexeme : List Char}
    (hmem : .token kind lexeme ∈ pieces) : Valid kind lexeme := by
  induction h with
  | nil => cases hmem
  | cons hfits _ ih =>
    rcases List.mem_cons.mp hmem with rfl | hmem
    · exact hfits.1
    · exact ih hmem

end Piece

/-! ### Tokens -/

/-- What a token says apart from its line. -/
def Token.content (t : Token) : Kind × String × Literal :=
  (t.kind, t.lexeme, t.literal)

theorem Piece.Yields.content_eq {piece : Piece} {t t' : Token} (h : piece.Yields t) (h' : piece.Yields t') :
    t.content = t'.content := by
  obtain ⟨rfl, hvalue⟩ := h
  obtain ⟨hpiece, hvalue'⟩ := h'
  obtain ⟨hkind, hlexeme⟩ := Piece.token.inj hpiece
  rw [← hkind, ← hlexeme] at hvalue'
  rw [Token.content, Token.content, hkind, String.toList_injective hlexeme, hvalue.eq_literal, hvalue'.eq_literal]

theorem map_content_eq {pieces : List Piece} {ts ts' : List Token} (h : List.Forall₂ Piece.Yields pieces ts)
    (h' : List.Forall₂ Piece.Yields pieces ts') : ts.map Token.content = ts'.map Token.content := by
  induction h generalizing ts' with
  | nil =>
    cases h'
    rfl
  | cons hfirst _ ih =>
    cases h' with
    | cons hfirst' hrest' => rw [List.map_cons, List.map_cons, hfirst.content_eq hfirst', ih hrest']

/-- The tokens and the problems of a text are those of its pieces. -/
theorem scan_ofText (source : String) :
    ∃ tokens line, (scan source).1 = tokens ++ [⟨.eof, "", .nil, line⟩] ∧
      List.Forall₂ Piece.Yields ((Piece.ofText source.toList).toList.filter Piece.isToken) tokens ∧
      List.Forall₂ Piece.Reported ((Piece.ofText source.toList).toList.filter Piece.isBad) (scan source).2 := by
  obtain ⟨tokens, problems, htokens, hproblems, hyields, hreported⟩ :=
    Scan.foldl_tiles (Piece.tiles_ofText source.toList) Scan.start
  rw [Array.foldl_toList] at htokens hproblems
  refine ⟨tokens, ((Piece.ofText source.toList).foldl Scan.add Scan.start).line, ?_, hyields, ?_⟩
  · rw [scan_eq, Array.toList_push, htokens]
    rfl
  · rw [scan_eq, hproblems]
    exact hreported

/-- Lexemes that are joined by separators are the tokens of the text, and there are no problems. -/
theorem scan_written {lexemes : List (Kind × List Char)} {text tail : List Char} (hvalid : ∀ p ∈ lexemes, Valid p.1 p.2)
    (h : Joined (lexemes.map Prod.snd) text) (htail : tail = [] ∨ IsSeparator tail) :
    ∃ tokens line, scan (String.ofList (text ++ tail)) = (tokens ++ [⟨.eof, "", .nil, line⟩], []) ∧
      List.Forall₂ Piece.Yields (lexemes.map fun p => .token p.1 p.2) tokens := by
  have hmarks := Piece.marks_joined hvalid h htail
  have hgood : (Piece.ofText (text ++ tail)).toList.filter Piece.isToken = lexemes.map fun p => .token p.1 p.2 := by
    rw [Piece.filter_marks _ fun _ => rfl, hmarks]
    simp [List.filter_map, Function.comp_def, Piece.isToken]
  have hbad : (Piece.ofText (text ++ tail)).toList.filter Piece.isBad = [] := by
    rw [Piece.filter_marks _ fun _ => rfl, hmarks]
    simp [List.filter_map, Function.comp_def, Piece.isBad]
  obtain ⟨tokens, line, htokens, hyields, hreported⟩ := scan_ofText (String.ofList (text ++ tail))
  rw [String.toList_ofList, hgood] at hyields
  rw [String.toList_ofList, hbad, List.forall₂_nil_left_iff] at hreported
  exact ⟨tokens, line, Prod.ext htokens hreported, hyields⟩

/-- Single spaces are separators. -/
theorem Joined.spaces (lexemes : List (List Char)) : Joined lexemes ([' '].intercalate lexemes) := by
  induction lexemes with
  | nil => exact .none
  | cons lexeme rest ih =>
    cases rest with
    | nil => simpa using Joined.last lexeme
    | cons next rest =>
      rw [List.intercalate_cons_cons]
      exact .more ⟨' ', [], rfl, .inl rfl, .nil⟩ ih

theorem intercalate_concat_nil {lexemes : List (List Char)} (h : lexemes ≠ []) :
    [' '].intercalate (lexemes ++ [[]]) = [' '].intercalate lexemes ++ [' '] := by
  induction lexemes with
  | nil => exact absurd rfl h
  | cons lexeme rest ih =>
    cases rest with
    | nil => simp
    | cons next rest =>
      have hrest := ih (List.cons_ne_nil _ _)
      rw [List.cons_append] at hrest ⊢
      rw [List.cons_append, List.intercalate_cons_cons, hrest, List.intercalate_cons_cons, List.append_assoc _ _ [' ']]

theorem intercalate_lexemes (ts : List Token) :
    " ".intercalate (ts.map Token.lexeme) = String.ofList ([' '].intercalate (ts.map (·.lexeme.toList))) := by
  rw [← String.ofList_toList (s := " ".intercalate _), String.toList_intercalate, List.map_map]
  rfl

/-- The lexemes of the tokens of a text with spaces between them: the end mark, which has none, may add a last space. -/
theorem intercalate_scanned (tokens : List Token) (eof : Token) (heof : eof.lexeme = "") {ts : List Token}
    (h : ts = tokens ++ [eof] ∨ ts = tokens) :
    ∃ tail, (tail = [] ∨ IsSeparator tail) ∧
      " ".intercalate (ts.map Token.lexeme) =
        String.ofList ([' '].intercalate (tokens.map (·.lexeme.toList)) ++ tail) := by
  rw [intercalate_lexemes]
  rcases h with rfl | rfl
  · by_cases hnil : tokens = []
    · subst hnil
      refine ⟨[], .inl rfl, ?_⟩
      simp [heof]
    · refine ⟨[' '], .inr ⟨' ', [], rfl, .inl rfl, .nil⟩, ?_⟩
      rw [List.map_append, List.map_singleton, heof, String.toList_empty,
        intercalate_concat_nil (mt List.map_eq_nil_iff.mp hnil)]
  · exact ⟨[], .inl rfl, by rw [List.append_nil]⟩

/-- Scanning undoes writing out. Lexemes joined by separators are the tokens of the text, each with its kind, its lexeme and
    the value that the lexeme stands for, without a problem; and the lexemes of any text, with or without the empty one of
    its end mark, joined by spaces, have the tokens of that text but for their lines. -/
theorem scan_joined :
    (∀ (lexemes : List (Kind × List Char)) (text : List Char), (∀ p ∈ lexemes, Valid p.1 p.2) →
      Joined (lexemes.map Prod.snd) text →
        ∃ tokens line, scan (String.ofList text) = (tokens ++ [⟨.eof, "", .nil, line⟩], []) ∧
          List.Forall₂ Piece.Yields (lexemes.map fun p => .token p.1 p.2) tokens) ∧
    ∀ (source : String) (ts : List Token), ts = (scan source).1 ∨ ts = (scan source).1.dropLast →
      (scan (" ".intercalate (ts.map Token.lexeme))).1.map Token.content = (scan source).1.map Token.content ∧
        (scan (" ".intercalate (ts.map Token.lexeme))).2 = [] := by
  refine ⟨fun lexemes text hvalid hjoined => ?_, fun source ts hts => ?_⟩
  · have hwritten := scan_written hvalid hjoined (.inl rfl)
    rwa [List.append_nil] at hwritten
  · obtain ⟨tokens, line, htokens, hyields, -⟩ := scan_ofText source
    rw [htokens, List.dropLast_concat] at hts
    obtain ⟨tail, htail, htext⟩ := intercalate_scanned tokens _ rfl hts
    have hpieces : (Piece.ofText source.toList).toList.filter Piece.isToken =
        tokens.map fun t => .token t.kind t.lexeme.toList := by
      rw [← List.forall₂_eq_eq_eq, List.forall₂_map_right_iff]
      exact hyields.imp fun _ _ h => h.1
    have hvalid : ∀ p ∈ tokens.map (fun t => (t.kind, t.lexeme.toList)), Valid p.1 p.2 := by
      refine List.forall_mem_map.mpr fun t ht => Piece.valid_of_tiles (Piece.tiles_ofText source.toList) ?_
      refine List.mem_of_mem_filter (p := Piece.isToken) ?_
      rw [hpieces]
      exact List.mem_map_of_mem ht
    have hjoined : Joined ((tokens.map (fun t => (t.kind, t.lexeme.toList))).map Prod.snd)
        ([' '].intercalate (tokens.map (·.lexeme.toList))) := by
      rw [List.map_map]
      exact Joined.spaces _
    obtain ⟨tokens', line', hscan, hyields'⟩ := scan_written hvalid hjoined htail
    rw [List.map_map] at hyields'
    rw [hpieces] at hyields
    rw [htext, hscan, htokens, List.map_append, List.map_append, map_content_eq hyields' hyields]
    exact ⟨rfl, rfl⟩

/-- A string over two lines, a slash behind a comment, and a fraction in front of a point. -/
def writtenLexemes : List (Kind × List Char) :=
  [(.string, ['"', 'a', '\n', 'b', '"']), (.slash, ['/']), (.number, ['1', '.', '5']), (.dot, ['.'])]

def writtenText : List Char :=
  ['"', 'a', '\n', 'b', '"'] ++ [' ', '/', '/', 'c', '\n'] ++ (['/'] ++ ['\t'] ++ (['1', '.', '5'] ++ ['\r'] ++ ['.']))

theorem scan_joined_comment :
    (∃ tokens line, scan (String.ofList writtenText) = (tokens ++ [⟨.eof, "", .nil, line⟩], []) ∧
      List.Forall₂ Piece.Yields (writtenLexemes.map fun p => .token p.1 p.2) tokens) ∧
    (scan (" ".intercalate ((scan "1.5.//").1.map Token.lexeme))).1.map Token.content =
      (scan "1.5.//").1.map Token.content := by
  have hvalid : ∀ p ∈ writtenLexemes, Valid p.1 p.2 := by
    simp only [writtenLexemes, List.forall_mem_cons]
    refine ⟨@Valid.string ['a', '\n', 'b'] (by decide), .symbol (by decide), ?_, .symbol (by decide), nofun⟩
    exact @Valid.decimal ['1'] ['5'] (List.cons_ne_nil _ _) (List.forall_mem_singleton.mpr rfl) (List.cons_ne_nil _ _)
      (List.forall_mem_singleton.mpr rfl)
  have hcomment : IsSeparator [' ', '/', '/', 'c', '\n'] :=
    ⟨' ', _, rfl, .inl rfl, @IsGap.comment ['/', '/', 'c'] [] ⟨['c'], rfl, by decide⟩ .nil⟩
  have htab : IsSeparator ['\t'] := ⟨'\t', _, rfl, .inr (.inl rfl), .nil⟩
  have hreturn : IsSeparator ['\r'] := ⟨'\r', _, rfl, .inr (.inr (.inl rfl)), .nil⟩
  have hjoined : Joined (writtenLexemes.map Prod.snd) writtenText :=
    .more hcomment (.more htab (.more hreturn (.last ['.'])))
  exact ⟨scan_joined.1 writtenLexemes writtenText hvalid hjoined, (scan_joined.2 "1.5.//" _ (.inl rfl)).1⟩

end LoxLanguage
