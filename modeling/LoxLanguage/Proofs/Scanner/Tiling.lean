import Mathlib
import LoxLanguage.Proofs.Scanner.Lexemes

/-! Scanning tiles the text. Each piece that is cut off is the longest lexeme or comment at its place, a blank, a
character at which nothing can begin, or a string that is never closed; the pieces make up the whole text, and
the tokens and the problems are those of the pieces, in order. -/

namespace LoxLanguage

open Token (Kind)
open Lexeme (Valid IsComment Written Longest Denotes Shape Plain)

/-! ### Pieces -/

/-- What a piece at the front of a text may be. -/
def Piece.Fits (text : List Char) : Piece → Prop
  | .token kind lexeme => Valid kind lexeme ∧ Longest lexeme text
  | .skipped gap =>
    (∃ c, gap = [c] ∧ (c = ' ' ∨ c = '\t' ∨ c = '\r' ∨ c = '\n')) ∨ (IsComment gap ∧ Longest gap text)
  | .stray c =>
    (∀ front, front <+: text → ¬ Written front) ∧ c ≠ '"' ∧ c ≠ ' ' ∧ c ≠ '\t' ∧ c ≠ '\r' ∧ c ≠ '\n'
  | .unclosed gap => gap = text ∧ ∃ body, text = '"' :: body ∧ '"' ∉ body

/-- A text cut into pieces from left to right. -/
inductive Tiles : List Char → List Piece → Prop where
  | nil : Tiles [] []
  | cons {piece : Piece} {after : List Char} {pieces : List Piece} (hfits : piece.Fits (piece.text ++ after))
      (hrest : Tiles after pieces) : Tiles (piece.text ++ after) (piece :: pieces)

theorem Tiles.text {text : List Char} {pieces : List Piece} (h : Tiles text pieces) :
    pieces.flatMap Piece.text = text := by
  induction h with
  | nil => rfl
  | cons _ _ ih => rw [List.flatMap_cons, ih]

theorem length_le_takeWhile {α : Type} {p : α → Bool} {front text : List α} (hfront : front <+: text)
    (h : ∀ a ∈ front, p a) : front.length ≤ (text.takeWhile p).length := by
  obtain ⟨after, rfl⟩ := hfront
  rw [List.takeWhile_append_of_pos h, List.length_append]
  exact Nat.le_add_right _ _

namespace Piece

theorem fits_single {c : Char} {kind : Kind} (h : Lexeme.single? c = some kind) (rest : List Char) :
    (Piece.token kind [c]).Fits (c :: rest) := by
  obtain ⟨hmem, hshape⟩ := Lexeme.symbol_of_single? h
  refine ⟨.symbol hmem, .of_shape ⟨rest, rfl⟩ fun other _ hother => ?_⟩
  rw [hshape other hother]

theorem fits_long {c : Char} {long short : Kind} (h : Lexeme.double? c = some (long, short)) (after : List Char) :
    (Piece.token long [c, '=']).Fits (c :: '=' :: after) := by
  obtain ⟨hmem, -, hshape⟩ := Lexeme.symbol_of_double? h
  refine ⟨.symbol hmem, .of_shape ⟨after, rfl⟩ fun other _ hother => ?_⟩
  rcases hshape other hother with rfl | rfl
  · exact Nat.zero_le _
  · exact Nat.le_refl _

theorem fits_short {c : Char} {long short : Kind} (h : Lexeme.double? c = some (long, short)) {rest : List Char}
    (hrest : ∀ after, rest ≠ '=' :: after) : (Piece.token short [c]).Fits (c :: rest) := by
  obtain ⟨-, hmem, hshape⟩ := Lexeme.symbol_of_double? h
  refine ⟨.symbol hmem, .of_shape ⟨rest, rfl⟩ fun other hinitial hother => ?_⟩
  rcases hshape other hother with rfl | rfl
  · exact Nat.le_refl _
  · obtain ⟨after, hafter⟩ := hinitial
    exact absurd hafter.symm (hrest after)

theorem fits_cutSlash (rest : List Char) : (cutSlash rest).1.Fits ('/' :: rest) := by
  have hshape : ∀ other, Shape '/' other → other = [] ∨ ∃ body, other = '/' :: body ∧ '\n' ∉ body := by
    intro other hother
    cases hother with
    | @symbol kind h =>
      have hnil : other = [] ∧ kind = .slash := by simpa [Lexeme.symbols] using h
      exact .inl hnil.1
    | comment _ h hrest => exact .inr ⟨_, hrest, h⟩
    | word hc => exact absurd hc (by decide)
    | string hc => exact absurd hc (by decide)
    | whole hc => exact absurd hc (by decide)
    | decimal hc => exact absurd hc (by decide)
  unfold cutSlash
  split
  · rename_i after
    have hfront := List.takeWhile_prefix (l := '/' :: after) (· != '\n')
    have hline : ('/' :: after).takeWhile (· != '\n') = '/' :: after.takeWhile (· != '\n') := rfl
    refine .inr ⟨⟨_, congrArg _ hline, ?_⟩, .of_shape (List.cons_prefix_cons.mpr ⟨rfl, hfront⟩) ?_⟩
    · intro hmem
      simpa using List.mem_takeWhile_imp hmem
    · intro other hinitial hother
      rcases hshape other hother with rfl | ⟨body, rfl, hbody⟩
      · exact Nat.zero_le _
      · refine length_le_takeWhile hinitial fun d hd => ?_
        rcases List.mem_cons.mp hd with rfl | hd
        · rfl
        · exact bne_iff_ne.mpr fun heq => hbody (heq ▸ hd)
  · rename_i hne
    refine ⟨.symbol (by decide), .of_shape ⟨rest, rfl⟩ fun other hinitial hother => ?_⟩
    rcases hshape other hother with rfl | ⟨body, rfl, -⟩
    · exact Nat.le_refl _
    · obtain ⟨after, rfl⟩ := hinitial
      exact absurd rfl (hne (body ++ after))

theorem fits_cutString (rest : List Char) : (cutString rest).1.Fits ('"' :: rest) := by
  have hplain : Plain '"' := ⟨rfl, rfl, by decide⟩
  have hjoin := List.takeWhile_append_dropWhile (p := (· != '"')) (l := rest)
  have hbody : '"' ∉ rest.takeWhile (· != '"') := fun hmem => by simpa using List.mem_takeWhile_imp hmem
  unfold cutString
  split
  · rename_i quote after hdrop
    have hquote : quote = '"' := by
      have hhead := List.head?_dropWhile_not (· != '"') rest
      simpa [hdrop] using hhead
    subst hquote
    rw [hdrop] at hjoin
    have hfront : rest.takeWhile (· != '"') ++ ['"'] <+: rest := ⟨after, by simpa using hjoin⟩
    refine ⟨.string hbody, .of_shape (List.cons_prefix_cons.mpr ⟨rfl, hfront⟩) fun other hinitial hother => ?_⟩
    cases hother with
    | symbol h => exact absurd h hplain.not_symbol
    | word hc => exact absurd hc (by decide)
    | @string body _ h hrest =>
      subst hrest
      have hle := length_le_takeWhile (p := (· != '"')) (List.IsPrefix.trans (List.prefix_append _ _) hinitial)
        fun d hd => bne_iff_ne.mpr fun heq => h (heq ▸ hd)
      simpa using hle
    | whole hc => exact absurd hc (by decide)
    | decimal hc => exact absurd hc (by decide)
    | comment hc => exact absurd hc (by decide)
  · rename_i hdrop
    rw [hdrop, List.append_nil] at hjoin
    rw [hjoin] at hbody
    exact ⟨rfl, rest, rfl, hbody⟩

/-- At a digit only numbers begin: more digits, or all digits there, a point and a fraction. -/
theorem number_of_shape {c : Char} (hplain : Plain c) (hquote : c ≠ '"') (hc : Lexeme.isDigit c) {other rest : List Char}
    (hinitial : other <+: rest) (hother : Shape c other) :
    other.length ≤ (rest.takeWhile Lexeme.isDigit).length ∨
      ∃ d fraction after, (∀ e ∈ d :: fraction, Lexeme.isDigit e) ∧
        other = rest.takeWhile Lexeme.isDigit ++ '.' :: d :: fraction ∧
        rest.dropWhile Lexeme.isDigit = '.' :: d :: (fraction ++ after) := by
  cases hother with
  | symbol h => exact absurd h hplain.not_symbol
  | word hletter => exact absurd hletter (Lexeme.not_isLetter_of_isDigit hc)
  | string heq => exact absurd heq hquote
  | whole _ h => exact .inl (length_le_takeWhile hinitial h)
  | @decimal digits fraction _ h hne h' hrest =>
    obtain ⟨after, rfl⟩ := hinitial
    subst hrest
    obtain ⟨d, fraction, rfl⟩ := List.exists_cons_of_ne_nil hne
    have hpoint : ¬ Lexeme.isDigit '.' := by decide
    refine .inr ⟨d, fraction, after, h', ?_, ?_⟩
    · rw [List.append_assoc, List.takeWhile_append_of_pos h, List.cons_append, List.takeWhile_cons_of_neg hpoint,
        List.append_nil]
    · rw [List.append_assoc, List.dropWhile_append_of_pos h, List.cons_append, List.dropWhile_cons_of_neg hpoint]
      rfl
  | comment heq => exact absurd heq hplain.slash

theorem fits_cutNumber {c : Char} (hplain : Plain c) (hquote : c ≠ '"') (hc : Lexeme.isDigit c) (rest : List Char) :
    (cutNumber c rest).1.Fits (c :: rest) := by
  have hjoin := List.takeWhile_append_dropWhile (p := Lexeme.isDigit) (l := rest)
  have hdigits : ∀ d ∈ c :: rest.takeWhile Lexeme.isDigit, Lexeme.isDigit d :=
    List.forall_mem_cons.mpr ⟨hc, fun d hd => List.mem_takeWhile_imp hd⟩
  have hwhole : c :: rest.takeWhile Lexeme.isDigit <+: c :: rest :=
    List.cons_prefix_cons.mpr ⟨rfl, List.takeWhile_prefix _⟩
  unfold cutNumber Lexeme.number
  dsimp only
  split
  · rename_i d after hdrop
    split
    · rename_i hd
      have hfraction : ∀ e ∈ d :: after.takeWhile Lexeme.isDigit, Lexeme.isDigit e :=
        List.forall_mem_cons.mpr ⟨hd, fun e he => List.mem_takeWhile_imp he⟩
      have hfront : rest.takeWhile Lexeme.isDigit ++ '.' :: d :: after.takeWhile Lexeme.isDigit <+: rest := by
        refine ⟨after.dropWhile Lexeme.isDigit, ?_⟩
        rw [hdrop] at hjoin
        simpa [List.takeWhile_append_dropWhile] using hjoin
      refine ⟨.decimal (List.cons_ne_nil _ _) hdigits (List.cons_ne_nil _ _) hfraction,
        .of_shape (List.cons_prefix_cons.mpr ⟨rfl, hfront⟩) fun other hinitial hother => ?_⟩
      rcases number_of_shape hplain hquote hc hinitial hother with hle | ⟨d', fraction, after', hall, rfl, hdrop'⟩
      · exact Nat.le_trans hle (by simp)
      · rw [hdrop] at hdrop'
        cases hdrop'
        have hle := length_le_takeWhile (List.prefix_append fraction after') (List.forall_mem_cons.mp hall).2
        simpa using hle
    · rename_i hd
      refine ⟨.whole (List.cons_ne_nil _ _) hdigits, .of_shape hwhole fun other hinitial hother => ?_⟩
      rcases number_of_shape hplain hquote hc hinitial hother with hle | ⟨d', fraction, after', hall, rfl, hdrop'⟩
      · exact hle
      · rw [hdrop] at hdrop'
        cases hdrop'
        exact absurd (List.forall_mem_cons.mp hall).1 hd
  · rename_i hne
    refine ⟨.whole (List.cons_ne_nil _ _) hdigits, .of_shape hwhole fun other hinitial hother => ?_⟩
    rcases number_of_shape hplain hquote hc hinitial hother with hle | ⟨d', fraction, after', -, rfl, hdrop'⟩
    · exact hle
    · exact absurd hdrop' (hne _ _)

theorem fits_word {c : Char} (hplain : Plain c) (hquote : c ≠ '"') (hdigit : Lexeme.isDigit c = false)
    (hc : Lexeme.isLetter c) (rest : List Char) :
    (Piece.token (Lexeme.wordKind (c :: rest.takeWhile Lexeme.isWordPart)) (c :: rest.takeWhile Lexeme.isWordPart)).Fits
      (c :: rest) := by
  have hfront : c :: rest.takeWhile Lexeme.isWordPart <+: c :: rest :=
    List.cons_prefix_cons.mpr ⟨rfl, List.takeWhile_prefix _⟩
  refine ⟨Lexeme.valid_word hc fun d hd => List.mem_takeWhile_imp hd, .of_shape hfront fun other hinitial hother => ?_⟩
  cases hother with
  | symbol h => exact absurd h hplain.not_symbol
  | word _ h => exact length_le_takeWhile hinitial h
  | string heq => exact absurd heq hquote
  | whole h => rw [hdigit] at h; cases h
  | decimal h => rw [hdigit] at h; cases h
  | comment heq => exact absurd heq hplain.slash

theorem fits_stray {c : Char} (hplain : Plain c) (hspace : ¬ (Lexeme.isSpace c ∨ c = '\n')) (hquote : c ≠ '"')
    (hdigit : Lexeme.isDigit c = false) (hletter : Lexeme.isLetter c = false) (rest : List Char) :
    (Piece.stray c).Fits (c :: rest) := by
  have hblank : c ≠ ' ' ∧ c ≠ '\t' ∧ c ≠ '\r' ∧ c ≠ '\n' := by
    refine ⟨?_, ?_, ?_, ?_⟩ <;> rintro rfl <;> exact hspace (by decide)
  refine ⟨fun front hfront hwritten => ?_, hquote, hblank⟩
  cases front with
  | nil => exact Lexeme.not_written_nil hwritten
  | cons d other =>
    obtain ⟨rfl, -⟩ := List.cons_prefix_cons.mp hfront
    obtain ⟨kind, hmem⟩ := hwritten.shape.symbol_of ⟨hletter, hdigit, hquote, hplain.slash⟩
    exact hplain.not_symbol hmem

/-- What is cut off is the longest piece at its place. -/
theorem fits_cut (c : Char) (rest : List Char) : (cut c rest).1.Fits (c :: rest) := by
  unfold cut
  split
  · rename_i h
    exact fits_single h rest
  · rename_i hsingle
    split
    · rename_i h
      split
      · exact fits_long h _
      · rename_i hne
        exact fits_short h hne
    · rename_i hdouble
      split
      · rename_i h
        subst h
        exact fits_cutSlash rest
      · rename_i hslash
        have hplain : Plain c := ⟨hsingle, hdouble, hslash⟩
        split
        · rename_i hspace
          refine .inl ⟨c, rfl, ?_⟩
          simp only [Lexeme.isSpace, Bool.or_eq_true, beq_iff_eq] at hspace
          tauto
        · rename_i hspace
          split
          · rename_i h
            subst h
            exact fits_cutString rest
          · rename_i hquote
            split
            · rename_i hdigit
              exact fits_cutNumber hplain hquote hdigit rest
            · rename_i hdigit
              split
              · rename_i hletter
                exact fits_word hplain hquote (Bool.of_not_eq_true hdigit) hletter rest
              · rename_i hletter
                exact fits_stray hplain hspace hquote (Bool.of_not_eq_true hdigit)
                  (Bool.of_not_eq_true hletter) rest

theorem Fits.text_ne_nil {text : List Char} {piece : Piece} (h : piece.Fits text) : piece.text ≠ [] := by
  rintro hnil
  cases piece with
  | token kind lexeme =>
    subst hnil
    exact Lexeme.not_written_nil (.inl ⟨kind, h.1⟩)
  | skipped gap =>
    subst hnil
    rcases h with ⟨c, hc, -⟩ | ⟨h, -⟩
    · cases hc
    · exact Lexeme.not_written_nil (.inr h)
  | stray c => cases hnil
  | unclosed gap =>
    subst hnil
    obtain ⟨rfl, body, hbody, -⟩ := h
    cases hbody

theorem length_cut (c : Char) (rest : List Char) : (cut c rest).2.length ≤ rest.length := by
  have htext := congrArg List.length (text_cut c rest)
  have hpos := List.length_pos_iff.mpr (fits_cut c rest).text_ne_nil
  rw [List.length_append, List.length_cons] at htext
  omega

theorem tiles_cutAll (fuel : Nat) (text : List Char) (found : Array Piece) (h : text.length ≤ fuel) :
    ∃ pieces, (cutAll fuel text found).toList = found.toList ++ pieces ∧ Tiles text pieces := by
  induction fuel generalizing text found with
  | zero =>
    cases List.eq_nil_of_length_eq_zero (Nat.le_zero.mp h)
    exact ⟨[], (List.append_nil _).symm, .nil⟩
  | succ fuel ih =>
    cases text with
    | nil => exact ⟨[], (List.append_nil _).symm, .nil⟩
    | cons c rest =>
      have hle := Nat.le_trans (length_cut c rest) (Nat.le_of_succ_le_succ h)
      obtain ⟨pieces, hpieces, htiles⟩ := ih (cut c rest).2 (found.push (cut c rest).1) hle
      refine ⟨(cut c rest).1 :: pieces, ?_, ?_⟩
      · rw [cutAll, hpieces, Array.toList_push, List.append_assoc]
        rfl
      · have hfits := fits_cut c rest
        rw [← text_cut c rest] at hfits ⊢
        exact .cons hfits htiles

theorem tiles_ofText (text : List Char) : Tiles text (ofText text).toList := by
  obtain ⟨pieces, hpieces, htiles⟩ := tiles_cutAll text.length text #[] (Nat.le_refl _)
  rw [List.nil_append] at hpieces
  rwa [ofText, hpieces]

/-! ### Tokens and problems -/

/-- Whether a piece gives a token. -/
def isToken : Piece → Bool
  | .token _ _ => true
  | _ => false

/-- Whether a piece gives a problem. -/
def isBad : Piece → Bool
  | .stray _ | .unclosed _ => true
  | _ => false

/-- The token of a piece: it has its kind, its text and the value that the text stands for. -/
def Yields (piece : Piece) (t : Token) : Prop :=
  piece = .token t.kind t.lexeme.toList ∧ Denotes t.kind t.lexeme.toList t.literal

/-- The problem of a piece. -/
inductive Reported : Piece → Problem → Prop where
  | stray {c : Char} {line : Int} : Reported (.stray c) (.onLine line .unexpectedCharacter)
  | unclosed {text : List Char} {line : Int} : Reported (.unclosed text) (.onLine line .unterminatedString)

end Piece

/-- A lexeme stands for one value at most. -/
theorem Lexeme.Denotes.eq_literal {kind : Kind} {text : List Char} {value : Literal} (h : Denotes kind text value) :
    value = Lexeme.literal kind text := by
  cases h with
  | string h => simp [Lexeme.literal]
  | whole h => rw [Lexeme.literal, List.takeWhile_eq_self_iff.mpr h, List.dropWhile_eq_nil_iff.mpr h, List.drop_nil]
  | decimal h h' =>
    have hpoint : ¬ Lexeme.isDigit '.' := by decide
    rw [Lexeme.literal, List.takeWhile_append_of_pos h, List.dropWhile_append_of_pos h, List.takeWhile_cons_of_neg hpoint,
      List.dropWhile_cons_of_neg hpoint, List.append_nil, List.drop_one, List.tail_cons]
  | nothing hstring hnumber =>
    unfold Lexeme.literal
    split
    · exact absurd rfl hstring
    · exact absurd rfl hnumber
    · rfl

theorem Lexeme.denotes_literal {kind : Kind} {text : List Char} (h : Valid kind text) :
    Denotes kind text (Lexeme.literal kind text) := by
  have hsymbols : ∀ p ∈ Lexeme.symbols, p.2 ≠ .string ∧ p.2 ≠ .number := by decide
  have hkeywords : ∀ p ∈ Lexeme.keywords, p.2 ≠ .string ∧ p.2 ≠ .number := by decide
  obtain ⟨value, hvalue⟩ : ∃ value, Denotes kind text value := by
    cases h with
    | symbol h => exact ⟨_, .nothing (hsymbols _ h).1 (hsymbols _ h).2⟩
    | keyword h => exact ⟨_, .nothing (hkeywords _ h).1 (hkeywords _ h).2⟩
    | identifier => exact ⟨_, .nothing nofun nofun⟩
    | string h => exact ⟨_, .string h⟩
    | whole _ h => exact ⟨_, .whole h⟩
    | decimal _ h _ h' => exact ⟨_, .decimal h h'⟩
  exact hvalue.eq_literal ▸ hvalue

theorem toList_push_append {α : Type} (xs : Array α) (a : α) (ys : List α) :
    (xs.push a).toList ++ ys = xs.toList ++ a :: ys := by
  simp

/-- Reading pieces adds their tokens and their problems to those found before, in order. -/
theorem Scan.foldl_tiles {text : List Char} {pieces : List Piece} (h : Tiles text pieces) (s : Scan) :
    ∃ tokens problems, (pieces.foldl Scan.add s).tokens.toList = s.tokens.toList ++ tokens ∧
      (pieces.foldl Scan.add s).problems.toList = s.problems.toList ++ problems ∧
      List.Forall₂ Piece.Yields (pieces.filter Piece.isToken) tokens ∧
      List.Forall₂ Piece.Reported (pieces.filter Piece.isBad) problems := by
  induction h generalizing s with
  | nil => exact ⟨[], [], (List.append_nil _).symm, (List.append_nil _).symm, .nil, .nil⟩
  | @cons piece after pieces hfits _ ih =>
    obtain ⟨tokens, problems, htokens, hproblems, hyields, hreported⟩ := ih (s.add piece)
    rw [List.foldl_cons, htokens, hproblems]
    cases piece with
    | token kind lexeme =>
      refine ⟨_ :: tokens, problems, toList_push_append _ _ _, rfl, .cons ⟨?_, ?_⟩ hyields, hreported⟩
      · simp
      · simpa using Lexeme.denotes_literal hfits.1
    | skipped gap => exact ⟨tokens, problems, rfl, rfl, hyields, hreported⟩
    | stray c => exact ⟨tokens, _ :: problems, rfl, toList_push_append _ _ _, hyields, .cons .stray hreported⟩
    | unclosed gap => exact ⟨tokens, _ :: problems, rfl, toList_push_append _ _ _, hyields, .cons .unclosed hreported⟩

/-- Every text is cut into longest pieces. The tokens are those of the pieces that are lexemes, followed by one end mark,
    and there is one problem for each character at which nothing begins and for a string that is never closed. -/
theorem scan_tiles (source : String) :
    ∃ pieces, pieces.flatMap Piece.text = source.toList ∧ Tiles source.toList pieces ∧
      (∃ tokens line, (scan source).1 = tokens ++ [⟨.eof, "", .nil, line⟩] ∧
        List.Forall₂ Piece.Yields (pieces.filter Piece.isToken) tokens) ∧
      List.Forall₂ Piece.Reported (pieces.filter Piece.isBad) (scan source).2 := by
  have htiles := Piece.tiles_ofText source.toList
  obtain ⟨tokens, problems, htokens, hproblems, hyields, hreported⟩ := Scan.foldl_tiles htiles Scan.start
  rw [Array.foldl_toList] at htokens hproblems
  refine ⟨(Piece.ofText source.toList).toList, htiles.text, htiles,
    ⟨tokens, ((Piece.ofText source.toList).foldl Scan.add Scan.start).line, ?_, hyields⟩, ?_⟩
  · rw [scan_eq, Array.toList_push, htokens]
    rfl
  · rw [scan_eq, hproblems]
    exact hreported

end LoxLanguage
