import Mathlib
import LoxLanguage.Proofs.Grammar.Unended
import LoxLanguage.Proofs.Scanner.Endings
import LoxLanguage.Proofs.Session.Reports
import LoxLanguage.Proofs.Tree.PrefixForm

/-! The tree that `ast` shows. A text that is an expression is shown in prefix form, with or without a semicolon behind it,
unless there is none and the text ends in a comment: the semicolon that is put behind the text is then part of the comment,
and the text is rejected (`showTree_expression`). -/

namespace LoxLanguage

open Grammar (Expression)

section Expressions
variable {n m : Site} {ts : List Token} {e : Expr}

theorem Number.displayText_ne (x : Number) : Number.displayText x ≠ "" := by
  obtain ⟨c, rest, htext, -⟩ := Number.unsigned_begins (Number.parts x)
  intro hempty
  rw [Number.displayText_eq, String.append_eq_empty_iff] at hempty
  rw [hempty.2] at htext
  cases htext

theorem Expr.literalForm_ne (value : Literal) : Expr.literalForm value ≠ "" := by
  cases value with
  | nil => decide
  | bool b => cases b <;> decide
  | number x => exact Number.displayText_ne x
  | text s => simp [Expr.literalForm]

/-- The prefix form of an expression is not empty, if no name in it is. -/
theorem Grammar.Derives.prefixForm_ne {X : Grammar.Symbol} (h : Grammar.Derives X n ts e m)
    (hnames : ∀ t ∈ ts, t.kind = .identifier → t.lexeme ≠ "") : e.prefixForm ≠ "" := by
  induction h using @Grammar.Derives.rec _ (fun _ _ _ _ _ => True) (fun _ _ _ _ _ => True) with
  | value _ ih | operand _ _ ih | plain _ ih | atom _ ih => exact ih hnames
  | @operator X rule _ _ _ _ _ _ _ _ hrule => cases X <;> cases hrule <;> simp [Expr.prefixForm]
  | trueWord | falseWord | nilWord | constant => exact Expr.literalForm_ne _
  | name h => exact hnames _ List.mem_cons_self h
  | _ => simp [Expr.prefixForm]

/-- An expression can be numbered from any site on, and its prefix form stays the same. -/
theorem Grammar.Derives.renumber {X : Grammar.Symbol} (h : Grammar.Derives X n ts e m) (start : Site) :
    ∃ e' m', Grammar.Derives X start ts e' m' ∧ e'.prefixForm = e.prefixForm := by
  have hstart : (Relabelling.startingAt n start).site n = start := by simp [Relabelling.startingAt]
  have hmoved := (h.relabel (Relabelling.startingAt_runsFrom n start)).2
  rw [Relabelling.map_startingAt, hstart] at hmoved
  exact ⟨_, _, hmoved, e.prefixForm_relabel _⟩

theorem Grammar.Derives.expression (h : Grammar.Derives .primary n ts e m) : Expression n ts e m :=
  .value (.operand rfl (.operand rfl (.operand rfl (.operand rfl (.operand rfl (.operand rfl (.plain (.atom h))))))))

end Expressions

section Entries
variable {s : Session} {source : String} {n m : Site} {ts : List Token} {e : Expr} {eof : Token}

/-- The last token of a text is its end mark, and no other token is. -/
theorem scan_ends {problems : List Problem} (h : scan source = (ts ++ [eof], problems)) :
    eof.kind = .eof ∧ ∀ t ∈ ts, t.kind ≠ .eof := by
  obtain ⟨body, mark, htokens, hmark, hbody⟩ := scan_tokens source
  rw [h] at htokens
  obtain ⟨rfl, hlast⟩ := List.append_inj' htokens rfl
  cases hlast
  exact ⟨hmark, fun t ht => (hbody t ht).1⟩

theorem lexeme_ne_of_scan {t : Token} (ht : t ∈ (scan source).1) (hkind : t.kind = .identifier) : t.lexeme ≠ "" := by
  have hscanned : t.Scanned := scanned_of_mem ht (by rw [hkind]; decide)
  obtain ⟨c, rest, htext, -⟩ := Token.Scanned.name ⟨hscanned, hkind⟩
  intro hempty
  rw [hempty] at htext
  cases htext

/-- An expression with its semicolon is shown. -/
theorem Session.render_statement (hclear : s.reporter.hadError = false) {semicolon : Token}
    (hscan : scan source = (ts ++ [semicolon] ++ [eof], [])) (hsemicolon : semicolon.kind = .semicolon)
    (h : Expression n ts e m) :
    s.render source = ({ s with reporter := s.reporter.register s.path source }, e.prefixForm) := by
  obtain ⟨heof, hts⟩ := scan_ends hscan
  obtain ⟨e', m', h', hform⟩ := h.renumber s.nextSite
  have hprogram : Grammar.Program s.nextSite (ts ++ [semicolon] ++ []) [.expression e'] m' :=
    .more (.statement (.expression h' hsemicolon)) .none
  rw [List.append_nil] at hprogram
  have hparse := parse_of_program hts heof hprogram
  have hproblems : s.syntaxProblems source = [] := by rw [syntaxProblems, hscan, hparse]; rfl
  rw [render, parse_eq, hproblems, hscan, hparse, hclear, ← hform]
  rfl

/-- An expression without a semicolon is rejected at the end of the text. -/
theorem Session.render_unended (hscan : scan source = (ts ++ [eof], [])) (h : Expression n ts e m) :
    s.render source = ({ s with reporter :=
      (s.reporter.register s.path source).errorAtToken eof Complaint.expectExpressionEnd.message }, "") := by
  obtain ⟨heof, hts⟩ := scan_ends hscan
  obtain ⟨e', m', h', -⟩ := h.renumber s.nextSite
  have hparse := Grammar.parse_unended hts heof h'
  have hproblems : s.syntaxProblems source = [.atToken eof .expectExpressionEnd] := by rw [syntaxProblems, hscan, hparse]; rfl
  rw [render, parse_eq, hproblems, List.isEmpty_cons, Bool.not_false, Bool.or_true]
  rfl

end Entries

theorem Reporter.diagnostics_endMark (r : Reporter) (source message : String) :
    (r.errorAtToken (endMark source) message).diagnostics =
      r.diagnostics.push ("[line " ++ toString (1 + (newlines source : Int)) ++ "] Error at end: " ++ message) := by
  simp [Reporter.errorAtToken, Reporter.report, Reporter.record, Reporter.write, endMark, String.append_assoc]

namespace Shell

section Shown
variable {argument : String} {ts : List Token} {eof : Token} {n m : Site} {e : Expr}

theorem toList_treeSource (argument : String) :
    (treeSource argument).toList = Text.trimEnd argument.toList ++
      if (Text.trimEnd argument.toList).getLast? = some ';' then [] else [';'] := by
  rw [treeSource]
  split <;> simp

/-- Behind an expression, a semicolon is the last token of the text of which the tree is shown, unless the text is without
    one and ends in a comment. -/
theorem scan_treeSource {semicolon : Option Token} (hscan : scan argument = (ts ++ semicolon.toList ++ [eof], []))
    (hsemicolon : ∀ t ∈ semicolon, t.kind = .semicolon) (he : Expression n ts e m) :
    (semicolon = none ∧ endsInComment argument = true →
      scan (treeSource argument) = (ts ++ [endMark (treeSource argument)], [])) ∧
    (semicolon.isSome = true ∨ endsInComment argument = false → ∃ t, t.kind = .semicolon ∧
      scan (treeSource argument) = (ts ++ [t] ++ [endMark (treeSource argument)], [])) := by
  have htext := toList_treeSource argument
  have hne : ts ++ semicolon.toList ≠ [] := by
    obtain ⟨t, us, rfl, -⟩ := he.begun
    simp
  cases hends : endsInComment argument with
  | true =>
    have hkept : scan (treeSource argument) = (ts ++ semicolon.toList ++ [endMark (treeSource argument)], []) := by
      refine scan_of_endsInComment hscan hne hends ?_
      split at htext
      · exact .inl (htext.trans (List.append_nil _))
      · exact .inr htext
    constructor
    · rintro ⟨rfl, -⟩
      rwa [Option.toList_none, List.append_nil] at hkept
    · rintro (hsome | hfalse)
      · obtain ⟨t, rfl⟩ := Option.isSome_iff_exists.mp hsome
        exact ⟨t, hsemicolon t rfl, hkept⟩
      · cases hfalse
  | false =>
    obtain ⟨⟨last, hlast, hsame⟩, hscans⟩ := scan_of_not_endsInComment hscan hne hends
    refine ⟨fun h => absurd h.2 Bool.false_ne_true, fun _ => ?_⟩
    cases semicolon with
    | some t =>
      rw [Option.toList_some, List.getLast?_concat, Option.some_inj] at hlast
      subst hlast
      have ht := hsemicolon t rfl
      rw [if_pos (hsame.mpr ht), List.append_nil] at htext
      exact ⟨t, ht, (hscans _).1 htext⟩
    | none =>
      rw [Option.toList_none, List.append_nil] at hlast hscans
      have hother : last.kind ≠ .semicolon := fun hkind =>
        he.semicolon_notMem (hkind ▸ List.mem_map_of_mem (List.mem_of_getLast? hlast))
      rw [if_neg (mt hsame.mp hother)] at htext
      exact ⟨_, rfl, (hscans _).2 htext⟩

theorem showTree_of_render {shell : Shell} {reporter : Reporter} {rendered : String}
    (h : shell.session.reset.render (treeSource argument) = ({ shell.session.reset with reporter }, rendered)) :
    shell.showTree argument = ({ shell with session := { shell.session with reporter } },
      if rendered.isEmpty then "" else rendered ++ "\n") := by
  rw [showTree, h]
  rfl

/-- What `ast` shows of an expression, with or without a semicolon behind it. Nothing but the reports change. The expression
    is shown in prefix form and nothing is reported, unless there is no semicolon and the text ends in a comment; then nothing
    is shown, and the missing semicolon is reported. -/
theorem showTree_expression (shell : Shell) {semicolon : Option Token}
    (hscan : scan argument = (ts ++ semicolon.toList ++ [eof], [])) (hsemicolon : ∀ t ∈ semicolon, t.kind = .semicolon)
    (he : Expression n ts e m) :
    ∃ reporter : Reporter, (shell.showTree argument).1 = { shell with session := { shell.session with reporter } } ∧
      (semicolon.isSome = true ∨ endsInComment argument = false →
        (shell.showTree argument).2 = e.prefixForm ++ "\n" ∧ reporter.exitStatus = 0 ∧
          reporter.diagnostics = shell.session.reporter.diagnostics ∧ reporter.written = shell.session.reporter.written) ∧
      (semicolon = none ∧ endsInComment argument = true →
        (shell.showTree argument).2 = "" ∧ reporter.exitStatus = Reporter.staticStatus ∧
          reporter.diagnostics = shell.session.reporter.diagnostics.push
            ("[line " ++ toString (1 + (newlines (treeSource argument) : Int)) ++ "] Error at end: " ++
              "Expect ';' after expression.")) := by
  obtain ⟨hcomment, hended⟩ := scan_treeSource hscan hsemicolon he
  by_cases hcase : semicolon = none ∧ endsInComment argument = true
  · rw [showTree_of_render (Session.render_unended (hcomment hcase) he)]
    refine ⟨_, rfl, fun hother => ?_, fun _ => ⟨rfl, rfl, Reporter.diagnostics_endMark _ _ _⟩⟩
    rw [hcase.1, hcase.2] at hother
    rcases hother with hsome | hfalse
    · cases hsome
    · cases hfalse
  · have hother : semicolon.isSome = true ∨ endsInComment argument = false := by
      cases semicolon <;> simp_all
    obtain ⟨t, ht, hscan'⟩ := hended hother
    rw [showTree_of_render (Session.render_statement rfl hscan' ht he)]
    refine ⟨_, rfl, fun _ => ⟨?_, rfl, rfl, rfl⟩, fun h => absurd h hcase⟩
    have hne : e.prefixForm ≠ "" := he.prefixForm_ne fun t ht => lexeme_ne_of_scan (by rw [hscan]; simp [ht])
    rw [String.isEmpty_eq_false_iff.mpr hne]
    rfl

end Shown

/-- A shell in which nothing has been typed in. -/
def untouched : Shell :=
  .start (.interactive ⟨3, fun _ => 0⟩ (.new false false) interactivePath)

/-- `greeting = "hi;"` with a comment inside and blanks at its end, and `a;` with a comment behind it. -/
theorem showTree_expression_greeting :
    (untouched.showTree "greeting = // ;\n\"hi;\" \t").2 = "(= greeting \"hi;\")\n" ∧
      (untouched.showTree "a; // c").2 = "a\n" := by
  constructor
  · obtain ⟨reporter, -, hshown, -⟩ := @showTree_expression "greeting = // ;\n\"hi;\" \t"
      [⟨.identifier, "greeting", .nil, 1⟩, ⟨.equal, "=", .nil, 1⟩, ⟨.string, "\"hi;\"", .text "hi;", 2⟩]
      ⟨.eof, "", .nil, 2⟩ 0 1 _ untouched none (by cbv) (by simp)
      (.assignVariable rfl rfl (Grammar.Derives.constant (.inr rfl)).expression)
    exact (hshown (.inr (by cbv))).1
  · obtain ⟨reporter, -, hshown, -⟩ := @showTree_expression "a; // c" [⟨.identifier, "a", .nil, 1⟩]
      ⟨.eof, "", .nil, 1⟩ 0 1 _ untouched (some ⟨.semicolon, ";", .nil, 1⟩) (by cbv) (by simp)
      (Grammar.Derives.name rfl).expression
    exact (hshown (.inl rfl)).1

/-- The tokens of `a // c` are an expression, and its tree is not shown: the semicolon that is put behind it is part of the
    comment. -/
theorem showTree_trailing_comment :
    scan "a // c" = ([⟨.identifier, "a", .nil, 1⟩] ++ [⟨.eof, "", .nil, 1⟩], []) ∧
      Expression 0 [⟨.identifier, "a", .nil, 1⟩] (.use 0 ⟨.identifier, "a", .nil, 1⟩) 1 ∧
      (untouched.showTree "a // c").2 = "" ∧
      (untouched.showTree "a // c").1.session.reporter.diagnostics =
        #["[line 1] Error at end: Expect ';' after expression."] := by
  have hexpression : Expression 0 [⟨.identifier, "a", .nil, 1⟩] (.use 0 ⟨.identifier, "a", .nil, 1⟩) 1 :=
    (Grammar.Derives.name rfl).expression
  have htext : treeSource "a // c" = "a // c;" := rfl
  have hscan : scan (treeSource "a // c") = ([⟨.identifier, "a", .nil, 1⟩] ++ [⟨.eof, "", .nil, 1⟩], []) := by
    rw [htext]
    cbv
  have hshow : untouched.showTree "a // c" = _ := showTree_of_render (Session.render_unended hscan hexpression)
  rw [hshow]
  exact ⟨by cbv, hexpression, rfl, rfl⟩

end Shell

end LoxLanguage
