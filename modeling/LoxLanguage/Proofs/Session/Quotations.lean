import Mathlib
import LoxLanguage.Proofs.Parser.Trees
import LoxLanguage.Proofs.Report.SourceLines
import LoxLanguage.Proofs.Session.Append
import LoxLanguage.Proofs.Session.Reports

/-! Quoted lines. A notice at a token quotes the line of the text that is being run which has the number of the token's
line. For static problems that is the text in which the token stands. An error of the program may be at a token of an
earlier text, and then the line that is quoted is not the one on which the token stands. -/

namespace LoxLanguage

open Grammar Relabelling

/-! ### Tokens of notices -/

theorem onLine_of_reported {pieces : List Piece} {problems : List Problem} (h : List.Forall₂ Piece.Reported pieces problems) :
    ∀ problem ∈ problems, ∃ line complaint, problem = .onLine line complaint := by
  induction h with
  | nil => exact fun _ h => absurd h List.not_mem_nil
  | cons hpiece _ ih =>
    refine List.forall_mem_cons.mpr ⟨?_, ih⟩
    cases hpiece with
    | stray => exact ⟨_, _, rfl⟩
    | unclosed => exact ⟨_, _, rfl⟩

/-- Scanning complains about lines, not about tokens. -/
theorem onLine_of_scan {source : String} : ∀ problem ∈ (scan source).2, ∃ line complaint, problem = .onLine line complaint := by
  obtain ⟨-, problems, -, hproblems, -, hreported⟩ := Scan.foldl_tiles (Piece.tiles_ofText source.toList) Scan.start
  rw [Array.foldl_toList] at hproblems
  rw [scan_eq]
  dsimp only
  rw [hproblems]
  exact onLine_of_reported hreported

/-- Resolution complains only at tokens of the program. -/
theorem mem_of_resolve_problems {ts : List Token} {program : List Stmt} (hspells : Spells ts program) {t : Token}
    {complaint : Complaint} (h : .atToken t complaint ∈ (resolve program).problems) : t ∈ ts := by
  by_contra hmem
  -- All other tokens are moved, and the problems are not.
  have hline : ∀ t ∈ ts, (if t ∈ ts then t.line else t.line + 1) = t.line := fun t ht => if_pos ht
  have hfixed := hspells.relabel_eq hline
  have hproblems := problems_relabel (ρ := ofLines fun t => if t ∈ ts then t.line else t.line + 1) program
  rw [hfixed] at hproblems
  obtain ⟨i, hi, hproblem⟩ := Array.mem_iff_getElem.mp h
  have hsame := congrArg (·[i]?) hproblems
  simp only [Array.getElem?_map, Array.getElem?_eq_getElem hi, hproblem, Option.map_some, Option.some.injEq,
    Relabelling.problem, Problem.atToken.injEq, and_true] at hsame
  have hmoved : t.line = if t ∈ ts then t.line else t.line + 1 := congrArg Token.line hsame
  rw [if_neg hmem] at hmoved
  omega

namespace Session

variable {texts : List String} {history : History} {s s' : Session} {source : String} {fuel : Nat}

theorem mem_of_syntaxProblems {t : Token} {complaint : Complaint} (h : .atToken t complaint ∈ s.syntaxProblems source) :
    t ∈ (scan source).1 := by
  rcases List.mem_append.mp h with h | h
  · obtain ⟨_, _, hline⟩ := onLine_of_scan _ h
    cases hline
  · exact mem_of_parse_problems h

/-- The token of every static problem of an entry stands in the entry. -/
theorem mem_of_problems {t : Token} {complaint : Complaint} (h : .atToken t complaint ∈ s.problems source) :
    t ∈ (scan source).1 := by
  unfold problems at h
  split at h
  · exact mem_of_syntaxProblems h
  · rename_i hquiet
    simp only [syntaxProblems, Bool.not_eq_true, Bool.or_eq_false_iff, Bool.not_eq_false', List.isEmpty_iff,
      List.append_eq_nil_iff] at hquiet
    obtain ⟨ts, eof, htokens, -, hts, hprogram⟩ := program_of_parsed hquiet.2.2
    have hmem := mem_of_resolve_problems ⟨fun t ht => (hts t ht).1, _, _, hprogram⟩ (Array.mem_toList_iff.mp h)
    rw [htokens]
    exact List.mem_append_left _ hmem

/-- The session has been given the texts, the first one first. -/
def Given (texts : List String) (s : Session) : Prop :=
  ∃ host reporter path runs, (start host reporter path).Runs runs s ∧ runs.map Prod.snd = texts

/-- The programs that have run come from the texts. -/
theorem Runs.reached {host : Host} {reporter : Reporter} {path : String} {runs : List (Nat × String)}
    (h : (start host reporter path).Runs runs s) :
    ∃ history, s.Reached history ∧ ∀ program ∈ history.map Prod.snd,
      ∃ ts, Spells ts program ∧ ∃ text ∈ runs.map Prod.snd, ∀ t ∈ ts, t ∈ (scan text).1 := by
  induction h with
  | none => exact ⟨[], .start host reporter path, nofun⟩
  | @run runs s h fuel source ih =>
    obtain ⟨history, hreached, hspelt⟩ := ih
    rw [List.map_append, List.map_singleton]
    have hearlier : ∀ program ∈ history.map Prod.snd,
        ∃ ts, Spells ts program ∧ ∃ text ∈ runs.map Prod.snd ++ [source], ∀ t ∈ ts, t ∈ (scan text).1 := by
      intro program hprogram
      obtain ⟨ts, hspells, text, htext, hmem⟩ := hspelt program hprogram
      exact ⟨ts, hspells, text, List.mem_append_left _ htext, hmem⟩
    rcases hrun : s.run fuel source with ⟨s', result⟩
    cases result with
    | rejected => exact ⟨history, hreached.rejected hrun, hearlier⟩
    | ran outcome =>
      obtain ⟨loaded, m, hload, -, -⟩ := load_of_run hrun
      obtain ⟨ts, hspells, hmem⟩ := (accepts_iff.mp (accepts_of_load hload)).2.spells s.nextSite
      have hspells : Spells ts (s.program source) := hspells
      have hlast : source ∈ runs.map Prod.snd ++ [source] := List.mem_append_right _ List.mem_cons_self
      exact ⟨_, hreached.ran hrun, List.forall_mem_cons.mpr ⟨⟨ts, hspells, source, hlast, hmem⟩, hearlier⟩⟩
  | reported h reporter ih =>
    obtain ⟨history, hreached, hspelt⟩ := ih
    exact ⟨history, hreached.reported reporter, hspelt⟩

theorem Given.reached (h : s.Given texts) :
    ∃ history, s.Reached history ∧ ∀ program ∈ history.map Prod.snd,
      ∃ ts, Spells ts program ∧ ∃ text ∈ texts, ∀ t ∈ ts, t ∈ (scan text).1 := by
  obtain ⟨_, _, _, _, hruns, rfl⟩ := h
  exact hruns.reached

/-- What is reported for an entry, in order: its static problems, or the error that has ended its run. -/
def notices (s : Session) (fuel : Nat) (source : String) : List Notice :=
  (s.problems source).map Problem.notice ++
    match (s.run fuel source).2 with
    | .ran (.failed (.runtime error)) => [error.notice]
    | _ => []

/-- The reference machine comes to the same end. -/
theorem Reached.outcome_of_run (h : s.Reached history) {outcome : Machine.Outcome} (hrun : s.run fuel source = (s', .ran outcome)) :
    Accepted source ∧ outcome = (runDown s.host history fuel (s.program source) 0).outcome ∧
      (outcome = .unfinished ∨ outcome = .completed ∨ ∃ error, outcome = .failed (.runtime error)) := by
  obtain ⟨loaded, m, hload, -, -⟩ := load_of_run hrun
  obtain ⟨hclear, haccepted⟩ := accepts_iff.mp (accepts_of_load hload)
  obtain ⟨s'', hrun', hshows⟩ := h.run_blankLines hclear haccepted fuel 0
  rw [blankLines_zero, hrun] at hrun'
  cases hrun'
  exact ⟨haccepted, rfl, hshows.ending⟩

/-- The error that ends an entry is at a token of the entry or of an earlier text. -/
theorem Given.mem_of_error (h : s.Given texts) {error : RuntimeError}
    (hrun : (s.run fuel source).2 = .ran (.failed (.runtime error))) :
    ∃ text ∈ source :: texts, error.token ∈ (scan text).1 := by
  obtain ⟨history, hreached, hspelt⟩ := h.reached
  rcases hresult : s.run fuel source with ⟨s', result⟩
  rw [hresult] at hrun
  cases hrun
  obtain ⟨haccepted, houtcome, -⟩ := hreached.outcome_of_run hresult
  obtain ⟨ts, hspells, hmem⟩ := haccepted.spells s.nextSite
  have hspells : Spells ts (s.program source) := hspells
  obtain ⟨earlier, hearlier, hfrom⟩ := exists_spellings hspelt
  rcases error_token_mem_runDown hspells hearlier houtcome.symm with herror | herror
  · obtain ⟨t, ht, htoken⟩ := List.mem_map.mp herror
    refine ⟨source, List.mem_cons_self, ?_⟩
    rw [← htoken, show (Relabelling.down 0).token t = t from token_of_line (Int.add_zero t.line)]
    exact hmem t ht
  · obtain ⟨us, hus, text, htext, hall⟩ := hfrom _ herror
    exact ⟨text, List.mem_cons_of_mem _ htext, hall _ hus⟩

theorem Reached.reporter_runGuarded (h : s.Reached history) :
    (s.runGuarded fuel source).1.reporter =
      (s.notices fuel source).foldl Reporter.notify (s.reporter.register s.path source) := by
  have hreporter := s.reporter_run fuel source
  rw [Reporter.problems_eq] at hreporter
  unfold runGuarded notices leave
  rcases hrun : s.run fuel source with ⟨s', result⟩
  rw [hrun] at hreporter
  rw [List.foldl_append, ← hreporter]
  cases result with
  | rejected => rfl
  | ran outcome =>
    obtain ⟨-, -, rfl | rfl | ⟨error, rfl⟩⟩ := h.outcome_of_run hrun
    · rfl
    · rfl
    · rfl

theorem reporter_render (s : Session) (source : String) :
    (s.render source).1.reporter =
      ((s.syntaxProblems source).map Problem.notice).foldl Reporter.notify (s.reporter.register s.path source) := by
  rw [← Reporter.problems_eq, render, parse_eq]
  split <;> rename_i heq <;> cases (Prod.mk.inj heq).1 <;> rfl

/-- How the notices on a text are written: in order, and with the line of the text that has the number of the token's line.
    The token of a static problem stands in the text itself, that of an error there or in an earlier one. -/
structure Quotes (texts : List String) (source : String) (s s' : Session) (notices : List Notice) : Prop where
  written : s'.reporter.written.toList =
    s.reporter.written.toList ++ notices.flatMap (Notice.written s.reporter.colour s.path (Text.lines source))
  own : ∀ notice ∈ notices, notice.isStatic = true → ∀ token, notice.token? = some token → token ∈ (scan source).1
  scanned : ∀ notice ∈ notices, ∀ token, notice.token? = some token → ∃ text ∈ source :: texts, token ∈ (scan text).1
  quoted : ∀ notice ∈ notices, ∀ token line, notice.token? = some token →
    Reporter.quotedLine? (Text.lines source) token = some line →
      1 ≤ token.line ∧ (Text.lines source)[(token.line - 1).toNat]? = some line ∧
      (NewlinesOnly source → (newlineLines source)[(token.line - 1).toNat]? = some line)

theorem Quotes.of_notify {notices : List Notice}
    (hreporter : s'.reporter = notices.foldl Reporter.notify (s.reporter.register s.path source))
    (hown : ∀ notice ∈ notices, notice.isStatic = true → ∀ token, notice.token? = some token → token ∈ (scan source).1)
    (hscanned : ∀ notice ∈ notices, ∀ token, notice.token? = some token →
      ∃ text ∈ source :: texts, token ∈ (scan text).1) :
    Quotes texts source s s' notices := by
  refine ⟨?_, hown, hscanned, fun notice _ token line _ hline => ?_⟩
  · rw [hreporter, Reporter.written_foldl_notify]
    rfl
  · obtain ⟨hpositive, hquoted⟩ := Reporter.quotedLine?_eq_some hline
    refine ⟨hpositive, hquoted, fun hnewlines => ?_⟩
    obtain ⟨rest, hrest⟩ := lines_prefix hnewlines
    rw [← hrest, List.getElem?_append_left (List.getElem?_eq_some_iff.mp hquoted).1, hquoted]

/-- A problem at a token of the text has a notice that can quote that token only. -/
theorem mem_of_token?_notice {problems : List Problem}
    (hproblems : ∀ t complaint, .atToken t complaint ∈ problems → t ∈ (scan source).1) :
    ∀ notice ∈ problems.map Problem.notice, ∀ token, notice.token? = some token → token ∈ (scan source).1 := by
  intro notice hmem token htoken
  obtain ⟨problem, hproblem, rfl⟩ := List.mem_map.mp hmem
  obtain ⟨complaint, rfl⟩ := Problem.eq_of_token?_notice htoken
  exact hproblems token complaint hproblem

theorem Given.quotes_run (h : s.Given texts) : Quotes texts source s (s.runGuarded fuel source).1 (s.notices fuel source) := by
  obtain ⟨history, hreached, -⟩ := h.reached
  have hproblems : ∀ notice ∈ (s.problems source).map Problem.notice, ∀ token, notice.token? = some token →
      token ∈ (scan source).1 := mem_of_token?_notice fun _ _ => mem_of_problems
  refine .of_notify hreached.reporter_runGuarded (fun notice hmem hstatic token htoken => ?_) fun notice hmem token htoken => ?_
  · rcases List.mem_append.mp hmem with hmem | hmem
    · exact hproblems notice hmem token htoken
    · split at hmem
      · cases List.mem_singleton.mp hmem
        cases hstatic
      · exact absurd hmem List.not_mem_nil
  · rcases List.mem_append.mp hmem with hmem | hmem
    · exact ⟨source, List.mem_cons_self, hproblems notice hmem token htoken⟩
    · split at hmem
      · rename_i error hrun
        cases List.mem_singleton.mp hmem
        cases htoken
        exact h.mem_of_error hrun
      · exact absurd hmem List.not_mem_nil

theorem quotes_render (s : Session) (texts : List String) (source : String) :
    Quotes texts source s (s.render source).1 ((s.syntaxProblems source).map Problem.notice) := by
  have hproblems : ∀ notice ∈ (s.syntaxProblems source).map Problem.notice, ∀ token, notice.token? = some token →
      token ∈ (scan source).1 := mem_of_token?_notice fun _ _ => mem_of_syntaxProblems
  refine .of_notify (s.reporter_render source) (fun notice hmem _ => hproblems notice hmem) fun notice hmem token htoken => ?_
  exact ⟨source, List.mem_cons_self, hproblems notice hmem token htoken⟩

end Session

/-- In every session, a line that is quoted for an entry or for a text whose trees are shown is one of that text. If only
    newlines end lines there, it is the line on which the token stands, unless the token is of an earlier text. -/
theorem quotes_running_text {texts : List String} {s : Session} (h : s.Given texts) (fuel : Nat) (source : String) :
    Session.Quotes texts source s (s.runGuarded fuel source).1 (s.notices fuel source) ∧
      Session.Quotes texts source s (s.render source).1 ((s.syntaxProblems source).map Problem.notice) :=
  ⟨h.quotes_run, s.quotes_render texts source⟩

/-- A function that negates what it is given. -/
def negates : String :=
  "fun f(x) \x7b return -x; \x7d"

/-- Calls it with a text in which the operator stands. -/
def negatesText : String :=
  "f(\"-\");"

def negating : Session :=
  ((Session.start ⟨3, fun _ => 0⟩ (.new false false) interactivePath).run 30 negates).1

/-- The operator of the error, which stands in the first text. -/
def negation : Token :=
  ⟨.minus, "-", .nil, 1⟩

theorem quotes_running_text_negates :
    negating.Given [negates] ∧ RuntimeError.notice ⟨.operandNotNumber, negation⟩ ∈ negating.notices 30 negatesText ∧
      Reporter.quotedLine? (Text.lines negatesText) negation = some negatesText ∧
      (∃ text ∈ [negatesText, negates], negation ∈ (scan text).1) ∧
      (newlineLines negatesText)[(negation.line - 1).toNat]? = some negatesText := by
  have hgiven : negating.Given [negates] := ⟨_, _, _, _, .run .none 30 negates, rfl⟩
  have hreport : RuntimeError.notice ⟨.operandNotNumber, negation⟩ ∈ negating.notices 30 negatesText := by decide +kernel
  have hquoted : Reporter.quotedLine? (Text.lines negatesText) negation = some negatesText := by decide +kernel
  have hnewlines : NewlinesOnly negatesText := by
    intro c hc hend
    have hnone : negatesText.toList.all (fun c => !Text.isLineEnd c) = true := by decide +kernel
    have hc := List.all_eq_true.mp hnone c hc
    rw [hend] at hc
    cases hc
  obtain ⟨hquotes, -⟩ := quotes_running_text hgiven 30 negatesText
  exact ⟨hgiven, hreport, hquoted, hquotes.scanned _ hreport _ rfl,
    (hquotes.quoted _ hreport _ _ rfl hquoted).2.2 hnewlines⟩

/-- A text with a form feed in its only line. -/
def formFeed : String :=
  "print \"-\x0c\"; -\"a\";"

/-- A line of the second text is quoted for a token that stands in the first only. Of a line with a form feed in it a part
    is quoted, and the token does not stand there. -/
theorem quotes_other_line :
    (RuntimeError.notice ⟨.operandNotNumber, negation⟩ ∈ negating.notices 30 negatesText ∧
      negation ∈ (scan negates).1 ∧ negation ∉ (scan negatesText).1 ∧
      Reporter.quotedLine? (Text.lines negatesText) negation = some negatesText ∧
      (newlineLines negates)[(negation.line - 1).toNat]? = some negates ∧ negates ≠ negatesText) ∧
    RuntimeError.notice ⟨.operandNotNumber, negation⟩ ∈
        (Session.start ⟨3, fun _ => 0⟩ (.new false false) interactivePath).notices 30 formFeed ∧
      Reporter.quotedLine? (Text.lines formFeed) negation = some "print \"-" ∧
      (newlineLines formFeed)[(negation.line - 1).toNat]? = some formFeed := by
  refine ⟨⟨?_, ?_, ?_, ?_, ?_, ?_⟩, ?_, ?_, ?_⟩ <;> decide +kernel

end LoxLanguage
