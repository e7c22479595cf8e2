import Mathlib
import LoxLanguage.Proofs.Lexical.Relabel
import LoxLanguage.Proofs.Lexical.Sequel
import LoxLanguage.Proofs.Scanner.Append
import LoxLanguage.Proofs.Session.Acceptance
import LoxLanguage.Proofs.Session.Safety

/-! Running in pieces. Two accepted texts with a newline between them are an accepted text, and running it is running the
one and then the other: the same lines are printed, the globals end up the same, and an error is the same one.

Whether the line of an error moves depends on which text its token stands in, and two tokens of different texts may look
the same. So the second text is run once on lines so far down that no token of an earlier text has them; the
lines of any other run come from that one (`exists_owner`). -/

namespace LoxLanguage

open Grammar Relabelling

/-! ### Programs and their tokens -/

/-- A row of tokens that is derived as a program. -/
def Spells (ts : List Token) (program : List Stmt) : Prop :=
  (∀ t ∈ ts, t.kind ≠ .eof) ∧ ∃ first next, Program first ts program next

/-- The token stands in one of the programs, however that is written. -/
def Token.Among (t : Token) (programs : List (List Stmt)) : Prop :=
  ∃ program ∈ programs, ∀ ts, Spells ts program → t ∈ ts

theorem Grammar.Program.unique {first next next' : Site} {ts : List Token} {body body' : List Stmt}
    (hts : ∀ t ∈ ts, t.kind ≠ .eof) (h : Program first ts body next) (h' : Program first ts body' next') : body = body' := by
  have hparse := @parse_of_program _ _ _ ⟨.eof, "", .nil, 0⟩ _ hts rfl h
  have hparse' := @parse_of_program _ _ _ ⟨.eof, "", .nil, 0⟩ _ hts rfl h'
  rw [hparse] at hparse'
  exact (Parsed.mk.inj hparse').1

theorem Grammar.Program.down {first next : Site} {ts : List Token} {body : List Stmt} (h : Program first ts body next)
    (lines : Nat) :
    Program first (ts.map (Relabelling.down lines).token) (body.map (Stmt.relabel (.down lines))) next :=
  (h.relabel (ofLines_runsFrom (fun t => t.line + lines) first)).2

theorem token_of_line {line : Token → Int} {t : Token} {l : Int} (h : line t = l) :
    (ofLines line).token t = { t with line := l } :=
  congrArg (fun l => ({ t with line := l } : Token)) h

namespace Spells

variable {ts : List Token} {program : List Stmt}

theorem relabel (h : Spells ts program) (line : Token → Int) :
    Spells (ts.map (ofLines line).token) (program.map (Stmt.relabel (ofLines line))) := by
  obtain ⟨hts, first, next, hprogram⟩ := h
  refine ⟨fun t ht => ?_, first, next, (hprogram.relabel (ofLines_runsFrom line first)).2⟩
  obtain ⟨u, hu, rfl⟩ := List.mem_map.mp ht
  exact hts u hu

/-- Lines may be changed one after the other or at once. -/
theorem relabel_relabel (h : Spells ts program) {line line' line'' : Token → Int}
    (hlines : ∀ t ∈ ts, line' ((ofLines line).token t) = line'' t) :
    (program.map (Stmt.relabel (ofLines line))).map (Stmt.relabel (ofLines line')) =
      program.map (Stmt.relabel (ofLines line'')) := by
  obtain ⟨hts, first, next, hprogram⟩ := h
  have honce := (hprogram.relabel (ofLines_runsFrom line'' first)).2
  have htwice := ((hprogram.relabel (ofLines_runsFrom line first)).2.relabel (ofLines_runsFrom line' first)).2
  have hsame : (ts.map (ofLines line).token).map (ofLines line').token = ts.map (ofLines line'').token := by
    rw [List.map_map]
    exact List.map_congr_left fun t ht => token_of_line (hlines t ht)
  rw [hsame] at htwice
  refine Program.unique (fun t ht => ?_) htwice honce
  obtain ⟨u, hu, rfl⟩ := List.mem_map.mp ht
  exact hts u hu

/-- A program stays as it is when its tokens keep their lines. -/
theorem relabel_eq (h : Spells ts program) {line : Token → Int} (hlines : ∀ t ∈ ts, line t = t.line) :
    program.map (Stmt.relabel (ofLines line)) = program := by
  obtain ⟨hts, first, next, hprogram⟩ := h
  have hrelabelled := (hprogram.relabel (ofLines_runsFrom line first)).2
  have hsame : ts.map (ofLines line).token = ts := by
    nth_rewrite 2 [← List.map_id ts]
    exact List.map_congr_left fun t ht => token_of_line (hlines t ht)
  rw [hsame] at hrelabelled
  exact Program.unique hts hrelabelled hprogram

end Spells

/-! ### Where an error arises -/

namespace Lexical

theorem State.relabel_after {ρ : Relabelling} (host : Host) {history : History}
    (h : ∀ program ∈ history.map Prod.snd, program.map (Stmt.relabel ρ) = program) :
    (State.after host history).relabel ρ = State.after host history := by
  induction history with
  | nil => simp [after, initial, relabel]
  | cons entry earlier ih =>
    obtain ⟨fuel, program⟩ := entry
    obtain ⟨hprogram, hearlier⟩ := List.forall_mem_cons.mp h
    have hrun := Machine.relabel_run ρ host fuel (.ofProgram program (State.after host earlier))
    rw [Machine.relabel_ofProgram, hprogram, ih hearlier] at hrun
    have hstate := congrArg Machine.rest hrun
    exact hstate.symm

theorem State.between (host : Host) (history : History) :
    (State.after host history).environment = .top ∧ (State.after host history).depth = 0 := by
  cases history <;> exact ⟨rfl, rfl⟩

/-- The token of an error is one of those on whose lines the machine depends. -/
theorem Machine.error_token_mem {host : Host} {m : Machine} {ts : List Token}
    (hfix : ∀ line : Token → Int, (∀ t ∈ ts, line t = t.line) → m.relabel (ofLines line) = m) {fuel : Nat}
    {error : RuntimeError} (h : (m.run host fuel).outcome = .failed (.runtime error)) : error.token ∈ ts := by
  by_contra hmem
  -- All other tokens are moved, and the error is not.
  have hline : ∀ t ∈ ts, (if t ∈ ts then t.line else t.line + 1) = t.line := fun t ht => if_pos ht
  have hrun := relabel_run (ofLines fun t => if t ∈ ts then t.line else t.line + 1) host fuel m
  rw [hfix _ hline] at hrun
  have houtcome := congrArg outcome hrun
  rw [relabel_outcome, h] at houtcome
  simp only [Relabelling.outcome, Relabelling.fault, LoxLanguage.Machine.Outcome.failed.injEq,
    Fault.runtime.injEq] at houtcome
  have hmoved : error.token.line = if error.token ∈ ts then error.token.line else error.token.line + 1 :=
    congrArg (fun e : RuntimeError => e.token.line) houtcome
  rw [if_neg hmem] at hmoved
  omega

end Lexical

/-- The same outcome, an error a number of lines further down. -/
def Machine.Outcome.down (lines : Nat) (outcome : Machine.Outcome) : Machine.Outcome :=
  (Relabelling.down lines).outcome outcome

theorem Machine.Outcome.down_zero (outcome : Machine.Outcome) : outcome.down 0 = outcome := by
  cases outcome with
  | failed fault =>
    cases fault <;>
      simp [down, Relabelling.outcome, Relabelling.fault, Relabelling.token, Relabelling.down, ofLines]
  | _ => rfl

/-- Lines behind the first `far` are brought back, up to some lines. -/
def nearer (far lines : Nat) (t : Token) : Int :=
  if (far : Int) < t.line then t.line - far + lines else t.line

theorem exists_far (ts : List Token) : ∃ far : Nat, ∀ t ∈ ts, t.line ≤ far := by
  induction ts with
  | nil => exact ⟨0, fun t ht => absurd ht List.not_mem_nil⟩
  | cons t rest ih =>
    obtain ⟨far, hfar⟩ := ih
    refine ⟨max far t.line.toNat, List.forall_mem_cons.mpr ⟨by omega, fun u hu => ?_⟩⟩
    have hu := hfar u hu
    omega

theorem Spells.relabel_down_zero {ts : List Token} {program : List Stmt} (h : Spells ts program) :
    program.map (Stmt.relabel (.down 0)) = program :=
  h.relabel_eq fun t _ => Int.add_zero t.line

theorem Spells.nearer {ts : List Token} {program : List Stmt} (h : Spells ts program) (hlines : ∀ t ∈ ts, 1 ≤ t.line)
    (far lines : Nat) :
    (program.map (Stmt.relabel (.down far))).map (Stmt.relabel (ofLines (nearer far lines))) =
      program.map (Stmt.relabel (.down lines)) := by
  refine h.relabel_relabel fun t ht => ?_
  have hline := hlines t ht
  show (if (far : Int) < t.line + far then t.line + far - far + lines else _) = t.line + lines
  rw [if_pos (by omega)]
  omega

section Owner
variable {history : History} {ts : List Token} {second : List Stmt}

/-- A program run behind others, its text a number of lines further down. -/
def runDown (host : Host) (history : History) (fuel : Nat) (second : List Stmt) (lines : Nat) : Lexical.Machine :=
  (Lexical.Machine.ofProgram (second.map (Stmt.relabel (.down lines))) (.after host history)).run host fuel

theorem exists_spellings {programs : List (List Stmt)} {P : List Token → Prop}
    (h : ∀ program ∈ programs, ∃ us, Spells us program ∧ P us) :
    ∃ earlier : List Token, (∀ program ∈ programs, ∃ us, Spells us program ∧ ∀ u ∈ us, u ∈ earlier) ∧
      ∀ t ∈ earlier, ∃ us, t ∈ us ∧ P us := by
  choose! spelling hspells hP using h
  refine ⟨programs.flatMap spelling, fun program hprogram => ?_, fun t ht => ?_⟩
  · exact ⟨spelling program, hspells program hprogram, fun u hu => List.mem_flatMap.mpr ⟨program, hprogram, hu⟩⟩
  · obtain ⟨program, hprogram, hmem⟩ := List.mem_flatMap.mp ht
    exact ⟨spelling program, hmem, hP program hprogram⟩

/-- Far enough down, no token of an earlier program has a line of the program that is run, and the run there tells what
    every other run is like. -/
theorem exists_runDown (hspelt : ∀ program ∈ history.map Prod.snd, ∃ us, Spells us program) (hsecond : Spells ts second)
    (hlines : ∀ t ∈ ts, 1 ≤ t.line) (host : Host) (fuel : Nat) :
    ∃ (far : Nat) (earlier : List Token), (∀ t ∈ earlier, t.line ≤ far) ∧
      (∀ program ∈ history.map Prod.snd, ∃ us, Spells us program ∧ ∀ u ∈ us, u ∈ earlier) ∧
      ∀ lines, runDown host history fuel second lines =
        (runDown host history fuel second far).relabel (ofLines (nearer far lines)) := by
  obtain ⟨earlier, hearlier, -⟩ := exists_spellings (P := fun _ => True) fun program hprogram =>
    (hspelt program hprogram).imp fun _ h => ⟨h, trivial⟩
  obtain ⟨far, hfar⟩ := exists_far earlier
  refine ⟨far, earlier, hfar, hearlier, fun lines => ?_⟩
  have hstate : (Lexical.State.after host history).relabel (ofLines (nearer far lines)) = .after host history := by
    refine Lexical.State.relabel_after host fun program hprogram => ?_
    obtain ⟨us, hus, hmem⟩ := hearlier program hprogram
    exact hus.relabel_eq fun u hu => if_neg (Int.not_lt.mpr (hfar u (hmem u hu)))
  rw [runDown, runDown, ← Lexical.Machine.relabel_run, Lexical.Machine.relabel_ofProgram, hstate,
    hsecond.nearer hlines]

/-- The lines of a program change nothing in what it prints and what it leaves behind. -/
theorem runDown_state (hspelt : ∀ program ∈ history.map Prod.snd, ∃ us, Spells us program) (hsecond : Spells ts second)
    (hlines : ∀ t ∈ ts, 1 ≤ t.line) (host : Host) (fuel lines : Nat) :
    (runDown host history fuel second lines).state.printed = (runDown host history fuel second 0).state.printed ∧
      (runDown host history fuel second lines).state.globalTexts =
        (runDown host history fuel second 0).state.globalTexts := by
  obtain ⟨far, -, -, -, hnearer⟩ := exists_runDown hspelt hsecond hlines host fuel
  simp only [hnearer lines, hnearer 0, Lexical.Machine.relabel_state, Lexical.State.relabel_printed,
    Lexical.State.relabel_globalTexts, and_self]

/-- The token of an error stands in the program that was run or in an earlier one. -/
theorem error_token_mem_runDown {far : Nat} (hsecond : Spells ts second) {earlier : List Token}
    (hearlier : ∀ program ∈ history.map Prod.snd, ∃ us, Spells us program ∧ ∀ u ∈ us, u ∈ earlier) {host : Host} {fuel : Nat}
    {error : RuntimeError} (h : (runDown host history fuel second far).outcome = .failed (.runtime error)) :
    error.token ∈ ts.map (Relabelling.down far).token ∨ error.token ∈ earlier := by
  refine List.mem_append.mp (Lexical.Machine.error_token_mem (fun line hline => ?_) h)
  have hstate : (Lexical.State.after host history).relabel (ofLines line) = .after host history := by
    refine Lexical.State.relabel_after host fun program hprogram => ?_
    obtain ⟨us, hus, hmem⟩ := hearlier program hprogram
    exact hus.relabel_eq fun u hu => hline u (List.mem_append_right _ (hmem u hu))
  have hprogram := (hsecond.relabel fun t => t.line + far).relabel_eq fun t ht => hline t (List.mem_append_left _ ht)
  rw [Lexical.Machine.relabel_ofProgram, hstate]
  exact congrArg (Lexical.Machine.ofProgram · _) hprogram

theorem token_nearer_of_le {far : Nat} {t : Token} (h : ¬ (far : Int) < t.line) (lines : Nat) :
    (ofLines (nearer far lines)).token t = t :=
  token_of_line (if_neg h)

theorem token_nearer_of_lt {far : Nat} {t : Token} (h : (far : Int) < t.line) (lines : Nat) :
    (ofLines (nearer far lines)).token t = (Relabelling.down lines).token ((ofLines (nearer far 0)).token t) := by
  have hline : ∀ lines : Nat, nearer far lines t = t.line - far + lines := fun _ => if_pos h
  simp [Relabelling.token, Relabelling.down, ofLines, hline]

theorem token_nearer_down {far : Nat} {u : Token} (h : (far : Int) < ((Relabelling.down far).token u).line) :
    (ofLines (nearer far 0)).token ((Relabelling.down far).token u) = u := by
  have hline : nearer far 0 ((Relabelling.down far).token u) = u.line := by
    rw [nearer, if_pos h]
    show u.line + far - far + (0 : Nat) = u.line
    omega
  exact token_of_line hline

theorem outcome_eq_of_no_error {outcome : Machine.Outcome} (h : ¬ ∃ error, outcome = .failed (.runtime error))
    (ρ : Relabelling) : ρ.outcome outcome = outcome := by
  cases outcome with
  | failed fault =>
    cases fault with
    | runtime error => exact absurd ⟨error, rfl⟩ h
    | strayed missing => rfl
  | _ => rfl

/-- An error belongs to the program that was run, and its line moves with the text; or it belongs to an earlier program,
    and its line stays. -/
theorem exists_owner (hspelt : ∀ program ∈ history.map Prod.snd, ∃ us, Spells us program) (hsecond : Spells ts second)
    (hlines : ∀ t ∈ ts, 1 ≤ t.line) (host : Host) (fuel : Nat) :
    ∃ own : Bool,
      (∀ lines, (runDown host history fuel second lines).outcome =
        (runDown host history fuel second 0).outcome.down (if own then lines else 0)) ∧
      ∀ error, (runDown host history fuel second 0).outcome = .failed (.runtime error) →
        error.token.Among (if own then [second] else history.map Prod.snd) := by
  obtain ⟨far, earlier, hfar, hearlier, hnearer⟩ := exists_runDown hspelt hsecond hlines host fuel
  have houtcome : ∀ lines, (runDown host history fuel second lines).outcome =
      (ofLines (nearer far lines)).outcome (runDown host history fuel second far).outcome := fun lines => by
    rw [hnearer lines, Lexical.Machine.relabel_outcome]
  by_cases hfails : ∃ error, (runDown host history fuel second far).outcome = .failed (.runtime error)
  · obtain ⟨⟨cause, t⟩, hresult⟩ := hfails
    rw [hresult] at houtcome
    by_cases hown : (far : Int) < t.line
    · refine ⟨true, fun lines => ?_, fun error herror => ⟨second, List.mem_singleton_self _, fun us hus => ?_⟩⟩
      · rw [houtcome lines, houtcome 0, Relabelling.outcome, Relabelling.fault, token_nearer_of_lt hown]
        rfl
      · rw [houtcome 0] at herror
        cases herror
        rcases error_token_mem_runDown hus hearlier hresult with hmem | hmem
        · obtain ⟨u, hu, rfl⟩ := List.mem_map.mp hmem
          rwa [token_nearer_down hown]
        · exact absurd (hfar t hmem) (Int.not_le.mpr hown)
    · refine ⟨false, fun lines => ?_, fun error herror => ?_⟩
      · rw [houtcome lines, houtcome 0, Relabelling.outcome, Relabelling.fault, token_nearer_of_le hown,
          Relabelling.outcome, Relabelling.fault, token_nearer_of_le hown]
        exact (Machine.Outcome.down_zero _).symm
      · rw [houtcome 0, Relabelling.outcome, Relabelling.fault, token_nearer_of_le hown] at herror
        cases herror
        by_contra hamong
        -- Spellings of the earlier programs without the token would leave it nowhere to stand.
        have hwithout : ∀ program ∈ history.map Prod.snd, ∃ us, Spells us program ∧ t ∉ us := by
          intro program hprogram
          by_contra hall
          exact hamong ⟨program, hprogram, fun us hus => not_not.mp fun hmem => hall ⟨us, hus, hmem⟩⟩
        obtain ⟨others, hothers, hnone⟩ := exists_spellings hwithout
        rcases error_token_mem_runDown hsecond hothers hresult with hmem | hmem
        · obtain ⟨u, hu, rfl⟩ := List.mem_map.mp hmem
          have hline := hlines u hu
          exact hown (show (far : Int) < u.line + far by omega)
        · obtain ⟨us, hmem, hnot⟩ := hnone t hmem
          exact hnot hmem
  · have hsame : ∀ lines, (runDown host history fuel second lines).outcome = (runDown host history fuel second far).outcome :=
      fun lines => (houtcome lines).trans (outcome_eq_of_no_error hfails _)
    refine ⟨false, fun lines => ?_, fun error herror => absurd ⟨error, (hsame 0).symm.trans herror⟩ hfails⟩
    rw [hsame lines, hsame 0]
    exact (outcome_eq_of_no_error hfails _).symm

/-- A program behind one that completes runs as it does after it. -/
theorem exists_steps_runDown {host : Host} {first : List Stmt} {fuel₁ : Nat}
    (h : ((Lexical.Machine.ofProgram first (.after host history)).run host fuel₁).outcome = .completed) (lines : Nat) :
    ∃ steps, ∀ fuel,
      let m := (Lexical.Machine.ofProgram (first ++ second.map (Stmt.relabel (.down lines))) (.after host history)).run host
        (steps + fuel)
      m.outcome = (runDown host ((fuel₁, first) :: history) fuel second lines).outcome ∧
        m.state = (runDown host ((fuel₁, first) :: history) fuel second lines).state := by
  obtain ⟨henvironment, hdepth⟩ := Lexical.State.between host history
  exact Lexical.Machine.run_sequel henvironment hdepth h _

end Owner

/-! ### Texts one behind the other -/

section Texts
variable {first second : String}

/-- The tree of two texts is that of the first and, further down, that of the second, its uses numbered on. -/
theorem Accepted.parse_append (hfirst : Accepted first) (hsecond : Accepted second) (start : Site) :
    parse start (scan (first ++ "\n" ++ second)).1 =
      let behind := parse (parse start (scan first).1).nextSite (scan second).1
      ⟨(parse start (scan first).1).statements ++ behind.statements.map (Stmt.relabel (.down (newlines first + 1))),
        behind.nextSite, []⟩ := by
  dsimp only
  obtain ⟨body, eof, htokens, -, hbody, hprogram⟩ := program_of_parsed (hfirst.elsewhere start).1
  obtain ⟨body', eof', htokens', heof', hbody', hprogram'⟩ := program_of_parsed
    (hsecond.elsewhere (parse start (scan first).1).nextSite).1
  have hmoved := hprogram'.down (newlines first + 1)
  have hall : (scan (first ++ "\n" ++ second)).1 = (body ++ body'.map (Relabelling.down (newlines first + 1)).token) ++
      [(Relabelling.down (newlines first + 1)).token eof'] := by
    rw [scan_newline hfirst.scanned, htokens, htokens', List.dropLast_concat, List.map_append, List.append_assoc]
    rfl
  rw [hall]
  refine parse_of_program (fun t ht => ?_) heof' (hprogram.append hmoved)
  rcases List.mem_append.mp ht with ht | ht
  · exact (hbody t ht).1
  · obtain ⟨u, hu, rfl⟩ := List.mem_map.mp ht
    exact (hbody' u hu).1

theorem Accepted.append (hfirst : Accepted first) (hsecond : Accepted second) : Accepted (first ++ "\n" ++ second) := by
  have hparse := hfirst.parse_append hsecond 0
  obtain ⟨body, -, -, -, hbody, hprogram⟩ := program_of_parsed hfirst.parsed
  have horderly := hprogram.orderly (fun t ht => (hbody t ht).2) .start
  refine ⟨?_, ?_, ?_⟩
  · rw [scan_newline hfirst.scanned, hsecond.scanned]
    rfl
  · rw [hparse]
  · rw [hparse]
    dsimp only
    rw [problems_append horderly hfirst.resolved, (hsecond.elsewhere _).2]
    simp

/-- The tokens of an accepted text, in front of the end mark, spell its tree. -/
theorem Accepted.spells {source : String} (h : Accepted source) (start : Site) :
    ∃ ts, Spells ts (parse start (scan source).1).statements ∧ ∀ t ∈ ts, t ∈ (scan source).1 := by
  obtain ⟨ts, eof, htokens, -, hts, hprogram⟩ := program_of_parsed (h.elsewhere start).1
  refine ⟨ts, ⟨fun t ht => (hts t ht).1, _, _, hprogram⟩, fun t ht => ?_⟩
  rw [htokens]
  exact List.mem_append_left _ ht

/-- A text of empty lines. -/
def blankLines (lines : Nat) : String :=
  String.ofList (List.replicate lines '\n')

theorem blankLines_zero (source : String) : blankLines 0 ++ source = source :=
  String.empty_append

theorem blankLines_succ (lines : Nat) (source : String) :
    blankLines (lines + 1) ++ source = blankLines lines ++ "\n" ++ source := by
  apply String.toList_injective
  simp [blankLines, List.replicate_succ']

theorem scan_blankLines (lines : Nat) : scan (blankLines lines) = ([⟨.eof, "", .nil, lines + 1⟩], []) := by
  induction lines with
  | zero => rfl
  | succ lines ih =>
    have hcount : newlines (blankLines lines) = lines := by simp [newlines, blankLines]
    have hempty : scan "" = ([⟨.eof, "", .nil, 1⟩], []) := rfl
    rw [← String.append_empty (s := blankLines (lines + 1)), blankLines_succ, scan_newline (by rw [ih]), ih, hcount,
      hempty]
    simp [Relabelling.token, Relabelling.down, ofLines]
    omega

/-- Empty lines in front of a text move it down. -/
theorem Accepted.parse_blankLines {source : String} (h : Accepted source) (lines : Nat) (start : Site) :
    Accepted (blankLines lines ++ source) ∧ (parse start (scan (blankLines lines ++ source)).1).statements =
      (parse start (scan source).1).statements.map (Stmt.relabel (.down lines)) := by
  cases lines with
  | zero =>
    obtain ⟨ts, hspells, -⟩ := h.spells start
    rw [blankLines_zero, hspells.relabel_down_zero]
    exact ⟨h, rfl⟩
  | succ lines =>
    have hparse : ∀ start, parse start (scan (blankLines lines)).1 = ⟨[], start, []⟩ := fun start => by
      rw [scan_blankLines, ← List.nil_append [_]]
      exact parse_of_program (fun t ht => absurd ht List.not_mem_nil) rfl .none
    have hblank : Accepted (blankLines lines) := by
      refine ⟨by rw [scan_blankLines], by rw [hparse], ?_⟩
      rw [hparse]
      rfl
    have hcount : newlines (blankLines lines) = lines := by simp [newlines, blankLines]
    rw [blankLines_succ]
    refine ⟨hblank.append h, ?_⟩
    rw [hblank.parse_append h, hparse, hcount]
    exact List.nil_append _

end Texts

/-! ### Sessions -/

theorem Machine.globalTexts_rest (m : Machine) : m.rest.globalTexts = m.state.globalTexts := by
  unfold State.globalTexts
  rfl

namespace Session

variable {history : History} {s s' : Session} {source : String}

theorem Reached.spelt (h : s.Reached history) : ∀ program ∈ history.map Prod.snd, ∃ ts, Spells ts program := by
  induction h with
  | start => nofun
  | ran _ hrun ih =>
    obtain ⟨loaded, m, hload, -, -⟩ := load_of_run hrun
    obtain ⟨ts, hspells, -⟩ := (accepts_iff.mp (accepts_of_load hload)).2.spells _
    exact List.forall_mem_cons.mpr ⟨⟨ts, hspells⟩, ih⟩
  | rejected _ _ ih => exact ih
  | reported _ _ ih => exact ih

/-- A session after a run that the reference machine has made too. -/
structure Shows (s' : Session) (m : Lexical.Machine) : Prop where
  printed : s'.state.printed = m.state.printed
  globalTexts : s'.state.globalTexts = m.state.globalTexts
  ending : m.outcome = .unfinished ∨ m.outcome = .completed ∨ ∃ error, m.outcome = .failed (.runtime error)

/-- An accepted entry runs as it does on the reference machine. -/
theorem Reached.run_accepted (h : s.Reached history) (hclear : s.reporter.hadError = false) (haccepted : Accepted source)
    (fuel : Nat) :
    ∃ s', s.run fuel source =
        (s', .ran ((Lexical.Machine.ofProgram (s.program source) (.after s.host history)).run s.host fuel).outcome) ∧
      s'.Shows ((Lexical.Machine.ofProgram (s.program source) (.after s.host history)).run s.host fuel) ∧
      s'.reporter.hadError = false ∧ s'.host = s.host ∧
      s'.nextSite = (LoxLanguage.parse s.nextSite (scan source).1).nextSite := by
  have haccepts := accepts_iff.mpr ⟨hclear, haccepted⟩
  obtain ⟨loaded, machine, hload⟩ := load_of_accepts haccepts
  have hloaded := (Prod.mk.inj (hload.symm.trans (load_eq_of_accepts haccepts))).1
  have hruns := h.together.runs (loads_of_load hload) fuel
  obtain ⟨homes, hmatch⟩ := hruns.matching
  refine ⟨(loaded.finish (machine.run loaded.setting fuel)).1, ?_,
    ⟨hmatch.printed.symm, (Machine.globalTexts_rest _).trans hmatch.globalTexts.symm, ?_⟩, ?_, ?_, ?_⟩
  · rw [run_of_load hload, hruns.outcome]
    rfl
  · rw [hruns.outcome]
    exact hruns.outcome_ordinary.imp_right (Or.imp_right fun ⟨error, herror, _⟩ => ⟨error, herror⟩)
  · have hreporter := congrArg (fun s : Session => s.reporter.hadError) hloaded
    exact hreporter.trans hclear
  · have hhost := congrArg Session.host hloaded
    exact hhost
  · have hsite := congrArg Session.nextSite hloaded
    exact hsite

theorem Reached.run_blankLines (h : s.Reached history) (hclear : s.reporter.hadError = false) (haccepted : Accepted source)
    (fuel lines : Nat) :
    ∃ s', s.run fuel (blankLines lines ++ source) =
        (s', .ran (runDown s.host history fuel (s.program source) lines).outcome) ∧
      s'.Shows (runDown s.host history fuel (s.program source) lines) := by
  obtain ⟨hblank, hstatements⟩ := haccepted.parse_blankLines lines s.nextSite
  obtain ⟨s', hrun, hshows, -⟩ := h.run_accepted hclear hblank fuel
  unfold program at hrun hshows
  rw [hstatements] at hrun hshows
  exact ⟨s', hrun, hshows⟩

/-- Whose text the error of an entry stands in: its own, and then the error moves down with the text, or that of an earlier
    program. -/
structure Locates (s : Session) (fuel : Nat) (source : String) (earlier : List (List Stmt)) (outcome : Machine.Outcome)
    (own : Bool) : Prop where
  moves : ∀ lines, ∃ s', s.run fuel (blankLines lines ++ source) = (s', .ran (outcome.down (if own then lines else 0)))
  among : ∀ error, outcome = .failed (.runtime error) → error.token.Among (if own then [s.program source] else earlier)

end Session

/-- An entry that consists of two texts is worth the two entries. An error of the second is found further down, by the lines
    of the first, if it stands in the second text, and on its own line if it stands in the first or an earlier one. -/
theorem run_append {history : History} {s : Session} (h : s.Reached history) (hclear : s.reporter.hadError = false)
    {first second : String} (hfirst : Accepted first) (hsecond : Accepted second) :
    Accepted (first ++ "\n" ++ second) ∧
      ∀ {fuel₁ s₁}, s.run fuel₁ first = (s₁, .ran .completed) → ∃ steps, ∀ fuel, ∃ outcome own s₂ s₃,
        s₁.run fuel second = (s₂, .ran outcome) ∧
        s.run (steps + fuel) (first ++ "\n" ++ second) =
          (s₃, .ran (outcome.down (if own then newlines first + 1 else 0))) ∧
        (outcome = .unfinished ∨ outcome = .completed ∨ ∃ error, outcome = .failed (.runtime error)) ∧
        s₃.state.printed = s₂.state.printed ∧ s₃.state.globalTexts = s₂.state.globalTexts ∧
        s₁.Locates fuel second (s.program first :: history.map Prod.snd) outcome own := by
  have happend := hfirst.append hsecond
  refine ⟨happend, fun {fuel₁ s₁} hrun => ?_⟩
  have hreached := h.ran hrun
  obtain ⟨s₁', hrun₁, -, hclear₁, hhost, hsite⟩ := h.run_accepted hclear hfirst fuel₁
  obtain ⟨rfl, hresult⟩ := Prod.mk.inj (hrun.symm.trans hrun₁)
  have hcompleted := (RunResult.ran.inj hresult).symm
  have hprogram : s.program (first ++ "\n" ++ second) =
      s.program first ++ (s₁.program second).map (Stmt.relabel (.down (newlines first + 1))) := by
    unfold Session.program
    rw [hfirst.parse_append hsecond, hsite]
  obtain ⟨steps, hsteps⟩ := exists_steps_runDown hcompleted (newlines first + 1)
  refine ⟨steps, fun fuel => ?_⟩
  obtain ⟨ts, hspells, hmem⟩ := hsecond.spells s₁.nextSite
  have hspells : Spells ts (s₁.program second) := hspells
  have hlines : ∀ t ∈ ts, 1 ≤ t.line := fun t ht => one_le_line (hmem t ht)
  obtain ⟨own, hmoves, hamong⟩ := exists_owner hreached.spelt hspells hlines s.host fuel
  obtain ⟨hprinted, hglobals⟩ := runDown_state hreached.spelt hspells hlines s.host fuel (newlines first + 1)
  have hblank := fun lines => hreached.run_blankLines hclear₁ hsecond fuel lines
  rw [hhost] at hblank
  obtain ⟨s₂, hrun₂, hshows₂⟩ := hblank 0
  rw [blankLines_zero] at hrun₂
  obtain ⟨s₃, hrun₃, hshows₃, -⟩ := h.run_accepted hclear happend (steps + fuel)
  rw [hprogram] at hrun₃ hshows₃
  refine ⟨_, own, s₂, s₃, hrun₂, ?_, hshows₂.ending, ?_, ?_, fun lines => ?_, hamong⟩
  · rw [hrun₃, (hsteps fuel).1, hmoves]
  · rw [hshows₃.printed, (hsteps fuel).2, hprinted, hshows₂.printed]
  · rw [hshows₃.globalTexts, (hsteps fuel).2, hglobals, hshows₂.globalTexts]
  · obtain ⟨s', hrun', -⟩ := hblank lines
    rw [hmoves] at hrun'
    exact ⟨s', hrun'⟩

/-- A function of three lines. -/
def greeting : String :=
  "fun greet(name) \x7b\n  return \"Hi \" + name;\n\x7d"

/-- Calls the function, and then calls it wrongly on the second line. -/
def greets : String :=
  "print greet(\"you\");\ngreet();"

def greeted : Session :=
  ((Session.start ⟨3, fun _ => 0⟩ (.new false false) "").run 20 greeting).1

/-- The wrong call is found on the fifth line. -/
theorem run_append_greeting :
    Accepted greeting ∧ Accepted greets ∧
      (Session.start ⟨3, fun _ => 0⟩ (.new false false) "").run 20 greeting = (greeted, .ran .completed) ∧
      ∃ fuel s', (Session.start ⟨3, fun _ => 0⟩ (.new false false) "").run fuel (greeting ++ "\n" ++ greets) =
          (s', .ran (.failed (.runtime ⟨.wrongArity 1 0, ⟨.rightParen, ")", .nil, 5⟩⟩))) ∧
        s'.state.printed = #["Hi you"] := by
  have hfirst : Accepted greeting := ⟨by decide +kernel, by decide +kernel, by decide +kernel⟩
  have hsecond : Accepted greets := ⟨by decide +kernel, by decide +kernel, by decide +kernel⟩
  have hgreeted : (Session.start ⟨3, fun _ => 0⟩ (.new false false) "").run 20 greeting = (greeted, .ran .completed) := by
    have hcompleted : ((Session.start ⟨3, fun _ => 0⟩ (.new false false) "").run 20 greeting).2 = .ran .completed := by
      decide +kernel
    rw [← hcompleted, greeted]
  have hfails : (greeted.run 50 greets).2 =
      .ran (.failed (.runtime ⟨.wrongArity 1 0, ⟨.rightParen, ")", .nil, 2⟩⟩)) := by decide +kernel
  have hmoved : (greeted.run 50 (blankLines 1 ++ greets)).2 =
      .ran (.failed (.runtime ⟨.wrongArity 1 0, ⟨.rightParen, ")", .nil, 3⟩⟩)) := by decide +kernel
  have hprints : (greeted.run 50 greets).1.state.printed = #["Hi you"] := by decide +kernel
  refine ⟨hfirst, hsecond, hgreeted, ?_⟩
  obtain ⟨-, hruns⟩ := run_append (.start ⟨3, fun _ => 0⟩ (.new false false) "") rfl hfirst hsecond
  obtain ⟨steps, hsteps⟩ := hruns hgreeted
  obtain ⟨outcome, own, s₂, s', hrun₂, hrun, -, hprinted, -, hlocates⟩ := hsteps 50
  rw [hrun₂] at hfails hprints
  obtain rfl := RunResult.ran.inj hfails
  obtain ⟨s₄, hrun₄⟩ := hlocates.moves 1
  rw [hrun₄] at hmoved
  cases own with
  | true => exact ⟨steps + 50, s', hrun, hprinted.trans hprints⟩
  | false => cases hmoved

end LoxLanguage
