import Mathlib
import LoxLanguage.Proofs.Session.Reports
import LoxLanguage.Session.Shell

/-! Rejected entries leave no trace. Reports are only ever added to, the flags are cleared before each entry and each entry
names its own source, so what an entry does depends on the interpreter alone (`Session.fresh`), and that
is what a rejected entry leaves as it is. -/

namespace LoxLanguage

/-! ### Reports are added to -/

namespace Reporter

/-- The reporter with earlier reports in front of its own. -/
def behind (r : Reporter) (diagnostics written : Array String) : Reporter :=
  { r with diagnostics := diagnostics ++ r.diagnostics, written := written ++ r.written }

variable (r : Reporter) (d w : Array String)

theorem behind_notify (notice : Notice) : (r.behind d w).notify notice = (r.notify notice).behind d w := by
  have hwritten (more : List String) : w ++ r.written ++ more = w ++ (r.written ++ more) := Array.ext' (by simp)
  rw [notify_eq, notify_eq]
  simp [behind, hwritten]

theorem behind_problems (found : List Problem) : (r.behind d w).problems found = (r.problems found).behind d w := by
  rw [problems_eq, problems_eq]
  induction found generalizing r with
  | nil => rfl
  | cons p rest ih => rw [List.map_cons, List.foldl_cons, List.foldl_cons, behind_notify, ih]

theorem behind_leave (escape : Option Escape) :
    (r.behind d w).leave escape = ((r.leave escape).1.behind d w, (r.leave escape).2) := by
  cases escape with
  | none => rfl
  | some escape =>
    refine Prod.ext ?_ ?_
    · show ((r.behind d w).absorb escape).1 = (r.absorb escape).1.behind d w
      rw [absorb_eq, absorb_eq]
      cases escape.notice? with
      | none => rfl
      | some notice => exact r.behind_notify d w notice
    · cases escape <;> rfl

/-- Whether errors are fatal and whether colours are on is settled once and for all. -/
theorem settings_problems (found : List Problem) : (r.problems found).fatal = r.fatal ∧ (r.problems found).colour = r.colour := by
  rw [problems_eq]
  induction found generalizing r with
  | nil => exact ⟨rfl, rfl⟩
  | cons p rest ih =>
    obtain ⟨hfatal, hcolour⟩ := ih (r.notify p.notice)
    rw [List.map_cons, List.foldl_cons, hfatal, hcolour, notify_eq]
    exact ⟨rfl, rfl⟩

end Reporter

namespace Session

/-- The session with earlier reports in front of its own. -/
def behind (s : Session) (diagnostics written : Array String) : Session :=
  { s with reporter := s.reporter.behind diagnostics written }

/-- The session without its reports. -/
def fresh (s : Session) : Session :=
  { s with reporter := .new s.reporter.fatal s.reporter.colour }

variable (s : Session) (d w : Array String)

theorem behind_parse (source : String) :
    (s.behind d w).parse source = ((s.parse source).1.behind d w, (s.parse source).2) := by
  have hregister : (s.behind d w).reporter.register s.path source = (s.reporter.register s.path source).behind d w := rfl
  have hflag : ∀ r : Reporter, (r.behind d w).hadError = r.hadError := fun _ => rfl
  unfold parse
  dsimp only [behind] at hregister ⊢
  rw [hregister, Reporter.behind_problems, Reporter.behind_problems, hflag]

theorem behind_load (source : String) :
    (s.behind d w).load source = ((s.load source).1.behind d w, (s.load source).2) := by
  have hflag : ∀ r : Reporter, (r.behind d w).hadError = r.hadError := fun _ => rfl
  unfold load
  rw [behind_parse]
  rcases s.parse source with ⟨read, parsed⟩
  cases parsed with
  | none => rfl
  | some parsed =>
    dsimp only [behind]
    rw [Reporter.behind_problems, hflag]
    split <;> rfl

theorem behind_run (fuel : Nat) (source : String) :
    (s.behind d w).run fuel source = ((s.run fuel source).1.behind d w, (s.run fuel source).2) := by
  unfold run
  rw [behind_load]
  rcases s.load source with ⟨loaded, m⟩
  cases m <;> rfl

theorem behind_runGuarded (fuel : Nat) (source : String) :
    (s.behind d w).runGuarded fuel source = ((s.runGuarded fuel source).1.behind d w, (s.runGuarded fuel source).2) := by
  unfold runGuarded
  rw [behind_run]
  dsimp only [leave, behind]
  rw [Reporter.behind_leave]

/-- An entry names its own source, whatever source was known before. -/
theorem runGuarded_register (fuel : Nat) (source : String) :
    { s with reporter := s.reporter.register s.path source }.runGuarded fuel source = s.runGuarded fuel source := by
  have hparse : { s with reporter := s.reporter.register s.path source }.parse source = s.parse source := rfl
  unfold runGuarded run load
  rw [hparse]

theorem fresh_reported {s : Session} {reporter : Reporter}
    (h : reporter.fatal = s.reporter.fatal ∧ reporter.colour = s.reporter.colour) : { s with reporter }.fresh = s.fresh := by
  simp only [fresh, h]

theorem eq_of_fresh {s s' : Session} (h : s.fresh = s'.fresh) : s = { s' with reporter := s.reporter } := by
  cases s
  cases s'
  simp only [fresh, mk.injEq] at h ⊢
  simp only [h, and_self]

/-- An entry that is run with cleared flags adds what it would report in a session without any reports. -/
theorem reset_runGuarded (fuel : Nat) (source : String) :
    s.reset.runGuarded fuel source =
      ((s.fresh.runGuarded fuel source).1.behind s.reporter.diagnostics s.reporter.written,
        (s.fresh.runGuarded fuel source).2) := by
  have hsame : s.reset.reporter.register s.path source =
      (s.fresh.behind s.reporter.diagnostics s.reporter.written).reporter.register s.path source := by
    simp [reset, fresh, behind, Reporter.behind, Reporter.reset, Reporter.register, Reporter.new]
  rw [← behind_runGuarded, ← runGuarded_register, ← runGuarded_register (s.fresh.behind _ _)]
  simp only [reset, fresh, behind] at hsame ⊢
  rw [hsame]

/-- A text with problems changes nothing but the reports. -/
theorem runGuarded_rejected {source : String} (h : ¬ Accepted source) (fuel : Nat) :
    ∃ reporter, s.runGuarded fuel source = ({ s with reporter }, .stays) ∧
      reporter.fatal = s.reporter.fatal ∧ reporter.colour = s.reporter.colour := by
  obtain ⟨s', hrun⟩ := @run_rejected s _ h fuel
  have hreporter := s.reporter_run fuel source
  rw [hrun] at hreporter
  refine ⟨s'.reporter, ?_, ?_⟩
  · rw [← eq_of_rejected hrun, runGuarded, hrun]
    rfl
  · rw [hreporter]
    exact Reporter.settings_problems _ _

end Session

/-! ### Entries -/

namespace Shell

/-- What an entry adds to the output, to the diagnostics and to the error stream, and how its guard is left. -/
structure Effect where
  printed : List String
  diagnostics : List String
  written : List String
  departure : Departure

/-- What has been added between two moments of a session. -/
def Effect.between (earlier later : Session) (departure : Departure) : Effect where
  printed := later.state.printed.toList.drop earlier.state.printed.size
  diagnostics := later.reporter.diagnostics.toList.drop earlier.reporter.diagnostics.size
  written := later.reporter.written.toList.drop earlier.reporter.written.size
  departure := departure

/-- Takes a line of program text and runs the entry that it completes, for at most `fuel` steps. -/
def submit (shell : Shell) (fuel : Nat) (line : String) : Shell × Effect :=
  match shell.offer line with
  | (shell, none) => (shell, .between shell.session shell.session .stays)
  | (shell, some source) =>
    let (session, departure) := shell.session.reset.runGuarded fuel source
    ({ shell with session }, .between shell.session session departure)

/-- Takes lines of program text one after the other. -/
def submitAll (shell : Shell) : List (Nat × String) → Shell × List Effect
  | [] => (shell, [])
  | (fuel, line) :: rest =>
    let result := shell.submit fuel line
    let others := result.1.submitAll rest
    (others.1, result.2 :: others.2)

/-- This is what the shell does with a line that is not a command. -/
theorem read_entry {shell : Shell} {line text : String} (h : Command.ofLine line = .entry text) (fuel : Nat) :
    (shell.read fuel line).1 = (shell.submit fuel text).1 := by
  unfold read take submit
  rw [h]
  dsimp only
  rcases shell.offer text with ⟨offered, source⟩
  cases source <;> rfl

theorem submitAll_cons (shell : Shell) (fuel : Nat) (line : String) (rest : List (Nat × String)) :
    shell.submitAll ((fuel, line) :: rest) = (((shell.submit fuel line).1.submitAll rest).1,
      (shell.submit fuel line).2 :: ((shell.submit fuel line).1.submitAll rest).2) := rfl

theorem submitAll_append (shell : Shell) (entries more : List (Nat × String)) :
    shell.submitAll (entries ++ more) = (((shell.submitAll entries).1.submitAll more).1,
      (shell.submitAll entries).2 ++ ((shell.submitAll entries).1.submitAll more).2) := by
  induction entries generalizing shell with
  | nil => rfl
  | cons entry rest ih =>
    obtain ⟨fuel, line⟩ := entry
    rw [List.cons_append, submitAll_cons, submitAll_cons, ih, List.cons_append]

theorem length_submitAll (entries : List (Nat × String)) (shell : Shell) :
    (shell.submitAll entries).2.length = entries.length := by
  induction entries generalizing shell with
  | nil => rfl
  | cons entry rest ih =>
    rw [submitAll_cons, List.length_cons, ih, List.length_cons]

/-- No line leaves a block open. -/
def Complete (entries : List (Nat × String)) : Prop :=
  ∀ entry ∈ entries, needsContinuation (entry.2 ++ "\n") = false

variable {shell shell' : Shell} {fuel : Nat} {line : String}

/-- What an entry does is told by the session without its reports. -/
theorem submit_complete (hpending : shell.pending = "") (hcomplete : needsContinuation (line ++ "\n") = false)
    {s : Session} {departure : Departure} (hrun : shell.session.fresh.runGuarded fuel (line ++ "\n") = (s, departure)) :
    shell.submit fuel line = (⟨s.behind shell.session.reporter.diagnostics shell.session.reporter.written, "", entryPrompt⟩,
      .between shell.session.fresh s departure) := by
  have hoffer : shell.offer line = ({ shell with pending := "", prompt := entryPrompt }, some (line ++ "\n")) := by
    simp [offer, hpending, hcomplete]
  unfold submit
  rw [hoffer]
  dsimp only
  rw [Session.reset_runGuarded, hrun]
  simp [Effect.between, Session.behind, Session.fresh, Reporter.behind, Reporter.new]

/-- Sessions that differ in their reports only do the same with an entry. -/
theorem submit_congr (hfresh : shell.session.fresh = shell'.session.fresh) (hpending : shell.pending = "")
    (hpending' : shell'.pending = "") (hcomplete : needsContinuation (line ++ "\n") = false) (fuel : Nat) :
    (shell.submit fuel line).2 = (shell'.submit fuel line).2 ∧
      (shell.submit fuel line).1.session.fresh = (shell'.submit fuel line).1.session.fresh ∧
      (shell.submit fuel line).1.pending = "" ∧ (shell'.submit fuel line).1.pending = "" := by
  rcases hrun : shell.session.fresh.runGuarded fuel (line ++ "\n") with ⟨s, departure⟩
  rw [submit_complete hpending hcomplete hrun, submit_complete hpending' hcomplete (hfresh ▸ hrun), hfresh]
  exact ⟨rfl, rfl, rfl, rfl⟩

theorem submitAll_congr {entries : List (Nat × String)} (hfresh : shell.session.fresh = shell'.session.fresh)
    (hpending : shell.pending = "") (hpending' : shell'.pending = "") (hcomplete : Complete entries) :
    (shell.submitAll entries).2 = (shell'.submitAll entries).2 ∧
      (shell.submitAll entries).1.session.fresh = (shell'.submitAll entries).1.session.fresh ∧
      (shell.submitAll entries).1.pending = "" := by
  induction entries generalizing shell shell' with
  | nil => exact ⟨rfl, hfresh, hpending⟩
  | cons entry rest ih =>
    obtain ⟨fuel, line⟩ := entry
    obtain ⟨hline, hrest⟩ := List.forall_mem_cons.mp hcomplete
    obtain ⟨heffect, hafter, hp, hp'⟩ := submit_congr hfresh hpending hpending' hline fuel
    obtain ⟨heffects, hfinal⟩ := ih hafter hp hp' hrest
    rw [submitAll_cons, submitAll_cons]
    dsimp only
    rw [heffect, heffects]
    exact ⟨rfl, hfinal⟩

/-- An entry whose text has problems prints nothing and changes nothing but the reports. -/
theorem submit_rejected (hpending : shell.pending = "") (hcomplete : needsContinuation (line ++ "\n") = false)
    (hrejected : ¬ Accepted (line ++ "\n")) (fuel : Nat) :
    ∃ reporter effect, shell.submit fuel line = (⟨{ shell.session with reporter }, "", entryPrompt⟩, effect) ∧
      effect.printed = [] ∧ reporter.fatal = shell.session.reporter.fatal ∧ reporter.colour = shell.session.reporter.colour := by
  obtain ⟨reporter, hrun, hsettings⟩ := shell.session.fresh.runGuarded_rejected hrejected fuel
  refine ⟨reporter.behind shell.session.reporter.diagnostics shell.session.reporter.written, _,
    submit_complete hpending hcomplete hrun, ?_, hsettings⟩
  simp [Effect.between, Session.fresh]

end Shell

/-- A rejected entry among complete ones prints nothing and leaves the interpreter as it was; what the other entries
    print, report and write, and the interpreter at the end, are as if it had not been there. -/
theorem rejected_entry_traceless {shell : Shell} (hpending : shell.pending = "") {before after : List (Nat × String)}
    {fuel : Nat} {line : String} (hcomplete : Shell.Complete (before ++ (fuel, line) :: after))
    (hrejected : ¬ Accepted (line ++ "\n")) :
    let reached := (shell.submitAll before).1
    let answer := reached.submit fuel line
    let whole := shell.submitAll (before ++ (fuel, line) :: after)
    let others := shell.submitAll (before ++ after)
    answer.1.session = { reached.session with reporter := answer.1.session.reporter } ∧ answer.2.printed = [] ∧
      (∃ earlier later, whole.2 = earlier ++ answer.2 :: later ∧ others.2 = earlier ++ later ∧
        earlier.length = before.length) ∧
      whole.1.session = { others.1.session with reporter := whole.1.session.reporter } := by
  intro reached answer whole others
  obtain ⟨hbefore, hrest⟩ := List.forall_mem_append.mp hcomplete
  obtain ⟨hline, hafter⟩ := List.forall_mem_cons.mp hrest
  obtain ⟨-, -, hreached⟩ := Shell.submitAll_congr rfl hpending hpending hbefore
  obtain ⟨reporter, effect, hanswer, hprinted, hsettings⟩ := Shell.submit_rejected hreached hline hrejected fuel
  obtain ⟨heffects, hfinal, -⟩ := @Shell.submitAll_congr ⟨{ reached.session with reporter }, "", Shell.entryPrompt⟩ reached after
    (Session.fresh_reported hsettings) rfl hreached hafter
  have hanswer : answer = (⟨{ reached.session with reporter }, "", Shell.entryPrompt⟩, effect) := hanswer
  have hwhole : whole = ((answer.1.submitAll after).1, (shell.submitAll before).2 ++ answer.2 :: (answer.1.submitAll after).2) := by
    show shell.submitAll (before ++ (fuel, line) :: after) = _
    rw [Shell.submitAll_append, Shell.submitAll_cons]
  have hothers : others = ((reached.submitAll after).1, (shell.submitAll before).2 ++ (reached.submitAll after).2) :=
    Shell.submitAll_append shell before after
  clear_value answer whole others reached
  subst hanswer hwhole hothers
  refine ⟨rfl, hprinted, ⟨_, _, rfl, ?_, ?_⟩, ?_⟩
  · rw [heffects]
  · exact Shell.length_submitAll before shell
  · exact Session.eq_of_fresh hfinal

def typedShell : Shell := .start (.interactive ⟨3, fun _ => 0⟩ (.new true false) interactivePath)

def declareEntry : Nat × String := (50, "var a = \"b\";")
def spoiltEntry : Nat × String := (50, "\x7b var a = ; \x7d")
def useEntry : Nat × String := (50, "print a; a();")

/-- The block in the middle lacks a value; the entry behind it prints a line and then fails. -/
theorem rejected_entry_traceless_between :
    ∃ first rejected last, (typedShell.submitAll [declareEntry, spoiltEntry, useEntry]).2 = [first, rejected, last] ∧
      (typedShell.submitAll [declareEntry, useEntry]).2 = [first, last] ∧ rejected.printed = [] ∧
      last.printed = ["b"] ∧ last.diagnostics = ["Can only call functions and classes.\n[line 1]"] := by
  have hcomplete : Shell.Complete ([declareEntry] ++ spoiltEntry :: [useEntry]) := by
    intro entry hentry
    simp only [List.cons_append, List.nil_append, List.mem_cons, List.not_mem_nil, or_false] at hentry
    rcases hentry with rfl | rfl | rfl <;> cbv
  have hrejected : ¬ Accepted (spoiltEntry.2 ++ "\n") := fun h => absurd h.parsed (by decide +kernel)
  obtain ⟨-, hprinted, ⟨earlier, later, heffects, hothers, hlength⟩, -⟩ :=
    @rejected_entry_traceless typedShell rfl [declareEntry] [useEntry] 50 _ hcomplete hrejected
  have hvalues : (typedShell.submitAll [declareEntry, useEntry]).2.map (fun e => (e.printed, e.diagnostics)) =
      [([], []), (["b"], ["Can only call functions and classes.\n[line 1]"])] := by decide +kernel
  obtain ⟨first, rfl⟩ := List.length_eq_one_iff.mp hlength
  have hothers : (typedShell.submitAll [declareEntry, useEntry]).2 = [first] ++ later := hothers
  rw [hothers] at hvalues
  obtain ⟨-, hvalues⟩ := List.cons.inj hvalues
  obtain ⟨last, hlater, hlast⟩ := List.map_eq_singleton_iff.mp hvalues
  obtain rfl : later = [last] := hlater
  obtain ⟨houtput, hdiagnostics⟩ := Prod.mk.inj hlast
  exact ⟨first, _, last, heffects, hothers, hprinted, houtput, hdiagnostics⟩

end LoxLanguage
