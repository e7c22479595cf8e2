import Mathlib
import LoxLanguage.CommandLine.Basic
import LoxLanguage.Proofs.Machine.Passes
import LoxLanguage.Proofs.Session.Reports
import LoxLanguage.Proofs.Session.Safety

/-! The exit status of a file run. A file is run by the path that the command line gives, unless the path reads as an
option. The run ends in one of three ways: it is rejected with its static problems, it comes to an error of the
program, or it is complete. -/

namespace LoxLanguage

/-- An entry comes to an error of the program within `fuel` steps. It is raised in the state `before`. -/
def Session.Raises (s : Session) (fuel : Nat) (source : String) (error : RuntimeError) (before : State) : Prop :=
  ∃ loaded m, s.load source = (loaded, some m) ∧ ∃ k < fuel, before = (m.run loaded.setting k).state ∧
    (m.run loaded.setting k).control.fault? = none ∧
    (m.run loaded.setting (k + 1)).control.fault? = some (.runtime error)

section Raises
variable {s loaded : Session} {source : String} {m : Machine} {fuel : Nat} {error : RuntimeError}

theorem Session.raises_of_failed (hload : s.load source = (loaded, some m)) (hstart : m.control.fault? = none)
    (h : (m.run loaded.setting fuel).outcome = .failed (.runtime error)) : ∃ before, s.Raises fuel source error before := by
  obtain ⟨k, hlt, hbefore, hafter⟩ := Machine.exists_raise hstart (Machine.fault?_of_failed h)
  exact ⟨_, loaded, m, hload, k, hlt, rfl, hbefore, hafter⟩

theorem Session.failed_of_raises {before : State} (hload : s.load source = (loaded, some m))
    (hfinished : (m.run loaded.setting fuel).outcome ≠ .unfinished) (h : s.Raises fuel source error before) :
    (m.run loaded.setting fuel).outcome = .failed (.runtime error) ∧
      (m.run loaded.setting fuel).rest.printed = before.printed := by
  obtain ⟨loaded', m', hload', k, hlt, rfl, -, hafter⟩ := h
  rw [hload] at hload'
  cases hload'
  obtain ⟨hfault, hremains⟩ := Machine.run_of_raise hlt hafter
  exact ⟨Machine.failed_of_fault? hfault hfinished, hremains.printed⟩

end Raises

namespace CommandLine

/-! ### Paths and options -/

/-- The command line that consists of a path asks to run the file behind it. -/
def AsksFor (path : String) : Prop :=
  parseArguments [path] = .run (some path) false

theorem parseArguments_single (word : String) :
    parseArguments [word] =
      match classify word with
      | .ok w => collect [w] ⟨none, false, false, []⟩
      | .error error => .wrong error := by
  rw [parseArguments, classifyAll]
  cases classify word with
  | error error => rfl
  | ok w => cases w <;> rfl

theorem operand_of_looseWord {word : List Char} {file : String} (h : looseWord word = .operand file) :
    file = String.ofList word := by
  unfold looseWord at h
  dsimp only at h
  split at h <;> cases h
  rfl

theorem operand_of_longWord {rest : List Char} {file : String} (h : longWord rest = .ok (.operand file)) :
    file = String.ofList ('-' :: '-' :: rest) := by
  unfold longWord at h
  dsimp only at h
  split at h
  · cases h
  · cases h
  · cases h
  · exact operand_of_looseWord (Except.ok.inj h)

/-- An operand is the word itself. -/
theorem operand_of_classify {word file : String} (h : classify word = .ok (.operand file)) : file = word := by
  unfold classify at h
  split at h
  · cases h
  · rename_i hword
    rw [operand_of_longWord h, ← hword, String.ofList_toList]
  · cases h
  · cases h
  · cases h
  · rename_i hword
    rw [operand_of_looseWord (Except.ok.inj h), ← hword, String.ofList_toList]
  · cases h
    rfl

theorem classify_of_no_dash {word : String} (h : word.toList.head? ≠ some '-') : classify word = .ok (.operand word) := by
  unfold classify
  split <;> simp_all

theorem lettersRequest_ne (attached : List Char) (file : Option String) (tree : Bool) :
    lettersRequest attached ≠ .run file tree := by
  fun_induction lettersRequest attached with
  | case1 => nofun
  | case2 _ _ ih => exact ih
  | case3 => nofun

theorem asksFor_of_no_dash {path : String} (h : path.toList.head? ≠ some '-') : AsksFor path := by
  rw [AsksFor, parseArguments_single, classify_of_no_dash h]
  rfl

/-- No other path makes the program look at a file. -/
theorem asksFor_of_run {path file : String} {tree : Bool} (h : parseArguments [path] = .run (some file) tree) :
    AsksFor path := by
  rw [AsksFor, parseArguments_single]
  rw [parseArguments_single] at h
  cases hclassify : classify path with
  | error error =>
    rw [hclassify] at h
    cases h
  | ok word =>
    rw [hclassify] at h
    cases word with
    | operand file =>
      rw [operand_of_classify hclassify]
      rfl
    | letters attached => exact absurd h (lettersRequest_ne attached _ _)
    | flag flag attached => cases flag <;> cases attached <;> cases h
    | unknown word => cases h
    | separator => cases h

/-! ### The ways a file run ends -/

/-- The session that runs a file. -/
def fileSession (host : Host) (colour : Bool) (path : String) : Session :=
  .start host (.new true colour) path

/-- The reporter of a file run before anything is reported. -/
def fileReporter (colour : Bool) (path text : String) : Reporter :=
  (Reporter.new true colour).register path text

/-- What a file run has written and how it has ended. -/
structure Status (host : Host) (colour : Bool) (fuel : Nat) (path text : String) (t : Transcript) : Prop where
  ending : t.ending = .exit 65 ∨ t.ending = .exit 70 ∨ t.ending = .exit 0
  static : t.ending = .exit 65 ↔ ¬ Accepted text
  rejected : t.ending = .exit 65 → t.stdout = "" ∧
    t.stderr = ((fileReporter colour path text).problems ((fileSession host colour path).problems text)).stream 0
  runtime : t.ending = .exit 70 ↔ ∃ error before, (fileSession host colour path).Raises fuel text error before
  raised : ∀ error before, (fileSession host colour path).Raises fuel text error before → t.stdout = before.output 0 ∧
    t.stderr = ((fileReporter colour path text).runtimeError error.cause.message (some error.token)).stream 0
  completed : t.ending = .exit 0 ↔ ((fileSession host colour path).run fuel text).2 = .ran .completed
  quiet : t.ending = .exit 0 → t.stderr = "" ∧ t.stdout = ((fileSession host colour path).run fuel text).1.state.output 0

section FileRuns
variable {host : Host} {colour : Bool} {fuel : Nat} {path text : String}

theorem accepts_fileSession : (fileSession host colour path).Accepts text ↔ Accepted text := by
  rw [Session.accepts_iff]
  exact and_iff_right rfl

theorem runText_fileSession :
    runText fuel (fileSession host colour path) text =
      conclude ((fileReporter colour path text).problems ((fileSession host colour path).problems text))
        ((fileSession host colour path).run fuel text).2.escape?
        (((fileSession host colour path).run fuel text).1.state.output 0) := by
  have hreporter : ((fileSession host colour path).run fuel text).1.reporter =
      (fileReporter colour path text).problems ((fileSession host colour path).problems text) := Session.reporter_run _ _ _
  unfold runText
  rw [← hreporter]

theorem runText_rejected (h : ¬ Accepted text) :
    runText fuel (fileSession host colour path) text =
      ⟨"", ((fileReporter colour path text).problems ((fileSession host colour path).problems text)).stream 0, .exit 65⟩ := by
  obtain ⟨s', hrun⟩ := @Session.run_rejected (fileSession host colour path) text h fuel
  have hproblems : (fileSession host colour path).problems text ≠ [] := fun hnone =>
    h (accepts_fileSession.mp (Session.accepts_iff_problems.mpr ⟨rfl, hnone⟩))
  have hflag : ((fileReporter colour path text).problems ((fileSession host colour path).problems text)).hadError = true := by
    rw [Reporter.hadError_problems_eq]
    simp [hproblems]
  have houtput : s'.state.output 0 = "" := by
    rw [Session.eq_of_rejected hrun]
    rfl
  rw [runText_fileSession, hrun, houtput]
  simp only [conclude, Reporter.leave, RunResult.escape?, Ending.ofDeparture, Reporter.exitStatus, hflag, ↓reduceIte,
    Reporter.staticStatus]

/-- An accepted file is run; the run of its machine decides the rest. -/
theorem runText_accepted (h : Accepted text) :
    ∃ loaded m, (fileSession host colour path).load text = (loaded, some m) ∧ m.control.fault? = none ∧
      ((fileSession host colour path).run fuel text).2 = .ran (m.run loaded.setting fuel).outcome ∧
      runText fuel (fileSession host colour path) text =
        conclude (fileReporter colour path text) (RunResult.ran (m.run loaded.setting fuel).outcome).escape?
          ((m.run loaded.setting fuel).rest.output 0) ∧
      ((m.run loaded.setting fuel).outcome = .unfinished ∨ (m.run loaded.setting fuel).outcome = .completed ∨
        ∃ error, (m.run loaded.setting fuel).outcome = .failed (.runtime error)) := by
  have haccepts := (@accepts_fileSession host colour path text).mpr h
  obtain ⟨loaded, m, hload⟩ := Session.load_of_accepts haccepts
  have hloads := Session.loads_of_load hload
  have hrun := Session.run_of_load hload fuel
  have hreached : (fileSession host colour path).Reached [] := .start _ _ _
  have hruns := hreached.together.runs hloads fuel
  refine ⟨loaded, m, hload, ?_, ?_, ?_, ?_⟩
  · rw [hloads.machine]
    rfl
  · rw [hrun]
    rfl
  · rw [runText_fileSession, hrun, (Session.accepts_iff_problems.mp haccepts).2]
    rfl
  · rcases hruns.outcome_ordinary with houtcome | houtcome | ⟨error, houtcome, -⟩
    · exact .inl houtcome
    · exact .inr (.inl houtcome)
    · exact .inr (.inr ⟨error, houtcome⟩)

theorem accepted_of_raises {error : RuntimeError} {before : State}
    (h : (fileSession host colour path).Raises fuel text error before) : Accepted text := by
  obtain ⟨loaded, m, hload, -⟩ := h
  exact accepts_fileSession.mp (Session.accepts_of_load hload)

theorem conclude_completed (stdout : String) :
    conclude (fileReporter colour path text) (RunResult.ran .completed).escape? stdout = ⟨stdout, "", .exit 0⟩ := rfl

theorem conclude_failed (error : RuntimeError) (stdout : String) :
    conclude (fileReporter colour path text) (RunResult.ran (.failed (.runtime error))).escape? stdout =
      ⟨stdout, ((fileReporter colour path text).runtimeError error.cause.message (some error.token)).stream 0, .exit 70⟩ := rfl

theorem status_rejected (haccepted : ¬ Accepted text) :
    Status host colour fuel path text (runText fuel (fileSession host colour path) text) := by
  have hnever : ∀ error before, ¬ (fileSession host colour path).Raises fuel text error before :=
    fun error before h => haccepted (accepted_of_raises h)
  obtain ⟨s', hrun⟩ := @Session.run_rejected (fileSession host colour path) text haccepted fuel
  rw [runText_rejected haccepted]
  constructor <;> simp [haccepted, hnever, hrun]

theorem status_accepted (haccepted : Accepted text)
    (hfinished : ((fileSession host colour path).run fuel text).2 ≠ .ran .unfinished) :
    Status host colour fuel path text (runText fuel (fileSession host colour path) text) := by
  obtain ⟨loaded, m, hload, hstart, hresult, htext, houtcome⟩ := @runText_accepted host colour fuel path text haccepted
  have hstate : ((fileSession host colour path).run fuel text).1.state = (m.run loaded.setting fuel).rest := by
    rw [Session.run_of_load hload]
    rfl
  have hends : (m.run loaded.setting fuel).outcome ≠ .unfinished := fun h => hfinished (by rw [hresult, h])
  have hraises := fun error before => @Session.failed_of_raises _ _ text m fuel error before hload hends
  rcases houtcome with houtcome | houtcome | ⟨error, houtcome⟩
  · exact absurd houtcome hends
  · have hnever : ∀ error before, ¬ (fileSession host colour path).Raises fuel text error before := by
      intro error before h
      have hfailed := (hraises error before h).1
      rw [houtcome] at hfailed
      cases hfailed
    rw [htext, houtcome, conclude_completed]
    rw [houtcome] at hresult
    constructor <;> simp [haccepted, hnever, hresult, hstate]
  · obtain ⟨before, hbefore⟩ := Session.raises_of_failed hload hstart houtcome
    -- A run raises one error, in one state as far as the lines printed go.
    have honly : ∀ error' before', (fileSession host colour path).Raises fuel text error' before' →
        error' = error ∧ (m.run loaded.setting fuel).rest.output 0 = before'.output 0 := by
      intro error' before' h
      obtain ⟨hfailed, hprinted⟩ := hraises error' before' h
      rw [houtcome] at hfailed
      cases hfailed
      rw [State.output, State.output, hprinted]
      exact ⟨rfl, rfl⟩
    rw [htext, houtcome, conclude_failed]
    rw [houtcome] at hresult
    refine ⟨.inr (.inl rfl), by simp [haccepted], by simp, ?_, ?_, by simp [hresult], by simp⟩
    · exact ⟨fun _ => ⟨error, before, hbefore⟩, fun _ => rfl⟩
    · intro error' before' h
      obtain ⟨rfl, houtput⟩ := honly error' before' h
      exact ⟨houtput, rfl⟩

end FileRuns

/-- A file is run by every path that is no option and not the reserved one. If its text can be read and the run ends, the
    status tells what has happened: 65 that there were static problems, 70 that the program came to an error, 0 that it
    is complete. A path that is an option makes the program look at no file. -/
theorem run_file_status (host : Host) (colour : Bool) (fuel : Nat) {path : String} (hpath : path ≠ interactivePath)
    (files : String → FileContent) (input : String) :
    (∀ text, AsksFor path → readText path (files path) = .ok text →
      ((fileSession host colour path).run fuel text).2 ≠ .ran .unfinished →
      Status host colour fuel path text (run host colour fuel [path] files input)) ∧
    (¬ AsksFor path → path.toList.head? = some '-' ∧
      ∀ files', run host colour fuel [path] files' input = run host colour fuel [path] files input) := by
  constructor
  · intro text hasks hread hfinished
    have hrun : run host colour fuel [path] files input = runText fuel (fileSession host colour path) text := by
      rw [run, hasks]
      dsimp only
      rw [runFile, Session.forFile, if_neg hpath]
      dsimp only
      rw [hread, fileSession]
      exact if_neg Bool.false_ne_true
    rw [hrun]
    by_cases haccepted : Accepted text
    · exact status_accepted haccepted hfinished
    · exact status_rejected haccepted
  · intro hother
    refine ⟨?_, fun files' => ?_⟩
    · by_contra hdash
      exact hother (asksFor_of_no_dash hdash)
    · unfold run
      split
      · rfl
      · rfl
      · rename_i hrequest
        exact absurd (asksFor_of_run hrequest) hother
      · rfl

/-- Prints a line and then calls what cannot be called. -/
def wrongCall : String :=
  "print \"a\"; \"a\"();"

def wrongCallFiles (_ : String) : FileContent :=
  .bytes wrongCall.toUTF8.data.toList

theorem run_file_status_wrongCall :
    "a.lox" ≠ interactivePath ∧ AsksFor "a.lox" ∧ readText "a.lox" (wrongCallFiles "a.lox") = .ok wrongCall ∧
      ((fileSession ⟨3, fun _ => 0⟩ false "a.lox").run 30 wrongCall).2 ≠ .ran .unfinished ∧
      Status ⟨3, fun _ => 0⟩ false 30 "a.lox" wrongCall (run ⟨3, fun _ => 0⟩ false 30 ["a.lox"] wrongCallFiles "") ∧
      (run ⟨3, fun _ => 0⟩ false 30 ["a.lox"] wrongCallFiles "").ending = .exit 70 ∧
      (run ⟨3, fun _ => 0⟩ false 30 ["a.lox"] wrongCallFiles "").stdout = "a\n" := by
  have hpath : "a.lox" ≠ interactivePath := by decide
  have hasks : AsksFor "a.lox" := by
    unfold AsksFor
    decide +kernel
  have hread : readText "a.lox" (wrongCallFiles "a.lox") = .ok wrongCall := by decide +kernel
  have hfinished : ((fileSession ⟨3, fun _ => 0⟩ false "a.lox").run 30 wrongCall).2 ≠ .ran .unfinished := by decide +kernel
  exact ⟨hpath, hasks, hread, hfinished, (run_file_status _ _ _ hpath _ _).1 wrongCall hasks hread hfinished,
    by decide +kernel, by decide +kernel⟩

/-- A readable file with the name of an unknown option is not run, and the status is that of a usage error. -/
theorem run_file_status_unknown_option :
    "-x" ≠ interactivePath ∧ readText "-x" (.bytes "print nil;".toUTF8.data.toList) = .ok "print nil;" ∧
      ((fileSession ⟨3, fun _ => 0⟩ false "-x").run 30 "print nil;").2 = .ran .completed ∧
      (run ⟨3, fun _ => 0⟩ false 30 ["-x"] (fun _ => .bytes "print nil;".toUTF8.data.toList) "").ending = .exit 2 := by
  refine ⟨by decide, by decide +kernel, by decide +kernel, by decide +kernel⟩

end CommandLine

end LoxLanguage
