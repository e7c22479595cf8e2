import Mathlib
import LoxLanguage.Proofs.Session.Accepted
import LoxLanguage.Session.Shell

/-! The shell and its lines of program text. Each line is run or held back once and in order: the texts that are run, and
then the text held back, are the lines again. A text is run with the first line that closes all its blocks. -/

namespace LoxLanguage.Shell

/-! ### Lines of program text -/

/-- The program text of a line that is not a command. -/
def entryText? (line : String) : Option String :=
  match Command.ofLine line with
  | .entry text => some text
  | _ => none

/-- Lines, each with its end. -/
def unlines (texts : List String) : String :=
  String.join (texts.map (· ++ "\n"))

theorem unlines_append (texts more : List String) : unlines (texts ++ more) = unlines texts ++ unlines more := by
  simp [unlines, String.join_append]

theorem unlines_concat (texts : List String) (text : String) :
    unlines texts ++ (text ++ "\n") = unlines (texts ++ [text]) := by
  rw [unlines_append]
  rfl

theorem unlines_flatten (groups : List (List String)) : unlines groups.flatten = String.join (groups.map unlines) := by
  induction groups with
  | nil => rfl
  | cons group rest ih => rw [List.flatten_cons, unlines_append, ih, List.map_cons, String.join_cons]

theorem named?_ne_entry {word argument : List Char} {command : Command} (h : named? word argument = some command)
    (text : String) : command ≠ .entry text := by
  unfold named? at h
  split at h <;> cases h <;> nofun

theorem ofLine_of_entryText? {line text : String} (h : entryText? line = some text) : Command.ofLine line = .entry text := by
  unfold entryText? at h
  split at h
  · rename_i hcommand
    rw [hcommand, Option.some.inj h]
  · cases h

/-- The text is the line without the blanks around it, and there is some. -/
theorem trim_of_entryText? {line text : String} (h : entryText? line = some text) :
    text.toList = Text.trim line.toList ∧ text ≠ "" := by
  have hentry := ofLine_of_entryText? h
  have htext : text.toList = Text.trim line.toList ∧ Text.trim line.toList ≠ [] := by
    unfold Command.ofLine at hentry
    split at hentry
    · cases hentry
    · cases hentry
    · rename_i htrim
      cases hentry
      rw [htrim, String.toList_ofList]
      exact ⟨rfl, nofun⟩
    · rename_i hblank _ _
      generalize hnamed : named? _ _ = command at hentry
      cases command with
      | none =>
        cases hentry
        exact ⟨String.toList_ofList, hblank⟩
      | some command => exact absurd hentry (named?_ne_entry hnamed text)
  refine ⟨htext.1, ?_⟩
  rintro rfl
  exact htext.2 htext.1.symm

/-! ### One line -/

/-- What a line leads to. A command changes neither the text held back nor the prompt, and of the session only the reports.
    A line of program text is added to the text held back; then that text is held back again and another line is asked
    for, or it is given to the session to run and nothing is held back, whatever comes of the run. -/
structure Answers (shell : Shell) (fuel : Nat) (line : String) (next : Shell) (entry : Option String) : Prop where
  command : entryText? line = none → entry = none ∧ next.pending = shell.pending ∧ next.prompt = shell.prompt ∧
    ∃ reporter, next.session = { shell.session with reporter }
  text : ∀ text, entryText? line = some text →
    text.toList = Text.trim line.toList ∧ text ≠ "" ∧
    (needsContinuation (shell.pending ++ (text ++ "\n")) = true →
      entry = none ∧ next = { shell with pending := shell.pending ++ (text ++ "\n"), prompt := ". " }) ∧
    (needsContinuation (shell.pending ++ (text ++ "\n")) = false →
      entry = some (shell.pending ++ (text ++ "\n")) ∧ next.pending = "" ∧ next.prompt = "> " ∧
        ∃ ran result, shell.session.reset.run fuel (shell.pending ++ (text ++ "\n")) = (ran, result) ∧
          next.session = (ran.leave result.escape?).1)

theorem render_reported (s : Session) (source : String) : ∃ reporter, (s.render source).1 = { s with reporter } := by
  unfold Session.render
  rcases hread : s.parse source with ⟨read, result⟩
  have hsame := Session.eq_of_parse hread
  cases result <;> exact ⟨read.reporter, hsame⟩

theorem read_answers (shell : Shell) (fuel : Nat) (line : String) :
    shell.Answers fuel line (shell.read fuel line).1 (shell.read fuel line).2.entry := by
  constructor
  · intro hcommand
    unfold entryText? at hcommand
    unfold read take
    cases hline : Command.ofLine line with
    | nothing => exact ⟨rfl, rfl, rfl, _, rfl⟩
    | tree argument =>
      obtain ⟨reporter, hrender⟩ := render_reported shell.session.reset (treeSource argument)
      dsimp only
      unfold showTree
      generalize shell.session.reset.render (treeSource argument) = result at hrender ⊢
      exact ⟨rfl, rfl, rfl, reporter, hrender⟩
    | help => exact ⟨rfl, rfl, rfl, _, rfl⟩
    | quit => exact ⟨rfl, rfl, rfl, _, rfl⟩
    | endOfInput => exact ⟨rfl, rfl, rfl, _, rfl⟩
    | entry text =>
      rw [hline] at hcommand
      cases hcommand
  · intro text htext
    obtain ⟨htrim, hnonempty⟩ := trim_of_entryText? htext
    have hline := ofLine_of_entryText? htext
    refine ⟨htrim, hnonempty, fun hopen => ?_, fun hclosed => ?_⟩
    · have hoffer : shell.offer text =
          ({ shell with pending := shell.pending ++ (text ++ "\n"), prompt := continuationPrompt }, none) := by
        simp [offer, String.append_assoc, hopen]
      simp [read, take, hline, hoffer, continuationPrompt]
    · have hoffer : shell.offer text =
          ({ shell with pending := "", prompt := entryPrompt }, some (shell.pending ++ (text ++ "\n"))) := by
        simp [offer, String.append_assoc, hclosed]
      have hread : shell.read fuel line =
          (⟨(shell.session.reset.runGuarded fuel (shell.pending ++ (text ++ "\n"))).1, "", entryPrompt⟩,
            ⟨"", false, some (shell.pending ++ (text ++ "\n")),
              (shell.session.reset.runGuarded fuel (shell.pending ++ (text ++ "\n"))).2⟩) := by
        simp [read, take, hline, hoffer]
      rw [hread]
      exact ⟨rfl, rfl, rfl, _, _, rfl, rfl⟩

/-- The prompt goes with the text held back: it asks for more lines just if there is such a text. -/
def InStep (shell : Shell) : Prop :=
  (shell.pending = "" ∧ shell.prompt = "> ") ∨ (shell.pending ≠ "" ∧ shell.prompt = ". ")

theorem inStep_start (session : Session) : (Shell.start session).InStep :=
  .inl ⟨rfl, rfl⟩

/-- The two change together, and a command changes neither. -/
theorem InStep.read {shell : Shell} (h : shell.InStep) (fuel : Nat) (line : String) : (shell.read fuel line).1.InStep := by
  have hanswers := shell.read_answers fuel line
  cases hentry : entryText? line with
  | none =>
    obtain ⟨-, hpending, hprompt, -⟩ := hanswers.command hentry
    rw [InStep, hpending, hprompt]
    exact h
  | some text =>
    obtain ⟨-, -, hhold, hrun⟩ := hanswers.text text hentry
    cases hcontinues : Shell.needsContinuation (shell.pending ++ (text ++ "\n")) with
    | true =>
      obtain ⟨-, hnext⟩ := hhold hcontinues
      rw [hnext]
      exact .inr ⟨by simp, rfl⟩
    | false =>
      obtain ⟨-, hpending, hprompt, -⟩ := hrun hcontinues
      exact .inl ⟨hpending, hprompt⟩

/-! ### All lines -/

/-- Reads lines one after the other, each for its number of steps. -/
def readAll (shell : Shell) : List (Nat × String) → Shell × List (Nat × Reply)
  | [] => (shell, [])
  | (fuel, line) :: rest =>
    let result := shell.read fuel line
    let others := result.1.readAll rest
    (others.1, (fuel, result.2) :: others.2)

/-- The texts that lines have led to be run, each with its number of steps. -/
def textsRun (replies : List (Nat × Reply)) : List (Nat × String) :=
  replies.filterMap fun reply => reply.2.entry.map (reply.1, ·)

theorem readAll_append (shell : Shell) (lines more : List (Nat × String)) :
    shell.readAll (lines ++ more) = (((shell.readAll lines).1.readAll more).1,
      (shell.readAll lines).2 ++ ((shell.readAll lines).1.readAll more).2) := by
  induction lines generalizing shell with
  | nil => rfl
  | cons entry rest ih =>
    obtain ⟨fuel, line⟩ := entry
    simp only [List.cons_append, readAll, ih]

theorem InStep.readAll {shell : Shell} (h : shell.InStep) (lines : List (Nat × String)) : (shell.readAll lines).1.InStep := by
  induction lines generalizing shell with
  | nil => exact h
  | cons entry rest ih => exact ih (h.read entry.1 entry.2)

theorem InStep.prompt_iff {shell : Shell} (h : shell.InStep) :
    (shell.prompt = ". " ↔ shell.pending ≠ "") ∧ (shell.prompt = "> " ↔ shell.pending = "") := by
  rcases h with ⟨hpending, hprompt⟩ | ⟨hpending, hprompt⟩ <;> simp [hpending, hprompt]

/-- Lines of which the first ones always leave a block open. -/
def Open (texts : List String) : Prop :=
  ∀ first, first <+: texts → first ≠ [] → needsContinuation (unlines first) = true

/-- Lines that close all their blocks, the last of them for the first time. -/
structure Closes (texts : List String) : Prop where
  nonempty : texts ≠ []
  closed : needsContinuation (unlines texts) = false
  before : ∀ first, first <+: texts → first ≠ texts → first ≠ [] → needsContinuation (unlines first) = true

/-- Lines of program text, divided into those of each source and those held back. -/
def Divides (texts sources : List String) (pending : String) : Prop :=
  ∃ (groups : List (List String)) (held : List String), texts = groups.flatten ++ held ∧
    sources = groups.map unlines ∧ pending = unlines held ∧ (∀ group ∈ groups, Closes group) ∧ Open held

section Divides
variable {texts sources : List String} {pending text : String}

theorem Divides.join (h : Divides texts sources pending) : String.join sources ++ pending = unlines texts := by
  obtain ⟨groups, held, rfl, rfl, rfl, -, -⟩ := h
  rw [unlines_append, unlines_flatten]

theorem Divides.needsContinuation (h : Divides texts sources pending) (hpending : pending ≠ "") :
    needsContinuation pending = true := by
  obtain ⟨groups, held, rfl, rfl, rfl, -, hopen⟩ := h
  refine hopen held List.prefix_rfl ?_
  rintro rfl
  exact hpending rfl

theorem Divides.hold (h : Divides texts sources pending) (hopen : Shell.needsContinuation (pending ++ (text ++ "\n")) = true) :
    Divides (texts ++ [text]) sources (pending ++ (text ++ "\n")) := by
  obtain ⟨groups, held, rfl, rfl, rfl, hgroups, hheld⟩ := h
  rw [unlines_concat] at hopen ⊢
  refine ⟨groups, held ++ [text], List.append_assoc .., rfl, rfl, hgroups, fun first hfirst hne => ?_⟩
  rcases List.prefix_concat_iff.mp hfirst with rfl | hfirst
  · exact hopen
  · exact hheld first hfirst hne

theorem Divides.run (h : Divides texts sources pending) (hclosed : Shell.needsContinuation (pending ++ (text ++ "\n")) = false) :
    Divides (texts ++ [text]) (sources ++ [pending ++ (text ++ "\n")]) "" := by
  obtain ⟨groups, held, rfl, rfl, rfl, hgroups, hheld⟩ := h
  rw [unlines_concat] at hclosed ⊢
  refine ⟨groups ++ [held ++ [text]], [], by simp, by simp, rfl, fun group hgroup => ?_, fun first hfirst hne => ?_⟩
  · rcases List.mem_append.mp hgroup with hgroup | hgroup
    · exact hgroups group hgroup
    · rw [List.mem_singleton.mp hgroup]
      refine ⟨by simp, hclosed, fun first hfirst hproper hne => ?_⟩
      rcases List.prefix_concat_iff.mp hfirst with rfl | hfirst
      · exact absurd rfl hproper
      · exact hheld first hfirst hne
  · exact absurd (List.prefix_nil.mp hfirst) hne

end Divides

theorem filterMap_concat {α β : Type} (f : α → Option β) (as : List α) (a : α) :
    (as ++ [a]).filterMap f = as.filterMap f ++ (f a).toList := by
  cases h : f a <;> simp [h]

/-- One line more. The lines of program text are divided into those that the session has been given to run and those held
    back, and the session comes from these runs. -/
theorem readAll_step {session : Session} {shell : Shell} {replies : List (Nat × Reply)} {texts : List String}
    (hruns : session.Runs (textsRun replies) shell.session)
    (hdivides : Divides texts ((textsRun replies).map Prod.snd) shell.pending) (fuel : Nat) (line : String) :
    let next := shell.read fuel line
    session.Runs (textsRun (replies ++ [(fuel, next.2)])) next.1.session ∧
      Divides (texts ++ (entryText? line).toList) ((textsRun (replies ++ [(fuel, next.2)])).map Prod.snd) next.1.pending := by
  intro next
  have hanswers : shell.Answers fuel line next.1 next.2.entry := shell.read_answers fuel line
  have htexts : textsRun (replies ++ [(fuel, next.2)]) = textsRun replies ++ (next.2.entry.map (fuel, ·)).toList :=
    filterMap_concat _ _ _
  rw [htexts]
  cases hentry : entryText? line with
  | none =>
    obtain ⟨hnone, hpending, -, reporter, hsession⟩ := hanswers.command hentry
    rw [hnone, hpending, hsession]
    simpa using ⟨hruns.reported reporter, hdivides⟩
  | some text =>
    obtain ⟨-, -, hhold, hrun⟩ := hanswers.text text hentry
    cases hcontinues : Shell.needsContinuation (shell.pending ++ (text ++ "\n")) with
    | true =>
      obtain ⟨hnone, hnext⟩ := hhold hcontinues
      rw [hnone, hnext]
      simpa using ⟨hruns, hdivides.hold hcontinues⟩
    | false =>
      obtain ⟨hsome, hpending, -, ran, result, hresult, hsession⟩ := hrun hcontinues
      have hran := (hruns.reported shell.session.reporter.reset).run fuel (shell.pending ++ (text ++ "\n"))
      have hreset : { shell.session with reporter := shell.session.reporter.reset } = shell.session.reset := rfl
      rw [hreset, hresult] at hran
      rw [hsome, hpending, hsession, List.map_append]
      exact ⟨hran.reported _, hdivides.run hcontinues⟩

theorem readAll_divides (session : Session) (lines : List (Nat × String)) :
    let after := (Shell.start session).readAll lines
    session.Runs (textsRun after.2) after.1.session ∧
      Divides (lines.filterMap fun line => entryText? line.2) ((textsRun after.2).map Prod.snd) after.1.pending := by
  induction lines using List.reverseRecOn with
  | nil =>
    exact ⟨.none, [], [], rfl, rfl, rfl, nofun, fun first hfirst hne => absurd (List.prefix_nil.mp hfirst) hne⟩
  | append_singleton lines line ih =>
    obtain ⟨fuel, line⟩ := line
    obtain ⟨hruns, hdivides⟩ := ih
    rw [readAll_append, filterMap_concat]
    exact readAll_step hruns hdivides fuel line

/-- The shell loses no line of program text and runs none twice. The texts that the session is given to run, and then the
    text held back, are the lines of program text again, each text up to the first line that closes all its blocks. The
    prompt asks for more lines just if a text is held back, and each further line is answered accordingly. -/
theorem shell_keeps_lines (session : Session) (lines : List (Nat × String)) :
    let after := (Shell.start session).readAll lines
    let texts := lines.filterMap fun line => entryText? line.2
    let sources := (textsRun after.2).map Prod.snd
    session.Runs (textsRun after.2) after.1.session ∧
      String.join sources ++ after.1.pending = unlines texts ∧
      Divides texts sources after.1.pending ∧
      (after.1.prompt = ". " ↔ after.1.pending ≠ "") ∧ (after.1.prompt = "> " ↔ after.1.pending = "") ∧
      (after.1.pending ≠ "" → needsContinuation after.1.pending = true) ∧
      ∀ fuel line, after.1.Answers fuel line (after.1.read fuel line).1 (after.1.read fuel line).2.entry := by
  intro after texts sources
  obtain ⟨hruns, hdivides⟩ := readAll_divides session lines
  obtain ⟨hmore, hfirst⟩ := ((inStep_start session).readAll lines).prompt_iff
  exact ⟨hruns, hdivides.join, hdivides, hmore, hfirst, hdivides.needsContinuation, after.1.read_answers⟩

end LoxLanguage.Shell
