import Mathlib
import LoxLanguage.Proofs.Session.Accepted

/-! Static scoping. Distances and frames do for a program what the reference machine does with environments alone: in
every session, an entry that is accepted prints the same, ends the same way and leaves the same globals on both
machines. -/

namespace LoxLanguage

/-- An accepted entry runs as it does on the reference machine that has run the same programs before, for any number of
    steps: with the same outcome, the same lines printed and the same texts of the globals. -/
theorem run_eq_lexical_run {history : History} {s : Session} (h : s.Reached history) {source : String}
    (haccepts : s.Accepts source) (fuel : Nat) :
    let m := (Lexical.Machine.ofProgram (s.program source) (.after s.host history)).run s.host fuel
    ∃ s', s.run fuel source = (s', .ran m.outcome) ∧ s'.state.printed = m.state.printed ∧
      s'.state.globalTexts = m.state.globalTexts := by
  intro m
  obtain ⟨s', m₀, hload⟩ := Session.load_of_accepts haccepts
  have hruns := h.together.runs (Session.loads_of_load hload) fuel
  obtain ⟨homes, hmatch⟩ := hruns.matching
  refine ⟨(s'.finish (m₀.run s'.setting fuel)).1, ?_, hmatch.printed.symm, hmatch.globalTexts.symm⟩
  rw [Session.run_of_load hload, hruns.outcome]
  rfl

/-- A function that is declared in a block before a variable of the block hides a global. -/
def shadowingEntry : String :=
  "var a = \"global\"; \x7b fun show() \x7b print a; \x7d show(); var a = \"block\"; show(); print a; \x7d"

/-- The function goes on to mean the global, although the frame in which it was declared has got a variable of that name. -/
theorem run_eq_lexical_run_shadowing :
    (Session.start ⟨3, fun _ => 0⟩ (.new false false) "").Accepts shadowingEntry ∧
      ∃ s', (Session.start ⟨3, fun _ => 0⟩ (.new false false) "").run 100 shadowingEntry = (s', .ran .completed) ∧
        s'.state.printed = #["global", "global", "block"] ∧
        s'.state.globalTexts = [("a", "global"), ("clock", "<native fn>")] := by
  have haccepts : (Session.start ⟨3, fun _ => 0⟩ (.new false false) "").Accepts shadowingEntry :=
    ⟨by cbv, by cbv, by cbv, by cbv⟩
  obtain ⟨s', hrun, hprinted, hglobals⟩ := run_eq_lexical_run (.start _ _ _) haccepts 100
  refine ⟨haccepts, s', ?_, ?_, ?_⟩
  · rw [hrun]
    congr 2
  · rw [hprinted]
    cbv
  · rw [hglobals]
    cbv

end LoxLanguage
