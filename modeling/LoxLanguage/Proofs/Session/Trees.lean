import LoxLanguage.Proofs.Lexical.Changed
import LoxLanguage.Proofs.Lexical.Parallel
import LoxLanguage.Proofs.Session.Acceptance

/-! Programs in a session that need not come from a text. A tree runs in a session as the entry does whose text it comes
from (`run_eq_runTree`). A variant of an accepted entry that is resolved without a problem runs as the entry does:
its runs end like those of the entry, and if it has no blocks of its own, it is like the entry after each number of steps. -/

namespace LoxLanguage

namespace Session

variable {s : Session} {source : String}

/-- Runs the statements of a tree for at most `fuel` steps. -/
def runTree (s : Session) (program : List Stmt) (fuel : Nat) : Machine :=
  (Machine.ofProgram program s.state).run
    ⟨s.distances.insertAll (resolve program).distances.toList, s.host.callLimit, s.host.clock⟩ fuel

/-- An accepted entry runs as the tree of its text. -/
theorem run_eq_runTree (h : s.Accepts source) (fuel : Nat) :
    (s.run fuel source).2 = .ran (s.runTree (s.program source) fuel).outcome ∧
      (s.run fuel source).1.state = (s.runTree (s.program source) fuel).rest := by
  rw [run_of_load (load_eq_of_accepts h) fuel]
  exact ⟨rfl, rfl⟩

/-- A tree can run: its uses are at sites that are still free, and resolving finds no problem. -/
structure Admits (s : Session) (program : List Stmt) : Prop where
  ranged : ∃ next, Ranged s.nextSite next (points program)
  quiet : (resolve program).problems = #[]

theorem Accepts.admits (h : s.Accepts source) : s.Admits (s.program source) := by
  obtain ⟨s', m, hload⟩ := load_of_accepts h
  have hloads := loads_of_load hload
  exact ⟨⟨_, orderly_iff_ranged.mp hloads.orderly⟩, hloads.quiet⟩

/-- No point of an accepted entry breaks a rule. -/
theorem Accepts.quiet (h : s.Accepts source) : ∀ p ∈ points (s.program source), p.violations = [] := by
  have hproblems := problems_eq_points (s.program source)
  rw [h.resolved, eq_comm, List.flatMap_eq_nil_iff] at hproblems
  exact hproblems

end Session

/-! ### On both machines -/

theorem Together.runTree {programs : List (List Stmt)} {s : Session} {t : Lexical.State} {program : List Stmt}
    (h : Together programs s t) (hadmits : s.Admits program) :
    ∃ distances, (∀ v, Visited (program :: programs) v → v.Fine distances) ∧
      ∀ fuel, Simulates (Visited (program :: programs)) (s.runTree program fuel)
        ((Lexical.Machine.ofProgram program t).run s.host fuel) := by
  obtain ⟨next, hranged⟩ := hadmits.ranged
  have htabled := h.tabled.add (orderly_iff_ranged.mpr hranged) hadmits.quiet
  exact ⟨_, htabled.fine, fun fuel => (h.begins program).run htabled.fine fuel⟩

/-- A local variable that the reference machine is about to read has a value. -/
theorem Simulates.reads {P : Visit → Prop} {distances : Distances} {m : Machine} {m' : Lexical.Machine}
    (hfine : ∀ v, P v → v.Fine distances) (h : Simulates P m m') : m'.Reads := by
  intro site name K l hcontrol hfind
  cases h with
  | failing _ hc => cases hc <;> cases hcontrol
  | active h hc =>
    cases hc with
    | @eval e _ _ he =>
      cases hcontrol
      obtain ⟨r, rfl, hvisits⟩ := he
      have hself := hfine _ (hvisits _ (List.mem_singleton_self _))
      cases hd : r.scopes.findIdx? (·.has name.lexeme) with
      | none =>
        have hnone := h.stands.sees.find?_eq_none hd
        rw [hnone] at hfind
        cases hfind
      | some d =>
        obtain ⟨g, l', scope, -, -, hhome, hknown, hscope, hbound⟩ := h.stands.sees.at_distance hd
        obtain rfl : l' = l := Option.some.inj (hknown.symm.trans hfind)
        have hvalue := hbound (hself.use_readable d scope hd hscope)
        have hcell := h.matching.heap.content g name.lexeme l' hhome
        simpa [Lexical.State.content?, hcell] using hvalue
    | give => cases hcontrol
    | exec => cases hcontrol
    | ended => cases hcontrol

/-! ### Variants -/

/-- Two runs that cannot be told apart from outside. -/
structure Machine.EndsAlike (m m' : Machine) : Prop where
  outcome : m'.outcome = m.outcome
  printed : m'.state.printed = m.state.printed
  globalTexts : m'.state.globalTexts = m.state.globalTexts

/-- What cannot be told apart on the reference machine cannot be told apart on the machine. -/
theorem Machine.EndsAlike.of_simulates {P P' : Visit → Prop} {m m' : Machine} {l l' : Lexical.Machine}
    (h : Simulates P m l) (h' : Simulates P' m' l') (halike : l.EndsAlike l') : m.EndsAlike m' := by
  obtain ⟨homes, hmatch⟩ := h.matching
  obtain ⟨homes', hmatch'⟩ := h'.matching
  refine ⟨?_, ?_, ?_⟩
  · rw [← h.outcome, ← h'.outcome, halike.outcome]
  · rw [← hmatch.printed, ← hmatch'.printed, halike.printed]
  · rw [← hmatch.globalTexts, ← hmatch'.globalTexts, halike.globalTexts]

namespace Session.Reached

variable {history : History} {s : Session} {program program' : List Stmt} {wraps : Prop}

/-- The reference machine on a program and on a variant, begun in the state after a history. -/
theorem parallel (h : s.Reached history) (hvariant : Stmt.VariantAll wraps .top Eq program program') :
    Lexical.Machine.Parallel wraps (.ofProgram program (.after s.host history))
      (.ofProgram program' (.after s.host history)) := by
  have htogether := h.together
  obtain ⟨homes, hmatch⟩ := htogether.matching
  have halike : (Lexical.State.after s.host history).Alike wraps (.after s.host history) :=
    hmatch.alike_refl fun v hv => (htogether.tabled.fine v hv).proper
  have hplace : Level.top.At Eq (Lexical.State.after s.host history).environment _ :=
    ⟨.refl _, htogether.environment, htogether.environment⟩
  exact .ended halike hplace (.program hvariant)

/-- The runs of a variant end like those of the program, and those of the program like those of the variant. -/
theorem finished (h : s.Reached history) (hadmits : s.Admits program) (hadmits' : s.Admits program')
    (hvariant : Stmt.VariantAll wraps .top Eq program program') :
    (∀ fuel, (s.runTree program fuel).outcome ≠ .unfinished →
        ∃ fuel', (s.runTree program fuel).EndsAlike (s.runTree program' fuel')) ∧
      ∀ fuel', (s.runTree program' fuel').outcome ≠ .unfinished →
        ∃ fuel, (s.runTree program fuel).EndsAlike (s.runTree program' fuel') := by
  obtain ⟨distances, hfine, hruns⟩ := h.together.runTree hadmits
  obtain ⟨-, -, hruns'⟩ := h.together.runTree hadmits'
  have hparallel := h.parallel hvariant
  have hreads := fun n => (hruns n).reads hfine
  refine ⟨fun fuel hfinished => ?_, fun fuel' hfinished => ?_⟩
  · rw [← (hruns fuel).outcome] at hfinished
    obtain ⟨fuel', halike⟩ := hparallel.finished hreads hfinished
    exact ⟨fuel', .of_simulates (hruns fuel) (hruns' fuel') halike⟩
  · rw [← (hruns' fuel').outcome] at hfinished
    obtain ⟨fuel, halike⟩ := hparallel.finished_of_variant hreads hfinished
    exact ⟨fuel, .of_simulates (hruns fuel) (hruns' fuel') halike⟩

/-- A variant without blocks of its own is like the program after each number of steps. -/
theorem lockstep (h : s.Reached history) (hadmits : s.Admits program) (hadmits' : s.Admits program')
    (hvariant : Stmt.VariantAll False .top Eq program program') (fuel : Nat) :
    (s.runTree program fuel).EndsAlike (s.runTree program' fuel) := by
  obtain ⟨distances, hfine, hruns⟩ := h.together.runTree hadmits
  obtain ⟨-, -, hruns'⟩ := h.together.runTree hadmits'
  have halike := (h.parallel hvariant).lockstep (fun n => (hruns n).reads hfine) id fuel
  exact .of_simulates (hruns fuel) (hruns' fuel) halike

end Session.Reached

end LoxLanguage
