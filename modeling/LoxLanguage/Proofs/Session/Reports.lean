import Mathlib
import LoxLanguage.Proofs.Session.Acceptance

/-! What is reported for an entry: the problems that scanning and parsing find or, if there are none, those of resolution.
Nothing else is reported before the entry runs, and it runs exactly if there are no problems. -/

namespace LoxLanguage

namespace Reporter

theorem problems_append (r : Reporter) (found more : List Problem) :
    r.problems (found ++ more) = (r.problems found).problems more :=
  List.foldl_append

theorem hadError_problems_eq (r : Reporter) (found : List Problem) :
    (r.problems found).hadError = (r.hadError || !found.isEmpty) := by
  cases found with
  | nil => exact (Bool.or_false _).symm
  | cons p rest =>
    cases hflag : (r.problems (p :: rest)).hadError with
    | true => simp
    | false => cases (hadError_problems hflag).2

end Reporter

namespace Session

variable {s : Session} {source : String}

/-- What scanning and parsing complain about. -/
def syntaxProblems (s : Session) (source : String) : List Problem :=
  (scan source).2 ++ (LoxLanguage.parse s.nextSite (scan source).1).problems

/-- The problems that an entry is reported for. As long as the flag for static errors is set, there is no resolution. -/
def problems (s : Session) (source : String) : List Problem :=
  if s.reporter.hadError || !(s.syntaxProblems source).isEmpty then s.syntaxProblems source
  else (resolve (s.program source)).problems.toList

theorem parse_eq (s : Session) (source : String) :
    s.parse source =
      ({ s with reporter := (s.reporter.register s.path source).problems (s.syntaxProblems source) },
        if s.reporter.hadError || !(s.syntaxProblems source).isEmpty then none
        else some (LoxLanguage.parse s.nextSite (scan source).1)) := by
  have hflag := Reporter.hadError_problems_eq (s.reporter.register s.path source) (s.syntaxProblems source)
  rw [syntaxProblems, Reporter.problems_append] at hflag
  rw [parse, syntaxProblems, Reporter.problems_append]
  dsimp only
  rw [hflag]
  rfl

theorem reporter_load (s : Session) (source : String) :
    (s.load source).1.reporter = (s.reporter.register s.path source).problems (s.problems source) := by
  rw [load, problems, parse_eq]
  split
  · rename_i hnone
    split at hnone
    · obtain ⟨rfl, -⟩ := Prod.mk.inj hnone
      rw [if_pos (by assumption)]
    · cases (Prod.mk.inj hnone).2
  · rename_i read parsed hsome
    split at hsome
    · cases (Prod.mk.inj hsome).2
    · rename_i hquiet
      obtain ⟨rfl, hparsed⟩ := Prod.mk.inj hsome
      cases hparsed
      rw [if_neg hquiet]
      simp only [Bool.not_eq_true, Bool.or_eq_false_iff, Bool.not_eq_false', List.isEmpty_iff] at hquiet
      rw [hquiet.2]
      dsimp only
      split <;> rfl

theorem accepts_iff_problems : s.Accepts source ↔ s.reporter.hadError = false ∧ s.problems source = [] := by
  constructor
  · rintro ⟨hclear, hscanned, hparsed, hresolved⟩
    simp [problems, syntaxProblems, hclear, hscanned, hparsed, hresolved]
  · rintro ⟨hclear, hnone⟩
    unfold problems at hnone
    split at hnone
    · rename_i hfound
      simp [hclear, hnone] at hfound
    · rename_i hquiet
      simp [hclear, syntaxProblems] at hquiet
      exact ⟨hclear, hquiet.1, hquiet.2, Array.toList_eq_nil_iff.mp hnone⟩

/-- Running an entry reports nothing; an error that ends it is reported by the guard. -/
theorem reporter_run (s : Session) (fuel : Nat) (source : String) :
    (s.run fuel source).1.reporter = (s.reporter.register s.path source).problems (s.problems source) := by
  rw [← reporter_load, run]
  split <;> simp [*, finish]

end Session

end LoxLanguage
