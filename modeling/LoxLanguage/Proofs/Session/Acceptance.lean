import LoxLanguage.Proofs.Scope.Relabel
import LoxLanguage.Proofs.Session.Accepted

/-! Whether an entry is accepted is a matter of its text alone. A session numbers the uses of an entry on from those of
the entries before it, and that changes neither what parsing nor what resolution reports. -/

namespace LoxLanguage

open Grammar Relabelling

/-- Nothing is reported for a text on its own. -/
structure Accepted (source : String) : Prop where
  scanned : (scan source).2 = []
  parsed : (parse 0 (scan source).1).problems = []
  resolved : (resolve (parse 0 (scan source).1).statements).problems = #[]

/-- A text without syntax errors is a program of the grammar. -/
theorem program_of_parsed {source : String} {first : Site} (h : (parse first (scan source).1).problems = []) :
    ∃ body eof, (scan source).1 = body ++ [eof] ∧ eof.kind = .eof ∧ (∀ t ∈ body, t.kind ≠ .eof ∧ t.Regular) ∧
      Program first body (parse first (scan source).1).statements (parse first (scan source).1).nextSite := by
  obtain ⟨body, eof, htokens, heof, hbody⟩ := scan_tokens source
  refine ⟨body, eof, htokens, heof, hbody, program_of_parse (fun t ht => (hbody t ht).1) heof ?_⟩
  rw [← htokens, ← h]

/-- The uses of a program may be numbered from any site on. -/
theorem parse_elsewhere {source : String} {first : Site} (start : Site)
    (h : (parse first (scan source).1).problems = []) :
    (parse start (scan source).1).problems = [] ∧ (parse start (scan source).1).statements =
      (parse first (scan source).1).statements.map (Stmt.relabel (startingAt first start)) := by
  obtain ⟨body, eof, htokens, heof, hbody, hprogram⟩ := program_of_parsed h
  obtain ⟨-, hprogram⟩ := hprogram.relabel (startingAt_runsFrom first start)
  have hfirst : (startingAt first start).site first = start := by simp [startingAt]
  rw [map_startingAt, hfirst] at hprogram
  have hparse := parse_of_program (fun t ht => (hbody t ht).1) heof hprogram
  rw [← htokens] at hparse
  rw [hparse]
  exact ⟨rfl, rfl⟩

/-- An accepted text has no problems wherever its uses are numbered from. -/
theorem Accepted.elsewhere {source : String} (h : Accepted source) (start : Site) :
    (parse start (scan source).1).problems = [] ∧ (resolve (parse start (scan source).1).statements).problems = #[] := by
  obtain ⟨hproblems, htree⟩ := parse_elsewhere start h.parsed
  rw [htree, problems_relabel, h.resolved, List.map_toArray, List.map_nil]
  exact ⟨hproblems, rfl⟩

namespace Session

variable {s s' : Session} {source : String} {m : Machine}

/-- An entry is accepted exactly if its text is and nothing has been reported before. -/
theorem accepts_iff : s.Accepts source ↔ s.reporter.hadError = false ∧ Accepted source := by
  constructor
  · rintro ⟨hclear, hscanned, hparsed, hresolved⟩
    obtain ⟨hproblems, htree⟩ := parse_elsewhere 0 hparsed
    refine ⟨hclear, hscanned, hproblems, ?_⟩
    rw [program] at hresolved
    rw [htree, problems_relabel, hresolved, List.map_toArray, List.map_nil]
  · rintro ⟨hclear, h⟩
    obtain ⟨hproblems, hquiet⟩ := h.elsewhere s.nextSite
    exact ⟨hclear, h.scanned, hproblems, hquiet⟩

theorem accepts_of_load (h : s.load source = (s', some m)) : s.Accepts source := by
  unfold load at h
  rcases hread : s.parse source with ⟨read, result⟩
  rw [hread] at h
  cases result with
  | none => cases h
  | some parsed =>
    dsimp only at h
    split at h
    · cases h
    · rename_i hclear
      obtain ⟨hclear, hresolved⟩ := Reporter.hadError_problems (Bool.of_not_eq_true hclear)
      obtain ⟨hparsed, hproblems⟩ := parsed_of_parse hread
      unfold parse at hread
      obtain ⟨rfl, -⟩ := Prod.mk.inj hread
      obtain ⟨hclear, -⟩ := Reporter.hadError_problems hclear
      obtain ⟨hclear, hscanned⟩ := Reporter.hadError_problems hclear
      refine ⟨hclear, hscanned, hparsed ▸ hproblems, ?_⟩
      rw [program, ← hparsed]
      exact Array.toList_eq_nil_iff.mp hresolved

/-- An entry whose text has problems does not run. -/
theorem run_rejected (h : ¬ Accepted source) (fuel : Nat) : ∃ s', s.run fuel source = (s', .rejected) := by
  rcases hload : s.load source with ⟨s', loaded⟩
  cases loaded with
  | none => exact ⟨s', by rw [run, hload]⟩
  | some m => exact absurd (accepts_iff.mp (accepts_of_load hload)).2 h

end Session

end LoxLanguage
