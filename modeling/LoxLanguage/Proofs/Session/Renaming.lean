import Mathlib
import LoxLanguage.Proofs.Lexical.Renaming
import LoxLanguage.Proofs.Session.Trees

/-! Another name for a local variable or a parameter of an accepted entry cannot be seen from outside. -/

namespace LoxLanguage

section Renaming
variable {s : Session} {source : String} {new : String} {program' : List Stmt}

/-- What resolving finds in a program with another name for a variable. -/
theorem resolve_renamed (haccepts : s.Accepts source) (hfresh : ∀ t ∈ (scan source).1, t.lexeme ≠ new) (hthis : new ≠ "this")
    (hrenames : Renames new (s.program source) program') :
    s.Admits program' ∧ (resolve program').distances = (resolve (s.program source)).distances := by
  obtain ⟨next, hranged⟩ := haccepts.admits.ranged
  have halike : AllAlike (points (s.program source)) (points program') :=
    hrenames.allAlike (scan_regular source) hfresh hthis hranged haccepts.quiet
  refine ⟨⟨⟨next, hranged.le, ?_, ?_, halike.regular hranged.proper⟩, ?_⟩, ?_⟩
  · rw [halike.sites_eq]
    exact hranged.nodup
  · rw [halike.sites_eq]
    exact hranged.bounds
  · have hnone := List.flatMap_eq_nil_iff.mpr (halike.violations_eq_nil haccepts.quiet)
    rw [← problems_eq_points] at hnone
    exact Array.toList_eq_nil_iff.mp hnone
  · refine Array.toList_inj.mp ?_
    rw [distances_eq_points, distances_eq_points, halike.entries_eq]

end Renaming

/-- A local variable or a parameter of an accepted entry may be given any name that does not occur in the text, together with
    the uses that resolution binds to it. The program is still accepted, the same distances are noted at the same uses,
    and after each number of steps the run has come to the same: the outcome, with the message and the line of an error,
    the lines printed and the texts of the globals. -/
theorem renaming_invisible {history : History} {s : Session} (h : s.Reached history) {source : String}
    (haccepts : s.Accepts source) {new : String} (hfresh : ∀ t ∈ (scan source).1, t.lexeme ≠ new) (hthis : new ≠ "this")
    {program' : List Stmt} (hrenames : Renames new (s.program source) program') :
    (resolve program').problems = #[] ∧ (resolve program').distances = (resolve (s.program source)).distances ∧
      ∀ fuel, (s.runTree (s.program source) fuel).EndsAlike (s.runTree program' fuel) := by
  obtain ⟨next, hranged⟩ := haccepts.admits.ranged
  obtain ⟨hadmits, hdistances⟩ := resolve_renamed haccepts hfresh hthis hrenames
  have hvariant : Stmt.VariantAll False .top Eq (s.program source) program' :=
    hrenames.variantAll (scan_regular source) hfresh hthis hranged haccepts.quiet
  exact ⟨hadmits.quiet, hdistances, h.lockstep haccepts.admits hadmits hvariant⟩

/-- A parameter with the name of a global variable and of a variable in the body. -/
def shadowedText : String :=
  "var a=\"g\"; fun f(a)\x7bprint a; \x7bvar a=\"i\"; print a;\x7d\x7d f(\"p\"); print a;"

/-- The body of that function, with a name for the parameter. -/
def shadowedBody (name : String) : List Stmt :=
  [.print (.use 0 ⟨.identifier, name, .nil, 1⟩),
    .block [.declareVariable ⟨.identifier, "a", .nil, 1⟩ (some (.literal (.text "i"))),
      .print (.use 1 ⟨.identifier, "a", .nil, 1⟩)]]

/-- The program of that text, with a name for the parameter. -/
def shadowedProgram (name : String) : List Stmt :=
  [.declareVariable ⟨.identifier, "a", .nil, 1⟩ (some (.literal (.text "g"))),
    .declareFunction (.mk ⟨.identifier, "f", .nil, 1⟩ [⟨.identifier, name, .nil, 1⟩] (shadowedBody name)),
    .expression (.call (.use 2 ⟨.identifier, "f", .nil, 1⟩) ⟨.rightParen, ")", .nil, 1⟩ [.literal (.text "p")]),
    .print (.use 3 ⟨.identifier, "a", .nil, 1⟩)]

theorem shadowedProgram_renames : Renames "b" (shadowedProgram "a") (shadowedProgram "b") := by
  have hbody : Stmt.renameAll ⟨distanceTable (shadowedProgram "a"), "a", "b"⟩ 0 (shadowedBody "a") = shadowedBody "b" := by cbv
  have hparameter := @Renaming.OfRoutine.ofParameter ⟨distanceTable (shadowedProgram "a"), "a", "b"⟩
    ⟨.identifier, "f", .nil, 1⟩ [] ⟨.identifier, "a", .nil, 1⟩ [] (shadowedBody "a") rfl
  rw [hbody] at hparameter
  exact ⟨"a", @Stmt.ChangedAll.among _ _ [_] _ _ [_, _] (.function (.here hparameter))⟩

/-- Only the first of three uses of the name is one of the parameter. -/
theorem renaming_invisible_shadowed :
    (Session.start ⟨3, fun _ => 0⟩ (.new false false) "").Accepts shadowedText ∧
      (∀ t ∈ (scan shadowedText).1, t.lexeme ≠ "b") ∧
      (resolve (shadowedProgram "b")).distances = #[(0, 0), (1, 0)] ∧
      ((Session.start ⟨3, fun _ => 0⟩ (.new false false) "").runTree (shadowedProgram "b") 60).outcome = .completed ∧
      ((Session.start ⟨3, fun _ => 0⟩ (.new false false) "").runTree (shadowedProgram "b") 60).state.printed =
        #["p", "i", "g"] := by
  have haccepts : (Session.start ⟨3, fun _ => 0⟩ (.new false false) "").Accepts shadowedText := ⟨by cbv, by cbv, by cbv, by cbv⟩
  have hprogram : (Session.start ⟨3, fun _ => 0⟩ (.new false false) "").program shadowedText = shadowedProgram "a" := by cbv
  have hfresh : ∀ t ∈ (scan shadowedText).1, t.lexeme ≠ "b" := by
    have hlexemes : ((scan shadowedText).1.map Token.lexeme).contains "b" = false := by cbv
    intro t ht heq
    rw [List.contains_eq_mem, decide_eq_false_iff_not] at hlexemes
    exact hlexemes (heq ▸ List.mem_map_of_mem ht)
  have hrenames := shadowedProgram_renames
  rw [← hprogram] at hrenames
  obtain ⟨-, hdistances, hruns⟩ := renaming_invisible (.start _ _ _) haccepts hfresh (by decide) hrenames
  rw [hprogram] at hdistances hruns
  have hplain : (resolve (shadowedProgram "a")).distances = #[(0, 0), (1, 0)] := by cbv
  have hcompleted : ((Session.start ⟨3, fun _ => 0⟩ (.new false false) "").runTree (shadowedProgram "a") 60).outcome =
      .completed := by cbv
  have hprinted : ((Session.start ⟨3, fun _ => 0⟩ (.new false false) "").runTree (shadowedProgram "a") 60).state.printed =
      #["p", "i", "g"] := by cbv
  refine ⟨haccepts, hfresh, ?_, ?_, ?_⟩
  · rw [hdistances, hplain]
  · rw [(hruns 60).outcome, hcompleted]
  · rw [(hruns 60).printed, hprinted]

end LoxLanguage
