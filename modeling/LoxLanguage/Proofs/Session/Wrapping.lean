import Mathlib
import LoxLanguage.Proofs.Scope.Wrapping
import LoxLanguage.Proofs.Session.Trees

/-! A block around a statement of an accepted entry cannot be seen from outside, although it puts one more scope around
every function value that is made in the statement. -/

namespace LoxLanguage

section Wrapping
variable {s : Session} {source : String} {statement : Stmt} {program' : List Stmt}

/-- What the parser says of the points of a statement in a program holds when the statement stands alone. -/
theorem WrapsAt.forall_alone {ps ps' : List Point} (h : WrapsAt statement ps ps') {good : Node → Prop}
    (hgood : ∀ p ∈ ps, good p.node) : ∀ p ∈ statement.points .top, good p.node := by
  obtain ⟨before, before', qs, qs', after, after', rfl, -, -, ⟨outer, rfl, -⟩, -⟩ := h.place
  intro p hp
  refine hgood (p.within outer) ?_
  exact List.mem_append_right _ (List.mem_append_left _ (List.mem_map_of_mem hp))

/-- What resolving finds in a program with a block around a statement. -/
theorem resolve_wrapped (haccepts : s.Accepts source) (hdeclared : statement.declared? = none)
    (hwrapped : statement.WrappedIn (s.program source) program') :
    s.Admits program' ∧ (resolve program').distances =
      (resolve (s.program source)).distances.map fun e => (e.1, if statement.LeavesFree e.1 then e.2 + 1 else e.2) := by
  obtain ⟨next, hranged⟩ := haccepts.admits.ranged
  have hplace := wrapsAt_points hwrapped hdeclared hranged.proper
  have hregular := scan_regular source
  have hproper : ∀ p ∈ statement.points .top, p.node.Proper (scan source).1 :=
    hplace.forall_alone (parse_laid s.nextSite (scan source).1).proper
  have hthis : ∀ p ∈ statement.points .top, ∀ site keyword, p.node = .expr (.this site keyword) → keyword.lexeme = "this" := by
    intro p hp site keyword hnode
    have hkeyword := hproper p hp
    rw [hnode] at hkeyword
    exact (hregular _ hkeyword.1).1 hkeyword.2
  refine ⟨⟨⟨next, hplace.ranged hranged⟩, ?_⟩, ?_⟩
  · have hnone := List.flatMap_eq_nil_iff.mpr (hplace.violations_eq_nil haccepts.quiet)
    rw [← problems_eq_points] at hnone
    exact Array.toList_eq_nil_iff.mp hnone
  · have hnested := Stmt.points_thisScoped hregular statement (c := .top) .nil hproper
    have hentries := hplace.entries_eq hranged hnested hthis
    rw [← distances_eq_points, ← distances_eq_points] at hentries
    refine Array.toList_inj.mp ?_
    rw [hentries, Array.toList_map]

theorem variant_of_wrapped (haccepts : s.Accepts source) (hdeclared : statement.declared? = none)
    (hwrapped : statement.WrappedIn (s.program source) program') :
    Stmt.VariantAll True .top Eq (s.program source) program' := by
  obtain ⟨next, hranged⟩ := haccepts.admits.ranged
  refine Stmt.ChangedAll.variant (Stmt.wraps_replacement hdeclared) (fun _ => id) ?_ nofun nofun hwrapped (c := .top) rfl
    hranged.proper
  rintro _ _ c pos ⟨rfl, rfl⟩ - hregular
  exact .wrap trivial (Stmt.variant_refl _ hregular fun _ => hdeclared)

end Wrapping

/-- A block may be put around any statement of an accepted entry that declares nothing, at the top level, in a block or a
    body, or under a branch or a loop. The program is still accepted, the distances of the uses in the statement that are
    bound outside of it grow by one and no others change, and each run that ends on one side has a run on the other side
    that ends in the same way, with the same lines printed and the same texts of the globals. -/
theorem wrapping_invisible {history : History} {s : Session} (h : s.Reached history) {source : String}
    (haccepts : s.Accepts source) {statement : Stmt} (hdeclared : statement.declared? = none) {program' : List Stmt}
    (hwrapped : statement.WrappedIn (s.program source) program') :
    (resolve program').problems = #[] ∧
      (resolve program').distances = (resolve (s.program source)).distances.map
        (fun e => (e.1, if statement.LeavesFree e.1 then e.2 + 1 else e.2)) ∧
      (∀ fuel, (s.runTree (s.program source) fuel).outcome ≠ .unfinished →
        ∃ fuel', (s.runTree (s.program source) fuel).EndsAlike (s.runTree program' fuel')) ∧
      ∀ fuel', (s.runTree program' fuel').outcome ≠ .unfinished →
        ∃ fuel, (s.runTree (s.program source) fuel).EndsAlike (s.runTree program' fuel') := by
  obtain ⟨hadmits, hdistances⟩ := resolve_wrapped haccepts hdeclared hwrapped
  have hvariant := variant_of_wrapped haccepts hdeclared hwrapped
  exact ⟨hadmits.quiet, hdistances, h.finished haccepts.admits hadmits hvariant⟩

/-- A function that adds to a variable of the block around it. -/
def addingText : String :=
  "\x7b var a = \"x\"; fun f() \x7b a = a + \"y\"; \x7d f(); print a; \x7d"

/-- The assignment in that function. -/
def addingStatement : Stmt :=
  .expression (.assign 0 ⟨.identifier, "a", .nil, 1⟩
    (.binary (.use 1 ⟨.identifier, "a", .nil, 1⟩) ⟨.plus, "+", .nil, 1⟩ (.literal (.text "y"))))

/-- The program of that text, with a statement in place of the assignment. -/
def addingProgram (inner : Stmt) : List Stmt :=
  [.block [.declareVariable ⟨.identifier, "a", .nil, 1⟩ (some (.literal (.text "x"))),
    .declareFunction (.mk ⟨.identifier, "f", .nil, 1⟩ [] [inner]),
    .expression (.call (.use 2 ⟨.identifier, "f", .nil, 1⟩) ⟨.rightParen, ")", .nil, 1⟩ []),
    .print (.use 3 ⟨.identifier, "a", .nil, 1⟩)]]

theorem addingStatement_wrappedIn :
    addingStatement.WrappedIn (addingProgram addingStatement) (addingProgram (.block [addingStatement])) := by
  refine @Stmt.ChangedAll.among _ _ [] _ _ [] (.block ?_)
  refine @Stmt.ChangedAll.among _ _ [_] _ _ [_, _] (.function (.body ?_))
  exact @Stmt.ChangedAll.among _ _ [] _ _ [] (.here ⟨rfl, rfl⟩)

/-- The two uses in the assignment are one scope further away from their variable, and the same is printed. -/
theorem wrapping_invisible_adding :
    (Session.start ⟨3, fun _ => 0⟩ (.new false false) "").Accepts addingText ∧
      (resolve (addingProgram addingStatement)).distances = #[(1, 1), (0, 1), (2, 0), (3, 0)] ∧
      (resolve (addingProgram (.block [addingStatement]))).distances = #[(1, 2), (0, 2), (2, 0), (3, 0)] ∧
      ∃ fuel,
        ((Session.start ⟨3, fun _ => 0⟩ (.new false false) "").runTree
          (addingProgram (.block [addingStatement])) fuel).outcome = .completed ∧
        ((Session.start ⟨3, fun _ => 0⟩ (.new false false) "").runTree
          (addingProgram (.block [addingStatement])) fuel).state.printed = #["xy"] := by
  have haccepts : (Session.start ⟨3, fun _ => 0⟩ (.new false false) "").Accepts addingText := ⟨by cbv, by cbv, by cbv, by cbv⟩
  have hprogram : (Session.start ⟨3, fun _ => 0⟩ (.new false false) "").program addingText = addingProgram addingStatement := by cbv
  have hwrapped := addingStatement_wrappedIn
  rw [← hprogram] at hwrapped
  obtain ⟨-, hdistances, hruns, -⟩ := wrapping_invisible (.start _ _ _) haccepts rfl hwrapped
  rw [hprogram] at hdistances hruns
  have hplain : (resolve (addingProgram addingStatement)).distances = #[(1, 1), (0, 1), (2, 0), (3, 0)] := by cbv
  have hcompleted : ((Session.start ⟨3, fun _ => 0⟩ (.new false false) "").runTree (addingProgram addingStatement) 60).outcome =
      .completed := by cbv
  have hprinted : ((Session.start ⟨3, fun _ => 0⟩ (.new false false) "").runTree (addingProgram addingStatement) 60).state.printed =
      #["xy"] := by cbv
  obtain ⟨fuel, halike⟩ := hruns 60 (by simp [hcompleted])
  refine ⟨haccepts, hplain, ?_, fuel, ?_, ?_⟩
  · rw [hdistances, hplain]
    cbv
  · rw [halike.outcome, hcompleted]
  · rw [halike.printed, hprinted]

end LoxLanguage
