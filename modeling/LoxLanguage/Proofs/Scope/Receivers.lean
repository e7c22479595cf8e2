import Mathlib
import LoxLanguage.Proofs.Scope.Nodes
import LoxLanguage.Proofs.Scope.Table

/-! The name `this` in accepted programs. No declaration and no parameter has it, and it is used only where a scope around
has it, which is that of the methods of a class. -/

namespace LoxLanguage

/-- What is declared is not `this`, and a use of it finds a scope. -/
def Visit.KeepsThis : Visit → Prop
  | .expr (.this _ keyword) r => (r.distance? keyword.lexeme).isSome = true
  | .stmt (.declareClass name _) _ => name.lexeme ≠ "this"
  | .routine f _ _ => f.name.lexeme ≠ "this" ∧ ∀ name ∈ f.parameters, name.lexeme ≠ "this"
  | _ => True

section Accepted
variable {first n m : Site} {tokens : List Token}

/-- In an accepted program a distance is noted at each use of `this`. -/
theorem Point.exists_entry_this (hts : ∀ t ∈ tokens, t.Regular) {site : Site} {keyword : Token} {c : Context}
    (hproper : (Node.expr (.this site keyword)).Proper tokens) (hscoped : ThisScoped c.layers)
    (hquiet : Point.violations ⟨.expr (.this site keyword), c⟩ = []) :
    ∃ d, (site, d) ∈ Point.entries ⟨.expr (.this site keyword), c⟩ := by
  have hlexeme : keyword.lexeme = "this" := (hts keyword hproper.1).1 hproper.2
  have hmethod : c.inMethod = true := by
    by_contra hnot
    simp [Point.violations, hnot] at hquiet
  have hsome := hscoped.distance?_this
  rw [hmethod, Option.isSome_iff_exists] at hsome
  obtain ⟨d, hd⟩ := hsome
  exact ⟨d, by simp [Point.entries, Point.entry, hmethod, hlexeme, hd]⟩

/-- Accepted programs leave `this` to the methods. -/
theorem keepsThis_of_quiet (hts : ∀ t ∈ tokens, t.Regular)
    (horderly : Visit.Orderly n m (Stmt.visitsAll (parse first tokens).statements .start))
    (hquiet : (resolve (parse first tokens).statements).problems = #[]) :
    ∀ v ∈ Stmt.visitsAll (parse first tokens).statements .start, v.KeepsThis := by
  have hlaid := parse_laid first tokens
  have hcomplaints := Visit.complaints_of_quiet hquiet
  have hdistances := (Visit.distances_eq (parse first tokens).statements).symm.trans
    (distances_eq_points (parse first tokens).statements)
  generalize (parse first tokens).statements = program at *
  intro v hv
  obtain ⟨⟨node, c⟩, hp, hnode⟩ : ∃ p ∈ points program, p.node = v.node := by
    have hmem := List.mem_map_of_mem (f := Visit.node) hv
    rw [Stmt.pointsAll_nodes program .start .top] at hmem
    exact List.mem_map.mp hmem
  obtain rfl : node = v.node := hnode
  have hproper : v.node.Proper tokens := hlaid.proper _ hp
  cases v with
  | stmt s r =>
    cases s with
    | declareClass name methods => exact Token.IsFrom.ne_this hproper hts
    | _ => trivial
  | routine f enclosing r =>
    exact ⟨hproper.1.ne_this hts, fun name hname => (hproper.2 name hname).ne_this hts⟩
  | expr e r =>
    cases e with
    | this site keyword =>
      have hviolations : Point.violations ⟨.expr (.this site keyword), c⟩ = [] := by
        have hnone := problems_eq_points program
        rw [hquiet] at hnone
        exact List.flatMap_eq_nil_iff.mp hnone.symm _ hp
      have hscoped := Stmt.pointsAll_thisScoped hts program .nil hlaid.proper _ hp _ rfl
      obtain ⟨d, hd⟩ := Point.exists_entry_this hts hproper hscoped hviolations
      -- The visit at which this distance is noted has the same site.
      have hmem : (site, d) ∈ (Stmt.visitsAll program .start).flatMap Visit.entries := by
        rw [hdistances]
        exact List.mem_flatMap.mpr ⟨_, hp, hd⟩
      obtain ⟨w, hw, hentry⟩ := List.mem_flatMap.mp hmem
      obtain ⟨hsite, hdistance⟩ := (Visit.mem_entries (hcomplaints w hw)).mp hentry
      have hsame : w = .expr (.this site keyword) r := horderly.eq_of_site hw hv hsite rfl
      rw [hsame] at hdistance
      exact Option.isSome_of_eq_some hdistance
    | _ => trivial

end Accepted

end LoxLanguage
