import Mathlib
import LoxLanguage.Proofs.Parser.Trees

/-! The walk of the resolver goes through the nodes at the points of a program, in the same order. So the sites of a walk,
and what the grammar says of its nodes, can be read off the points. -/

namespace LoxLanguage

/-- The node of a visit. -/
def Visit.node : Visit → Node
  | .expr e _ => .expr e
  | .stmt s _ => .stmt s
  | .routine f _ _ => .routine f

namespace Node

/-- The site of a use. -/
def site? : Node → Option Site
  | .expr e => e.use?.map Use.site
  | _ => none

/-- What the grammar says of a node, wherever it stands. -/
def Regular : Node → Prop
  | .expr e => (Visit.expr e .start).Proper
  | .stmt s => (Visit.stmt s .start).Proper
  | .routine _ => True

end Node

theorem Visit.site?_eq (v : Visit) : v.site? = v.node.site? := by
  cases v with
  | expr e r => cases e <;> rfl
  | stmt s r => rfl
  | routine f enclosing r => rfl

theorem Visit.proper_iff (v : Visit) : v.Proper ↔ v.node.Regular := by
  cases v with
  | expr e r => cases e <;> rfl
  | stmt s r => cases s <;> rfl
  | routine f enclosing r => rfl

theorem Point.site?_eq (p : Point) : p.site? = p.node.site? := by
  obtain ⟨node, c⟩ := p
  cases node <;> rfl

/-! ### The same nodes -/

mutual

theorem Expr.visits_nodes : ∀ (e : Expr) (r : Resolution), (e.visits r).map Visit.node = e.parts.map Node.expr
  | .literal _, _ | .use _ _, _ | .this _ _, _ => rfl
  | .unary _ operand, r => by simp [Expr.visits, Expr.parts, Visit.node, operand.visits_nodes r]
  | .binary left _ right, r => by simp [Expr.visits, Expr.parts, Visit.node, left.visits_nodes, right.visits_nodes]
  | .logical left _ right, r => by simp [Expr.visits, Expr.parts, Visit.node, left.visits_nodes, right.visits_nodes]
  | .grouping inner, r => by simp [Expr.visits, Expr.parts, Visit.node, inner.visits_nodes r]
  | .assign _ _ value, r => by simp [Expr.visits, Expr.parts, Visit.node, value.visits_nodes r]
  | .call callee _ arguments, r => by
    simp [Expr.visits, Expr.parts, Visit.node, callee.visits_nodes, Expr.visitsAll_nodes arguments]
  | .get object _, r => by simp [Expr.visits, Expr.parts, Visit.node, object.visits_nodes r]
  | .set object _ value, r => by simp [Expr.visits, Expr.parts, Visit.node, object.visits_nodes, value.visits_nodes]

theorem Expr.visitsAll_nodes : ∀ (es : List Expr) (r : Resolution),
    (Expr.visitsAll es r).map Visit.node = (Expr.partsAll es).map Node.expr
  | [], _ => rfl
  | e :: rest, r => by simp [Expr.visitsAll, Expr.partsAll, e.visits_nodes, Expr.visitsAll_nodes rest]

end

theorem Expr.points_nodes (e : Expr) (r : Resolution) (c : Context) :
    (e.visits r).map Visit.node = (e.points c).map Point.node := by
  rw [e.visits_nodes, Expr.points, List.map_map]
  rfl

theorem Expr.pointsOption_nodes (e : Option Expr) (r : Resolution) (c : Context) :
    (Expr.visitsOption e r).map Visit.node = (Expr.pointsOption e c).map Point.node := by
  cases e with
  | none => rfl
  | some e => exact e.points_nodes r c

mutual

theorem Stmt.points_nodes : ∀ (s : Stmt) (r : Resolution) (c : Context),
    (s.visits r).map Visit.node = (s.points c).map Point.node
  | .expression e, r, c => congrArg (_ :: ·) (e.points_nodes r c)
  | .print e, r, c => congrArg (_ :: ·) (e.points_nodes r c)
  | .declareVariable _ initializer, r, c => congrArg (_ :: ·) (Expr.pointsOption_nodes initializer _ _)
  | .block body, r, c => congrArg (_ :: ·) (Stmt.pointsAll_nodes body _ _)
  | .branch condition whenTrue whenFalse, r, c => by
    simp only [Stmt.visits, Stmt.points, List.map_cons, List.map_append, condition.points_nodes _ c,
      whenTrue.points_nodes _ c, Stmt.pointsOption_nodes whenFalse _ (c.declare whenTrue.names)]
    rfl
  | .loop condition body, r, c => by
    simp only [Stmt.visits, Stmt.points, List.map_cons, List.map_append, condition.points_nodes _ c, body.points_nodes _ c]
    rfl
  | .declareFunction f, r, c => congrArg (_ :: ·) (f.points_nodes _ _ _)
  | .returnValue _ value, r, c => congrArg (_ :: ·) (Expr.pointsOption_nodes value _ c)
  | .declareClass _ methods, r, c => congrArg (_ :: ·) (Function.pointsAll_nodes methods _ _)

/-- The walk over statements goes through the nodes at their points. -/
theorem Stmt.pointsAll_nodes : ∀ (body : List Stmt) (r : Resolution) (c : Context),
    (Stmt.visitsAll body r).map Visit.node = (Stmt.pointsAll body c).map Point.node
  | [], _, _ => rfl
  | s :: rest, r, c => by
    simp only [Stmt.visitsAll, Stmt.pointsAll, List.map_append, s.points_nodes _ c,
      Stmt.pointsAll_nodes rest _ (c.declare s.names)]

theorem Stmt.pointsOption_nodes : ∀ (s : Option Stmt) (r : Resolution) (c : Context),
    (Stmt.visitsOption s r).map Visit.node = (Stmt.pointsOption s c).map Point.node
  | none, _, _ => rfl
  | some s, r, c => s.points_nodes r c

theorem Function.points_nodes : ∀ (f : Function) (enclosing : Enclosing) (r : Resolution) (c : Context),
    (f.visits enclosing r).map Visit.node = (f.points enclosing c).map Point.node
  | .mk _ _ body, _, _, _ => congrArg (_ :: ·) (Stmt.pointsAll_nodes body _ _)

theorem Function.pointsAll_nodes : ∀ (methods : List Function) (r : Resolution) (c : Context),
    (Function.visitsAll methods r).map Visit.node = (Function.pointsAll methods c).map Point.node
  | [], _, _ => rfl
  | f :: rest, r, c => by
    simp only [Function.visitsAll, Function.pointsAll, List.map_append, Function.pointsAll_nodes rest _ c]
    rw [f.points_nodes _ _ c]

end

mutual

/-- A statement that declares nothing itself declares nothing in its branches either. -/
theorem Stmt.names_eq_nil : ∀ (s : Stmt) {c : Context}, (∀ p ∈ s.points c, p.node.Regular) → s.declared? = none → s.names = []
  | .expression _, _, _, _ | .print _, _, _, _ | .block _, _, _, _ | .returnValue _ _, _, _, _ => rfl
  | .branch condition whenTrue whenFalse, _, h, _ => by
    simp only [Stmt.points, List.forall_mem_cons, List.forall_mem_append] at h
    obtain ⟨hself, -, htrue, hfalse⟩ := h
    rw [Stmt.names, whenTrue.names_eq_nil htrue hself.1, Stmt.namesOption_eq_nil whenFalse hfalse hself.2, List.append_nil]
  | .loop condition body, _, h, _ => by
    simp only [Stmt.points, List.forall_mem_cons, List.forall_mem_append] at h
    obtain ⟨hself, -, hbody⟩ := h
    exact body.names_eq_nil hbody hself
  | .declareVariable _ _, _, _, h | .declareFunction _, _, _, h | .declareClass _ _, _, _, h => nomatch h

theorem Stmt.namesOption_eq_nil : ∀ (s : Option Stmt) {c : Context}, (∀ p ∈ Stmt.pointsOption s c, p.node.Regular) →
    (∀ t, s = some t → t.declared? = none) → Stmt.namesOption s = []
  | none, _, _, _ => rfl
  | some s, _, h, hdeclared => s.names_eq_nil h (hdeclared s rfl)

end

/-! ### Orderly walks -/

/-- Points with different sites, at nodes that the grammar allows. -/
abbrev Ranged (n m : Site) (ps : List Point) : Prop :=
  Spread Point.site? (fun p => p.node.Regular) n m ps

/-- A walk is orderly exactly if the points are. -/
theorem orderly_iff_ranged {program : List Stmt} {n m : Site} :
    Visit.Orderly n m (Stmt.visitsAll program .start) ↔ Ranged n m (points program) := by
  have hnodes : (Stmt.visitsAll program .start).map Visit.node = (points program).map Point.node :=
    Stmt.pointsAll_nodes program .start .top
  have hsites : (Stmt.visitsAll program .start).filterMap Visit.site? = (points program).filterMap Point.site? := by
    have hvisits : Visit.site? = Node.site? ∘ Visit.node := funext Visit.site?_eq
    have hpoints : Point.site? = Node.site? ∘ Point.node := funext Point.site?_eq
    rw [hvisits, hpoints, ← List.filterMap_map, ← List.filterMap_map, hnodes]
  have hproper : (∀ v ∈ Stmt.visitsAll program .start, v.Proper) ↔ ∀ p ∈ points program, p.node.Regular := by
    simp only [Visit.proper_iff]
    rw [← List.forall_mem_map (l := Stmt.visitsAll program .start) (P := Node.Regular),
      ← List.forall_mem_map (l := points program) (P := Node.Regular), hnodes]
  constructor
  · intro h
    exact ⟨h.le, hsites ▸ h.nodup, hsites ▸ h.bounds, hproper.mp h.proper⟩
  · intro h
    exact ⟨h.le, hsites ▸ h.nodup, hsites ▸ h.bounds, hproper.mpr h.proper⟩

end LoxLanguage
