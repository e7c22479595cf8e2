import Mathlib
import LoxLanguage.Proofs.Scope.Points

/-! The rules of scoping. A program keeps them if each of its points does, and resolving reports nothing exactly then.
The resolver finds a name that is declared twice at the second declaration, and a variable that is read in its own
initializer at the read; the rules say both of the scope and of the declaration as a whole. -/

namespace LoxLanguage

namespace Point

/-- The rules of scoping at a point. -/
def Sound : Point → Prop
  -- A `return` is in a routine, and in an initializer it has no value.
  | ⟨.stmt (.returnValue _ value), c⟩ =>
    c.enclosing ≠ .topLevel ∧ (value.isSome = true → c.enclosing ≠ .initializer)
  -- A `this` is in a method.
  | ⟨.expr (.this _ _), c⟩ => c.inMethod = true
  -- A scope declares no name twice: a block, or the parameters and the body of a routine.
  | ⟨.stmt (.block body), _⟩ => (Stmt.namesAll body).Nodup
  | ⟨.routine f, _⟩ => (f.parameters.map Token.lexeme ++ Stmt.namesAll f.body).Nodup
  -- A local variable is not read in its own initializer.
  | ⟨.stmt (.declareVariable name (some value)), c⟩ =>
    c.isLocal = true → ∀ u ∈ value.uses, u.role = .reads → u.name.lexeme ≠ name.lexeme
  | _ => True

end Point

/-- A program whose points keep the rules of scoping. -/
def WellScoped (program : List Stmt) : Prop :=
  ∀ p ∈ points program, p.Sound

/-! ### Declarations -/

namespace Context

variable {c : Context}

/-- Names can be declared in the innermost scope, each once. -/
def Extends (c : Context) (names : List String) : Prop :=
  ∀ layer ∈ c.layers.head?, names.Nodup ∧ names.Disjoint layer.names

theorem extends_nil : c.Extends [] := by
  simp [Extends]

theorem extends_append {names more : List String} :
    c.Extends (names ++ more) ↔ c.Extends names ∧ (c.declare names).Extends more := by
  obtain ⟨layers, initializing⟩ := c
  cases layers with
  | nil => simp [Extends, declare]
  | cons layer outer =>
    simp only [Extends, declare, Layer.declare, List.head?_cons, List.modifyHead_cons, Option.mem_def, Option.some.injEq,
      forall_eq', List.nodup_append', List.disjoint_append_right, List.disjoint_comm]
    tauto

theorem extends_cons {name : String} {more : List String} :
    c.Extends (name :: more) ↔ c.Extends [name] ∧ (c.declare [name]).Extends more := by
  rw [← extends_append, List.singleton_append]

theorem extends_enter {kind : Layer.Kind} {names : List String} : (c.enter kind []).Extends names ↔ names.Nodup := by
  simp [Extends, enter]

end Context

theorem Point.redeclared_eq_nil {c : Context} {name : Token} : redeclared c name = [] ↔ c.Extends [name.lexeme] := by
  unfold redeclared Context.Extends
  cases c.layers <;> simp

theorem Point.repeated_eq_nil {c : Context} {kind : Layer.Kind} {before : List String} {names : List Token} :
    repeated before names = [] ↔ (c.enter kind before).Extends (names.map Token.lexeme) := by
  induction names generalizing before with
  | nil => simp [repeated, Context.extends_nil]
  | cons name rest ih =>
    rw [repeated, List.append_eq_nil_iff, ih, List.map_cons, Context.extends_cons]
    refine and_congr ?_ Iff.rfl
    simp [Context.Extends, Context.enter]

/-! ### Reads -/

/-- A read of the variable in whose initializer it is. -/
def Context.Forbids (c : Context) (u : Use) : Prop :=
  u.role = .reads ∧ c.isLocal = true ∧ c.initializing = some u.name.lexeme

theorem Expr.violations_eq_nil_iff (e : Expr) (c : Context) :
    Point.violations ⟨.expr e, c⟩ = [] ↔ Point.Sound ⟨.expr e, c⟩ ∧ ∀ u ∈ e.use?, ¬c.Forbids u := by
  cases e <;> simp [Point.violations, Point.Sound, Expr.use?, Context.Forbids]

/-! ### The rules at the points of a tree -/

/-- Nothing is reported of points exactly if they keep the rules and a condition holds that other points judge. -/
def Judged (ps : List Point) (condition : Prop) : Prop :=
  (∀ p ∈ ps, p.violations = []) ↔ (∀ p ∈ ps, p.Sound) ∧ condition

namespace Judged

variable {p : Point} {ps qs : List Point} {P Q : Prop}

theorem nil : Judged [] True := by
  simp [Judged]

theorem append (h : Judged ps P) (h' : Judged qs Q) : Judged (ps ++ qs) (P ∧ Q) := by
  unfold Judged at *
  rw [List.forall_mem_append, List.forall_mem_append, h, h']
  tauto

/-- A point takes over the condition of those behind it, and may leave one of its own. -/
theorem cons (h : Judged ps P) (hp : p.violations = [] ∧ P ↔ p.Sound ∧ Q) : Judged (p :: ps) Q := by
  unfold Judged at *
  rw [List.forall_mem_cons, List.forall_mem_cons, h]
  tauto

theorem congr (h : Judged ps P) (hiff : P ↔ Q) : Judged ps Q := by
  unfold Judged at *
  rw [h, hiff]

end Judged

theorem Expr.judged (e : Expr) (c : Context) : Judged (e.points c) (∀ u ∈ e.uses, ¬c.Forbids u) := by
  have huses : (∀ u ∈ e.uses, ¬c.Forbids u) ↔ ∀ part ∈ e.parts, ∀ u ∈ part.use?, ¬c.Forbids u := by
    simp only [← e.uses_perm.mem_iff, List.mem_filterMap]
    exact ⟨fun h part hpart u hu => h u ⟨part, hpart, hu⟩, fun h u ⟨part, hpart, hu⟩ => h part hpart u hu⟩
  simp only [Judged, huses, Expr.points, List.forall_mem_map, Expr.violations_eq_nil_iff, forall_and]

theorem Expr.judgedOption (e : Option Expr) (c : Context) :
    Judged (Expr.pointsOption e c) (∀ u ∈ Expr.usesOfOption e, ¬c.Forbids u) := by
  cases e with
  | none => exact Judged.nil.congr (by simp [Expr.usesOfOption])
  | some e => exact e.judged c

theorem Context.not_forbids {c : Context} (hsettled : c.initializing = none) (u : Use) : ¬c.Forbids u := by
  simp [Forbids, hsettled]

theorem Context.forbids_inInitializer {c : Context} {name : String} {u : Use} :
    (c.inInitializer name).Forbids u ↔ u.role = .reads ∧ c.isLocal = true ∧ u.name.lexeme = name := by
  have hlocal : (c.inInitializer name).isLocal = c.isLocal := by
    unfold isLocal inInitializer declare
    cases c.layers <;> rfl
  have hname : (c.inInitializer name).initializing = some u.name.lexeme ↔ u.name.lexeme = name := by
    simp only [inInitializer, Option.some.injEq]
    exact eq_comm
  rw [Forbids, hlocal, hname]

mutual

/-- A statement leaves the condition that its declarations are new in the scope around it. -/
theorem Stmt.judged : ∀ (s : Stmt) {c : Context}, c.initializing = none → Judged (s.points c) (c.Extends s.names)
  | .expression e, c, hsettled => by
    refine (e.judged c).cons ?_
    simp [Point.violations, Point.Sound, Stmt.names, Context.extends_nil, Context.not_forbids hsettled]
  | .print e, c, hsettled => by
    refine (e.judged c).cons ?_
    simp [Point.violations, Point.Sound, Stmt.names, Context.extends_nil, Context.not_forbids hsettled]
  | .declareVariable name value, c, _ => by
    refine (Expr.judgedOption value (c.inInitializer name.lexeme)).cons ?_
    rw [Point.violations, Point.redeclared_eq_nil, and_comm]
    refine and_congr ?_ Iff.rfl
    cases value with
    | none => simp [Point.Sound, Expr.usesOfOption]
    | some e =>
      simp only [Point.Sound, Expr.usesOfOption, Context.forbids_inInitializer]
      exact ⟨fun h hlocal u hu hreads hname => h u hu ⟨hreads, hlocal, hname⟩,
        fun h u hu ⟨hreads, hlocal, hname⟩ => h hlocal u hu hreads hname⟩
  | .block body, c, hsettled => by
    refine (Stmt.judgedAll body (c := c.enter .block []) hsettled).cons ?_
    simp [Point.violations, Point.Sound, Stmt.names, Context.extends_nil, Context.extends_enter]
  | .branch condition whenTrue whenFalse, c, hsettled => by
    have hfalse := Stmt.judgedOption whenFalse (c := c.declare whenTrue.names) hsettled
    refine ((condition.judged c).append ((whenTrue.judged hsettled).append hfalse)).cons ?_
    simp [Point.violations, Point.Sound, Stmt.names, Context.extends_append, Context.not_forbids hsettled]
  | .loop condition body, c, hsettled => by
    refine ((condition.judged c).append (body.judged hsettled)).cons ?_
    simp [Point.violations, Point.Sound, Stmt.names, Context.not_forbids hsettled]
  | .declareFunction f, c, hsettled => by
    refine (f.judged .function (c := c.declare [f.name.lexeme]) hsettled).cons ?_
    simp [Point.violations, Point.Sound, Stmt.names, Point.redeclared_eq_nil]
  | .returnValue keyword value, c, hsettled => by
    refine (Expr.judgedOption value c).cons ?_
    simp [Point.violations, Point.Sound, Stmt.names, Context.extends_nil, Context.not_forbids hsettled]
  | .declareClass name methods, c, hsettled => by
    refine (Function.judgedAll methods (c := (c.declare [name.lexeme]).enter .receiver ["this"]) hsettled).cons ?_
    simp [Point.violations, Point.Sound, Stmt.names, Point.redeclared_eq_nil]

theorem Stmt.judgedAll : ∀ (body : List Stmt) {c : Context}, c.initializing = none →
    Judged (Stmt.pointsAll body c) (c.Extends (Stmt.namesAll body))
  | [], c, _ => Judged.nil.congr (iff_of_true trivial c.extends_nil)
  | s :: rest, c, hsettled => by
    have hrest := Stmt.judgedAll rest (c := c.declare s.names) hsettled
    refine ((s.judged hsettled).append hrest).congr ?_
    exact Context.extends_append.symm

theorem Stmt.judgedOption : ∀ (s : Option Stmt) {c : Context}, c.initializing = none →
    Judged (Stmt.pointsOption s c) (c.Extends (Stmt.namesOption s))
  | none, c, _ => Judged.nil.congr (iff_of_true trivial c.extends_nil)
  | some s, _, hsettled => s.judged hsettled

theorem Function.judged : ∀ (f : Function) (enclosing : Enclosing) {c : Context}, c.initializing = none →
    Judged (f.points enclosing c) True
  | .mk name parameters body, enclosing, c, hsettled => by
    have hbody := Stmt.judgedAll body (c := c.enter (.body enclosing) (parameters.map Token.lexeme)) hsettled
    refine hbody.cons ?_
    -- One scope holds the parameters and the top level of the body.
    rw [and_true, Point.violations, Point.Sound, ← Context.extends_enter, Context.extends_append, ← Point.repeated_eq_nil]
    rfl

theorem Function.judgedAll : ∀ (methods : List Function) {c : Context}, c.initializing = none →
    Judged (Function.pointsAll methods c) True
  | [], _, _ => .nil
  | f :: rest, _, hsettled => ((f.judged _ hsettled).append (Function.judgedAll rest hsettled)).congr (and_self_iff)

end

/-- Resolving reports nothing exactly of the programs that keep the rules of scoping. It walks to the end of every
    program: whatever it reports, all that breaks a rule is reported and all distances are noted. -/
theorem resolve_problems_eq_empty_iff (program : List Stmt) :
    ((resolve program).problems = #[] ↔ WellScoped program) ∧
      (resolve program).problems.toList = (points program).flatMap Point.violations ∧
      (resolve program).distances.toList = (points program).flatMap Point.entries := by
  refine ⟨?_, problems_eq_points program, distances_eq_points program⟩
  have htop : Context.top.Extends (Stmt.namesAll program) := by simp [Context.Extends, Context.top]
  rw [← Array.toList_eq_nil_iff, problems_eq_points, List.flatMap_eq_nil_iff]
  exact (Stmt.judgedAll program (c := .top) rfl).trans (and_iff_left htop)

end LoxLanguage
