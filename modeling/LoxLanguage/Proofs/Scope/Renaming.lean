import Mathlib
import LoxLanguage.Proofs.Scope.Changes
import LoxLanguage.Proofs.Scope.Rules
import LoxLanguage.Proofs.Scope.Table

/-! Renaming a local variable. The declaration of a variable or a parameter gets another name, and so do the uses that
are bound to it: those of its name whose distance is the number of scopes between them and the scope of the
declaration. If the new name is fresh, every point notes the same as before and none breaks a rule. -/

namespace LoxLanguage

/-- The same token with another name. -/
def Token.named (t : Token) (name : String) : Token :=
  { t with lexeme := name }

/-! ### Trees -/

/-- A table of distances, a name and the name that is to stand for it. -/
structure Renaming where
  table : Distances
  old : String
  new : String

namespace Renaming

/-- The name that stands for a name. -/
def name (r : Renaming) (x : String) : String :=
  if x = r.old then r.new else x

/-- The name of a use that stands `depth` scopes inside the scope of the declaration. -/
def use (r : Renaming) (depth : Nat) (site : Site) (name : Token) : Token :=
  if name.lexeme = r.old ∧ r.table.get? site = some depth then name.named r.new else name

end Renaming

mutual

/-- Renames the uses in an expression. -/
def Expr.rename (r : Renaming) (depth : Nat) : Expr → Expr
  | .literal value => .literal value
  | .unary operator operand => .unary operator (operand.rename r depth)
  | .binary left operator right => .binary (left.rename r depth) operator (right.rename r depth)
  | .logical left operator right => .logical (left.rename r depth) operator (right.rename r depth)
  | .grouping inner => .grouping (inner.rename r depth)
  | .use site name => .use site (r.use depth site name)
  | .assign site name value => .assign site (r.use depth site name) (value.rename r depth)
  | .call callee paren arguments => .call (callee.rename r depth) paren (Expr.renameAll r depth arguments)
  | .get object name => .get (object.rename r depth) name
  | .set object name value => .set (object.rename r depth) name (value.rename r depth)
  | .this site keyword => .this site keyword

@[inherit_doc Expr.rename]
def Expr.renameAll (r : Renaming) (depth : Nat) : List Expr → List Expr
  | [] => []
  | e :: rest => e.rename r depth :: Expr.renameAll r depth rest

end

mutual

/-- Renames the uses in a statement. A class opens a scope for the receiver, and a routine opens one for its body. -/
def Stmt.rename (r : Renaming) (depth : Nat) : Stmt → Stmt
  | .expression e => .expression (e.rename r depth)
  | .print e => .print (e.rename r depth)
  | .declareVariable name initializer => .declareVariable name (initializer.map (Expr.rename r depth))
  | .block body => .block (Stmt.renameAll r (depth + 1) body)
  | .branch condition whenTrue whenFalse =>
    .branch (condition.rename r depth) (whenTrue.rename r depth) (Stmt.renameOption r depth whenFalse)
  | .loop condition body => .loop (condition.rename r depth) (body.rename r depth)
  | .declareFunction f => .declareFunction (f.rename r depth)
  | .returnValue keyword value => .returnValue keyword (value.map (Expr.rename r depth))
  | .declareClass name methods => .declareClass name (Function.renameAll r (depth + 1) methods)

@[inherit_doc Stmt.rename]
def Stmt.renameAll (r : Renaming) (depth : Nat) : List Stmt → List Stmt
  | [] => []
  | s :: rest => s.rename r depth :: Stmt.renameAll r depth rest

@[inherit_doc Stmt.rename]
def Stmt.renameOption (r : Renaming) (depth : Nat) : Option Stmt → Option Stmt
  | none => none
  | some s => some (s.rename r depth)

/-- Renames the uses in a routine. -/
def Function.rename (r : Renaming) (depth : Nat) : Function → Function
  | .mk name parameters body => .mk name parameters (Stmt.renameAll r (depth + 1) body)

@[inherit_doc Function.rename]
def Function.renameAll (r : Renaming) (depth : Nat) : List Function → List Function
  | [] => []
  | f :: rest => f.rename r depth :: Function.renameAll r depth rest

end

namespace Renaming

variable (r : Renaming)

/-- The statements of a scope, with the declaration of one variable renamed and all uses that are bound to it. -/
inductive Declared : List Stmt → List Stmt → Prop where
  | mk {before name initializer after} (hname : name.lexeme = r.old) :
      Declared (before ++ .declareVariable name initializer :: after)
        (Stmt.renameAll r 0 before ++ .declareVariable (name.named r.new) (initializer.map (Expr.rename r 0)) ::
          Stmt.renameAll r 0 after)

/-- A block in which a variable is renamed. -/
inductive OfBlock : Stmt → Stmt → Prop where
  | mk {body body'} (h : r.Declared body body') : OfBlock (.block body) (.block body')

/-- A routine in which a parameter, or a variable at the top level of the body, is renamed. -/
inductive OfRoutine : Function → Function → Prop where
  | ofVariable {name parameters body body'} (h : r.Declared body body') :
      OfRoutine (.mk name parameters body) (.mk name parameters body')
  | ofParameter {name before p after body} (hname : p.lexeme = r.old) :
      OfRoutine (.mk name (before ++ p :: after) body) (.mk name (before ++ p.named r.new :: after) (Stmt.renameAll r 0 body))

end Renaming

/-- In a program one local variable or parameter is called `new`. -/
def Renames (new : String) (program program' : List Stmt) : Prop :=
  ∃ old, Stmt.ChangedAll (Renaming.OfBlock ⟨distanceTable program, old, new⟩)
    (Renaming.OfRoutine ⟨distanceTable program, old, new⟩) program program'

/-! ### What stays -/

section Stays
variable (r : Renaming)

theorem Function.name_rename (f : Function) (j : Nat) : (f.rename r j).name = f.name := by
  cases f
  rfl

theorem Function.isInitializer_rename (f : Function) (j : Nat) : (f.rename r j).isInitializer = f.isInitializer := by
  rw [Function.isInitializer, Function.isInitializer, f.name_rename]

theorem Stmt.declared?_rename (s : Stmt) (j : Nat) : (s.rename r j).declared? = s.declared? := by
  cases s with
  | declareFunction f => exact congrArg some (f.name_rename r j)
  | _ => rfl

mutual

theorem Stmt.names_rename : ∀ (s : Stmt) (j : Nat), (s.rename r j).names = s.names
  | .expression _, _ | .print _, _ | .declareVariable _ _, _ | .block _, _ | .returnValue _ _, _ | .declareClass _ _, _ => rfl
  | .branch _ whenTrue whenFalse, j => by
    simp only [Stmt.rename, Stmt.names, whenTrue.names_rename, Stmt.namesOption_rename whenFalse]
  | .loop _ body, j => by simp only [Stmt.rename, Stmt.names, body.names_rename]
  | .declareFunction f, j => by simp only [Stmt.rename, Stmt.names, f.name_rename]

theorem Stmt.namesOption_rename : ∀ (s : Option Stmt) (j : Nat),
    Stmt.namesOption (Stmt.renameOption r j s) = Stmt.namesOption s
  | none, _ => rfl
  | some s, j => s.names_rename j

end

theorem Stmt.namesAll_rename (body : List Stmt) (j : Nat) :
    Stmt.namesAll (Stmt.renameAll r j body) = Stmt.namesAll body := by
  induction body with
  | nil => rfl
  | cons s rest ih =>
    simp only [Stmt.namesAll, Stmt.renameAll, List.flatMap_cons] at ih ⊢
    rw [s.names_rename, ih]

mutual

/-- The parts of an expression are renamed one by one. -/
theorem Expr.parts_rename : ∀ (e : Expr) (j : Nat), (e.rename r j).parts = e.parts.map (Expr.rename r j)
  | .literal _, _ | .use _ _, _ | .this _ _, _ => rfl
  | .unary _ operand, j => by simp [Expr.rename, Expr.parts, operand.parts_rename]
  | .binary left _ right, j => by simp [Expr.rename, Expr.parts, left.parts_rename, right.parts_rename]
  | .logical left _ right, j => by simp [Expr.rename, Expr.parts, left.parts_rename, right.parts_rename]
  | .grouping inner, j => by simp [Expr.rename, Expr.parts, inner.parts_rename]
  | .assign _ _ value, j => by simp [Expr.rename, Expr.parts, value.parts_rename]
  | .call callee _ arguments, j => by
    simp [Expr.rename, Expr.parts, callee.parts_rename, Expr.partsAll_rename arguments]
  | .get object _, j => by simp [Expr.rename, Expr.parts, object.parts_rename]
  | .set object _ value, j => by simp [Expr.rename, Expr.parts, object.parts_rename, value.parts_rename]

theorem Expr.partsAll_rename : ∀ (es : List Expr) (j : Nat),
    Expr.partsAll (Expr.renameAll r j es) = (Expr.partsAll es).map (Expr.rename r j)
  | [], _ => rfl
  | e :: rest, j => by simp [Expr.renameAll, Expr.partsAll, e.parts_rename, Expr.partsAll_rename rest]

end

end Stays

/-! ### Scopes -/

theorem Renaming.map_name {r : Renaming} {names : List String} (h : r.old ∉ names) : names.map r.name = names := by
  conv_rhs => rw [← List.map_id names]
  refine List.map_congr_left fun x hx => if_neg ?_
  rintro rfl
  exact h hx

/-- The new name is none of the others. -/
theorem Renaming.nodup_map {r : Renaming} {names : List String} (hnodup : names.Nodup) (hnew : ∀ x ∈ names, x ≠ r.new) :
    (names.map r.name).Nodup := by
  refine hnodup.map_on fun x hx y hy heq => ?_
  unfold Renaming.name at heq
  split at heq <;> split at heq
  · rename_i hx hy
    rw [hx, hy]
  · exact absurd heq.symm (hnew y hy)
  · exact absurd heq (hnew x hx)
  · exact heq

/-- The names of a scope with the variable renamed. -/
def Layer.rename (r : Renaming) (layer : Layer) : Layer :=
  { layer with names := layer.names.map r.name }

/-- The scope of the declaration is `j` scopes out, and has the other name. -/
def Context.rename (r : Renaming) (j : Nat) (c : Context) : Context :=
  { c with layers := c.layers.modify j (Layer.rename r) }

section Layers
variable {r : Renaming} {layers : List Layer} {layer : Layer} {x : String} {j : Nat}

theorem Layer.mem_rename (hnew : x ≠ r.new) : x ∈ (layer.rename r).names ↔ x ∈ layer.names ∧ x ≠ r.old := by
  simp only [Layer.rename, List.mem_map]
  constructor
  · rintro ⟨a, ha, heq⟩
    unfold Renaming.name at heq
    split at heq
    · exact absurd heq.symm hnew
    · rename_i hold
      subst heq
      exact ⟨ha, hold⟩
  · rintro ⟨hx, hold⟩
    exact ⟨x, hx, if_neg hold⟩

theorem Layer.new_mem_rename (h : r.old ∈ layer.names) : r.new ∈ (layer.rename r).names :=
  List.mem_map.mpr ⟨r.old, h, if_pos rfl⟩

theorem Layer.rename_declare {names : List String} (h : r.old ∉ names) :
    (layer.declare names).rename r = (layer.rename r).declare names := by
  simp only [Layer.rename, Layer.declare, List.map_append, Renaming.map_name h]

/-- A name that is not bound to the declaration is as far away as before. -/
theorem findIdx?_rename (hnew : x ≠ r.new) (hbound : x = r.old → layers.findIdx? (x ∈ ·.names) ≠ some j) :
    (layers.modify j (Layer.rename r)).findIdx? (x ∈ ·.names) = layers.findIdx? (x ∈ ·.names) := by
  induction layers generalizing j with
  | nil => simp
  | cons layer outer ih =>
    cases j with
    | zero =>
      have hmem : x ∈ (layer.rename r).names ↔ x ∈ layer.names := by
        rw [Layer.mem_rename hnew, and_iff_left_iff_imp]
        rintro hx rfl
        exact hbound rfl (by simp [List.findIdx?_cons, hx])
      simp [List.findIdx?_cons, hmem]
    | succ j =>
      rw [List.modify_succ_cons, List.findIdx?_cons, List.findIdx?_cons]
      by_cases hx : x ∈ layer.names
      · simp [hx]
      · rw [ih]
        rintro rfl h
        exact hbound rfl (by simp [List.findIdx?_cons, hx, h])

/-- A name that is bound to the declaration is found there under the new name. -/
theorem findIdx?_new (hbound : layers.findIdx? (r.old ∈ ·.names) = some j)
    (hfree : ∀ layer ∈ layers.take (j + 1), r.new ∉ layer.names) :
    (layers.modify j (Layer.rename r)).findIdx? (r.new ∈ ·.names) = some j := by
  induction layers generalizing j with
  | nil => simp at hbound
  | cons layer outer ih =>
    rw [List.findIdx?_cons] at hbound
    cases j with
    | zero =>
      have hold : r.old ∈ layer.names := by
        by_contra hold
        simp [hold] at hbound
      simp [List.findIdx?_cons, Layer.new_mem_rename hold]
    | succ j =>
      rw [List.take_succ_cons, List.forall_mem_cons] at hfree
      have hold : r.old ∉ layer.names := by
        intro hold
        simp [hold] at hbound
      have houter : outer.findIdx? (r.old ∈ ·.names) = some j := by simpa [hold] using hbound
      rw [List.modify_succ_cons, List.findIdx?_cons, ih houter hfree.2]
      simp [hfree.1]

theorem any_isMethod_rename (r : Renaming) (layers : List Layer) (j : Nat) :
    (layers.modify j (Layer.rename r)).any Layer.isMethod = layers.any Layer.isMethod := by
  induction layers generalizing j with
  | nil => simp
  | cons layer outer ih =>
    cases j with
    | zero => rfl
    | succ j => simp [ih]

theorem findSome?_routine?_rename (r : Renaming) (layers : List Layer) (j : Nat) :
    (layers.modify j (Layer.rename r)).findSome? Layer.routine? = layers.findSome? Layer.routine? := by
  induction layers generalizing j with
  | nil => simp
  | cons layer outer ih =>
    cases j with
    | zero => rfl
    | succ j => simp [List.findSome?_cons, ih]

end Layers

/-- The second context is the first one with the variable renamed. Inside the initializer of that variable, the second one
    is inside the initializer of the new name. -/
structure Context.Carries (r : Renaming) (j : Nat) (c c' : Context) : Prop where
  layers : c'.layers = c.layers.modify j (Layer.rename r)
  initializing : ∀ x, c'.initializing = some x →
    (x ≠ r.new ∧ c.initializing = some x) ∨ (x = r.new ∧ c.initializing = some r.old)
  free : ∀ layer ∈ c.layers.take (j + 1), r.new ∉ layer.names

namespace Context.Carries

variable {r : Renaming} {j : Nat} {c c' : Context} {site : Site} {name : Token}

theorem inMethod_eq (h : Carries r j c c') : c'.inMethod = c.inMethod := by
  rw [inMethod, inMethod, h.layers, any_isMethod_rename]

theorem enclosing_eq (h : Carries r j c c') : c'.enclosing = c.enclosing := by
  rw [enclosing, enclosing, h.layers, findSome?_routine?_rename]

theorem isLocal_eq (h : Carries r j c c') : c'.isLocal = c.isLocal := by
  rw [isLocal, isLocal, h.layers]
  cases c.layers with
  | nil => simp
  | cons layer outer => cases j <;> rfl

theorem distance?_eq {x : String} (h : Carries r j c c') (hnew : x ≠ r.new) (hbound : x = r.old → c.distance? x ≠ some j) :
    c'.distance? x = c.distance? x := by
  rw [distance?, distance?, h.layers]
  exact findIdx?_rename hnew hbound

/-- A use is as far away from its scope as before. -/
theorem distance?_use (h : Carries r j c c') (hnew : name.lexeme ≠ r.new)
    (htabled : r.table.get? site = c.distance? name.lexeme) :
    c'.distance? (r.use j site name).lexeme = c.distance? name.lexeme := by
  unfold Renaming.use
  rw [htabled]
  split
  · rename_i hbound
    obtain ⟨hold, hdistance⟩ := hbound
    rw [hdistance]
    rw [hold] at hdistance
    show c'.distance? r.new = some j
    rw [distance?, h.layers]
    exact findIdx?_new hdistance h.free
  · rename_i hbound
    exact h.distance?_eq hnew fun hold hdistance => hbound ⟨hold, hdistance⟩

theorem entry_use (h : Carries r j c c') (hnew : name.lexeme ≠ r.new)
    (htabled : r.table.get? site = c.distance? name.lexeme) :
    Point.entry c' site (r.use j site name) = Point.entry c site name := by
  rw [Point.entry, Point.entry, h.distance?_use hnew htabled]

/-- A variable is read in its own initializer only if it was before. -/
theorem violations_use (h : Carries r j c c') (hnew : name.lexeme ≠ r.new)
    (hquiet : Point.violations ⟨.expr (.use site name), c⟩ = []) :
    Point.violations ⟨.expr (.use site (r.use j site name)), c'⟩ = [] := by
  simp only [Point.violations, ite_eq_right_iff, reduceCtorEq, imp_false, h.isLocal_eq] at hquiet ⊢
  intro hreads
  simp only [Bool.and_eq_true, decide_eq_true_eq] at hreads hquiet
  refine hquiet ⟨hreads.1, ?_⟩
  rcases h.initializing _ hreads.2 with ⟨hne, hinside⟩ | ⟨heq, hinside⟩
  · unfold Renaming.use at hne hinside
    split at hne
    · exact absurd rfl hne
    · rename_i hbound
      rwa [if_neg hbound] at hinside
  · unfold Renaming.use at heq
    split at heq
    · rename_i hbound
      rw [hinside, hbound.1]
    · exact absurd heq hnew

end Context.Carries

/-! ### Points -/

namespace Renaming

/-- The new name occurs nowhere among the tokens, and is not the word kept for receivers. -/
structure Fresh (r : Renaming) (tokens : List Token) : Prop where
  regular : ∀ t ∈ tokens, t.Regular
  new : ∀ t ∈ tokens, t.lexeme ≠ r.new
  ne_this : r.new ≠ "this"

/-- A point of a parsed and accepted program, with the distance of its use in the table. -/
structure Good (r : Renaming) (tokens : List Token) (p : Point) : Prop where
  regular : p.node.Regular
  proper : p.node.Proper tokens
  quiet : p.violations = []
  tabled : ∀ u, p.use? = some u → u.role ≠ .this → r.table.get? u.site = p.context.distance? u.name.lexeme

end Renaming

section Points
variable {r : Renaming} {tokens : List Token}

theorem Renaming.Fresh.ne_new (hr : r.Fresh tokens) {t : Token} {kind : Token.Kind} (h : t.IsFrom tokens kind) :
    t.lexeme ≠ r.new :=
  hr.new t h.1

theorem Renaming.Fresh.notMem_parameters (hr : r.Fresh tokens) {parameters : List Token}
    (h : ∀ p ∈ parameters, p.IsFrom tokens .identifier) : r.new ∉ parameters.map Token.lexeme := by
  intro hmem
  obtain ⟨p, hp, heq⟩ := List.mem_map.mp hmem
  exact hr.ne_new (h p hp) heq

/-- An expression in place of a part of an expression. -/
theorem Expr.alike_rename (hr : r.Fresh tokens) (hold : r.old ≠ "this") (e : Expr) {j : Nat} {c c' : Context}
    (hc : c.Carries r j c') (hgood : r.Good tokens ⟨.expr e, c⟩) :
    Point.Alike ⟨.expr e, c⟩ ⟨.expr (e.rename r j), c'⟩ := by
  obtain ⟨-, hproper, hquiet, htabled⟩ := hgood
  cases e with
  | use site name =>
    have hname : name.lexeme ≠ r.new := hr.ne_new hproper
    exact ⟨rfl, hc.entry_use hname (htabled _ rfl nofun), hc.violations_use hname, id⟩
  | assign site name value =>
    have hname : name.lexeme ≠ r.new := hr.ne_new hproper
    refine ⟨rfl, hc.entry_use hname (htabled _ rfl nofun), id, fun hregular => ?_⟩
    show (r.use j site name).lexeme ≠ "this"
    unfold Renaming.use
    split
    · exact hr.ne_this
    · exact hregular
  | this site keyword =>
    have hkeyword : keyword.lexeme = "this" := (hr.regular _ hproper.1).1 hproper.2
    have hdistance : c'.distance? keyword.lexeme = c.distance? keyword.lexeme := by
      rw [hkeyword]
      exact hc.distance?_eq hr.ne_this.symm fun h => absurd h.symm hold
    refine ⟨rfl, ?_, fun h => ?_, id⟩
    · simp only [Expr.rename, Point.entries, hc.inMethod_eq, Point.entry, hdistance]
    · simpa only [Expr.rename, Point.violations, hc.inMethod_eq] using h
  | _ => exact ⟨rfl, rfl, id, id⟩

theorem Expr.allAlike_rename (hr : r.Fresh tokens) (hold : r.old ≠ "this") (e : Expr) {j : Nat} {c c' : Context}
    (hc : c.Carries r j c') (hgood : ∀ p ∈ e.points c, r.Good tokens p) :
    AllAlike (e.points c) ((e.rename r j).points c') := by
  unfold Expr.points
  rw [e.parts_rename, List.map_map, AllAlike, List.forall₂_map_left_iff, List.forall₂_map_right_iff, List.forall₂_same]
  intro part hpart
  exact part.alike_rename hr hold hc (hgood _ (List.mem_map_of_mem hpart))

theorem Expr.allAlike_renameOption (hr : r.Fresh tokens) (hold : r.old ≠ "this") (e : Option Expr) {j : Nat}
    {c c' : Context} (hc : c.Carries r j c') (hgood : ∀ p ∈ Expr.pointsOption e c, r.Good tokens p) :
    AllAlike (Expr.pointsOption e c) (Expr.pointsOption (e.map (Expr.rename r j)) c') := by
  cases e with
  | none => exact .nil
  | some e => exact e.allAlike_rename hr hold hc hgood

/-- The scopes up to that of the declaration do not know the new name. -/
structure Context.Ready (r : Renaming) (j : Nat) (c : Context) : Prop where
  settled : c.initializing = none
  free : ∀ layer ∈ c.layers.take (j + 1), r.new ∉ layer.names

namespace Context

variable {j : Nat} {c : Context} {names : List String}

theorem rename_declare (h : j = 0 → r.old ∉ names) : (c.declare names).rename r j = (c.rename r j).declare names := by
  obtain ⟨layers, initializing⟩ := c
  cases layers with
  | nil => simp [declare, rename]
  | cons layer outer =>
    cases j with
    | zero =>
      have hlayer : (layer.declare names).rename r = (layer.rename r).declare names := Layer.rename_declare (h rfl)
      simp [declare, rename, hlayer]
    | succ j => simp [declare, rename]

namespace Ready

theorem carries (h : c.Ready r j) : c.Carries r j (c.rename r j) := by
  refine ⟨rfl, fun x hx => ?_, h.free⟩
  have hsettled : (c.rename r j).initializing = none := h.settled
  rw [hsettled] at hx
  cases hx

theorem declare (h : c.Ready r j) (hnames : r.new ∉ names) : (c.declare names).Ready r j := by
  refine ⟨h.settled, ?_⟩
  obtain ⟨layers, initializing⟩ := c
  cases layers with
  | nil => simp [Context.declare]
  | cons layer outer =>
    have hfree := h.free
    simp only [List.take_succ_cons, List.forall_mem_cons] at hfree
    simp only [Context.declare, List.modifyHead_cons, List.take_succ_cons, List.forall_mem_cons]
    refine ⟨?_, hfree.2⟩
    simp only [Layer.declare, List.mem_append, not_or]
    exact ⟨hfree.1, hnames⟩

theorem enter (h : c.Ready r j) (kind : Layer.Kind) (hnames : r.new ∉ names) : (c.enter kind names).Ready r (j + 1) := by
  refine ⟨h.settled, ?_⟩
  simp only [Context.enter, List.take_succ_cons, List.forall_mem_cons]
  exact ⟨hnames, h.free⟩

theorem inInitializer (h : c.Ready r j) {name : String} (hnew : name ≠ r.new) (hold : j = 0 → name ≠ r.old) :
    (c.inInitializer name).Carries r j ((c.rename r j).inInitializer name) := by
  have hready : (c.declare [name]).Ready r j := h.declare (by simpa using hnew.symm)
  refine ⟨?_, ?_, hready.free⟩
  · have hdeclare : (c.declare [name]).rename r j = (c.rename r j).declare [name] :=
      rename_declare fun hj => by simpa using (hold hj).symm
    exact (congrArg Context.layers hdeclare).symm
  · rintro x ⟨⟩
    exact .inl ⟨hnew, rfl⟩

end Ready

theorem redeclared_rename {name : Token} (hnew : name.lexeme ≠ r.new) (h : Point.redeclared c name = []) :
    Point.redeclared (c.rename r j) name = [] := by
  obtain ⟨layers, initializing⟩ := c
  cases layers with
  | nil => simp [Context.rename, Point.redeclared]
  | cons layer outer =>
    cases j with
    | zero =>
      simp only [Point.redeclared, Context.rename, List.modify_zero_cons, ite_eq_right_iff, reduceCtorEq, imp_false,
        Layer.mem_rename hnew, not_and] at h ⊢
      exact fun hmem => absurd hmem h
    | succ j => exact h

end Context

mutual

/-- The uses in a statement are renamed, which the points around them do not notice. -/
theorem Stmt.allAlike_rename (hr : r.Fresh tokens) (hold : r.old ≠ "this") : ∀ (s : Stmt) {j : Nat} {c : Context},
    c.Ready r j → (j = 0 → r.old ∉ s.names) → (∀ p ∈ s.points c, r.Good tokens p) →
    AllAlike (s.points c) ((s.rename r j).points (c.rename r j))
  | .expression e, _, _, hc, _, h =>
    .cons ⟨rfl, rfl, id, id⟩ (e.allAlike_rename hr hold hc.carries (List.forall_mem_cons.mp h).2)
  | .print e, _, _, hc, _, h =>
    .cons ⟨rfl, rfl, id, id⟩ (e.allAlike_rename hr hold hc.carries (List.forall_mem_cons.mp h).2)
  | .declareVariable name initializer, j, c, hc, hnames, h => by
    obtain ⟨hself, hinside⟩ := List.forall_mem_cons.mp h
    have hnew : name.lexeme ≠ r.new := hr.ne_new hself.proper
    have hother : j = 0 → name.lexeme ≠ r.old := fun hj heq => hnames hj (by simp [Stmt.names, heq])
    have hcarries := hc.inInitializer hnew hother
    exact .cons ⟨rfl, rfl, Context.redeclared_rename hnew, id⟩
      (Expr.allAlike_renameOption hr hold initializer hcarries hinside)
  | .block body, j, c, hc, _, h =>
    .cons ⟨rfl, rfl, id, id⟩ (Stmt.allAlike_renameAll hr hold body (hc.enter .block (by simp)) nofun
      (List.forall_mem_cons.mp h).2)
  | .branch condition whenTrue whenFalse, j, c, hc, hnames, h => by
    simp only [Stmt.points, List.forall_mem_cons, List.forall_mem_append] at h
    obtain ⟨hself, hcondition, htrue, hfalse⟩ := h
    simp only [Stmt.names, List.mem_append, not_or] at hnames
    have hnew := Stmt.notMem_names (fun t ht => hr.ne_new ht) whenTrue fun p hp => (htrue p hp).proper
    have hbranch := Stmt.allAlike_renameOption hr hold whenFalse (hc.declare hnew) (fun hj => (hnames hj).2) hfalse
    rw [Context.rename_declare fun hj => (hnames hj).1] at hbranch
    simp only [Stmt.rename, Stmt.points, whenTrue.names_rename]
    refine .cons ⟨rfl, rfl, id, fun hregular => ⟨?_, ?_⟩⟩
      (List.rel_append (condition.allAlike_rename hr hold hc.carries hcondition)
      (List.rel_append (whenTrue.allAlike_rename hr hold hc (fun hj => (hnames hj).1) htrue) hbranch))
    · rw [whenTrue.declared?_rename]
      exact hregular.1
    · intro s hs
      cases whenFalse with
      | none => cases hs
      | some s' =>
        cases hs
        rw [s'.declared?_rename]
        exact hregular.2 _ rfl
  | .loop condition body, j, c, hc, hnames, h => by
    simp only [Stmt.points, List.forall_mem_cons, List.forall_mem_append] at h
    obtain ⟨hself, hcondition, hbody⟩ := h
    refine .cons ⟨rfl, rfl, id, fun hregular => ?_⟩ (List.rel_append (condition.allAlike_rename hr hold hc.carries hcondition)
      (body.allAlike_rename hr hold hc hnames hbody))
    exact (body.declared?_rename r j).trans hregular
  | .declareFunction f, j, c, hc, hnames, h => by
    obtain ⟨hself, hbody⟩ := List.forall_mem_cons.mp h
    have hnames : j = 0 → r.old ∉ [f.name.lexeme] := hnames
    have hnew : r.new ∉ [f.name.lexeme] :=
      Stmt.notMem_names (fun t ht => hr.ne_new ht) (.declareFunction f) fun p hp => (h p hp).proper
    have hroutine := f.allAlike_rename hr hold .function (hc.declare hnew) hbody
    rw [Context.rename_declare hnames] at hroutine
    simp only [Stmt.rename, Stmt.points, f.name_rename]
    refine .cons ⟨rfl, rfl, fun hquiet => ?_, id⟩ hroutine
    have hquiet : Point.redeclared c f.name = [] := hquiet
    show Point.redeclared _ (f.rename r j).name = []
    rw [f.name_rename]
    refine Context.redeclared_rename (fun heq => hnew ?_) hquiet
    rw [heq]
    exact List.mem_singleton_self _
  | .returnValue keyword value, j, c, hc, _, h => by
    obtain ⟨hself, hvalue⟩ := List.forall_mem_cons.mp h
    refine .cons ⟨rfl, rfl, fun hquiet => ?_, id⟩ (Expr.allAlike_renameOption hr hold value hc.carries hvalue)
    simp only [Point.violations, hc.carries.enclosing_eq, Option.isSome_map] at hquiet ⊢
    exact hquiet
  | .declareClass name methods, j, c, hc, hnames, h => by
    obtain ⟨hself, hmethods⟩ := List.forall_mem_cons.mp h
    have hname : name.lexeme ≠ r.new := hr.ne_new hself.proper
    have hnew : r.new ∉ [name.lexeme] := by simpa using hname.symm
    have hinside := Function.allAlike_renameAll hr hold methods
      ((hc.declare hnew).enter .receiver (by simpa using hr.ne_this)) hmethods
    have hcontext : ((c.declare [name.lexeme]).enter .receiver ["this"]).rename r (j + 1) =
        ((c.rename r j).declare [name.lexeme]).enter .receiver ["this"] :=
      congrArg (·.enter .receiver ["this"]) (Context.rename_declare hnames)
    rw [hcontext] at hinside
    exact .cons ⟨rfl, rfl, Context.redeclared_rename hname, id⟩ hinside

theorem Stmt.allAlike_renameAll (hr : r.Fresh tokens) (hold : r.old ≠ "this") : ∀ (body : List Stmt) {j : Nat} {c : Context},
    c.Ready r j → (j = 0 → r.old ∉ Stmt.namesAll body) → (∀ p ∈ Stmt.pointsAll body c, r.Good tokens p) →
    AllAlike (Stmt.pointsAll body c) (Stmt.pointsAll (Stmt.renameAll r j body) (c.rename r j))
  | [], _, _, _, _, _ => .nil
  | s :: rest, j, c, hc, hnames, h => by
    obtain ⟨hs, hrest⟩ := List.forall_mem_append.mp h
    simp only [Stmt.namesAll, List.flatMap_cons, List.mem_append, not_or] at hnames
    have hnew := Stmt.notMem_names (fun t ht => hr.ne_new ht) s fun p hp => (hs p hp).proper
    have hbehind := Stmt.allAlike_renameAll hr hold rest (hc.declare hnew) (fun hj => (hnames hj).2) hrest
    rw [Context.rename_declare fun hj => (hnames hj).1] at hbehind
    simp only [Stmt.renameAll, Stmt.pointsAll, s.names_rename]
    exact List.rel_append (s.allAlike_rename hr hold hc (fun hj => (hnames hj).1) hs) hbehind

theorem Stmt.allAlike_renameOption (hr : r.Fresh tokens) (hold : r.old ≠ "this") : ∀ (s : Option Stmt) {j : Nat}
    {c : Context}, c.Ready r j → (j = 0 → r.old ∉ Stmt.namesOption s) → (∀ p ∈ Stmt.pointsOption s c, r.Good tokens p) →
    AllAlike (Stmt.pointsOption s c) (Stmt.pointsOption (Stmt.renameOption r j s) (c.rename r j))
  | none, _, _, _, _, _ => .nil
  | some s, _, _, hc, hnames, h => s.allAlike_rename hr hold hc hnames h

theorem Function.allAlike_rename (hr : r.Fresh tokens) (hold : r.old ≠ "this") : ∀ (f : Function) (enclosing : Enclosing)
    {j : Nat} {c : Context}, c.Ready r j → (∀ p ∈ f.points enclosing c, r.Good tokens p) →
    AllAlike (f.points enclosing c) ((f.rename r j).points enclosing (c.rename r j))
  | .mk name parameters body, enclosing, j, c, hc, h => by
    obtain ⟨hself, hbody⟩ := List.forall_mem_cons.mp h
    have hparameters := hr.notMem_parameters hself.proper.2
    exact .cons ⟨rfl, rfl, id, id⟩ (Stmt.allAlike_renameAll hr hold body (hc.enter _ hparameters) nofun hbody)

theorem Function.allAlike_renameAll (hr : r.Fresh tokens) (hold : r.old ≠ "this") : ∀ (methods : List Function) {j : Nat}
    {c : Context}, c.Ready r j → (∀ p ∈ Function.pointsAll methods c, r.Good tokens p) →
    AllAlike (Function.pointsAll methods c) (Function.pointsAll (Function.renameAll r j methods) (c.rename r j))
  | [], _, _, _, _ => .nil
  | f :: rest, j, c, hc, h => by
    obtain ⟨hf, hrest⟩ := List.forall_mem_append.mp h
    simp only [Function.renameAll, Function.pointsAll, f.isInitializer_rename]
    exact List.rel_append (f.allAlike_rename hr hold _ hc hf) (Function.allAlike_renameAll hr hold rest hc hrest)

end

/-! ### Declarations -/

section Declarations
variable {c : Context} {body body' : List Stmt}

/-- The innermost scope does not declare the name. -/
def Context.Lacks (c : Context) (x : String) : Prop :=
  ∀ layer ∈ c.layers.head?, x ∉ layer.names

theorem Context.Lacks.rename_eq (h : c.Lacks r.old) : c.rename r 0 = c := by
  obtain ⟨layers, initializing⟩ := c
  cases layers with
  | nil => simp [Context.rename]
  | cons layer outer => simp [Context.rename, Layer.rename, Renaming.map_name (h layer rfl)]

/-- The old name is declared on one side and the new one on the other. -/
theorem Context.Lacks.rename_declare (h : c.Lacks r.old) : (c.declare [r.old]).rename r 0 = c.declare [r.new] := by
  obtain ⟨layers, initializing⟩ := c
  cases layers with
  | nil => simp [Context.rename, Context.declare]
  | cons layer outer =>
    simp [Context.rename, Context.declare, Layer.rename, Layer.declare, Renaming.map_name (h layer rfl), Renaming.name]

theorem Context.Lacks.declare {x : String} {names : List String} (h : c.Lacks x) (hnames : x ∉ names) :
    (c.declare names).Lacks x := by
  obtain ⟨layers, initializing⟩ := c
  cases layers with
  | nil => exact nofun
  | cons layer outer =>
    rintro _ ⟨⟩
    simp only [Layer.declare, List.mem_append, not_or]
    exact ⟨h layer rfl, hnames⟩

theorem Context.Ready.lacks (h : c.Ready r 0) : c.Lacks r.new := by
  obtain ⟨layers, initializing⟩ := c
  cases layers with
  | nil => exact nofun
  | cons layer outer =>
    rintro _ ⟨⟩
    exact h.free layer List.mem_cons_self

theorem Context.Lacks.redeclared {name : Token} (h : c.Lacks name.lexeme) : Point.redeclared c name = [] := by
  unfold Point.redeclared
  split
  · rfl
  · rename_i layer outer hlayers
    exact if_neg (h layer (by rw [hlayers]; rfl))

theorem Stmt.notMem_namesAll {x : String} (hx : ∀ t : Token, t.IsFrom tokens .identifier → t.lexeme ≠ x) (body : List Stmt)
    {c : Context} (h : ∀ p ∈ Stmt.pointsAll body c, p.node.Proper tokens) : x ∉ Stmt.namesAll body := by
  induction body generalizing c with
  | nil => simp [Stmt.namesAll]
  | cons s rest ih =>
    obtain ⟨hs, hrest⟩ := List.forall_mem_append.mp h
    simp only [Stmt.namesAll, List.flatMap_cons, List.mem_append, not_or]
    exact ⟨s.notMem_names hx hs, ih hrest⟩

/-- A block declares each name once. -/
theorem Stmt.nodup_of_good (hc : c.initializing = none) (h : ∀ p ∈ (Stmt.block body).points c, r.Good tokens p) :
    (Stmt.namesAll body).Nodup :=
  ((Stmt.judged (.block body) hc).mp fun p hp => (h p hp).quiet).1 _ List.mem_cons_self

/-- A routine declares each name once, among its parameters and in its body. -/
theorem Function.nodup_of_good {f : Function} {enclosing : Enclosing} (hc : c.initializing = none)
    (h : ∀ p ∈ f.points enclosing c, r.Good tokens p) : (f.parameters.map Token.lexeme ++ Stmt.namesAll f.body).Nodup := by
  have hsound := ((f.judged enclosing hc).mp fun p hp => (h p hp).quiet).1
  cases f
  exact hsound _ List.mem_cons_self

/-- The variable is declared once. -/
theorem Renaming.notMem_of_nodup {name : Token} {initializer : Option Expr} {before after : List Stmt}
    (hname : name.lexeme = r.old) (h : (Stmt.namesAll (before ++ .declareVariable name initializer :: after)).Nodup) :
    r.old ∉ Stmt.namesAll before ∧ r.old ∉ Stmt.namesAll after := by
  simp only [Stmt.namesAll, List.flatMap_append, List.flatMap_cons, Stmt.names, hname] at h ⊢
  obtain ⟨-, hrest, hdisjoint⟩ := List.nodup_append'.mp h
  exact ⟨fun hmem => hdisjoint hmem List.mem_cons_self, (List.nodup_cons.mp hrest).1⟩

/-- The points of a scope in which the declaration of a variable is renamed. -/
theorem Renaming.Declared.allAlike (hr : r.Fresh tokens) (h : r.Declared body body') (hc : c.Ready r 0)
    (hlacks : c.Lacks r.old) (hnodup : (Stmt.namesAll body).Nodup) (hgood : ∀ p ∈ Stmt.pointsAll body c, r.Good tokens p) :
    AllAlike (Stmt.pointsAll body c) (Stmt.pointsAll body' c) := by
  obtain ⟨hname⟩ := h
  rename_i before name initializer after
  simp only [Stmt.pointsAll_append, Stmt.pointsAll, Stmt.points, List.forall_mem_append, List.forall_mem_cons] at hgood
  obtain ⟨hbefore, ⟨hself, hinitializer⟩, hafter⟩ := hgood
  have hthis : r.old ≠ "this" := hname ▸ hself.regular
  have honce := Renaming.notMem_of_nodup hname hnodup
  have hnew := Stmt.notMem_namesAll (fun t ht => hr.ne_new ht) before fun p hp => (hbefore p hp).proper
  have hready := hc.declare hnew
  have hlacks' : (c.declare (Stmt.namesAll before)).Lacks r.old := hlacks.declare honce.1
  have hready' : ((c.declare (Stmt.namesAll before)).declare [r.old]).Ready r 0 := by
    refine hready.declare ?_
    rw [← hname]
    simpa using (hr.ne_new hself.proper).symm
  have hfirst := Stmt.allAlike_renameAll hr hthis before hc (fun _ => honce.1) hbefore
  rw [hlacks.rename_eq] at hfirst
  have hinside : (c.declare (Stmt.namesAll before) |>.inInitializer r.old).Carries r 0
      (c.declare (Stmt.namesAll before) |>.inInitializer r.new) := by
    refine ⟨(congrArg Context.layers hlacks'.rename_declare).symm, ?_, hready'.free⟩
    rintro x ⟨⟩
    exact .inr ⟨rfl, rfl⟩
  rw [hname] at hinitializer
  have hvalue := Expr.allAlike_renameOption hr hthis initializer hinside hinitializer
  simp only [Stmt.names, hname] at hafter
  have hlast := Stmt.allAlike_renameAll hr hthis after hready' (fun _ => honce.2) hafter
  rw [hlacks'.rename_declare] at hlast
  simp only [Stmt.pointsAll_append, Stmt.pointsAll, Stmt.points, Stmt.names, Stmt.namesAll_rename, hname]
  refine List.rel_append hfirst (List.rel_append (.cons ⟨rfl, rfl, fun _ => ?_, fun _ => hr.ne_this⟩ hvalue) hlast)
  have hlacksNew : (c.declare (Stmt.namesAll before)).Lacks (name.named r.new).lexeme := hready.lacks
  exact hlacksNew.redeclared

/-- The parameters of a routine do not have the name of a variable of its body. -/
theorem Renaming.Declared.lacks (h : r.Declared body body') {names : List String}
    (hdisjoint : names.Disjoint (Stmt.namesAll body)) {kind : Layer.Kind} : (c.enter kind names).Lacks r.old := by
  obtain ⟨hname⟩ := h
  rintro _ ⟨⟩ hmem
  exact hdisjoint hmem (by simp [Stmt.namesAll, Stmt.names, hname])

/-- The points of a block in which a variable is renamed. -/
theorem Renaming.OfBlock.allAlike (hr : r.Fresh tokens) {s s' : Stmt} (h : r.OfBlock s s') (hc : c.initializing = none)
    (hgood : ∀ p ∈ s.points c, r.Good tokens p) : AllAlike (s.points c) (s'.points c) := by
  obtain ⟨hdeclared⟩ := h
  rename_i body body'
  refine .cons ⟨rfl, rfl, id, id⟩
    (hdeclared.allAlike hr ⟨hc, ?_⟩ ?_ (Stmt.nodup_of_good hc hgood) (List.forall_mem_cons.mp hgood).2)
  · simp [Context.enter]
  · simp [Context.Lacks, Context.enter]

/-- The points of a routine in which a parameter or a variable is renamed. -/
theorem Renaming.OfRoutine.allAlike (hr : r.Fresh tokens) {f f' : Function} (h : r.OfRoutine f f') {enclosing : Enclosing}
    (hc : c.initializing = none) (hgood : ∀ p ∈ f.points enclosing c, r.Good tokens p) :
    AllAlike (f.points enclosing c) (f'.points enclosing c) := by
  have hnodup := Function.nodup_of_good hc hgood
  have hready : ∀ {parameters : List Token}, (∀ p ∈ parameters, p.IsFrom tokens .identifier) →
      (c.enter (.body enclosing) (parameters.map Token.lexeme)).Ready r 0 := by
    intro parameters hproper
    refine ⟨hc, ?_⟩
    simp only [Context.enter, Nat.zero_add, List.take_succ_cons, List.take_zero, List.forall_mem_singleton]
    exact hr.notMem_parameters hproper
  cases h with
  | @ofVariable name parameters body body' hdeclared =>
    obtain ⟨hself, hbody⟩ := List.forall_mem_cons.mp hgood
    obtain ⟨-, hnames, hdisjoint⟩ := List.nodup_append'.mp hnodup
    exact .cons ⟨rfl, rfl, id, id⟩
      (hdeclared.allAlike hr (hready hself.proper.2) (hdeclared.lacks hdisjoint) hnames hbody)
  | @ofParameter name before p after body hname =>
    obtain ⟨hself, hbody⟩ := List.forall_mem_cons.mp hgood
    obtain ⟨hparameters, -, hdisjoint⟩ := List.nodup_append'.mp hnodup
    simp only [Function.parameters, Function.body] at hparameters hdisjoint
    have hproper : ∀ q ∈ before ++ p :: after, q.IsFrom tokens .identifier := hself.proper.2
    have hthis : r.old ≠ "this" := by
      rw [← hname]
      exact (hproper p (by simp)).ne_this hr.regular
    have hrest := Stmt.allAlike_renameAll hr hthis body (hready hproper)
      (fun _ hmem => hdisjoint (by simp [hname]) hmem) hbody
    have hmap : ((before ++ p :: after).map Token.lexeme).map r.name = (before ++ p.named r.new :: after).map Token.lexeme := by
      simp only [List.map_append, List.map_cons, hname] at hparameters ⊢
      obtain ⟨-, hafter, hbefore⟩ := List.nodup_append'.mp hparameters
      rw [Renaming.map_name fun hmem => hbefore hmem List.mem_cons_self, Renaming.map_name (List.nodup_cons.mp hafter).1]
      simp [Renaming.name, Token.named]
    have hcontext : (c.enter (.body enclosing) ((before ++ p :: after).map Token.lexeme)).rename r 0 =
        c.enter (.body enclosing) ((before ++ p.named r.new :: after).map Token.lexeme) := by
      rw [← hmap]
      rfl
    rw [hcontext] at hrest
    refine .cons ⟨rfl, rfl, fun _ => ?_, id⟩ hrest
    refine (@Point.repeated_eq_nil c .block [] (before ++ p.named r.new :: after)).mpr (Context.extends_enter.mpr ?_)
    rw [← hmap]
    refine Renaming.nodup_map hparameters fun x hx => ?_
    obtain ⟨q, hq, rfl⟩ := List.mem_map.mp hx
    exact hr.ne_new (hproper q hq)

theorem Renaming.replacement (r : Renaming) (tokens : List Token) : Replacement r.OfBlock r.OfRoutine (r.Good tokens) := by
  constructor
  · rintro _ _ _ ⟨-⟩ -
    rfl
  · rintro _ _ ⟨-⟩
    rfl
  · rintro _ _ (_ | _) <;> rfl

end Declarations

end Points

/-! ### Programs -/

/-- The distance of a use that is not a `this`. -/
theorem Point.mem_entries_of_role {p : Point} {u : Use} (hu : p.use? = some u) (hrole : u.role ≠ .this) {d : Nat} :
    (u.site, d) ∈ p.entries ↔ p.context.distance? u.name.lexeme = some d := by
  obtain ⟨node, c⟩ := p
  cases node with
  | stmt s => cases hu
  | routine f => cases hu
  | expr e =>
    cases e with
    | use site name =>
      cases hu
      simp [Point.entries, Point.entry]
    | assign site name value =>
      cases hu
      simp [Point.entries, Point.entry]
    | this site keyword =>
      cases hu
      exact absurd rfl hrole
    | _ => cases hu

/-- The points of a parsed and accepted program are good ones, with its own table. -/
theorem good_of_quiet {first : Site} {tokens : List Token} (old new : String) {n m : Site}
    (hranged : Ranged n m (points (parse first tokens).statements))
    (hquiet : ∀ p ∈ points (parse first tokens).statements, p.violations = []) :
    ∀ p ∈ points (parse first tokens).statements,
      Renaming.Good ⟨distanceTable (parse first tokens).statements, old, new⟩ tokens p := by
  have hlaid := parse_laid first tokens
  intro p hp
  refine ⟨hranged.proper p hp, hlaid.proper p hp, hquiet p hp, fun u hu hrole => Option.ext fun d => ?_⟩
  have hsite : p.site? = some u.site := by rw [Point.site?, hu, Option.map_some]
  rw [← Point.mem_entries_of_role hu hrole]
  constructor
  · intro hget
    obtain ⟨q, hq, hentry⟩ := distanceTable_get?_iff.mp hget
    rwa [hlaid.eq_of_site hp hq hsite (Point.site?_of_mem_entries hentry)]
  · exact fun hentry => distanceTable_get?_iff.mpr ⟨p, hp, hentry⟩

/-- Every point of a program notes the same when a variable is renamed, and still none breaks a rule. -/
theorem Renames.allAlike {first : Site} {tokens : List Token} {new : String} {n m : Site} {program' : List Stmt}
    (h : Renames new (parse first tokens).statements program') (hts : ∀ t ∈ tokens, t.Regular)
    (hnew : ∀ t ∈ tokens, t.lexeme ≠ new) (hthis : new ≠ "this") (hranged : Ranged n m (points (parse first tokens).statements))
    (hquiet : ∀ p ∈ points (parse first tokens).statements, p.violations = []) :
    AllAlike (points (parse first tokens).statements) (points program') := by
  obtain ⟨old, hchanged⟩ := h
  let r : Renaming := ⟨distanceTable (parse first tokens).statements, old, new⟩
  have hr : r.Fresh tokens := ⟨hts, hnew, hthis⟩
  have hgood := good_of_quiet old new hranged hquiet
  refine Amid.allAlike (hchanged.amid (r.replacement tokens) ?_ ?_ rfl hgood)
  · exact fun hblock hc hpoints => hblock.allAlike hr hc hpoints
  · exact fun hroutine hc hpoints => hroutine.allAlike hr hc hpoints

end LoxLanguage
