import Mathlib
import LoxLanguage.Proofs.Scope.Relabel
import LoxLanguage.Tree.Uses

/-! Points of a program: each node with the local scopes that the text has opened around it and the names that each of
them has declared up to there. Nothing here knows the resolver or its stack. What the resolver reports and which
distances it notes can be told from the points alone, one after the other (`problems_eq_points`,
`distances_eq_points`). -/

namespace LoxLanguage

/-! ### Contexts -/

/-- What opens a local scope: a block, the parameters and the body of a routine, or a class around its methods. -/
inductive Layer.Kind where
  | block
  | body (enclosing : Enclosing)
  | receiver
  deriving DecidableEq

/-- A local scope around a point, with the names that it has declared so far. -/
structure Layer where
  kind : Layer.Kind
  names : List String
  deriving DecidableEq

namespace Layer

/-- The routine whose body a scope belongs to. -/
def routine? (layer : Layer) : Option Enclosing :=
  match layer.kind with
  | .body enclosing => some enclosing
  | _ => none

/-- The body of a method. -/
def isMethod (layer : Layer) : Bool :=
  match layer.kind with
  | .body .method | .body .initializer => true
  | _ => false

/-- Declares more names. -/
def declare (layer : Layer) (names : List String) : Layer :=
  { layer with names := layer.names ++ names }

end Layer

/-- Where a node stands: the local scopes around it, the innermost first, and the variable in whose initializer it is. -/
structure Context where
  layers : List Layer
  initializing : Option String
  deriving DecidableEq

namespace Context

/-- Outside of all local scopes. -/
def top : Context := ⟨[], none⟩

/-- Inside a further scope. -/
def enter (c : Context) (kind : Layer.Kind) (names : List String) : Context :=
  { c with layers := ⟨kind, names⟩ :: c.layers }

/-- Behind declarations of the innermost scope. At the top level they are not those of a local scope. -/
def declare (c : Context) (names : List String) : Context :=
  { c with layers := c.layers.modifyHead (·.declare names) }

/-- Inside the initializer of a variable, which is declared already. -/
def inInitializer (c : Context) (name : String) : Context :=
  { c.declare [name] with initializing := some name }

/-- The innermost routine around a point. -/
def enclosing (c : Context) : Enclosing :=
  (c.layers.findSome? Layer.routine?).getD .topLevel

/-- Whether a point is in the body of a method, at any depth. -/
def inMethod (c : Context) : Bool :=
  c.layers.any Layer.isMethod

/-- Whether a point is in a local scope. -/
def isLocal (c : Context) : Bool :=
  !c.layers.isEmpty

/-- The name is declared in a local scope around the point, and `distance` scopes have been opened inside the innermost
    such scope. -/
def Binds (c : Context) (name : String) (distance : Nat) : Prop :=
  ∃ inner layer outer, c.layers = inner ++ layer :: outer ∧ inner.length = distance ∧ name ∈ layer.names ∧
    ∀ other ∈ inner, name ∉ other.names

/-- The distance of a name from a point. -/
def distance? (c : Context) (name : String) : Option Nat :=
  c.layers.findIdx? (name ∈ ·.names)

end Context

/-! ### Points -/

/-- A node of a program. -/
inductive Node where
  | expr (e : Expr)
  | stmt (s : Stmt)
  | routine (f : Function)

/-- A node and where it stands. -/
structure Point where
  node : Node
  context : Context

mutual

/-- The names that a statement declares in the scope around it. Under a branch or a loop the parser puts no declaration, but
    one there would belong to that scope as well. -/
def Stmt.names : Stmt → List String
  | .declareVariable name _ => [name.lexeme]
  | .declareFunction f => [f.name.lexeme]
  | .declareClass name _ => [name.lexeme]
  | .branch _ whenTrue whenFalse => whenTrue.names ++ Stmt.namesOption whenFalse
  | .loop _ body => body.names
  | .expression _ | .print _ | .block _ | .returnValue _ _ => []

@[inherit_doc Stmt.names]
def Stmt.namesOption : Option Stmt → List String
  | none => []
  | some s => s.names

end

/-- The names that statements declare in the scope around them. -/
def Stmt.namesAll (body : List Stmt) : List String :=
  body.flatMap Stmt.names

mutual

/-- An expression and all those in it. The target of an assignment is named behind its value. -/
def Expr.parts : Expr → List Expr
  | .literal value => [.literal value]
  | .unary operator operand => .unary operator operand :: operand.parts
  | .binary left operator right => .binary left operator right :: (left.parts ++ right.parts)
  | .logical left operator right => .logical left operator right :: (left.parts ++ right.parts)
  | .grouping inner => .grouping inner :: inner.parts
  | .use site name => [.use site name]
  | .assign site name value => value.parts ++ [.assign site name value]
  | .call callee paren arguments => .call callee paren arguments :: (callee.parts ++ Expr.partsAll arguments)
  | .get object name => .get object name :: object.parts
  | .set object name value => .set object name value :: (value.parts ++ object.parts)
  | .this site keyword => [.this site keyword]

@[inherit_doc Expr.parts]
def Expr.partsAll : List Expr → List Expr
  | [] => []
  | e :: rest => e.parts ++ Expr.partsAll rest

end

/-- The use that an expression is. -/
def Expr.use? : Expr → Option Use
  | .use site name => some ⟨.reads, site, name⟩
  | .assign site name _ => some ⟨.assigns, site, name⟩
  | .this site keyword => some ⟨.this, site, keyword⟩
  | _ => none

/-- The points of an expression. No expression opens a scope. -/
def Expr.points (e : Expr) (c : Context) : List Point :=
  e.parts.map fun part => ⟨.expr part, c⟩

def Expr.pointsAll (es : List Expr) (c : Context) : List Point :=
  (Expr.partsAll es).map fun part => ⟨.expr part, c⟩

def Expr.pointsOption : Option Expr → Context → List Point
  | none, _ => []
  | some e, c => e.points c

section Operands
variable (left right callee object value : Expr) (operator name paren : Token) (site : Site) (arguments : List Expr)
  (c : Context)

theorem Expr.points_binary : (Expr.binary left operator right).points c =
    ⟨.expr (.binary left operator right), c⟩ :: (left.points c ++ right.points c) := by
  simp [Expr.points, Expr.parts]

theorem Expr.points_logical : (Expr.logical left operator right).points c =
    ⟨.expr (.logical left operator right), c⟩ :: (left.points c ++ right.points c) := by
  simp [Expr.points, Expr.parts]

theorem Expr.points_assign : (Expr.assign site name value).points c =
    value.points c ++ [⟨.expr (.assign site name value), c⟩] := by
  simp [Expr.points, Expr.parts]

theorem Expr.points_call : (Expr.call callee paren arguments).points c =
    ⟨.expr (.call callee paren arguments), c⟩ :: (callee.points c ++ Expr.pointsAll arguments c) := by
  simp [Expr.points, Expr.parts, Expr.pointsAll]

theorem Expr.points_set : (Expr.set object name value).points c =
    ⟨.expr (.set object name value), c⟩ :: (value.points c ++ object.points c) := by
  simp [Expr.points, Expr.parts]

end Operands

theorem Expr.pointsAll_cons (e : Expr) (rest : List Expr) (c : Context) :
    Expr.pointsAll (e :: rest) c = e.points c ++ Expr.pointsAll rest c := by
  simp [Expr.points, Expr.pointsAll, Expr.partsAll]

mutual

/-- The points of a statement. A function or a class is known in its own body, a variable in its own initializer. -/
def Stmt.points : Stmt → Context → List Point
  | .expression e, c => ⟨.stmt (.expression e), c⟩ :: e.points c
  | .print e, c => ⟨.stmt (.print e), c⟩ :: e.points c
  | .declareVariable name initializer, c =>
    ⟨.stmt (.declareVariable name initializer), c⟩ :: Expr.pointsOption initializer (c.inInitializer name.lexeme)
  | .block body, c => ⟨.stmt (.block body), c⟩ :: Stmt.pointsAll body (c.enter .block [])
  | .branch condition whenTrue whenFalse, c =>
    ⟨.stmt (.branch condition whenTrue whenFalse), c⟩ :: (condition.points c ++ (whenTrue.points c ++
      Stmt.pointsOption whenFalse (c.declare whenTrue.names)))
  | .loop condition body, c => ⟨.stmt (.loop condition body), c⟩ :: (condition.points c ++ body.points c)
  | .declareFunction f, c => ⟨.stmt (.declareFunction f), c⟩ :: f.points .function (c.declare [f.name.lexeme])
  | .returnValue keyword value, c => ⟨.stmt (.returnValue keyword value), c⟩ :: Expr.pointsOption value c
  | .declareClass name methods, c =>
    ⟨.stmt (.declareClass name methods), c⟩ ::
      Function.pointsAll methods ((c.declare [name.lexeme]).enter .receiver ["this"])

/-- The points of statements. Each stands behind the declarations of those before it. -/
def Stmt.pointsAll : List Stmt → Context → List Point
  | [], _ => []
  | s :: rest, c => s.points c ++ Stmt.pointsAll rest (c.declare s.names)

def Stmt.pointsOption : Option Stmt → Context → List Point
  | none, _ => []
  | some s, c => s.points c

/-- The points of a routine: one scope holds its parameters and the top level of its body. -/
def Function.points : Function → Enclosing → Context → List Point
  | .mk name parameters body, enclosing, c =>
    ⟨.routine (.mk name parameters body), c⟩ ::
      Stmt.pointsAll body (c.enter (.body enclosing) (parameters.map Token.lexeme))

def Function.pointsAll : List Function → Context → List Point
  | [], _ => []
  | f :: rest, c => f.points (if f.isInitializer then .initializer else .method) c ++ Function.pointsAll rest c

end

/-- The points of a program. -/
def points (program : List Stmt) : List Point :=
  Stmt.pointsAll program .top

/-! ### Uses -/

/-- The use of a variable at a point. -/
def Point.use? (p : Point) : Option Use :=
  match p.node with
  | .expr e => e.use?
  | _ => none

mutual

theorem Expr.uses_perm : ∀ e : Expr, (e.parts.filterMap Expr.use?).Perm e.uses
  | .literal _ => .nil
  | .unary _ operand => operand.uses_perm
  | .binary left _ right => by
    rw [Expr.parts, List.filterMap_cons_none rfl, List.filterMap_append]
    exact left.uses_perm.append right.uses_perm
  | .logical left _ right => by
    rw [Expr.parts, List.filterMap_cons_none rfl, List.filterMap_append]
    exact left.uses_perm.append right.uses_perm
  | .grouping inner => inner.uses_perm
  | .use _ _ => .refl _
  | .assign _ _ value => by
    rw [Expr.parts, List.filterMap_append]
    exact (List.perm_append_comm).trans (value.uses_perm.cons _)
  | .call callee _ arguments => by
    rw [Expr.parts, List.filterMap_cons_none rfl, List.filterMap_append]
    exact callee.uses_perm.append (Expr.usesOfAll_perm arguments)
  | .get object _ => object.uses_perm
  | .set object _ value => by
    rw [Expr.parts, List.filterMap_cons_none rfl, List.filterMap_append]
    exact (value.uses_perm.append object.uses_perm).trans List.perm_append_comm
  | .this _ _ => .refl _

theorem Expr.usesOfAll_perm : ∀ es : List Expr, ((Expr.partsAll es).filterMap Expr.use?).Perm (Expr.usesOfAll es)
  | [] => .nil
  | e :: rest => by
    rw [Expr.partsAll, List.filterMap_append]
    exact e.uses_perm.append (Expr.usesOfAll_perm rest)

end

section Uses
variable (e : Expr) (c : Context)

theorem Expr.points_uses : ((e.points c).filterMap Point.use?).Perm e.uses := by
  rw [Expr.points, List.filterMap_map]
  exact e.uses_perm

theorem Expr.pointsOption_uses (e : Option Expr) :
    ((Expr.pointsOption e c).filterMap Point.use?).Perm (Expr.usesOfOption e) := by
  cases e with
  | none => exact .nil
  | some e => exact e.points_uses c

end Uses

mutual

theorem Stmt.points_uses : ∀ (s : Stmt) (c : Context), ((s.points c).filterMap Point.use?).Perm s.uses
  | .expression e, c => e.points_uses c
  | .print e, c => e.points_uses c
  | .declareVariable _ initializer, c => Expr.pointsOption_uses _ initializer
  | .block body, c => Stmt.pointsAll_uses body _
  | .branch condition whenTrue whenFalse, c => by
    rw [Stmt.points, List.filterMap_cons_none rfl, List.filterMap_append, List.filterMap_append, Stmt.uses, List.append_assoc]
    exact (condition.points_uses c).append ((whenTrue.points_uses c).append (Stmt.pointsOption_uses whenFalse _))
  | .loop condition body, c => by
    rw [Stmt.points, List.filterMap_cons_none rfl, List.filterMap_append]
    exact (condition.points_uses c).append (body.points_uses c)
  | .declareFunction f, c => f.points_uses _ _
  | .returnValue _ value, c => Expr.pointsOption_uses c value
  | .declareClass _ methods, c => Function.pointsAll_uses methods _

/-- The uses at the points of statements are those in the statements. -/
theorem Stmt.pointsAll_uses : ∀ (body : List Stmt) (c : Context),
    ((Stmt.pointsAll body c).filterMap Point.use?).Perm (Stmt.usesOfAll body)
  | [], _ => .nil
  | s :: rest, c => by
    rw [Stmt.pointsAll, List.filterMap_append]
    exact (s.points_uses c).append (Stmt.pointsAll_uses rest _)

theorem Stmt.pointsOption_uses : ∀ (s : Option Stmt) (c : Context),
    ((Stmt.pointsOption s c).filterMap Point.use?).Perm (Stmt.usesOfOption s)
  | none, _ => .nil
  | some s, c => s.points_uses c

theorem Function.points_uses : ∀ (f : Function) (enclosing : Enclosing) (c : Context),
    ((f.points enclosing c).filterMap Point.use?).Perm f.uses
  | .mk _ _ body, _, _ => Stmt.pointsAll_uses body _

theorem Function.pointsAll_uses : ∀ (methods : List Function) (c : Context),
    ((Function.pointsAll methods c).filterMap Point.use?).Perm (Function.usesOfAll methods)
  | [], _ => .nil
  | f :: rest, c => by
    rw [Function.pointsAll, List.filterMap_append]
    exact (f.points_uses _ c).append (Function.pointsAll_uses rest c)

end

/-! ### Distances and violations -/

namespace Point

/-- The distance to a name at a site, if a scope has the name. -/
def entry (c : Context) (site : Site) (name : Token) : List (Site × Nat) :=
  (c.distance? name.lexeme).toList.map (site, ·)

/-- The distance to note at a point. -/
def entries : Point → List (Site × Nat)
  | ⟨.expr (.use site name), c⟩ => entry c site name
  | ⟨.expr (.assign site name _), c⟩ => entry c site name
  | ⟨.expr (.this site keyword), c⟩ => if c.inMethod then entry c site keyword else []
  | _ => []

/-- A name that is declared again in the innermost scope. -/
def redeclared (c : Context) (name : Token) : List Problem :=
  match c.layers with
  | [] => []
  | layer :: _ => if name.lexeme ∈ layer.names then [.atToken name .alreadyDeclared] else []

/-- Parameters that are declared again. -/
def repeated : List String → List Token → List Problem
  | _, [] => []
  | before, name :: rest =>
    (if name.lexeme ∈ before then [.atToken name .alreadyDeclared] else []) ++ repeated (before ++ [name.lexeme]) rest

/-- What breaks a rule of scoping at a point. -/
def violations : Point → List Problem
  | ⟨.expr (.use _ name), c⟩ =>
    if c.isLocal && c.initializing = some name.lexeme then [.atToken name .readInOwnInitializer] else []
  | ⟨.expr (.this _ keyword), c⟩ => if c.inMethod then [] else [.atToken keyword .thisOutsideClass]
  | ⟨.stmt (.declareVariable name _), c⟩ => redeclared c name
  | ⟨.stmt (.declareFunction f), c⟩ => redeclared c f.name
  | ⟨.stmt (.declareClass name _), c⟩ => redeclared c name
  | ⟨.stmt (.returnValue keyword value), c⟩ =>
    (if c.enclosing = .topLevel then [.atToken keyword .returnAtTopLevel] else []) ++
      (if value.isSome && c.enclosing = .initializer then [.atToken keyword .returnValueFromInitializer] else [])
  | ⟨.routine f, _⟩ => repeated [] f.parameters
  | _ => []

end Point

/-! ### What the resolver knows at a point -/

namespace Context

variable (c : Context)

@[simp]
theorem enclosing_declare (names : List String) : (c.declare names).enclosing = c.enclosing := by
  unfold enclosing declare
  cases c.layers <;> rfl

@[simp]
theorem inMethod_declare (names : List String) : (c.declare names).inMethod = c.inMethod := by
  unfold inMethod declare
  cases c.layers <;> rfl

theorem declare_nil : c.declare [] = c := by
  obtain ⟨layers, initializing⟩ := c
  cases layers <;> simp [declare, Layer.declare]

theorem declare_declare (names more : List String) : (c.declare names).declare more = c.declare (names ++ more) := by
  obtain ⟨layers, initializing⟩ := c
  cases layers <;> simp [declare, Layer.declare]

end Context

/-- A scope of the resolver has the names of a layer. -/
def Layer.Shows (layer : Layer) (scope : Scope) : Prop :=
  ∀ x, scope.has x = true ↔ x ∈ layer.names

theorem Layer.Shows.nil (kind : Layer.Kind) : Layer.Shows ⟨kind, []⟩ [] := by
  intro x
  simp [Bindings.has]

theorem Layer.Shows.put {layer : Layer} {scope : Scope} (h : layer.Shows scope) (name : String) (finished : Bool) :
    (layer.declare [name]).Shows (scope.put name finished) := by
  intro x
  rw [Bindings.has_put]
  simp [Layer.declare, h x, or_comm]

/-- Scopes of the resolver have the names of a context, and what is unread in the innermost one is the variable in whose
    initializer the point is. -/
structure Context.Shows (c : Context) (scopes : List Scope) : Prop where
  names : List.Forall₂ Layer.Shows c.layers scopes
  unread : ∀ scope ∈ scopes.head?, ∀ x, scope.get? x = some false ↔ c.initializing = some x

namespace Context.Shows

variable {c : Context} {scopes : List Scope} {name : String}

theorem mark (h : c.Shows scopes) (hsettled : c.initializing = none) :
    (c.inInitializer name).Shows (markName scopes name false) := by
  obtain ⟨layers, initializing⟩ := c
  obtain ⟨hnames, hunread⟩ := h
  subst hsettled
  cases hnames with
  | nil => exact ⟨.nil, nofun⟩
  | cons hhas hrest =>
    refine ⟨.cons (hhas.put name false) hrest, ?_⟩
    rintro _ ⟨⟩ x
    by_cases hx : x = name
    · simp [hx, inInitializer]
    · rw [Bindings.get?_put_of_ne _ _ hx, hunread _ rfl x]
      simp [inInitializer, Ne.symm hx]

theorem finish (h : (c.inInitializer name).Shows scopes) (hsettled : c.initializing = none) :
    (c.declare [name]).Shows (markName scopes name true) := by
  obtain ⟨layers, initializing⟩ := c
  obtain ⟨hnames, hunread⟩ := h
  subst hsettled
  cases layers with
  | nil =>
    cases hnames
    exact ⟨.nil, nofun⟩
  | cons layer outer =>
    obtain ⟨scope, rest, hhas, hrest, rfl⟩ := List.forall₂_cons_left_iff.mp hnames
    refine ⟨.cons (fun x => ?_) hrest, ?_⟩
    · rw [Bindings.has_put, Bool.or_eq_true, hhas x]
      simp [Layer.declare, or_comm]
    · rintro _ ⟨⟩ x
      by_cases hx : x = name
      · simp [hx, declare]
      · rw [Bindings.get?_put_of_ne _ _ hx, hunread _ rfl x]
        simp [declare, inInitializer, Ne.symm hx]

theorem enter (h : c.Shows scopes) (hsettled : c.initializing = none) (kind : Layer.Kind) :
    (c.enter kind []).Shows ([] :: scopes) := by
  refine ⟨.cons (.nil kind) h.names, ?_⟩
  rintro _ ⟨⟩ x
  simp [Context.enter, hsettled]

theorem receiver (h : c.Shows scopes) (hsettled : c.initializing = none) :
    (c.enter .receiver ["this"]).Shows ([("this", true)] :: scopes) := by
  refine ⟨.cons (fun x => ?_) h.names, ?_⟩
  · simp [Bindings.has, Bindings.get?_cons]
  · rintro _ ⟨⟩ x
    simp [Context.enter, hsettled, Bindings.get?_cons]

end Context.Shows

/-- The resolver stands at a context: it has its scopes, and routine and class are those of the context. -/
structure Resolution.StandsAt (r : Resolution) (c : Context) : Prop where
  shown : c.Shows r.scopes
  enclosing : r.enclosing = c.enclosing
  inClass : r.inClass = c.inMethod

namespace Resolution.StandsAt

variable {r r' : Resolution} {c : Context}

theorem start : Resolution.start.StandsAt .top :=
  ⟨⟨.nil, nofun⟩, rfl, rfl⟩

/-- What a context tells depends on the scopes and the place only. -/
theorem congr (h : r.StandsAt c) (hscopes : r'.scopes = r.scopes) (hplace : r'.place = r.place) : r'.StandsAt c := by
  have henclosing : r'.enclosing = r.enclosing := congrArg Prod.fst hplace
  have hclass : r'.inClass = r.inClass := congrArg Prod.snd hplace
  exact ⟨hscopes ▸ h.shown, henclosing.trans h.enclosing, hclass.trans h.inClass⟩

theorem declare (h : r.StandsAt c) (hsettled : c.initializing = none) (name : Token) :
    (r.declare name).StandsAt (c.inInitializer name.lexeme) := by
  have hplace := congrArg Prod.fst (declare_place r name)
  have hclass := congrArg Prod.snd (declare_place r name)
  refine ⟨?_, ?_, ?_⟩
  · rw [declare_scopes]
    exact h.shown.mark hsettled
  · exact (hplace.trans h.enclosing).trans (c.enclosing_declare _).symm
  · exact (hclass.trans h.inClass).trans (c.inMethod_declare _).symm

theorem define {name : Token} (h : r.StandsAt (c.inInitializer name.lexeme)) (hsettled : c.initializing = none) :
    (r.define name).StandsAt (c.declare [name.lexeme]) := by
  have hplace := congrArg Prod.fst (define_place r name)
  have hclass := congrArg Prod.snd (define_place r name)
  refine ⟨?_, hplace.trans h.enclosing, hclass.trans h.inClass⟩
  rw [define_scopes]
  exact h.shown.finish hsettled

/-- A name that has its value at once. -/
theorem declared (h : r.StandsAt c) (hsettled : c.initializing = none) (name : Token) :
    ((r.declare name).define name).StandsAt (c.declare [name.lexeme]) :=
  (h.declare hsettled name).define hsettled

theorem block (h : r.StandsAt c) (hsettled : c.initializing = none) : (r.enter []).StandsAt (c.enter .block []) :=
  ⟨h.shown.enter hsettled .block, h.enclosing, h.inClass⟩

theorem parameters (names : List Token) (h : r.StandsAt c) (hsettled : c.initializing = none) :
    (r.parameters names).StandsAt (c.declare (names.map Token.lexeme)) := by
  unfold Resolution.parameters
  induction names generalizing r c with
  | nil =>
    rw [List.map_nil, c.declare_nil]
    exact h
  | cons name rest ih =>
    have hrest := ih (h.declared hsettled name) hsettled
    rwa [c.declare_declare] at hrest

/-- In the body of a routine. The methods of a class are the routines whose bodies are in a method. -/
theorem body {enclosing : Enclosing} (names : List Token) (hshown : c.Shows r.scopes) (hsettled : c.initializing = none)
    (hclass : r.inClass = (Layer.isMethod ⟨.body enclosing, []⟩ || c.inMethod)) :
    (r.inBody enclosing names).StandsAt (c.enter (.body enclosing) (names.map Token.lexeme)) := by
  have hinside : ({ r with enclosing }.enter []).StandsAt (c.enter (.body enclosing) []) :=
    ⟨hshown.enter hsettled _, rfl, hclass⟩
  exact hinside.parameters names hsettled

end Resolution.StandsAt

/-! ### What is told at a point -/

namespace Resolution.StandsAt

variable {r : Resolution} {c : Context}

theorem entry (h : r.StandsAt c) (site : Site) (name : Token) : Visit.entry r site name = Point.entry c site name := by
  have hdistance : r.distance? name.lexeme = c.distance? name.lexeme := by
    have hnames := h.shown.names
    unfold Resolution.distance? Context.distance?
    generalize r.scopes = scopes, c.layers = layers at hnames
    induction hnames with
    | nil => rfl
    | cons hhas _ ih =>
      rw [List.findIdx?_cons, List.findIdx?_cons, ih]
      congr 1
      simp [← hhas name.lexeme]
  rw [Visit.entry, Point.entry, hdistance]

theorem read (h : r.StandsAt c) (site : Site) (name : Token) :
    readComplaints r.scopes name = Point.violations ⟨.expr (.use site name), c⟩ := by
  obtain ⟨layers, initializing⟩ := c
  obtain ⟨hnames, hunread⟩ := h.shown
  generalize r.scopes = scopes at hnames hunread
  cases hnames with
  | nil => rfl
  | cons => simp [readComplaints, Point.violations, Context.isLocal, hunread _ rfl name.lexeme]

theorem redeclared (h : r.StandsAt c) (name : Token) : declareComplaints r.scopes name = Point.redeclared c name := by
  have hnames := h.shown.names
  unfold declareComplaints Point.redeclared
  generalize r.scopes = scopes, c.layers = layers at hnames
  cases hnames with
  | nil => rfl
  | cons hhas _ => simp [hhas name.lexeme]

end Resolution.StandsAt

theorem parameterComplaints_eq {layer : Layer} {scope : Scope} (h : layer.Shows scope) (outer : List Scope)
    (names : List Token) : parameterComplaints (scope :: outer) names = Point.repeated layer.names names := by
  induction names generalizing scope layer with
  | nil => rfl
  | cons name rest ih =>
    have hbehind : (layer.declare [name.lexeme]).Shows ((scope.put name.lexeme false).put name.lexeme true) := by
      intro x
      simp [Bindings.has_put, Layer.declare, h x, or_comm]
    rw [parameterComplaints, Point.repeated]
    congr 1
    · simp [declareComplaints, h name.lexeme]
    · exact ih hbehind

/-- The visits of the resolver and the points of the text tell the same. -/
structure Tells (vs : List Visit) (ps : List Point) : Prop where
  entries : vs.flatMap Visit.entries = ps.flatMap Point.entries
  problems : vs.flatMap Visit.complaints = ps.flatMap Point.violations

namespace Tells

variable {v : Visit} {p : Point} {vs ws : List Visit} {ps qs : List Point}

theorem nil : Tells [] [] := ⟨rfl, rfl⟩

theorem append (h : Tells vs ps) (h' : Tells ws qs) : Tells (vs ++ ws) (ps ++ qs) := by
  refine ⟨?_, ?_⟩
  · rw [List.flatMap_append, List.flatMap_append, h.entries, h'.entries]
  · rw [List.flatMap_append, List.flatMap_append, h.problems, h'.problems]

theorem single (hentries : v.entries = p.entries) (hproblems : v.complaints = p.violations) : Tells [v] [p] := by
  refine ⟨?_, ?_⟩
  · rw [List.flatMap_singleton, List.flatMap_singleton, hentries]
  · rw [List.flatMap_singleton, List.flatMap_singleton, hproblems]

theorem cons (hentries : v.entries = p.entries) (hproblems : v.complaints = p.violations) (h : Tells vs ps) :
    Tells (v :: vs) (p :: ps) :=
  (single hentries hproblems).append h

end Tells

/-! ### The walk over the points -/

mutual

theorem Expr.visits_tell : ∀ (e : Expr) {r : Resolution} {c : Context}, r.StandsAt c → Tells (e.visits r) (e.points c)
  | .literal _, _, _, _ => .single rfl rfl
  | .unary _ operand, _, _, h => .cons rfl rfl (operand.visits_tell h)
  | .binary left _ right, _, _, h => by
    have hright := right.visits_tell (h.congr (left.resolve_scopes _) (left.resolve_place _))
    rw [Expr.points_binary]
    exact .cons rfl rfl ((left.visits_tell h).append hright)
  | .logical left _ right, _, _, h => by
    have hright := right.visits_tell (h.congr (left.resolve_scopes _) (left.resolve_place _))
    rw [Expr.points_logical]
    exact .cons rfl rfl ((left.visits_tell h).append hright)
  | .grouping inner, _, _, h => .cons rfl rfl (inner.visits_tell h)
  | .use site name, _, _, h => .single (h.entry site name) (h.read site name)
  | .assign site name value, _, _, h => by
    have hbehind := h.congr (value.resolve_scopes _) (value.resolve_place _)
    rw [Expr.points_assign]
    exact (value.visits_tell h).append (.single (hbehind.entry site name) rfl)
  | .call callee _ arguments, _, _, h => by
    have harguments := Expr.visitsAll_tell arguments (h.congr (callee.resolve_scopes _) (callee.resolve_place _))
    rw [Expr.points_call]
    exact .cons rfl rfl ((callee.visits_tell h).append harguments)
  | .get object _, _, _, h => .cons rfl rfl (object.visits_tell h)
  | .set object _ value, _, _, h => by
    have hobject := object.visits_tell (h.congr (value.resolve_scopes _) (value.resolve_place _))
    rw [Expr.points_set]
    exact .cons rfl rfl ((value.visits_tell h).append hobject)
  | .this site keyword, _, _, h => by
    refine .single ?_ ?_
    · simp only [Visit.entries, Point.entries, h.inClass, h.entry]
    · simp only [Visit.complaints, Point.violations, h.inClass]

theorem Expr.visitsAll_tell : ∀ (es : List Expr) {r : Resolution} {c : Context}, r.StandsAt c →
    Tells (Expr.visitsAll es r) (Expr.pointsAll es c)
  | [], _, _, _ => .nil
  | e :: rest, _, _, h => by
    have hrest := Expr.visitsAll_tell rest (h.congr (e.resolve_scopes _) (e.resolve_place _))
    rw [Expr.pointsAll_cons]
    exact (e.visits_tell h).append hrest

end

theorem Expr.visitsOption_tell (e : Option Expr) {r : Resolution} {c : Context} (h : r.StandsAt c) :
    Tells (Expr.visitsOption e r) (Expr.pointsOption e c) := by
  cases e with
  | none => exact .nil
  | some e => exact e.visits_tell h

mutual

/-- Behind a statement the resolver stands behind its declarations. -/
theorem Stmt.resolve_standsAt : ∀ (s : Stmt) {r : Resolution} {c : Context}, r.StandsAt c → c.initializing = none →
    (s.resolve r).StandsAt (c.declare s.names)
  | .expression e, r, c, h, _ => by
    rw [Stmt.names, c.declare_nil]
    exact h.congr (e.resolve_scopes r) (e.resolve_place r)
  | .print e, r, c, h, _ => by
    rw [Stmt.names, c.declare_nil]
    exact h.congr (e.resolve_scopes r) (e.resolve_place r)
  | .declareVariable name initializer, r, c, h, hsettled => by
    have hinside := (h.declare hsettled name).congr (Expr.resolveOption_scopes initializer _)
      (Expr.resolveOption_place initializer _)
    exact hinside.define hsettled
  | .block body, r, c, h, _ => by
    rw [Stmt.names, c.declare_nil]
    exact h.congr (Stmt.resolve_block_scopes body r) (Stmt.resolve_place (.block body) r)
  | .branch condition whenTrue whenFalse, r, c, h, hsettled => by
    have htrue := whenTrue.resolve_standsAt (h.congr (condition.resolve_scopes r) (condition.resolve_place r)) hsettled
    have hfalse := Stmt.resolveOption_standsAt whenFalse htrue hsettled
    rwa [c.declare_declare] at hfalse
  | .loop condition body, r, c, h, hsettled =>
    body.resolve_standsAt (h.congr (condition.resolve_scopes r) (condition.resolve_place r)) hsettled
  | .declareFunction f, r, c, h, hsettled =>
    (h.declared hsettled f.name).congr (f.resolve_scopes .function _) (f.resolve_place .function _)
  | .returnValue keyword value, r, c, h, _ => by
    rw [Stmt.names, c.declare_nil]
    refine h.congr ?_ (Stmt.resolve_place (.returnValue keyword value) r)
    rw [Stmt.resolve, Expr.resolveOption_scopes, Resolution.checkReturn_scopes]
  | .declareClass name methods, r, c, h, hsettled => by
    refine (h.declared hsettled name).congr (Stmt.resolve_class_scopes name methods r) ?_
    rw [Stmt.resolve_place, Resolution.define_place, Resolution.declare_place]

theorem Stmt.resolveOption_standsAt : ∀ (s : Option Stmt) {r : Resolution} {c : Context}, r.StandsAt c →
    c.initializing = none → (Stmt.resolveOption s r).StandsAt (c.declare (Stmt.namesOption s))
  | none, r, c, h, _ => by
    rw [Stmt.namesOption, c.declare_nil]
    exact h
  | some s, _, _, h, hsettled => s.resolve_standsAt h hsettled

end

mutual

/-- What the resolver notes and reports on its walk over a statement is told by the points of the statement. -/
theorem Stmt.visits_tell : ∀ (s : Stmt) {r : Resolution} {c : Context}, r.StandsAt c → c.initializing = none →
    Tells (s.visits r) (s.points c)
  | .expression e, _, _, h, _ => .cons rfl rfl (e.visits_tell h)
  | .print e, _, _, h, _ => .cons rfl rfl (e.visits_tell h)
  | .declareVariable name initializer, _, _, h, hsettled =>
    .cons rfl (h.redeclared name) (Expr.visitsOption_tell initializer (h.declare hsettled name))
  | .block body, _, _, h, hsettled => .cons rfl rfl (Stmt.visitsAll_tell body (h.block hsettled) hsettled)
  | .branch condition whenTrue whenFalse, _, _, h, hsettled => by
    have hcondition := h.congr (condition.resolve_scopes _) (condition.resolve_place _)
    have hfalse := Stmt.visitsOption_tell whenFalse (whenTrue.resolve_standsAt hcondition hsettled) hsettled
    exact .cons rfl rfl ((condition.visits_tell h).append ((whenTrue.visits_tell hcondition hsettled).append hfalse))
  | .loop condition body, _, _, h, hsettled => by
    have hcondition := h.congr (condition.resolve_scopes _) (condition.resolve_place _)
    exact .cons rfl rfl ((condition.visits_tell h).append (body.visits_tell hcondition hsettled))
  | .declareFunction f, _, _, h, hsettled => by
    have hinside := h.declared hsettled f.name
    exact .cons rfl (h.redeclared f.name) (f.visits_tell hinside.shown hsettled hinside.inClass)
  | .returnValue keyword value, r, _, h, _ => by
    refine .cons rfl ?_ (Expr.visitsOption_tell value (h.congr (r.checkReturn_scopes _ _) (r.checkReturn_place _ _)))
    simp only [Visit.complaints, Point.violations, h.enclosing]
  | .declareClass name methods, _, _, h, hsettled => by
    have hinside := h.declared hsettled name
    exact .cons rfl (h.redeclared name) (Function.visitsAll_tell methods (hinside.shown.receiver hsettled) hsettled rfl)

theorem Stmt.visitsAll_tell : ∀ (body : List Stmt) {r : Resolution} {c : Context}, r.StandsAt c → c.initializing = none →
    Tells (Stmt.visitsAll body r) (Stmt.pointsAll body c)
  | [], _, _, _, _ => .nil
  | s :: rest, _, _, h, hsettled =>
    (s.visits_tell h hsettled).append (Stmt.visitsAll_tell rest (s.resolve_standsAt h hsettled) hsettled)

theorem Stmt.visitsOption_tell : ∀ (s : Option Stmt) {r : Resolution} {c : Context}, r.StandsAt c →
    c.initializing = none → Tells (Stmt.visitsOption s r) (Stmt.pointsOption s c)
  | none, _, _, _, _ => .nil
  | some s, _, _, h, hsettled => s.visits_tell h hsettled

theorem Function.visits_tell : ∀ (f : Function) {enclosing : Enclosing} {r : Resolution} {c : Context},
    c.Shows r.scopes → c.initializing = none → r.inClass = (Layer.isMethod ⟨.body enclosing, []⟩ || c.inMethod) →
    Tells (f.visits enclosing r) (f.points enclosing c)
  | .mk _ parameters body, _, _, _, hshown, hsettled, hclass =>
    .cons rfl (parameterComplaints_eq (.nil .block) _ parameters)
      (Stmt.visitsAll_tell body (.body parameters hshown hsettled hclass) hsettled)

theorem Function.visitsAll_tell : ∀ (methods : List Function) {r : Resolution} {c : Context},
    c.Shows r.scopes → c.initializing = none → r.inClass = true → Tells (Function.visitsAll methods r) (Function.pointsAll methods c)
  | [], _, _, _, _, _ => .nil
  | f :: rest, r, c, hshown, hsettled, hclass => by
    have hmethod : r.inClass = (Layer.isMethod ⟨.body (if f.isInitializer then .initializer else .method), []⟩ || c.inMethod) := by
      rw [hclass]
      split <;> rfl
    refine (f.visits_tell hshown hsettled hmethod).append (Function.visitsAll_tell rest ?_ hsettled ?_)
    · rwa [f.resolve_scopes]
    · exact (congrArg Prod.snd (f.resolve_place _ r)).trans hclass

end

/-- Everything that breaks a rule is reported, in the order of the points, whatever has been reported before. -/
theorem problems_eq_points (program : List Stmt) :
    (resolve program).problems.toList = (points program).flatMap Point.violations := by
  have hproblems := (Stmt.resolveAll_log program .start).problems
  exact hproblems.trans (Stmt.visitsAll_tell program .start rfl).problems

/-- The distances that are noted are those of the points. -/
theorem distances_eq_points (program : List Stmt) :
    (resolve program).distances.toList = (points program).flatMap Point.entries := by
  have hdistances := (Stmt.resolveAll_log program .start).distances
  exact hdistances.trans (Stmt.visitsAll_tell program .start rfl).entries

end LoxLanguage
