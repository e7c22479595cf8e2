import LoxLanguage.Proofs.Lexical.Matching

/-! Variants of a program. A variant may call a local variable by another name, and may have a block around a statement
that declares nothing. Which names mean the same at a place is a relation that each declaration on the way
there has extended (`Naming`). States are alike when their function values and classes are variants of each other and all
else is the same; reading, writing and declaring names that mean the same keeps them alike. -/

namespace LoxLanguage

open Lexical (Environment Location)

/-! ### Names -/

/-- Which names on one side and on the other mean the same variable. -/
abbrev Naming := String → String → Prop

namespace Naming

variable (ρ : Naming)

/-- Behind a declaration of `x` on one side and of `y` on the other. -/
def extend (x y : String) : Naming := fun a b =>
  (a = x ∧ b = y) ∨ (a ≠ x ∧ b ≠ y ∧ ρ a b)

/-- Behind the declarations of parameters. -/
def extendAll (names : List Token) (names' : List Token) : Naming :=
  (names.zip names').foldl (fun ρ p => ρ.extend p.1.lexeme p.2.lexeme) ρ

/-- Behind statements of which both or neither declares a name. -/
def after : Option Token → Option Token → Naming
  | some name, some name' => ρ.extend name.lexeme name'.lexeme
  | _, _ => ρ

/-- Two tokens that differ at most in their names, and these mean the same. -/
def SameToken (t t' : Token) : Prop :=
  t' = { t with lexeme := t'.lexeme } ∧ ρ t.lexeme t'.lexeme

theorem extend_self (x y : String) : ρ.extend x y x y :=
  .inl ⟨rfl, rfl⟩

/-- Where names mean themselves, they go on to do so behind the declaration of a name as itself. -/
theorem extend_eq (x : String) : extend Eq x x = Eq := by
  funext a b
  refine propext ⟨?_, ?_⟩
  · rintro (⟨rfl, rfl⟩ | ⟨-, -, h⟩)
    · rfl
    · exact h
  · rintro rfl
    by_cases ha : a = x
    · exact .inl ⟨ha, ha⟩
    · exact .inr ⟨ha, ha, rfl⟩

theorem extendAll_eq (names : List Token) : extendAll Eq names names = Eq := by
  unfold extendAll
  induction names with
  | nil => rfl
  | cons name rest ih => rw [List.zip_cons_cons, List.foldl_cons, extend_eq, ih]

theorem after_eq (declared : Option Token) : after Eq declared declared = Eq := by
  cases declared with
  | none => rfl
  | some name => exact extend_eq _

end Naming

/-! ### Trees -/

section Expressions
variable (ρ : Naming)

mutual

/-- The same expression, with names that mean the same. -/
inductive Expr.Variant : Expr → Expr → Prop where
  | literal (value : Literal) : Variant (.literal value) (.literal value)
  | unary {operator e e'} (h : Variant e e') : Variant (.unary operator e) (.unary operator e')
  | binary {operator e e' f f'} (he : Variant e e') (hf : Variant f f') :
      Variant (.binary e operator f) (.binary e' operator f')
  | logical {operator e e' f f'} (he : Variant e e') (hf : Variant f f') :
      Variant (.logical e operator f) (.logical e' operator f')
  | grouping {e e'} (h : Variant e e') : Variant (.grouping e) (.grouping e')
  | use {site name name'} (hname : ρ.SameToken name name') : Variant (.use site name) (.use site name')
  | assign {site name name' e e'} (hname : ρ.SameToken name name') (h : Variant e e') :
      Variant (.assign site name e) (.assign site name' e')
  | call {paren e e' given given'} (h : Variant e e') (hgiven : VariantAll given given') :
      Variant (.call e paren given) (.call e' paren given')
  | get {name e e'} (h : Variant e e') : Variant (.get e name) (.get e' name)
  | set {name e e' f f'} (he : Variant e e') (hf : Variant f f') : Variant (.set e name f) (.set e' name f')
  | this {site keyword} (hname : ρ keyword.lexeme keyword.lexeme) : Variant (.this site keyword) (.this site keyword)

@[inherit_doc Expr.Variant]
inductive Expr.VariantAll : List Expr → List Expr → Prop where
  | nil : VariantAll [] []
  | cons {e e' rest rest'} (h : Variant e e') (hrest : VariantAll rest rest') : VariantAll (e :: rest) (e' :: rest')

end

end Expressions

/-- Where a statement stands: at the top level, in a scope of its own, or where it may declare nothing. -/
inductive Position where
  | top
  | inner
  | bare
  deriving DecidableEq

mutual

/-- The same statement, with names that mean the same, and with blocks around statements that declare nothing if
    `wraps`. At the top level the declared name is the same too. -/
inductive Stmt.Variant (wraps : Prop) : Position → Naming → Stmt → Stmt → Prop where
  | expression {pos ρ e e'} (h : Expr.Variant ρ e e') : Stmt.Variant wraps pos ρ (.expression e) (.expression e')
  | print {pos ρ e e'} (h : Expr.Variant ρ e e') : Stmt.Variant wraps pos ρ (.print e) (.print e')
  | declareVariable {pos ρ name name' initializer initializer'} (hpos : pos ≠ .bare)
      (hname : pos = .top → name'.lexeme = name.lexeme)
      (h : Option.Rel (Expr.Variant (ρ.extend name.lexeme name'.lexeme)) initializer initializer') :
      Stmt.Variant wraps pos ρ (.declareVariable name initializer) (.declareVariable name' initializer')
  | block {pos ρ body body'} (h : Stmt.VariantAll wraps .inner ρ body body') :
      Stmt.Variant wraps pos ρ (.block body) (.block body')
  | branch {pos ρ e e' s s' o o'} (he : Expr.Variant ρ e e') (hs : Stmt.Variant wraps .bare ρ s s')
      (ho : Stmt.VariantOption wraps ρ o o') : Stmt.Variant wraps pos ρ (.branch e s o) (.branch e' s' o')
  | loop {pos ρ e e' s s'} (he : Expr.Variant ρ e e') (hs : Stmt.Variant wraps .bare ρ s s') :
      Stmt.Variant wraps pos ρ (.loop e s) (.loop e' s')
  | declareFunction {pos ρ name parameters parameters' body body'} (hpos : pos ≠ .bare)
      (h : Function.Variant wraps (ρ.extend name.lexeme name.lexeme) (.mk name parameters body) (.mk name parameters' body')) :
      Stmt.Variant wraps pos ρ (.declareFunction (.mk name parameters body)) (.declareFunction (.mk name parameters' body'))
  | returnValue {pos ρ keyword value value'} (h : Option.Rel (Expr.Variant ρ) value value') :
      Stmt.Variant wraps pos ρ (.returnValue keyword value) (.returnValue keyword value')
  | declareClass {pos ρ name methods methods'} (hpos : pos ≠ .bare)
      (h : Function.VariantAll wraps ((ρ.extend name.lexeme name.lexeme).extend "this" "this") methods methods') :
      Stmt.Variant wraps pos ρ (.declareClass name methods) (.declareClass name methods')
  | wrap {pos ρ s s'} (hwraps : wraps) (h : Stmt.Variant wraps .bare ρ s s') : Stmt.Variant wraps pos ρ s (.block [s'])

/-- Variants one after the other, each behind the declarations of those before it. -/
inductive Stmt.VariantAll (wraps : Prop) : Position → Naming → List Stmt → List Stmt → Prop where
  | nil {pos ρ} : Stmt.VariantAll wraps pos ρ [] []
  | cons {pos ρ s s' rest rest'} (h : Stmt.Variant wraps pos ρ s s')
      (hrest : Stmt.VariantAll wraps pos (ρ.after s.declared? s'.declared?) rest rest') :
      Stmt.VariantAll wraps pos ρ (s :: rest) (s' :: rest')

/-- Variants of a branch that may be missing. -/
inductive Stmt.VariantOption (wraps : Prop) : Naming → Option Stmt → Option Stmt → Prop where
  | none {ρ} : Stmt.VariantOption wraps ρ none none
  | some {ρ s s'} (h : Stmt.Variant wraps .bare ρ s s') : Stmt.VariantOption wraps ρ (some s) (some s')

/-- The same routine, possibly with other names for its parameters. -/
inductive Function.Variant (wraps : Prop) : Naming → Function → Function → Prop where
  | mk {ρ name parameters parameters' body body'} (hlength : parameters'.length = parameters.length)
      (h : Stmt.VariantAll wraps .inner (ρ.extendAll parameters parameters') body body') :
      Function.Variant wraps ρ (.mk name parameters body) (.mk name parameters' body')

@[inherit_doc Function.Variant]
inductive Function.VariantAll (wraps : Prop) : Naming → List Function → List Function → Prop where
  | nil {ρ} : Function.VariantAll wraps ρ [] []
  | cons {ρ f f' rest rest'} (h : Function.Variant wraps ρ f f') (hrest : Function.VariantAll wraps ρ rest rest') :
      Function.VariantAll wraps ρ (f :: rest) (f' :: rest')

end

theorem Stmt.Variant.declared?_eq_none {wraps : Prop} {ρ : Naming} {s s' : Stmt} (h : Stmt.Variant wraps .bare ρ s s') :
    s.declared? = none := by
  cases h with
  | declareVariable hpos => exact absurd rfl hpos
  | declareFunction hpos => exact absurd rfl hpos
  | declareClass hpos => exact absurd rfl hpos
  | wrap _ h => exact declared?_eq_none h
  | _ => rfl
termination_by sizeOf s'

section Trees
variable {wraps : Prop} {pos : Position} {ρ : Naming} {s s' : Stmt} {f f' : Function}

/-- What may stand where nothing is declared may stand anywhere. -/
theorem Stmt.Variant.weaken (h : Stmt.Variant wraps .bare ρ s s') (pos : Position) : Stmt.Variant wraps pos ρ s s' := by
  cases h with
  | expression h => exact .expression h
  | print h => exact .print h
  | declareVariable hpos => exact absurd rfl hpos
  | block h => exact .block h
  | branch he hs ho => exact .branch he hs ho
  | loop he hs => exact .loop he hs
  | declareFunction hpos => exact absurd rfl hpos
  | returnValue h => exact .returnValue h
  | declareClass hpos => exact absurd rfl hpos
  | wrap hwraps h => exact .wrap hwraps h

theorem Stmt.Variant.after_eq (h : Stmt.Variant wraps .bare ρ s s') : ρ.after s.declared? s'.declared? = ρ := by
  rw [h.declared?_eq_none]
  rfl

theorem Function.Variant.name_eq (h : Function.Variant wraps ρ f f') : f'.name = f.name := by
  cases h
  rfl

theorem Function.Variant.length_eq (h : Function.Variant wraps ρ f f') : f'.parameters.length = f.parameters.length := by
  cases h with
  | mk hlength => exact hlength

theorem Function.Variant.isInitializer_eq (h : Function.Variant wraps ρ f f') : f'.isInitializer = f.isInitializer := by
  rw [Function.isInitializer, Function.isInitializer, h.name_eq]

theorem Function.Variant.body_variant (h : Function.Variant wraps ρ f f') :
    Stmt.VariantAll wraps .inner (ρ.extendAll f.parameters f'.parameters) f.body f'.body := by
  cases h with
  | mk _ h => exact h

end Trees

/-! ### Environments -/

namespace Lexical.Environment

/-- Names that mean the same are known as the same variable, or are one global name. -/
structure Alike (ρ : Naming) (e e' : Environment) : Prop where
  find : ∀ x y, ρ x y → e'.find? y = e.find? x
  global : ∀ x y, ρ x y → e.find? x = none → y = x

namespace Alike

variable {ρ : Naming} {e e' : Environment}

theorem refl (e : Environment) : Alike Eq e e :=
  ⟨fun _ _ h => by rw [h], fun _ _ h _ => h.symm⟩

theorem nest (h : Alike ρ e e') : Alike ρ e.nest e'.nest := by
  refine ⟨fun x y hxy => ?_, fun x y hxy hnone => ?_⟩
  · rw [find?_nest, find?_nest, h.find x y hxy]
  · rw [find?_nest] at hnone
    exact h.global x y hxy hnone

theorem nest_right (h : Alike ρ e e') : Alike ρ e e'.nest := by
  refine ⟨fun x y hxy => ?_, h.global⟩
  rw [find?_nest, h.find x y hxy]

/-- A variable for a name on each side. -/
theorem extend (h : Alike ρ e e') (x y : String) (l : Location) : Alike (ρ.extend x y) (e.extend x l) (e'.extend y l) := by
  refine ⟨fun a b hab => ?_, fun a b hab hnone => ?_⟩
  · rw [find?_extend_eq, find?_extend_eq]
    rcases hab with ⟨rfl, rfl⟩ | ⟨ha, hb, hab⟩
    · rw [if_pos rfl, if_pos rfl]
    · rw [if_neg ha, if_neg hb, h.find a b hab]
  · rw [find?_extend_eq] at hnone
    rcases hab with ⟨rfl, rfl⟩ | ⟨ha, hb, hab⟩
    · rw [if_pos rfl] at hnone
      cases hnone
    · rw [if_neg ha] at hnone
      exact h.global a b hab hnone

/-- A global name is declared. -/
theorem declareGlobal (h : Alike ρ .top .top) (x : String) : Alike (ρ.extend x x) .top .top := by
  refine ⟨fun _ _ _ => rfl, fun a b hab _ => ?_⟩
  rcases hab with ⟨rfl, rfl⟩ | ⟨-, -, hab⟩
  · rfl
  · exact h.global a b hab rfl

end Alike

end Lexical.Environment

/-- What is known of the environments at a place: both are those of the top level, both are not, or one is given. -/
inductive Level where
  | top
  | inner
  | fixed (e : Environment)

namespace Level

/-- What may be declared at a place. Where an environment is given, nothing. -/
def position : Level → Position
  | .top => .top
  | .inner => .inner
  | .fixed _ => .bare

/-- The environments on both sides fit the place. -/
def Fits (e e' : Environment) : Level → Prop
  | .top => e = .top ∧ e' = .top
  | .inner => (∃ names, e = .inner names) ∧ ∃ names, e' = .inner names
  | .fixed given => e = given

end Level

/-- The environments of a place on both sides. -/
structure Level.At (level : Level) (ρ : Naming) (e e' : Environment) : Prop where
  alike : e.Alike ρ e'
  fits : level.Fits e e'

namespace Level.At

variable {level : Level} {ρ : Naming} {e e' : Environment}

theorem nest (h : level.At ρ e e') : Level.inner.At ρ e.nest e'.nest := by
  refine ⟨h.alike.nest, ?_, ?_⟩
  · cases e <;> exact ⟨_, rfl⟩
  · cases e' <;> exact ⟨_, rfl⟩

/-- Inside a block that only one side has. -/
theorem wrap (h : level.At ρ e e') : (Level.fixed e).At ρ e e'.nest :=
  ⟨h.alike.nest_right, rfl⟩

theorem extend (h : Level.inner.At ρ e e') (x y : String) (l : Location) :
    Level.inner.At (ρ.extend x y) (e.extend x l) (e'.extend y l) := by
  obtain ⟨halike, ⟨names, rfl⟩, ⟨names', rfl⟩⟩ := h
  exact ⟨halike.extend x y l, ⟨_, rfl⟩, ⟨_, rfl⟩⟩

end Level.At

/-! ### States -/

section Values
variable (wraps : Prop)

/-- Function values that are variants of each other. -/
structure ClosureVariant (c c' : Lexical.Closure) : Prop where
  isInitializer : c'.isInitializer = c.isInitializer
  place : ∃ ρ, Function.Variant wraps ρ c.declaration c'.declaration ∧ c.environment.Alike ρ c'.environment ∧
    (c.isInitializer = true → ρ "this" "this")

/-- Methods that are variants of each other once they know their receiver. -/
structure MethodVariant (c c' : Lexical.Closure) : Prop where
  isInitializer : c'.isInitializer = c.isInitializer
  place : ∃ ρ : Naming, Function.Variant wraps (ρ.extend "this" "this") c.declaration c'.declaration ∧
    c.environment.Alike ρ c'.environment

/-- Classes with methods that are variants of each other. -/
structure ClassVariant (c c' : Lexical.Class) : Prop where
  name : c'.name = c.name
  methods : ∀ x, Option.Rel (MethodVariant wraps) (c.methods.get? x) (c'.methods.get? x)

/-- The two states hold the same, but for variants, apart from where the program is in them. -/
structure Lexical.State.Alike (t t' : Lexical.State) : Prop where
  cells : t'.cells = t.cells
  globals : t'.globals = t.globals
  closures : LoxLanguage.Alike (ClosureVariant wraps) t.closures t'.closures
  classes : LoxLanguage.Alike (ClassVariant wraps) t.classes t'.classes
  instances : t'.instances = t.instances
  depth : t'.depth = t.depth
  printed : t'.printed = t.printed
  ticks : t'.ticks = t.ticks

end Values

namespace Lexical.State.Alike

variable {wraps : Prop} {t t' : Lexical.State} {level : Level} {ρ : Naming}

theorem classAt (h : t.Alike wraps t') (c : ClassId) : ClassVariant wraps (t.classAt c) (t'.classAt c) := by
  rw [State.classAt, State.classAt, Array.getD_eq_getD_getElem?, Array.getD_eq_getD_getElem?]
  rcases rel_cases (h.classes.get c) with ⟨hnone, hnone'⟩ | ⟨k, k', hsome, hsome', hclass⟩
  · rw [hnone, hnone']
    exact ⟨rfl, fun _ => .none⟩
  · rw [hsome, hsome']
    exact hclass

theorem instanceAt (h : t.Alike wraps t') (i : InstanceId) : t'.instanceAt i = t.instanceAt i := by
  rw [State.instanceAt, State.instanceAt, h.instances]

theorem classOf (h : t.Alike wraps t') (i : InstanceId) : ClassVariant wraps (t.classOf i) (t'.classOf i) := by
  rw [State.classOf, State.classOf, h.instanceAt]
  exact h.classAt _

theorem content? (h : t.Alike wraps t') (l : Location) : t'.content? l = t.content? l := by
  rw [State.content?, State.content?, h.cells]

/-- The same is shown of a value. -/
theorem display (h : t.Alike wraps t') (v : Value) : t'.display v = t.display v := by
  cases v with
  | closure f =>
    rcases rel_cases (h.closures.get f) with ⟨hnone, hnone'⟩ | ⟨c, c', hsome, hsome', hclosure⟩
    · simp only [State.display, hnone, hnone']
    · obtain ⟨ρ, hfunction, -⟩ := hclosure.place
      simp only [State.display, hsome, hsome', hfunction.name_eq]
  | classValue c => exact (h.classAt c).name
  | instanceValue i =>
    show "<" ++ (t'.classOf i).name ++ " instance>" = "<" ++ (t.classOf i).name ++ " instance>"
    rw [(h.classOf i).name]
  | _ => rfl

theorem globalTexts (h : t.Alike wraps t') : t'.globalTexts = t.globalTexts := by
  simp only [State.globalTexts, h.globals, h.display]

/-- Where the program is does not matter, and the depth only has to be the same. -/
theorem moved (h : t.Alike wraps t') (e e' : Environment) (d : Nat) :
    State.Alike wraps { t with environment := e, depth := d } { t' with environment := e', depth := d } :=
  ⟨h.cells, h.globals, h.closures, h.classes, h.instances, rfl, h.printed, h.ticks⟩

theorem entered (h : t.Alike wraps t') (e e' : Environment) :
    State.Alike wraps { t with environment := e } { t' with environment := e' } :=
  ⟨h.cells, h.globals, h.closures, h.classes, h.instances, h.depth, h.printed, h.ticks⟩

/-! ### Changes -/

theorem setGlobal (h : t.Alike wraps t') (x : String) (v : Value) : (t.setGlobal x v).Alike wraps (t'.setGlobal x v) :=
  ⟨h.cells, congrArg (·.put x v) h.globals, h.closures, h.classes, h.instances, h.depth, h.printed, h.ticks⟩

theorem write (h : t.Alike wraps t') (l : Location) (v : Value) : (t.write l v).Alike wraps (t'.write l v) :=
  ⟨congrArg (·.setIfInBounds l (some v)) h.cells, h.globals, h.closures, h.classes, h.instances, h.depth, h.printed, h.ticks⟩

theorem allocate (h : t.Alike wraps t') (x y : String) (content : Option Value) :
    (t.allocate x content).Alike wraps (t'.allocate y content) :=
  ⟨congrArg (·.push content) h.cells, h.globals, h.closures, h.classes, h.instances, h.depth, h.printed, h.ticks⟩

theorem newInstance (h : t.Alike wraps t') (c : ClassId) : (t.newInstance c).Alike wraps (t'.newInstance c) :=
  ⟨h.cells, h.globals, h.closures, h.classes, congrArg (·.push ⟨c, []⟩) h.instances, h.depth, h.printed, h.ticks⟩

theorem setField (h : t.Alike wraps t') (i : InstanceId) (x : String) (v : Value) :
    (t.setField i x v).Alike wraps (t'.setField i x v) := by
  refine ⟨h.cells, h.globals, h.closures, h.classes, ?_, h.depth, h.printed, h.ticks⟩
  simp only [State.setField, h.instances]

theorem print (h : t.Alike wraps t') (v : Value) : (t.print v).Alike wraps (t'.print v) := by
  refine ⟨h.cells, h.globals, h.closures, h.classes, h.instances, h.depth, ?_, h.ticks⟩
  show t'.printed.push (t'.display v) = t.printed.push (t.display v)
  rw [h.printed, h.display]

theorem tick (h : t.Alike wraps t') : State.Alike wraps { t with ticks := t.ticks + 1 } { t' with ticks := t'.ticks + 1 } :=
  ⟨h.cells, h.globals, h.closures, h.classes, h.instances, h.depth, h.printed, congrArg (· + 1) h.ticks⟩

theorem newClosure (h : t.Alike wraps t') {c c' : Lexical.Closure} (hc : ClosureVariant wraps c c') :
    State.Alike wraps { t with closures := t.closures.push c } { t' with closures := t'.closures.push c' } :=
  ⟨h.cells, h.globals, h.closures.push hc, h.classes, h.instances, h.depth, h.printed, h.ticks⟩

theorem newClass (h : t.Alike wraps t') {c c' : Lexical.Class} (hc : ClassVariant wraps c c') :
    State.Alike wraps { t with classes := t.classes.push c } { t' with classes := t'.classes.push c' } :=
  ⟨h.cells, h.globals, h.closures, h.classes.push hc, h.instances, h.depth, h.printed, h.ticks⟩

/-! ### Names -/

/-- A name is read alike, unless it is that of a variable that has no value yet. -/
theorem read (h : t.Alike wraps t') (henv : t.environment.Alike ρ t'.environment) {name name' : Token}
    (hname : ρ.SameToken name name')
    (hvalue : ∀ l, t.environment.find? name.lexeme = some l → (t.content? l).isSome) : t'.read name' = t.read name := by
  obtain ⟨htoken, hsame⟩ := hname
  unfold State.read
  rw [henv.find _ _ hsame]
  cases hfind : t.environment.find? name.lexeme with
  | some l =>
    obtain ⟨v, hv⟩ := Option.isSome_iff_exists.mp (hvalue l hfind)
    simp only [h.content?, hv]
  | none =>
    have heq : name' = name := by
      rw [htoken, henv.global _ _ hsame hfind]
    rw [heq, h.globals]

/-- The receiver is read alike. -/
theorem readThis (h : t.Alike wraps t') (henv : t.environment.Alike ρ t'.environment) {keyword : Token}
    (hname : ρ keyword.lexeme keyword.lexeme) : t'.read keyword = t.read keyword := by
  unfold State.read
  rw [henv.find _ _ hname, h.globals]
  cases t.environment.find? keyword.lexeme with
  | none => rfl
  | some l => simp only [h.content?]

/-- An assignment goes to the same variable, or fails in the same way. -/
theorem assign (h : t.Alike wraps t') (henv : level.At ρ t.environment t'.environment) {name name' : Token}
    (hname : ρ.SameToken name name') (v : Value) :
    (∃ u u', t.assign name v = .ok u ∧ t'.assign name' v = .ok u' ∧ u.Alike wraps u' ∧
      level.At ρ u.environment u'.environment) ∨
      ∃ fault, t.assign name v = .error fault ∧ t'.assign name' v = .error fault := by
  obtain ⟨htoken, hsame⟩ := hname
  unfold State.assign
  rw [henv.alike.find _ _ hsame]
  cases hfind : t.environment.find? name.lexeme with
  | some l => exact .inl ⟨_, _, rfl, rfl, h.write l v, henv⟩
  | none =>
    have heq : name' = name := by
      rw [htoken, henv.alike.global _ _ hsame hfind]
    rw [heq, h.globals]
    by_cases hhas : t.globals.has name.lexeme = true
    · simp only [if_pos hhas]
      exact .inl ⟨_, _, rfl, rfl, h.setGlobal _ v, henv⟩
    · simp only [if_neg hhas]
      exact .inr ⟨_, rfl, rfl⟩

/-- Names are declared alike where something may be declared. -/
theorem declare (h : t.Alike wraps t') (henv : level.At ρ t.environment t'.environment) (hpos : level.position ≠ .bare)
    {x y : String} (hname : level.position = .top → y = x) (v : Value) :
    (t.declare x v).Alike wraps (t'.declare y v) ∧
      level.At (ρ.extend x y) (t.declare x v).environment (t'.declare y v).environment := by
  unfold State.declare
  cases level with
  | fixed e => exact absurd rfl hpos
  | top =>
    obtain ⟨halike, htop, htop'⟩ := henv
    rw [htop, htop'] at halike ⊢
    rw [hname rfl]
    refine ⟨h.setGlobal x v, ?_, htop, htop'⟩
    show t.environment.Alike _ t'.environment
    rw [htop, htop']
    exact halike.declareGlobal x
  | inner =>
    have hnames := henv.fits
    obtain ⟨⟨names, hinner⟩, ⟨names', hinner'⟩⟩ := hnames
    rw [hinner, hinner']
    refine ⟨h.allocate x y _, ?_⟩
    show Level.inner.At _ (t.environment.extend x t.cells.size) (t'.environment.extend y t'.cells.size)
    rw [h.cells]
    exact henv.extend x y _

theorem reserve (h : t.Alike wraps t') (henv : level.At ρ t.environment t'.environment) (hpos : level.position ≠ .bare)
    {x y : String} (hname : level.position = .top → y = x) :
    (t.reserve x).Alike wraps (t'.reserve y) ∧
      level.At (ρ.extend x y) (t.reserve x).environment (t'.reserve y).environment := by
  unfold State.reserve
  cases level with
  | fixed e => exact absurd rfl hpos
  | top =>
    obtain ⟨halike, htop, htop'⟩ := henv
    rw [htop, htop'] at halike
    simp only [htop, htop']
    rw [hname rfl]
    exact ⟨h, halike.declareGlobal x, rfl, rfl⟩
  | inner =>
    obtain ⟨⟨names, hinner⟩, ⟨names', hinner'⟩⟩ := henv.fits
    rw [hinner, hinner']
    refine ⟨h.allocate x y _, ?_⟩
    show Level.inner.At _ (t.environment.extend x t.cells.size) (t'.environment.extend y t'.cells.size)
    rw [h.cells]
    exact henv.extend x y _

theorem settle (h : t.Alike wraps t') (henv : level.At ρ t.environment t'.environment) {x y : String} (hname : ρ x y)
    (v : Value) : (t.settle x v).Alike wraps (t'.settle y v) ∧
      level.At ρ (t.settle x v).environment (t'.settle y v).environment := by
  unfold State.settle
  rw [henv.alike.find x y hname]
  cases hfind : t.environment.find? x with
  | some l => exact ⟨h.write l v, henv⟩
  | none =>
    rw [henv.alike.global x y hname hfind]
    exact ⟨h.setGlobal x v, henv⟩

/-! ### Routines and classes -/

theorem allocateAll (h : t.Alike wraps t') (henv : Level.inner.At ρ t.environment t'.environment) {names names' : List Token}
    {arguments : List Value} (hlength : names'.length = names.length) (harguments : arguments.length = names.length) :
    (t.allocateAll (names.zip arguments)).Alike wraps (t'.allocateAll (names'.zip arguments)) ∧
      Level.inner.At (ρ.extendAll names names') (t.allocateAll (names.zip arguments)).environment
        (t'.allocateAll (names'.zip arguments)).environment := by
  unfold State.allocateAll Naming.extendAll
  induction names generalizing t t' ρ names' arguments with
  | nil =>
    rw [List.length_eq_zero_iff.mp hlength]
    exact ⟨h, henv⟩
  | cons name rest ih =>
    obtain ⟨name', rest', rfl⟩ := List.exists_cons_of_length_eq_add_one hlength
    obtain ⟨v, given, rfl⟩ := List.exists_cons_of_length_eq_add_one harguments
    simp only [List.zip_cons_cons, List.foldl_cons]
    refine ih (h.allocate name.lexeme name'.lexeme (some v)) ?_ (by simpa using hlength) (by simpa using harguments)
    show Level.inner.At _ (t.environment.extend _ t.cells.size) (t'.environment.extend _ t'.cells.size)
    rw [h.cells]
    exact henv.extend _ _ _

/-- A receiver is bound alike in environments that are not the current ones. -/
theorem bindReceiver (h : t.Alike wraps t') {e e' : Environment} (he : e.Alike ρ e') (i : InstanceId) :
    (t.bindReceiver e i).1.Alike wraps (t'.bindReceiver e' i).1 ∧
      (t.bindReceiver e i).2.Alike (ρ.extend "this" "this") (t'.bindReceiver e' i).2 := by
  refine ⟨⟨congrArg (·.push (some (.instanceValue i))) h.cells, h.globals, h.closures, h.classes, h.instances, h.depth,
    h.printed, h.ticks⟩, ?_⟩
  show (e.extend "this" t.cells.size).Alike _ (e'.extend "this" t'.cells.size)
  rw [h.cells]
  exact he.extend _ _ _

theorem receiver (h : t.Alike wraps t') {e e' : Environment} (he : e'.find? "this" = e.find? "this") :
    t'.receiver e' = t.receiver e := by
  unfold State.receiver
  rw [he]
  cases e.find? "this" with
  | none => rfl
  | some l => simp only [Option.bind_some, h.content?]

theorem declareFunction (h : t.Alike wraps t') (henv : level.At ρ t.environment t'.environment)
    (hpos : level.position ≠ .bare) {f f' : Function}
    (hf : Function.Variant wraps (ρ.extend f.name.lexeme f.name.lexeme) f f') :
    (t.declareFunction f).Alike wraps (t'.declareFunction f') ∧
      level.At (ρ.extend f.name.lexeme f.name.lexeme) (t.declareFunction f).environment
        (t'.declareFunction f').environment := by
  unfold State.declareFunction
  rw [hf.name_eq, ← h.closures.size]
  obtain ⟨hdeclared, henv'⟩ := h.declare henv hpos (fun _ => rfl) (.closure t.closures.size)
  exact ⟨hdeclared.newClosure ⟨rfl, _, hf, henv'.alike, nofun⟩, henv'⟩

theorem methodTable {methods methods' : List Function} {e e' : Environment}
    (hmethods : Function.VariantAll wraps (ρ.extend "this" "this") methods methods') (he : e.Alike ρ e') :
    ∀ x, Option.Rel (MethodVariant wraps) ((State.methodTable methods e).get? x) ((State.methodTable methods' e').get? x) := by
  have hfold : ∀ {table table' : Bindings Lexical.Closure},
      (∀ x, Option.Rel (MethodVariant wraps) (table.get? x) (table'.get? x)) →
      Function.VariantAll wraps (ρ.extend "this" "this") methods methods' → ∀ x, Option.Rel (MethodVariant wraps)
        ((methods.foldl (fun table f => table.put f.name.lexeme ⟨f, e, f.isInitializer⟩) table).get? x)
        ((methods'.foldl (fun table f => table.put f.name.lexeme ⟨f, e', f.isInitializer⟩) table').get? x) := by
    clear hmethods
    induction methods generalizing methods' with
    | nil =>
      intro table table' htable hmethods
      cases hmethods
      exact htable
    | cons f rest ih =>
      intro table table' htable hmethods
      cases hmethods with
      | @cons _ _ f' _ rest' hf hrest =>
        rw [List.foldl_cons, List.foldl_cons, hf.name_eq]
        refine ih (Bindings.rel_put htable ?_ _) hrest
        exact ⟨hf.isInitializer_eq, ρ, hf, he⟩
  exact hfold (fun _ => .none) hmethods

theorem declareClass (h : t.Alike wraps t') (henv : level.At ρ t.environment t'.environment)
    (hpos : level.position ≠ .bare) {name : Token} {methods methods' : List Function}
    (hmethods : Function.VariantAll wraps ((ρ.extend name.lexeme name.lexeme).extend "this" "this") methods methods') :
    (t.declareClass name methods).Alike wraps (t'.declareClass name methods') ∧
      level.At (ρ.extend name.lexeme name.lexeme) (t.declareClass name methods).environment
        (t'.declareClass name methods').environment := by
  unfold State.declareClass
  rw [← h.classes.size]
  obtain ⟨hdeclared, henv'⟩ := h.declare henv hpos (fun _ => rfl) (.classValue t.classes.size)
  exact ⟨hdeclared.newClass ⟨rfl, methodTable hmethods henv'.alike⟩, henv'⟩

end Lexical.State.Alike

end LoxLanguage
