import Mathlib
import LoxLanguage.Proofs.Parser.Progress
import LoxLanguage.Proofs.Parser.Trees
import LoxLanguage.Token.Scan

/-! Well-formed trees. Scoping and running rely on what stands where in a tree: which operators, names and keywords a node
can have, and that a declaration is an item of a program, a block or a body and never a branch or the body of a loop. The
parser returns no other trees, whatever the tokens are (`parse_wellFormed`). -/

namespace LoxLanguage

open Token (Kind)

/-! ### Trees -/

/-- The operators with two operands that are no connectives: arithmetic, comparison and equality. -/
def binaryKinds : List Kind :=
  [.minus, .plus, .slash, .star, .greater, .greaterEqual, .less, .lessEqual, .bangEqual, .equalEqual]

/-- A token of one of some kinds, out of some tokens. -/
def Token.IsOneOf (tokens : List Token) (kinds : List Kind) (t : Token) : Prop :=
  t ∈ tokens ∧ t.kind ∈ kinds

mutual

/-- An expression whose operators, names, keywords and parentheses are some of the tokens, each of a kind for its place. -/
def Expr.WellFormed (tokens : List Token) : Expr → Prop
  | .literal value => value.IsFrom tokens
  | .unary operator operand => operator.IsOneOf tokens [.bang, .minus] ∧ operand.WellFormed tokens
  | .binary left operator right =>
    left.WellFormed tokens ∧ operator.IsOneOf tokens binaryKinds ∧ right.WellFormed tokens
  | .logical left operator right =>
    left.WellFormed tokens ∧ operator.IsOneOf tokens [.andWord, .orWord] ∧ right.WellFormed tokens
  | .grouping inner => inner.WellFormed tokens
  | .use _ name => name.IsOneOf tokens [.identifier]
  | .assign _ name value => name.IsOneOf tokens [.identifier] ∧ value.WellFormed tokens
  | .call callee paren arguments =>
    callee.WellFormed tokens ∧ paren.IsOneOf tokens [.rightParen] ∧ Expr.WellFormedAll tokens arguments
  | .get object name => object.WellFormed tokens ∧ name.IsOneOf tokens [.identifier]
  | .set object name value =>
    object.WellFormed tokens ∧ name.IsOneOf tokens [.identifier] ∧ value.WellFormed tokens
  | .this _ keyword => keyword.IsOneOf tokens [.thisWord]

@[inherit_doc Expr.WellFormed]
def Expr.WellFormedAll (tokens : List Token) : List Expr → Prop
  | [] => True
  | e :: rest => e.WellFormed tokens ∧ Expr.WellFormedAll tokens rest

end

/-- The declarations: of a variable, a function or a class. -/
def Stmt.IsDeclaration : Stmt → Prop
  | .declareVariable _ _ | .declareFunction _ | .declareClass _ _ => True
  | _ => False

mutual

/-- A statement of well-formed expressions, in which declarations are items of blocks and bodies only. -/
def Stmt.WellFormed (tokens : List Token) : Stmt → Prop
  | .expression e => e.WellFormed tokens
  | .print e => e.WellFormed tokens
  | .declareVariable name initializer =>
    name.IsOneOf tokens [.identifier] ∧ ∀ e ∈ initializer, e.WellFormed tokens
  | .block body => Stmt.WellFormedAll tokens body
  | .branch condition whenTrue whenFalse =>
    condition.WellFormed tokens ∧ (whenTrue.WellFormed tokens ∧ ¬ whenTrue.IsDeclaration) ∧
      Stmt.WellFormedOption tokens whenFalse
  | .loop condition body => condition.WellFormed tokens ∧ body.WellFormed tokens ∧ ¬ body.IsDeclaration
  | .declareFunction f => f.WellFormed tokens
  | .returnValue keyword value => keyword.IsOneOf tokens [.returnWord] ∧ ∀ e ∈ value, e.WellFormed tokens
  | .declareClass name methods => name.IsOneOf tokens [.identifier] ∧ Function.WellFormedAll tokens methods

@[inherit_doc Stmt.WellFormed]
def Stmt.WellFormedAll (tokens : List Token) : List Stmt → Prop
  | [] => True
  | s :: rest => s.WellFormed tokens ∧ Stmt.WellFormedAll tokens rest

/-- A branch that may be missing. -/
def Stmt.WellFormedOption (tokens : List Token) : Option Stmt → Prop
  | none => True
  | some s => s.WellFormed tokens ∧ ¬ s.IsDeclaration

/-- A routine with identifiers for its name and its parameters, and a well-formed body. -/
def Function.WellFormed (tokens : List Token) : Function → Prop
  | .mk name parameters body =>
    name.IsOneOf tokens [.identifier] ∧ (∀ t ∈ parameters, t.IsOneOf tokens [.identifier]) ∧ Stmt.WellFormedAll tokens body

@[inherit_doc Function.WellFormed]
def Function.WellFormedAll (tokens : List Token) : List Function → Prop
  | [] => True
  | f :: rest => f.WellFormed tokens ∧ Function.WellFormedAll tokens rest

end

theorem Stmt.wellFormedAll_iff {tokens : List Token} {body : List Stmt} :
    Stmt.WellFormedAll tokens body ↔ ∀ s ∈ body, s.WellFormed tokens := by
  induction body with
  | nil => simp [Stmt.WellFormedAll]
  | cons s rest ih => rw [Stmt.WellFormedAll, ih, List.forall_mem_cons]

/-! ### Trees of proper nodes -/

section Nodes
variable {tokens : List Token}

theorem Token.IsFrom.isOneOf {kind : Kind} {t : Token} (h : t.IsFrom tokens kind) : t.IsOneOf tokens [kind] :=
  ⟨h.1, List.mem_singleton.mpr h.2⟩

theorem isUnary_iff {kind : Kind} : Parser.isUnary kind = true ↔ kind ∈ [Kind.bang, Kind.minus] := by
  cases kind <;> decide

theorem isBinary_iff {kind : Kind} : Operators.isBinary kind = true ↔ kind ∈ binaryKinds := by
  cases kind <;> decide

theorem Stmt.not_isDeclaration_of_declared? {s : Stmt} (h : s.declared? = none) : ¬ s.IsDeclaration := by
  cases s <;> first | exact id | cases h

mutual

/-- An expression all of whose parts are proper nodes is well formed. -/
theorem Expr.wellFormed_of_parts : ∀ e : Expr, (∀ part ∈ e.parts, (Node.expr part).Proper tokens) → e.WellFormed tokens
  | .literal _, h => h _ List.mem_cons_self
  | .unary operator operand, h => by
    obtain ⟨⟨hmem, hkind⟩, hoperand⟩ := List.forall_mem_cons.mp h
    exact ⟨⟨hmem, isUnary_iff.mp hkind⟩, operand.wellFormed_of_parts hoperand⟩
  | .binary left operator right, h => by
    obtain ⟨⟨hmem, hkind⟩, hboth⟩ := List.forall_mem_cons.mp h
    obtain ⟨hleft, hright⟩ := List.forall_mem_append.mp hboth
    exact ⟨left.wellFormed_of_parts hleft, ⟨hmem, isBinary_iff.mp hkind⟩, right.wellFormed_of_parts hright⟩
  | .logical left operator right, h => by
    obtain ⟨⟨hmem, hkind⟩, hboth⟩ := List.forall_mem_cons.mp h
    obtain ⟨hleft, hright⟩ := List.forall_mem_append.mp hboth
    exact ⟨left.wellFormed_of_parts hleft, ⟨hmem, by simpa using hkind⟩, right.wellFormed_of_parts hright⟩
  | .grouping inner, h => inner.wellFormed_of_parts (List.forall_mem_cons.mp h).2
  | .use _ _, h => Token.IsFrom.isOneOf (h _ List.mem_cons_self)
  | .assign _ name value, h => by
    obtain ⟨hvalue, hself⟩ := List.forall_mem_append.mp h
    exact ⟨Token.IsFrom.isOneOf (hself _ List.mem_cons_self), value.wellFormed_of_parts hvalue⟩
  | .call callee paren arguments, h => by
    obtain ⟨hparen, hboth⟩ := List.forall_mem_cons.mp h
    obtain ⟨hcallee, harguments⟩ := List.forall_mem_append.mp hboth
    exact ⟨callee.wellFormed_of_parts hcallee, Token.IsFrom.isOneOf hparen, Expr.wellFormedAll_of_parts arguments harguments⟩
  | .get object name, h => by
    obtain ⟨hname, hobject⟩ := List.forall_mem_cons.mp h
    exact ⟨object.wellFormed_of_parts hobject, Token.IsFrom.isOneOf hname⟩
  | .set object name value, h => by
    obtain ⟨hname, hboth⟩ := List.forall_mem_cons.mp h
    obtain ⟨hvalue, hobject⟩ := List.forall_mem_append.mp hboth
    exact ⟨object.wellFormed_of_parts hobject, Token.IsFrom.isOneOf hname, value.wellFormed_of_parts hvalue⟩
  | .this _ _, h => Token.IsFrom.isOneOf (h _ List.mem_cons_self)

theorem Expr.wellFormedAll_of_parts : ∀ es : List Expr, (∀ part ∈ Expr.partsAll es, (Node.expr part).Proper tokens) →
    Expr.WellFormedAll tokens es
  | [], _ => trivial
  | e :: rest, h => by
    obtain ⟨hfirst, hrest⟩ := List.forall_mem_append.mp h
    exact ⟨e.wellFormed_of_parts hfirst, Expr.wellFormedAll_of_parts rest hrest⟩

end

theorem Expr.wellFormed_of_points (e : Expr) {c : Context} (h : ∀ p ∈ e.points c, p.node.Proper tokens) :
    e.WellFormed tokens :=
  e.wellFormed_of_parts fun _ hpart => h _ (List.mem_map_of_mem hpart)

theorem Expr.wellFormedOption_of_points {e : Option Expr} {c : Context}
    (h : ∀ p ∈ Expr.pointsOption e c, p.node.Proper tokens) : ∀ x ∈ e, x.WellFormed tokens := by
  rintro x ⟨⟩
  exact x.wellFormed_of_points h

mutual

/-- A statement all of whose points are at proper nodes is well formed. -/
theorem Stmt.wellFormed_of_points : ∀ (s : Stmt) {c : Context}, (∀ p ∈ s.points c, p.node.Proper tokens) →
    s.WellFormed tokens
  | .expression e, _, h => e.wellFormed_of_points (List.forall_mem_cons.mp h).2
  | .print e, _, h => e.wellFormed_of_points (List.forall_mem_cons.mp h).2
  | .declareVariable name initializer, _, h => by
    obtain ⟨hname, hvalue⟩ := List.forall_mem_cons.mp h
    exact ⟨Token.IsFrom.isOneOf hname, Expr.wellFormedOption_of_points hvalue⟩
  | .block body, _, h => Stmt.wellFormedAll_of_points body (List.forall_mem_cons.mp h).2
  | .branch condition whenTrue whenFalse, _, h => by
    simp only [Stmt.points, List.forall_mem_cons, List.forall_mem_append] at h
    obtain ⟨⟨htrue', hfalse'⟩, hcondition, htrue, hfalse⟩ := h
    refine ⟨condition.wellFormed_of_points hcondition, ⟨whenTrue.wellFormed_of_points htrue, ?_⟩, ?_⟩
    · exact Stmt.not_isDeclaration_of_declared? htrue'
    · exact Stmt.wellFormedOption_of_points whenFalse hfalse hfalse'
  | .loop condition body, _, h => by
    simp only [Stmt.points, List.forall_mem_cons, List.forall_mem_append] at h
    obtain ⟨hself, hcondition, hbody⟩ := h
    exact ⟨condition.wellFormed_of_points hcondition, body.wellFormed_of_points hbody,
      Stmt.not_isDeclaration_of_declared? hself⟩
  | .declareFunction f, _, h => f.wellFormed_of_points (List.forall_mem_cons.mp h).2
  | .returnValue keyword value, _, h => by
    obtain ⟨hkeyword, hvalue⟩ := List.forall_mem_cons.mp h
    exact ⟨Token.IsFrom.isOneOf hkeyword, Expr.wellFormedOption_of_points hvalue⟩
  | .declareClass name methods, _, h => by
    obtain ⟨hname, hmethods⟩ := List.forall_mem_cons.mp h
    exact ⟨Token.IsFrom.isOneOf hname, Function.wellFormedAll_of_points methods hmethods⟩

theorem Stmt.wellFormedAll_of_points : ∀ (body : List Stmt) {c : Context},
    (∀ p ∈ Stmt.pointsAll body c, p.node.Proper tokens) → Stmt.WellFormedAll tokens body
  | [], _, _ => trivial
  | s :: rest, _, h => by
    obtain ⟨hfirst, hrest⟩ := List.forall_mem_append.mp h
    exact ⟨s.wellFormed_of_points hfirst, Stmt.wellFormedAll_of_points rest hrest⟩

theorem Stmt.wellFormedOption_of_points : ∀ (s : Option Stmt) {c : Context},
    (∀ p ∈ Stmt.pointsOption s c, p.node.Proper tokens) → (∀ t ∈ s, t.declared? = none) → Stmt.WellFormedOption tokens s
  | none, _, _, _ => trivial
  | some s, _, h, hdeclared => ⟨s.wellFormed_of_points h, Stmt.not_isDeclaration_of_declared? (hdeclared s rfl)⟩

theorem Function.wellFormed_of_points : ∀ (f : Function) {enclosing : Enclosing} {c : Context},
    (∀ p ∈ f.points enclosing c, p.node.Proper tokens) → f.WellFormed tokens
  | .mk name parameters body, _, _, h => by
    obtain ⟨⟨hname, hparameters⟩, hbody⟩ := List.forall_mem_cons.mp h
    exact ⟨hname.isOneOf, fun t ht => (hparameters t ht).isOneOf, Stmt.wellFormedAll_of_points body hbody⟩

theorem Function.wellFormedAll_of_points : ∀ (methods : List Function) {c : Context},
    (∀ p ∈ Function.pointsAll methods c, p.node.Proper tokens) → Function.WellFormedAll tokens methods
  | [], _, _ => trivial
  | f :: rest, _, h => by
    obtain ⟨hfirst, hrest⟩ := List.forall_mem_append.mp h
    exact ⟨f.wellFormed_of_points hfirst, Function.wellFormedAll_of_points rest hrest⟩

end

end Nodes

/-! ### Parsed trees -/

/-- For every row of tokens with one end mark at its end, parsing comes to an end of its own, and every statement that it
    gives, also behind and in front of broken ones, is well formed and made of tokens of the row. -/
theorem parse_wellFormed {body : List Token} {eof : Token} (hb : ∀ t ∈ body, t.kind ≠ .eof) (he : eof.kind = .eof)
    (first : Site) :
    ∃ found s', Parser.program (Parser.fuelFor (body ++ [eof]).length) #[] ⟨[], body ++ [eof], first, #[]⟩ = .ok found s' ∧
      (parse first (body ++ [eof])).statements = found.toList ∧
      ∀ s ∈ (parse first (body ++ [eof])).statements, s.WellFormed (body ++ [eof]) := by
  obtain ⟨found, s', heq, -, -⟩ :=
    @Parser.program_ok _ ⟨[], body ++ [eof], first, #[]⟩ #[] (Parser.closed_append hb he) (Parser.le_fuelFor (body ++ [eof]).length)
  refine ⟨found, s', heq, by rw [parse, heq], Stmt.wellFormedAll_iff.mp ?_⟩
  exact Stmt.wellFormedAll_of_points _ (parse_laid first (body ++ [eof])).proper

/-- A variable without a name, an assignment to a call, a declaration as a branch, and a `for` with a declaration. -/
def brokenText : String :=
  "var ; f(a) = -b; if (c) var d = e.g; for (var i = 0; i < 2; i = i + 1) return i or this;"

/-- Three complaints are made; the target of the assignment, the variable behind the broken `if` and the loop are kept. -/
theorem parse_wellFormed_broken :
    (parse 0 (scan brokenText).1).problems.length = 3 ∧ (parse 0 (scan brokenText).1).statements.length = 3 ∧
      ∀ s ∈ (parse 0 (scan brokenText).1).statements, s.WellFormed (scan brokenText).1 := by
  have htokens : (scan brokenText).1 = (scan brokenText).1.dropLast ++ [⟨.eof, "", .nil, 1⟩] := by decide +kernel
  have hbody : ∀ t ∈ (scan brokenText).1.dropLast, t.kind ≠ .eof := by decide +kernel
  obtain ⟨-, -, -, -, hall⟩ := @parse_wellFormed _ ⟨.eof, "", .nil, 1⟩ hbody rfl 0
  rw [← htokens] at hall
  exact ⟨by decide +kernel, by decide +kernel, hall⟩

end LoxLanguage
