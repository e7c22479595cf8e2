import LoxLanguage.Proofs.Parser.Reading

/-! What the parsers are made of. All of them are put together from a few steps: looking at the next token, taking it if
its kind is wanted, giving out a site, reporting, breaking off and recovering. `Made` says so of a parser, and of which
kinds the tokens are that it takes; what holds of the steps and goes through `bind` then holds of every parser. An
expression is read without taking a semicolon, and without recovering. -/

namespace LoxLanguage.Parser

open Token (Kind)

/-- The parser is made of steps that take tokens of the kinds `takes` only. Whatever recovers may skip tokens of all
    kinds. -/
inductive Made (takes : Kind → Prop) : {α : Type} → Parser α → Prop where
  | pure {α : Type} (a : α) : Made takes (pure a)
  | exhausted {α : Type} : Made takes (throw .exhausted : Parser α)
  | broken {α : Type} : Made takes (throw .broken : Parser α)
  | bind {α β : Type} {p : Parser α} {f : α → Parser β} (hp : Made takes p) (hf : ∀ a, Made takes (f a)) :
      Made takes (p >>= f)
  | peek : Made takes peek
  | acceptIf {test : Kind → Bool} (htest : ∀ kind, test kind = true → takes kind) : Made takes (acceptIf test)
  | complain (t : Token) (complaint : Complaint) : Made takes (complain t complaint)
  | freshSite : Made takes freshSite
  | recovering {α : Type} {p : Parser α} (hall : ∀ kind, takes kind) (hp : Made takes p) : Made takes (recovering p)

namespace Made

variable {takes : Kind → Prop} {α β : Type} {p : Parser α} {kind : Kind} {complaint : Complaint}

theorem map {g : α → β} (hp : Made takes p) : Made takes (g <$> p) :=
  hp.bind fun a => .pure (g a)

theorem mono {more : Kind → Prop} (h : ∀ kind, takes kind → more kind) (hp : Made takes p) : Made more p := by
  induction hp with
  | pure a => exact .pure a
  | exhausted => exact .exhausted
  | broken => exact .broken
  | bind _ _ ih ihf => exact ih.bind ihf
  | peek => exact .peek
  | acceptIf htest =>
    refine .acceptIf fun kind hkind => ?_
    exact h kind (htest kind hkind)
  | complain t complaint => exact .complain t complaint
  | freshSite => exact .freshSite
  | recovering hall _ ih => exact .recovering (fun kind => h kind (hall kind)) ih

/-! ### Single tokens -/

theorem atEnd : Made takes atEnd :=
  peek.bind fun _ => .pure _

theorem check : Made takes (check kind) := by
  refine atEnd.bind fun b => ?_
  cases b with
  | true => exact .pure _
  | false => exact peek.bind fun _ => .pure _

theorem accept (h : takes kind) : Made takes (accept kind) := by
  refine .acceptIf fun other hother => ?_
  rw [eq_of_beq hother]
  exact h

theorem fail : Made takes (fail complaint : Parser α) :=
  peek.bind fun t => (complain t complaint).bind fun _ => .broken

theorem expect (h : takes kind) : Made takes (expect kind complaint) := by
  refine (accept h).bind fun o => ?_
  cases o with
  | some t => exact .pure t
  | none => exact fail

theorem complainIfFull {count : Nat} : Made takes (complainIfFull count complaint) := by
  unfold Parser.complainIfFull
  split
  · exact peek.bind fun t => .complain t complaint
  · exact .pure ()

end Made

/-! ### Expressions -/

/-- Every kind but that of the semicolon. -/
def inExpression (kind : Kind) : Prop :=
  kind ≠ .semicolon

theorem inExpression_of_has {level : Level} {kind : Kind} (h : level.has kind = true) : inExpression kind := by
  rintro rfl
  cases level <;> cases h

theorem inExpression_of_isUnary {kind : Kind} (h : isUnary kind = true) : inExpression kind := by
  rintro rfl
  cases h

/-- The parsers of expressions take no semicolon. -/
structure ExpressionsMade (fuel : Nat) : Prop where
  expression : Made inExpression (expression fuel)
  operation : ∀ tighter, Made inExpression (operation fuel tighter)
  chain : ∀ level tighter left, Made inExpression (chain fuel level tighter left)
  unary : Made inExpression (unary fuel)
  suffixes : ∀ e, Made inExpression (suffixes fuel e)
  argumentsIfAny : Made inExpression (argumentsIfAny fuel)
  arguments : ∀ given, Made inExpression (arguments fuel given)
  primary : Made inExpression (primary fuel)

theorem expressionsMade_succ {fuel : Nat} (ih : ExpressionsMade fuel) : ExpressionsMade (fuel + 1) where
  expression := by
    rw [expression.eq_2]
    refine (ih.operation _).bind fun target => (Made.accept nofun).bind fun o => ?_
    cases o with
    | none => exact .pure target
    | some equals =>
      refine ih.expression.bind fun value => ?_
      split
      · exact .pure _
      · exact (Made.complain _ _).bind fun _ => .pure target
  operation tighter := by
    cases tighter with
    | nil =>
      rw [operation.eq_2]
      exact ih.unary
    | cons level tighter =>
      rw [operation.eq_3]
      exact (ih.operation tighter).bind fun left => ih.chain level tighter left
  chain level tighter left := by
    rw [chain.eq_2]
    refine (Made.acceptIf fun kind => inExpression_of_has).bind fun o => ?_
    cases o with
    | none => exact .pure left
    | some operator => exact (ih.operation tighter).bind fun right => ih.chain level tighter _
  unary := by
    rw [unary.eq_2]
    refine (Made.acceptIf fun kind => inExpression_of_isUnary).bind fun o => ?_
    cases o with
    | none => exact ih.primary.bind fun e => ih.suffixes e
    | some operator => exact ih.unary.bind fun operand => .pure _
  suffixes e := by
    rw [suffixes.eq_2]
    refine (Made.accept nofun).bind fun o => ?_
    cases o with
    | some paren => exact ih.argumentsIfAny.bind fun given => (Made.expect nofun).bind fun close => ih.suffixes _
    | none =>
      refine (Made.accept nofun).bind fun o => ?_
      cases o with
      | some dot => exact (Made.expect nofun).bind fun name => ih.suffixes _
      | none => exact .pure e
  argumentsIfAny := by
    rw [argumentsIfAny.eq_2]
    refine Made.check.bind fun b => ?_
    cases b with
    | true => exact .pure _
    | false => exact ih.arguments _
  arguments given := by
    rw [arguments.eq_2]
    refine Made.complainIfFull.bind fun _ => ih.expression.bind fun e => (Made.accept nofun).bind fun o => ?_
    cases o with
    | none => exact .pure _
    | some comma => exact ih.arguments _
  primary := by
    rw [primary.eq_2]
    refine Made.peek.bind fun t => ?_
    split
    case h_6 => exact (Made.accept nofun).bind fun _ => Made.freshSite.bind fun site => .pure _
    case h_7 => exact (Made.accept nofun).bind fun _ => Made.freshSite.bind fun site => .pure _
    case h_8 =>
      refine (Made.accept nofun).bind fun _ => ih.expression.bind fun inner => ?_
      exact (Made.expect nofun).bind fun _ => .pure _
    case h_9 => exact .fail
    all_goals exact (Made.accept nofun).bind fun _ => .pure _

theorem expressionsMade (fuel : Nat) : ExpressionsMade fuel := by
  induction fuel with
  | zero => constructor <;> intros <;> exact .exhausted
  | succ fuel ih => exact expressionsMade_succ ih

theorem expression_made (fuel : Nat) : Made inExpression (expression fuel) :=
  (expressionsMade fuel).expression

/-! ### Statements -/

/-- Every kind. -/
def inStatement (_ : Kind) : Prop :=
  True

section Parts
variable {takes : Kind → Prop} (fuel : Nat)

/-- What takes no semicolon may stand wherever a semicolon is taken. -/
theorem expression_made_inStatement : Made inStatement (expression fuel) :=
  (expression_made fuel).mono fun _ _ => trivial

theorem parameters_made (hidentifier : takes .identifier) (hcomma : takes .comma) (given : Array Token) :
    Made takes (parameters fuel given) := by
  induction fuel generalizing given with
  | zero => exact .exhausted
  | succ fuel ih =>
    rw [parameters.eq_2]
    refine Made.complainIfFull.bind fun _ => (Made.expect hidentifier).bind fun name => (Made.accept hcomma).bind fun o => ?_
    cases o with
    | none => exact .pure _
    | some comma => exact ih _

theorem parametersIfAny_made (hidentifier : takes .identifier) (hcomma : takes .comma) :
    Made takes (parametersIfAny fuel) := by
  refine Made.check.bind fun b => ?_
  cases b with
  | true => exact .pure _
  | false => exact parameters_made fuel hidentifier hcomma _

theorem initializerIfAny_made (hequal : takes .equal) (h : Made takes (expression fuel)) :
    Made takes (initializerIfAny fuel) := by
  refine (Made.accept hequal).bind fun o => ?_
  cases o with
  | none => exact .pure _
  | some equals => exact h.map

theorem variableDeclaration_made : Made inStatement (variableDeclaration fuel) := by
  refine (Made.expect trivial).bind fun name => ?_
  refine (initializerIfAny_made fuel trivial (expression_made_inStatement fuel)).bind fun initializer => ?_
  exact (Made.expect trivial).bind fun _ => .pure _

theorem expressionStatement_made : Made inStatement (expressionStatement fuel) :=
  (expression_made_inStatement fuel).bind fun _ => (Made.expect trivial).bind fun _ => .pure _

theorem expressionUnless_made {kind : Kind} (h : Made takes (expression fuel)) : Made takes (expressionUnless kind fuel) := by
  refine Made.check.bind fun b => ?_
  cases b with
  | true => exact .pure _
  | false => exact h.map

theorem printStatement_made : Made inStatement (printStatement fuel) :=
  (expression_made_inStatement fuel).bind fun _ => (Made.expect trivial).bind fun _ => .pure _

theorem returnStatement_made (keyword : Token) : Made inStatement (returnStatement fuel keyword) := by
  refine (expressionUnless_made fuel (expression_made_inStatement fuel)).bind fun _ => ?_
  exact (Made.expect trivial).bind fun _ => .pure _

theorem forInitializer_made : Made inStatement (forInitializer fuel) := by
  refine (Made.accept trivial).bind fun o => ?_
  cases o with
  | some semicolon => exact .pure _
  | none =>
    refine (Made.accept trivial).bind fun o => ?_
    cases o with
    | some keyword => exact (variableDeclaration_made fuel).map
    | none => exact (expressionStatement_made fuel).map

end Parts

/-- The parsers of statements are made of the same steps. -/
structure StatementsMade (fuel : Nat) : Prop where
  declaration : Made inStatement (declaration fuel)
  classDeclaration : Made inStatement (classDeclaration fuel)
  methods : ∀ found, Made inStatement (methods fuel found)
  routine : ∀ kind, Made inStatement (routine fuel kind)
  block : Made inStatement (block fuel)
  items : ∀ found, Made inStatement (items fuel found)
  statement : Made inStatement (statement fuel)
  forStatement : Made inStatement (forStatement fuel)
  ifStatement : Made inStatement (ifStatement fuel)
  whileStatement : Made inStatement (whileStatement fuel)

theorem statementsMade_succ {fuel : Nat} (ih : StatementsMade fuel) : StatementsMade (fuel + 1) where
  declaration := by
    rw [declaration.eq_2]
    refine Made.peek.bind fun t => ?_
    split
    · exact (Made.accept trivial).bind fun _ => ih.classDeclaration
    · exact (Made.accept trivial).bind fun _ => (ih.routine _).bind fun _ => .pure _
    · exact (Made.accept trivial).bind fun _ => variableDeclaration_made fuel
    · exact ih.statement
  classDeclaration := by
    rw [classDeclaration.eq_2]
    refine (Made.expect trivial).bind fun name => (Made.expect trivial).bind fun _ => ?_
    exact (ih.methods _).bind fun found => (Made.expect trivial).bind fun _ => .pure _
  methods found := by
    rw [methods.eq_2]
    refine Made.check.bind fun b => Made.atEnd.bind fun b' => ?_
    split
    · exact .pure _
    · exact (ih.routine _).bind fun f => ih.methods _
  routine kind := by
    rw [routine.eq_2]
    refine (Made.expect trivial).bind fun name => (Made.expect trivial).bind fun _ => ?_
    refine (parametersIfAny_made fuel trivial trivial).bind fun given => (Made.expect trivial).bind fun _ => ?_
    exact (Made.expect trivial).bind fun _ => ih.block.bind fun body => .pure _
  block := by
    rw [block.eq_2]
    exact (ih.items _).bind fun found => (Made.expect trivial).bind fun _ => .pure _
  items found := by
    rw [items.eq_2]
    refine Made.check.bind fun b => Made.atEnd.bind fun b' => ?_
    split
    · exact .pure _
    · refine (Made.recovering (fun _ => trivial) ih.declaration).bind fun o => ?_
      cases o with
      | some statement => exact ih.items _
      | none => exact ih.items _
  statement := by
    rw [statement.eq_2]
    refine Made.peek.bind fun t => ?_
    split
    · exact (Made.accept trivial).bind fun _ => ih.forStatement
    · exact (Made.accept trivial).bind fun _ => ih.ifStatement
    · exact (Made.accept trivial).bind fun _ => printStatement_made fuel
    · exact (Made.accept trivial).bind fun _ => returnStatement_made fuel t
    · exact (Made.accept trivial).bind fun _ => ih.whileStatement
    · exact (Made.accept trivial).bind fun _ => ih.block.bind fun body => .pure _
    · exact expressionStatement_made fuel
  forStatement := by
    rw [forStatement.eq_2]
    refine (Made.expect trivial).bind fun _ => (forInitializer_made fuel).bind fun initializer => ?_
    refine (expressionUnless_made fuel (expression_made_inStatement fuel)).bind fun condition => ?_
    refine (Made.expect trivial).bind fun _ => ?_
    refine (expressionUnless_made fuel (expression_made_inStatement fuel)).bind fun increment => ?_
    exact (Made.expect trivial).bind fun _ => ih.statement.bind fun body => .pure _
  ifStatement := by
    rw [ifStatement.eq_2]
    refine (Made.expect trivial).bind fun _ => (expression_made_inStatement fuel).bind fun condition => ?_
    refine (Made.expect trivial).bind fun _ => ih.statement.bind fun whenTrue => (Made.accept trivial).bind fun o => ?_
    cases o with
    | some keyword => exact ih.statement.bind fun whenFalse => .pure _
    | none => exact .pure _
  whileStatement := by
    rw [whileStatement.eq_2]
    refine (Made.expect trivial).bind fun _ => (expression_made_inStatement fuel).bind fun condition => ?_
    exact (Made.expect trivial).bind fun _ => ih.statement.bind fun body => .pure _

theorem statementsMade (fuel : Nat) : StatementsMade fuel := by
  induction fuel with
  | zero => constructor <;> intros <;> exact .exhausted
  | succ fuel ih => exact statementsMade_succ ih

theorem program_made (fuel : Nat) (found : Array Stmt) : Made inStatement (program fuel found) := by
  induction fuel generalizing found with
  | zero => exact .exhausted
  | succ fuel ih =>
    rw [program.eq_2]
    refine Made.atEnd.bind fun b => ?_
    cases b with
    | true => exact .pure found
    | false =>
      refine (Made.recovering (fun _ => trivial) (statementsMade fuel).declaration).bind fun o => ?_
      cases o with
      | some statement => exact ih _
      | none => exact ih _

end LoxLanguage.Parser
