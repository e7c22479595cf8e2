import LoxLanguage.Problem
import LoxLanguage.Tree.Basic

/-! The grammar of programs: which rows of tokens are programs, and the tree of each. A derivation goes from a
site to a site: the uses in its tree are numbered in the order in which they are written, so a row of tokens
that is derived has one tree.

`Derives` has one rule for each production of an expression. The operators of one level group to the left,
an assignment groups to the right. The last rules of `Statement` say to which `if` an `else` belongs: a
statement dangles when an `else` behind it would belong to an `if` inside of it, and the statement
between an `if` and its own `else` does not dangle. -/

namespace LoxLanguage.Grammar

open Token (Kind)

/-! ### Expressions -/

/-- The nonterminals of expressions, from the loosest to the tightest. -/
inductive Symbol where
  | assignment
  | logicOr
  | logicAnd
  | equality
  | comparison
  | term
  | factor
  | unary
  | call
  | primary
  deriving DecidableEq

/-- A production of operators with two operands: the operators, what stands on their right and on their left at
    the end, and the node. -/
structure OperatorRule where
  operators : List Kind
  operand : Symbol
  node : Expr → Token → Expr → Expr

/-- The productions of operators with two operands. -/
def Symbol.rule? : Symbol → Option OperatorRule
  | .logicOr => some ⟨[.orWord], .logicAnd, .logical⟩
  | .logicAnd => some ⟨[.andWord], .equality, .logical⟩
  | .equality => some ⟨[.bangEqual, .equalEqual], .comparison, .binary⟩
  | .comparison => some ⟨[.greater, .greaterEqual, .less, .lessEqual], .term, .binary⟩
  | .term => some ⟨[.minus, .plus], .factor, .binary⟩
  | .factor => some ⟨[.slash, .star], .unary, .binary⟩
  | .assignment | .unary | .call | .primary => none

mutual

/-- The tokens that are derived from a nonterminal, with the tree that they stand for. -/
inductive Derives : Symbol → Site → List Token → Expr → Site → Prop where
  | assignVariable {n m : Site} {name equals : Token} {ts : List Token} {value : Expr} (hname : name.kind = .identifier)
      (hequals : equals.kind = .equal) (hvalue : Derives .assignment (n + 1) ts value m) :
      Derives .assignment n (name :: equals :: ts) (.assign n name value) m
  | assignProperty {n k m : Site} {dot name equals : Token} {ts us : List Token} {object value : Expr}
      (hobject : Derives .call n ts object k) (hdot : dot.kind = .dot) (hname : name.kind = .identifier)
      (hequals : equals.kind = .equal) (hvalue : Derives .assignment k us value m) :
      Derives .assignment n (ts ++ dot :: name :: equals :: us) (.set object name value) m
  | value {n m : Site} {ts : List Token} {e : Expr} (h : Derives .logicOr n ts e m) : Derives .assignment n ts e m
  | operand {X : Symbol} {rule : OperatorRule} {n m : Site} {ts : List Token} {e : Expr} (hrule : X.rule? = some rule)
      (h : Derives rule.operand n ts e m) : Derives X n ts e m
  | operator {X : Symbol} {rule : OperatorRule} {n k m : Site} {operator : Token} {ts us : List Token} {left right : Expr}
      (hrule : X.rule? = some rule) (hleft : Derives X n ts left k) (hoperator : operator.kind ∈ rule.operators)
      (hright : Derives rule.operand k us right m) :
      Derives X n (ts ++ operator :: us) (rule.node left operator right) m
  | negation {n m : Site} {operator : Token} {ts : List Token} {e : Expr}
      (hoperator : operator.kind = .bang ∨ operator.kind = .minus) (h : Derives .unary n ts e m) :
      Derives .unary n (operator :: ts) (.unary operator e) m
  | plain {n m : Site} {ts : List Token} {e : Expr} (h : Derives .call n ts e m) : Derives .unary n ts e m
  | atom {n m : Site} {ts : List Token} {e : Expr} (h : Derives .primary n ts e m) : Derives .call n ts e m
  | call {n k m : Site} {opening closing : Token} {ts us : List Token} {callee : Expr} {given : List Expr}
      (hcallee : Derives .call n ts callee k) (hopening : opening.kind = .leftParen) (hgiven : Arguments k us given m)
      (hlength : given.length ≤ 255) (hclosing : closing.kind = .rightParen) :
      Derives .call n (ts ++ opening :: (us ++ [closing])) (.call callee closing given) m
  | property {n m : Site} {dot name : Token} {ts : List Token} {object : Expr} (hobject : Derives .call n ts object m)
      (hdot : dot.kind = .dot) (hname : name.kind = .identifier) :
      Derives .call n (ts ++ [dot, name]) (.get object name) m
  | trueWord {n : Site} {t : Token} (h : t.kind = .trueWord) : Derives .primary n [t] (.literal (.bool true)) n
  | falseWord {n : Site} {t : Token} (h : t.kind = .falseWord) : Derives .primary n [t] (.literal (.bool false)) n
  | nilWord {n : Site} {t : Token} (h : t.kind = .nilWord) : Derives .primary n [t] (.literal .nil) n
  | constant {n : Site} {t : Token} (h : t.kind = .number ∨ t.kind = .string) :
      Derives .primary n [t] (.literal t.literal) n
  | this {n : Site} {t : Token} (h : t.kind = .thisWord) : Derives .primary n [t] (.this n t) (n + 1)
  | name {n : Site} {t : Token} (h : t.kind = .identifier) : Derives .primary n [t] (.use n t) (n + 1)
  | grouping {n m : Site} {opening closing : Token} {ts : List Token} {e : Expr} (hopening : opening.kind = .leftParen)
      (h : Derives .assignment n ts e m) (hclosing : closing.kind = .rightParen) :
      Derives .primary n (opening :: (ts ++ [closing])) (.grouping e) m

/-- Arguments with commas between them; there may be none. -/
inductive Arguments : Site → List Token → List Expr → Site → Prop where
  | none {n : Site} : Arguments n [] [] n
  | some {n m : Site} {ts : List Token} {given : List Expr} (h : SomeArguments n ts given m) : Arguments n ts given m

/-- One argument or more, with commas between them. -/
inductive SomeArguments : Site → List Token → List Expr → Site → Prop where
  | last {n m : Site} {ts : List Token} {e : Expr} (h : Derives .assignment n ts e m) : SomeArguments n ts [e] m
  | more {n k m : Site} {comma : Token} {ts us : List Token} {e : Expr} {given : List Expr}
      (h : Derives .assignment n ts e k) (hcomma : comma.kind = .comma) (hgiven : SomeArguments k us given m) :
      SomeArguments n (ts ++ comma :: us) (e :: given) m

end

/-- Whole expressions. -/
abbrev Expression : Site → List Token → Expr → Site → Prop :=
  Derives .assignment

/-- An expression that may be missing. -/
inductive OptionalExpression : Site → List Token → Option Expr → Site → Prop where
  | none {n : Site} : OptionalExpression n [] none n
  | some {n m : Site} {ts : List Token} {e : Expr} (h : Expression n ts e m) : OptionalExpression n ts (some e) m

/-! ### Statements -/

/-- One parameter or more, with commas between them. -/
inductive SomeParameters : List Token → List Token → Prop where
  | last {name : Token} (h : name.kind = .identifier) : SomeParameters [name] [name]
  | more {name comma : Token} {ts names : List Token} (h : name.kind = .identifier) (hcomma : comma.kind = .comma)
      (hnames : SomeParameters ts names) : SomeParameters (name :: comma :: ts) (name :: names)

/-- Parameters with commas between them; there may be none. -/
inductive Parameters : List Token → List Token → Prop where
  | none : Parameters [] []
  | some {ts names : List Token} (h : SomeParameters ts names) : Parameters ts names

/-- The declaration of a variable, with or without an initializer. -/
inductive Variable : Site → List Token → Stmt → Site → Prop where
  | plain {n : Site} {keyword name semicolon : Token} (hkeyword : keyword.kind = .varWord)
      (hname : name.kind = .identifier) (hsemicolon : semicolon.kind = .semicolon) :
      Variable n [keyword, name, semicolon] (.declareVariable name none) n
  | initialized {n m : Site} {keyword name equals semicolon : Token} {ts : List Token} {e : Expr}
      (hkeyword : keyword.kind = .varWord) (hname : name.kind = .identifier) (hequals : equals.kind = .equal)
      (h : Expression n ts e m) (hsemicolon : semicolon.kind = .semicolon) :
      Variable n (keyword :: name :: equals :: (ts ++ [semicolon])) (.declareVariable name (some e)) m

/-- The first clause of a `for`, with its semicolon. -/
inductive Initializer : Site → List Token → Option Stmt → Site → Prop where
  | none {n : Site} {semicolon : Token} (hsemicolon : semicolon.kind = .semicolon) : Initializer n [semicolon] none n
  | declaration {n m : Site} {ts : List Token} {s : Stmt} (h : Variable n ts s m) : Initializer n ts (some s) m
  | expression {n m : Site} {semicolon : Token} {ts : List Token} {e : Expr} (h : Expression n ts e m)
      (hsemicolon : semicolon.kind = .semicolon) : Initializer n (ts ++ [semicolon]) (some (.expression e)) m

/-- The loop that a `for` without its first clause stands for. -/
def whileTree : Option Expr → Option Expr → Stmt → Stmt
  | some condition, some increment, body => .loop condition (.block [body, .expression increment])
  | some condition, none, body => .loop condition body
  | none, some increment, body => .loop (.literal (.bool true)) (.block [body, .expression increment])
  | none, none, body => .loop (.literal (.bool true)) body

/-- The tree of a `for`: a loop, and a block around it if there is a first clause. -/
def forTree : Option Stmt → Option Expr → Option Expr → Stmt → Stmt
  | some initializer, condition, increment, body => .block [initializer, whileTree condition increment body]
  | none, condition, increment, body => whileTree condition increment body

mutual

/-- Declarations and statements. -/
inductive Declaration : Site → List Token → Stmt → Site → Prop where
  | classes {n m : Site} {keyword name opening closing : Token} {ts : List Token} {methods : List Function}
      (hkeyword : keyword.kind = .classWord) (hname : name.kind = .identifier) (hopening : opening.kind = .leftBrace)
      (hmethods : Methods n ts methods m) (hclosing : closing.kind = .rightBrace) :
      Declaration n (keyword :: name :: opening :: (ts ++ [closing])) (.declareClass name methods) m
  | function {n m : Site} {keyword : Token} {ts : List Token} {f : Function} (hkeyword : keyword.kind = .funWord)
      (h : Routine n ts f m) : Declaration n (keyword :: ts) (.declareFunction f) m
  | binding {n m : Site} {ts : List Token} {s : Stmt} (h : Variable n ts s m) : Declaration n ts s m
  | statement {dangles : Bool} {n m : Site} {ts : List Token} {s : Stmt} (h : Statement dangles n ts s m) :
      Declaration n ts s m

/-- A function or a method from its name on. -/
inductive Routine : Site → List Token → Function → Site → Prop where
  | mk {n m : Site} {name opening closing brace endBrace : Token} {ts us parameters : List Token} {body : List Stmt}
      (hname : name.kind = .identifier) (hopening : opening.kind = .leftParen) (hparameters : Parameters ts parameters)
      (hlength : parameters.length ≤ 255) (hclosing : closing.kind = .rightParen) (hbrace : brace.kind = .leftBrace)
      (hbody : Declarations n us body m) (hendBrace : endBrace.kind = .rightBrace) :
      Routine n (name :: opening :: (ts ++ closing :: brace :: (us ++ [endBrace]))) (.mk name parameters body) m

/-- Any number of methods. -/
inductive Methods : Site → List Token → List Function → Site → Prop where
  | nil {n : Site} : Methods n [] [] n
  | cons {n k m : Site} {ts us : List Token} {f : Function} {methods : List Function} (h : Routine n ts f k)
      (hmethods : Methods k us methods m) : Methods n (ts ++ us) (f :: methods) m

/-- Any number of declarations and statements. -/
inductive Declarations : Site → List Token → List Stmt → Site → Prop where
  | none {n : Site} : Declarations n [] [] n
  | more {n k m : Site} {ts us : List Token} {s : Stmt} {body : List Stmt} (h : Declaration n ts s k)
      (hbody : Declarations k us body m) : Declarations n (ts ++ us) (s :: body) m

/-- Statements. The flag says whether the statement dangles. -/
inductive Statement : Bool → Site → List Token → Stmt → Site → Prop where
  | expression {n m : Site} {semicolon : Token} {ts : List Token} {e : Expr} (h : Expression n ts e m)
      (hsemicolon : semicolon.kind = .semicolon) : Statement false n (ts ++ [semicolon]) (.expression e) m
  | print {n m : Site} {keyword semicolon : Token} {ts : List Token} {e : Expr} (hkeyword : keyword.kind = .printWord)
      (h : Expression n ts e m) (hsemicolon : semicolon.kind = .semicolon) :
      Statement false n (keyword :: (ts ++ [semicolon])) (.print e) m
  | returns {n m : Site} {keyword semicolon : Token} {ts : List Token} {value : Option Expr}
      (hkeyword : keyword.kind = .returnWord) (hvalue : OptionalExpression n ts value m)
      (hsemicolon : semicolon.kind = .semicolon) :
      Statement false n (keyword :: (ts ++ [semicolon])) (.returnValue keyword value) m
  | block {n m : Site} {opening closing : Token} {ts : List Token} {body : List Stmt} (hopening : opening.kind = .leftBrace)
      (hbody : Declarations n ts body m) (hclosing : closing.kind = .rightBrace) :
      Statement false n (opening :: (ts ++ [closing])) (.block body) m
  | loop {dangles : Bool} {n k m : Site} {keyword opening closing : Token} {ts us : List Token} {condition : Expr}
      {body : Stmt} (hkeyword : keyword.kind = .whileWord) (hopening : opening.kind = .leftParen)
      (hcondition : Expression n ts condition k) (hclosing : closing.kind = .rightParen)
      (hbody : Statement dangles k us body m) :
      Statement dangles n (keyword :: opening :: (ts ++ closing :: us)) (.loop condition body) m
  | loopFor {dangles : Bool} {n k l j m : Site} {keyword opening semicolon closing : Token} {ts us vs ws : List Token}
      {initializer : Option Stmt} {condition increment : Option Expr} {body : Stmt} (hkeyword : keyword.kind = .forWord)
      (hopening : opening.kind = .leftParen) (hinitializer : Initializer n ts initializer k)
      (hcondition : OptionalExpression k us condition l) (hsemicolon : semicolon.kind = .semicolon)
      (hincrement : OptionalExpression l vs increment j) (hclosing : closing.kind = .rightParen)
      (hbody : Statement dangles j ws body m) :
      Statement dangles n (keyword :: opening :: (ts ++ (us ++ semicolon :: (vs ++ closing :: ws))))
        (forTree initializer condition increment body) m
  | branch {dangles : Bool} {n k m : Site} {keyword opening closing : Token} {ts us : List Token} {condition : Expr}
      {whenTrue : Stmt} (hkeyword : keyword.kind = .ifWord) (hopening : opening.kind = .leftParen)
      (hcondition : Expression n ts condition k) (hclosing : closing.kind = .rightParen)
      (htrue : Statement dangles k us whenTrue m) :
      Statement true n (keyword :: opening :: (ts ++ closing :: us)) (.branch condition whenTrue none) m
  | branchElse {dangles : Bool} {n k l m : Site} {keyword opening closing otherwise : Token} {ts us vs : List Token}
      {condition : Expr} {whenTrue whenFalse : Stmt} (hkeyword : keyword.kind = .ifWord)
      (hopening : opening.kind = .leftParen) (hcondition : Expression n ts condition k)
      (hclosing : closing.kind = .rightParen) (htrue : Statement false k us whenTrue l)
      (hotherwise : otherwise.kind = .elseWord) (hfalse : Statement dangles l vs whenFalse m) :
      Statement dangles n (keyword :: opening :: (ts ++ closing :: (us ++ otherwise :: vs)))
        (.branch condition whenTrue (some whenFalse)) m

end

/-- Programs: declarations and statements up to the end mark. -/
abbrev Program : Site → List Token → List Stmt → Site → Prop :=
  Declarations

end LoxLanguage.Grammar
