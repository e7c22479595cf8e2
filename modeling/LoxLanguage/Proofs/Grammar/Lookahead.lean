import LoxLanguage.Proofs.Grammar.Basic
import LoxLanguage.Tree.Parser

/-! What the next token says. A nonterminal of operators belongs to the levels that the parser reads there;
an expression begins with a token of one of a few kinds; and behind what is derived from a nonterminal, only
a few kinds of token would make the parser read on. -/

namespace LoxLanguage.Grammar

open Token (Kind)

/-! ### Levels -/

/-- The levels of operators that are read at a nonterminal, the loosest first. -/
def Symbol.levels : Symbol → List Parser.Level
  | .assignment | .logicOr => [.disjunction, .conjunction, .equality, .comparison, .sum, .product]
  | .logicAnd => [.conjunction, .equality, .comparison, .sum, .product]
  | .equality => [.equality, .comparison, .sum, .product]
  | .comparison => [.comparison, .sum, .product]
  | .term => [.sum, .product]
  | .factor => [.product]
  | .unary | .call | .primary => []

/-- The loosest level that is read at the nonterminal of a production: its operators are those of the production,
    it makes the same nodes, and the tighter levels are those of the operands. -/
theorem levels_of_rule {X : Symbol} {rule : OperatorRule} (h : X.rule? = some rule) :
    ∃ level : Parser.Level, X.levels = level :: rule.operand.levels ∧ level.join = rule.node ∧
      ∀ kind, level.has kind = true ↔ kind ∈ rule.operators := by
  cases X with
  | assignment | unary | call | primary => cases h
  | logicOr =>
    cases h
    exact ⟨.disjunction, rfl, rfl, fun kind => by cases kind <;> decide⟩
  | logicAnd =>
    cases h
    exact ⟨.conjunction, rfl, rfl, fun kind => by cases kind <;> decide⟩
  | equality =>
    cases h
    exact ⟨.equality, rfl, rfl, fun kind => by cases kind <;> decide⟩
  | comparison =>
    cases h
    exact ⟨.comparison, rfl, rfl, fun kind => by cases kind <;> decide⟩
  | term =>
    cases h
    exact ⟨.sum, rfl, rfl, fun kind => by cases kind <;> decide⟩
  | factor =>
    cases h
    exact ⟨.product, rfl, rfl, fun kind => by cases kind <;> decide⟩

/-- The nonterminals of operators and their operands. -/
inductive Symbol.IsOperation : Symbol → Prop where
  | unary : IsOperation .unary
  | rule {X : Symbol} {rule : OperatorRule} (h : X.rule? = some rule) : IsOperation X

theorem isOperation_operand {X : Symbol} {rule : OperatorRule} (h : X.rule? = some rule) : rule.operand.IsOperation := by
  cases X <;> cases h
  case factor => exact .unary
  all_goals exact .rule rfl

/-! ### First tokens -/

/-- Kinds of token that begin an expression without operators. -/
def beginsAtom : Kind → Bool
  | .trueWord | .falseWord | .nilWord | .number | .string | .thisWord | .identifier | .leftParen => true
  | _ => false

/-- Kinds of token that begin what is derived from a nonterminal. -/
def Symbol.begins (X : Symbol) (kind : Kind) : Bool :=
  beginsAtom kind || (Parser.isUnary kind && X != .call && X != .primary)

/-- A row begins with a token of a kind that begins what is derived from a nonterminal. -/
def Symbol.Begun (X : Symbol) (ts : List Token) : Prop :=
  ∃ t rest, ts = t :: rest ∧ X.begins t.kind = true

namespace Symbol

theorem Begun.append {X : Symbol} {ts : List Token} (h : X.Begun ts) (us : List Token) : X.Begun (ts ++ us) := by
  obtain ⟨t, rest, rfl, ht⟩ := h
  exact ⟨t, rest ++ us, rfl, ht⟩

theorem begun_cons {X : Symbol} {t : Token} {kind : Kind} (h : t.kind = kind) (hb : X.begins kind = true)
    (rest : List Token) : X.Begun (t :: rest) :=
  ⟨t, rest, rfl, h ▸ hb⟩

/-- What begins a nonterminal begins the looser ones. -/
theorem Begun.loosen {X Y : Symbol} {ts : List Token} (h : X.Begun ts) (hcall : Y ≠ .call) (hprimary : Y ≠ .primary) :
    Y.Begun ts := by
  obtain ⟨t, rest, rfl, ht⟩ := h
  refine ⟨t, rest, rfl, ?_⟩
  simp only [begins, Bool.or_eq_true, Bool.and_eq_true] at ht ⊢
  exact ht.imp_right fun h => ⟨⟨h.1.1, by simpa using hcall⟩, by simpa using hprimary⟩

end Symbol

theorem Derives.begun {X : Symbol} {n m : Site} {ts : List Token} {e : Expr} (h : Derives X n ts e m) : X.Begun ts := by
  induction h using @Derives.rec _ (fun _ _ _ _ _ => True) (fun _ _ _ _ _ => True) with
  | assignVariable hname => exact Symbol.begun_cons hname rfl _
  | assignProperty _ _ _ _ _ ih => exact (ih.append _).loosen (by decide) (by decide)
  | value _ ih => exact ih.loosen (by decide) (by decide)
  | @operand X rule _ _ _ _ hrule _ ih => exact ih.loosen (by rintro rfl; cases hrule) (by rintro rfl; cases hrule)
  | operator _ _ _ _ ih => exact ih.append _
  | negation hoperator =>
    rcases hoperator with h | h
    · exact Symbol.begun_cons h rfl _
    · exact Symbol.begun_cons h rfl _
  | plain _ ih => exact ih.loosen (by decide) (by decide)
  | atom _ ih =>
    obtain ⟨t, rest, rfl, ht⟩ := ih
    exact ⟨t, rest, rfl, by simpa [Symbol.begins] using ht⟩
  | call _ _ _ _ _ ih => exact ih.append _
  | property _ _ _ ih => exact ih.append _
  | trueWord h => exact Symbol.begun_cons h rfl _
  | falseWord h => exact Symbol.begun_cons h rfl _
  | nilWord h => exact Symbol.begun_cons h rfl _
  | constant h =>
    rcases h with h | h
    · exact Symbol.begun_cons h rfl _
    · exact Symbol.begun_cons h rfl _
  | this h => exact Symbol.begun_cons h rfl _
  | name h => exact Symbol.begun_cons h rfl _
  | grouping hopening => exact Symbol.begun_cons hopening rfl _
  | none => trivial
  | some => trivial
  | last => trivial
  | more => trivial

theorem SomeArguments.begun {n m : Site} {ts : List Token} {given : List Expr} (h : SomeArguments n ts given m) :
    Symbol.assignment.Begun ts := by
  cases h with
  | last h => exact h.begun
  | more h => exact h.begun.append _

/-! ### The token behind -/

/-- Kinds of token that make the parser read on behind what is derived from a nonterminal. -/
def Symbol.goesOn : Symbol → Kind → Bool
  | .assignment, kind => kind == .equal || (Symbol.logicOr.levels.any (·.has kind) || kind == .leftParen || kind == .dot)
  | .primary, _ => false
  | X, kind => X.levels.any (·.has kind) || kind == .leftParen || kind == .dot

/-- The row goes on with a token that ends what is derived from a nonterminal. -/
def Symbol.Ends (X : Symbol) (rest : List Token) : Prop :=
  ∃ t us, rest = t :: us ∧ X.goesOn t.kind = false

/-! ### Statements -/

/-- The row goes on with a token that is no `else`. -/
def NoElse (rest : List Token) : Prop :=
  ∃ t us, rest = t :: us ∧ t.kind ≠ .elseWord

/-- The parser writes a `for` out as the grammar says. -/
theorem desugarFor_eq (initializer : Option Stmt) (condition increment : Option Expr) (body : Stmt) :
    Parser.desugarFor initializer condition increment body = forTree initializer condition increment body := by
  cases initializer <;> cases condition <;> cases increment <;> rfl

end LoxLanguage.Grammar
