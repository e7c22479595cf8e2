import LoxLanguage.Proofs.Grammar.Lookahead
import LoxLanguage.Proofs.Parser.Depth

/-! What is derived is read. `Parses` says that a parser takes a given row of tokens off what is left, makes no
complaint and gives a tree; runs that follow each other are put together by `Parses.bind`. The loops of the
parser build their trees from the left, so what holds of an expression in front of a loop is said for
every way in which the loop may go on: this is `Follows`. -/

namespace LoxLanguage.Grammar

open LoxLanguage.Parser
open Token (Kind)

/-! ### Rows that are read -/

/-- Under all bounds that are great enough, a parser takes the tokens `ts` in front of `rest` and gives a result. -/
def Parses {α : Type} (p : Nat → Parser α) (n : Site) (ts rest : List Token) (a : α) (m : Site) : Prop :=
  ∀ before problems, Settles p ⟨before, ts ++ rest, n, problems⟩ (.ok a ⟨ts.reverse ++ before, rest, m, problems⟩)

namespace Parses

variable {α β : Type} {p q : Nat → Parser α} {f : Nat → α → Parser β} {n k m : Site} {ts us rest : List Token} {a : α} {b : β}

theorem bind (hp : Parses p n ts (us ++ rest) a k) (hf : Parses (f · a) k us rest b m) :
    Parses (fun fuel => p fuel >>= f fuel) n (ts ++ us) rest b m := fun before problems => by
  have hp := hp before problems
  have hf := hf (ts.reverse ++ before) problems
  rw [← List.append_assoc, ← List.reverse_append] at hf
  rw [← List.append_assoc] at hp
  exact hp.bind hf

theorem bind_nil (hp : Parses p n [] (ts ++ rest) a k) (hf : Parses (f · a) k ts rest b m) :
    Parses (fun fuel => p fuel >>= f fuel) n ts rest b m :=
  hp.bind hf

theorem bind_cons {t : Token} (hp : Parses p n [t] (ts ++ rest) a k) (hf : Parses (f · a) k ts rest b m) :
    Parses (fun fuel => p fuel >>= f fuel) n (t :: ts) rest b m :=
  hp.bind hf

theorem pure : Parses (fun _ => pure a) n [] rest a n := fun _ _ => .of_eq fun _ => rfl

theorem map {g : α → β} (hp : Parses p n ts rest a m) : Parses (fun fuel => g <$> p fuel) n ts rest (g a) m :=
  fun before problems => (hp before problems).map

theorem of_succ (h : ∀ fuel, p (fuel + 1) = q fuel) (hq : Parses q n ts rest a m) : Parses p n ts rest a m :=
  fun before problems => (hq before problems).of_succ fun fuel => by rw [h]

/-- A parser whose run at this row is another one's. -/
theorem of_eq_at (h : ∀ fuel s, s.rest = ts ++ rest → p (fuel + 1) s = q fuel s) (hq : Parses q n ts rest a m) :
    Parses p n ts rest a m :=
  fun before problems => (hq before problems).of_succ fun fuel => h fuel _ rfl

/-- A parser whose run at this row is another one's behind the first token. -/
theorem of_next {t : Token} (h : ∀ fuel s, s.rest = t :: (ts ++ rest) → p (fuel + 1) s = q fuel s.next)
    (hq : Parses q n ts rest a m) : Parses p n (t :: ts) rest a m :=
  fun before problems => by
    have hq := hq (t :: before) problems
    rw [List.reverse_cons, List.append_assoc]
    exact hq.of_succ fun fuel => h fuel _ rfl

end Parses

/-! ### Single tokens -/

section Tokens
variable {n : Site} {t : Token} {rest : List Token} {kind : Kind}

theorem parses_acceptIf {test : Kind → Bool} (hk : test t.kind = true) (ht : t.kind ≠ .eof) :
    Parses (fun _ => acceptIf test) n [t] rest (some t) n := fun _ _ => .of_eq fun _ => acceptIf_pos rfl ht hk

theorem parses_acceptIf_none {test : Kind → Bool} (hk : test t.kind = false) :
    Parses (fun _ => acceptIf test) n [] (t :: rest) none n := fun _ _ => .of_eq fun _ => acceptIf_neg rfl (.inr hk)

theorem parses_accept (hk : t.kind = kind) (ht : kind ≠ .eof) : Parses (fun _ => accept kind) n [t] rest (some t) n :=
  fun _ _ => .of_eq fun _ => accept_pos rfl hk ht

theorem parses_accept_none (hk : t.kind ≠ kind) : Parses (fun _ => accept kind) n [] (t :: rest) none n :=
  fun _ _ => .of_eq fun _ => accept_neg rfl hk

theorem parses_expect {complaint : Complaint} (hk : t.kind = kind) (ht : kind ≠ .eof) :
    Parses (fun _ => expect kind complaint) n [t] rest t n := fun _ _ => .of_eq fun _ => expect_pos rfl hk ht

theorem parses_check : Parses (fun _ => check kind) n [] (t :: rest) (t.kind != .eof && t.kind == kind) n :=
  fun _ _ => .of_eq fun _ => check_eq rfl

theorem parses_atEnd : Parses (fun _ => atEnd) n [] (t :: rest) (t.kind == .eof) n := fun _ _ => .of_eq fun _ => atEnd_eq rfl

theorem parses_peek : Parses (fun _ => peek) n [] (t :: rest) t n := fun _ _ => .of_eq fun _ => peek_eq rfl

theorem parses_freshSite : Parses (fun _ => freshSite) n [] rest n (n + 1) := fun _ _ => .of_eq fun _ => rfl

theorem parses_complainIfFull {complaint : Complaint} {count : Nat} (h : count < maxArguments) :
    Parses (fun _ => complainIfFull count complaint) n [] rest () n := fun _ _ => .of_eq fun _ => complainIfFull_eq_of_lt h

end Tokens

/-! ### Expressions -/

/-- The nonterminal of the operands of the operators of a nonterminal, or of what stands in front of its loop. -/
def Symbol.tighter : Symbol → Symbol
  | .assignment => .assignment
  | .logicOr => .logicAnd
  | .logicAnd => .equality
  | .equality => .comparison
  | .comparison => .term
  | .term => .factor
  | .factor | .unary => .unary
  | .call | .primary => .primary

/-- The parser for what is derived from a symbol. -/
def Symbol.parser : Symbol → Nat → Parser Expr
  | .assignment, fuel => expression fuel
  | .unary, fuel => Parser.unary fuel
  | .call, fuel => Parser.primary fuel >>= suffixes fuel
  | .primary, fuel => Parser.primary fuel
  | X, fuel => operation fuel X.levels

/-- What the parser of a nonterminal does behind an expression that is derived from the nonterminal. -/
def Symbol.loop (X : Symbol) (fuel : Nat) (e : Expr) : Parser Expr :=
  match X, X.levels with
  | .assignment, _ => pure e
  | .call, _ => suffixes fuel e
  | _, level :: tighter => chain fuel level tighter e
  | _, [] => pure e

/-- However the loop behind an expression goes on, the parser of the nonterminal reads the expression and goes on
    like the loop. -/
def Follows (X : Symbol) (n : Site) (ts : List Token) (e : Expr) (m : Site) : Prop :=
  ∀ us rest c l, X.tighter.Ends (us ++ rest) → Parses (X.loop · e) m us rest c l → Parses X.parser n (ts ++ us) rest c l

theorem ends_cons {X : Symbol} {t : Token} {kind : Kind} (h : t.kind = kind) (hk : X.goesOn kind = false)
    (rest : List Token) : X.Ends (t :: rest) :=
  ⟨t, rest, rfl, h ▸ hk⟩

/-- What ends a nonterminal ends the nonterminal that is tighter. -/
theorem Symbol.Ends.tighter {X : Symbol} {rest : List Token} (h : X.Ends rest) : X.tighter.Ends rest := by
  obtain ⟨t, us, rfl, hk⟩ := h
  refine ⟨t, us, rfl, ?_⟩
  generalize t.kind = kind at hk ⊢
  cases X <;> simp_all [Symbol.goesOn, Symbol.tighter, Symbol.levels]

/-- Behind an expression that has ended, the loop gives it back. -/
theorem parses_loop {X : Symbol} {m : Site} {rest : List Token} (e : Expr) (h : X.Ends rest) :
    Parses (X.loop · e) m [] rest e m := by
  obtain ⟨t, us, rfl, hk⟩ := h
  have hchain : ∀ {level tighter}, level.has t.kind = false → Parses (chain · level tighter e) m [] (t :: us) e m :=
    fun {level tighter} hk => .of_succ (chain.eq_2 level tighter e) ((parses_acceptIf_none hk).bind_nil .pure)
  cases X with
  | assignment | unary | primary => exact .pure
  | call =>
    simp only [Symbol.goesOn, Symbol.levels, List.any_nil, Bool.false_or, Bool.or_eq_false_iff, beq_eq_false_iff_ne] at hk
    refine .of_succ (suffixes.eq_2 e) ((parses_accept_none hk.1).bind_nil ?_)
    exact (parses_accept_none hk.2).bind_nil .pure
  | logicOr | logicAnd | equality | comparison | term | factor =>
    simp only [Symbol.goesOn, Symbol.levels, List.any_cons, Bool.or_eq_false_iff] at hk
    exact hchain hk.1.1.1

namespace Follows

variable {X : Symbol} {n k m : Site} {ts us rest : List Token} {e : Expr}

theorem closed (h : Follows X n ts e m) (hends : X.Ends rest) : Parses X.parser n ts rest e m := by
  have h := h [] rest e m hends.tighter (parses_loop e hends)
  rwa [List.append_nil] at h

/-- A nonterminal without a loop. -/
theorem of_closed (hX : ∀ fuel e, X.loop fuel e = pure e)
    (h : ∀ rest, X.tighter.Ends rest → Parses X.parser n ts rest e m) : Follows X n ts e m := fun us rest c l hends hloop => by
  have hbind : Parses (fun fuel => X.parser fuel >>= X.loop fuel) n (ts ++ us) rest c l := (h (us ++ rest) hends).bind hloop
  have heq : (fun fuel => X.parser fuel >>= X.loop fuel) = X.parser := funext fun fuel => by
    rw [show X.loop fuel = pure from funext (hX fuel), bind_pure]
  rwa [heq] at hbind

end Follows

/-! #### Operators -/

theorem tighter_of_rule {X : Symbol} {rule : OperatorRule} (h : X.rule? = some rule) : X.tighter = rule.operand := by
  cases X <;> cases h <;> rfl

theorem parser_of_rule {X : Symbol} {rule : OperatorRule} (h : X.rule? = some rule) :
    X.parser = fun fuel => operation fuel X.levels := by
  cases X <;> cases h <;> rfl

theorem operation_of_rule {X : Symbol} {rule : OperatorRule} (h : X.rule? = some rule) (fuel : Nat) :
    operation (fuel + 1) X.levels = operation fuel rule.operand.levels >>= X.loop fuel := by
  cases X <;> cases h <;> rfl

/-- Operands are read as operations of the tighter levels. -/
theorem parses_operation {X : Symbol} {n m : Site} {ts rest : List Token} {e : Expr} (hX : X.IsOperation)
    (h : Parses X.parser n ts rest e m) : Parses (operation · X.levels) n ts rest e m := by
  cases hX with
  | unary => exact .of_succ operation.eq_2 h
  | rule hrule => rwa [parser_of_rule hrule] at h

/-- An operator ends the operand on its left. -/
theorem ends_operator {X : Symbol} {rule : OperatorRule} {operator : Token} (h : X.rule? = some rule)
    (hoperator : operator.kind ∈ rule.operators) (rest : List Token) : rule.operand.Ends (operator :: rest) := by
  refine ⟨operator, rest, rfl, ?_⟩
  cases X <;> cases h <;> simp only [List.mem_cons, List.not_mem_nil, or_false] at hoperator
  case logicOr | logicAnd => rw [hoperator]; rfl
  case equality | term | factor => rcases hoperator with h | h <;> rw [h] <;> rfl
  case comparison => rcases hoperator with h | h | h | h <;> rw [h] <;> rfl

namespace Follows

variable {X : Symbol} {rule : OperatorRule} {n k m : Site} {ts us rest : List Token} {e : Expr}

theorem operand (hrule : X.rule? = some rule) (h : Follows rule.operand n ts e m) : Follows X n ts e m :=
  fun us rest c l hends hloop => by
    rw [tighter_of_rule hrule] at hends
    rw [parser_of_rule hrule]
    have hoperand := parses_operation (isOperation_operand hrule) (h.closed hends)
    exact .of_succ (operation_of_rule hrule) (hoperand.bind hloop)

theorem operator {operator : Token} {left right : Expr} (hrule : X.rule? = some rule) (hleft : Follows X n ts left k)
    (hoperator : operator.kind ∈ rule.operators) (hright : Follows rule.operand k us right m) :
    Follows X n (ts ++ operator :: us) (rule.node left operator right) m := fun vs rest c l hends hloop => by
  obtain ⟨level, hlevels, hjoin, hhas⟩ := levels_of_rule hrule
  have hX : ∀ fuel e, X.loop fuel e = chain fuel level rule.operand.levels e := fun fuel e => by
    cases X <;> cases hrule <;> cases hlevels <;> rfl
  rw [tighter_of_rule hrule] at hends
  simp only [hX] at hloop
  have hkind : operator.kind ≠ .eof := fun he => by
    have := (hhas _).mpr hoperator
    rw [he] at this
    cases level <;> cases this
  have hmore : Parses (X.loop · left) k (operator :: (us ++ vs)) rest c l := by
    simp only [hX]
    refine .of_succ (chain.eq_2 level rule.operand.levels left) ?_
    refine (parses_acceptIf ((hhas _).mpr hoperator) hkind).bind_cons ?_
    refine (parses_operation (isOperation_operand hrule) (hright.closed hends)).bind ?_
    rwa [hjoin]
  have hall := hleft (operator :: (us ++ vs)) rest c l (tighter_of_rule hrule ▸ ends_operator hrule hoperator _) hmore
  rwa [List.append_assoc, List.cons_append]

/-! #### Unary operators, calls and properties -/

theorem negation {operator : Token} (hoperator : operator.kind = .bang ∨ operator.kind = .minus)
    (h : Follows .unary n ts e m) : Follows .unary n (operator :: ts) (.unary operator e) m :=
  .of_closed (fun _ _ => rfl) fun rest hends => by
    have hunary : isUnary operator.kind = true := by
      rcases hoperator with h | h <;> rw [h] <;> rfl
    have hkind : operator.kind ≠ .eof := fun he => by
      rw [he] at hunary
      cases hunary
    refine .of_succ unary.eq_2 ((parses_acceptIf hunary hkind).bind_cons ?_)
    rw [← List.append_nil ts]
    exact (h.closed hends).bind .pure

/-- A call does not begin with an operator, so it is read as one. -/
theorem plain (hbegun : Symbol.call.Begun ts) (h : Follows .call n ts e m) : Follows .unary n ts e m :=
  .of_closed (fun _ _ => rfl) fun rest hends => by
    obtain ⟨t, ts, rfl, ht⟩ := hbegun
    have hunary : isUnary t.kind = false := by
      generalize t.kind = kind at ht ⊢
      cases kind <;> first | rfl | cases ht
    refine .of_succ unary.eq_2 ((parses_acceptIf_none hunary).bind_nil ?_)
    exact h.closed hends

theorem atom (h : Follows .primary n ts e m) : Follows .call n ts e m := fun _ _ _ _ hends hloop =>
  (h.closed hends).bind hloop

theorem property {dot name : Token} (h : Follows .call n ts e m) (hdot : dot.kind = .dot) (hname : name.kind = .identifier) :
    Follows .call n (ts ++ [dot, name]) (.get e name) m := fun us rest c l hends hloop => by
  have hmore : Parses (suffixes · e) m (dot :: name :: us) rest c l := by
    refine .of_succ (suffixes.eq_2 e) ((parses_accept_none (by rw [hdot]; decide)).bind_nil ?_)
    refine (parses_accept hdot (by decide)).bind_cons ?_
    exact (parses_expect hname (by decide)).bind_cons hloop
  have hall := h (dot :: name :: us) rest c l (ends_cons hdot rfl _) hmore
  rwa [List.append_assoc]

theorem call {opening closing : Token} {given : List Expr} (h : Follows .call n ts e k)
    (hopening : opening.kind = .leftParen) (hclosing : closing.kind = .rightParen)
    (hgiven : ∀ rest, Parses argumentsIfAny k us (closing :: rest) given.toArray m) :
    Follows .call n (ts ++ opening :: (us ++ [closing])) (.call e closing given) m := fun vs rest c l hends hloop => by
  have hmore : Parses (suffixes · e) k (opening :: (us ++ closing :: vs)) rest c l := by
    refine .of_succ (suffixes.eq_2 e) ((parses_accept hopening (by decide)).bind_cons ?_)
    refine (hgiven (vs ++ rest)).bind ?_
    exact (parses_expect hclosing (by decide)).bind_cons hloop
  have hall := h (opening :: (us ++ closing :: vs)) rest c l (ends_cons hopening rfl _) hmore
  simpa using hall

/-! #### Atoms -/

theorem single {t : Token} (h : ∀ rest, Parses Parser.primary n [t] rest e m) : Follows .primary n [t] e m :=
  .of_closed (fun _ _ => rfl) fun rest _ => h rest

theorem grouping {opening closing : Token} (hopening : opening.kind = .leftParen) (hclosing : closing.kind = .rightParen)
    (h : Follows .assignment n ts e m) : Follows .primary n (opening :: (ts ++ [closing])) (.grouping e) m :=
  .of_closed (fun _ _ => rfl) fun rest _ => by
    refine .of_succ primary.eq_2 (parses_peek.bind_nil ?_)
    simp only [hopening]
    refine (parses_accept hopening (by decide)).bind_cons ?_
    refine (h.closed (ends_cons hclosing rfl _)).bind ?_
    exact (parses_expect hclosing (by decide)).bind_cons .pure

/-- What is read as a call is read as operators, if there are none. -/
theorem logicOr (hbegun : Symbol.call.Begun ts) (h : Follows .call n ts e m) : Follows .logicOr n ts e m :=
  have hfactor : Follows .factor n ts e m := .operand rfl (h.plain hbegun)
  have hterm : Follows .term n ts e m := .operand rfl hfactor
  have hcomparison : Follows .comparison n ts e m := .operand rfl hterm
  have hequality : Follows .equality n ts e m := .operand rfl hcomparison
  .operand rfl (.operand rfl hequality)

/-! #### Assignments -/

theorem value (h : Follows .logicOr n ts e m) : Follows .assignment n ts e m :=
  .of_closed (fun _ _ => rfl) fun rest hends => by
    obtain ⟨t, us, rfl, hk⟩ := hends
    simp only [Symbol.goesOn, Symbol.tighter, Bool.or_eq_false_iff, beq_eq_false_iff_ne] at hk
    have hends : Symbol.logicOr.Ends (t :: us) := ⟨t, us, rfl, by simpa [Symbol.goesOn] using hk.2⟩
    refine .of_succ expression.eq_2 ?_
    rw [← List.append_nil ts]
    exact (h.closed hends).bind ((parses_accept_none hk.1).bind_nil .pure)

/-- An assignment to what stands in front of the equals sign. -/
theorem assign {equals : Token} {target value assigned : Expr} (htarget : Follows .logicOr n ts target k)
    (hequals : equals.kind = .equal) (hvalue : Follows .assignment k us value m)
    (hassigned : assignment? target value = some assigned) : Follows .assignment n (ts ++ equals :: us) assigned m :=
  .of_closed (fun _ _ => rfl) fun rest hends => by
    refine .of_succ expression.eq_2 ((htarget.closed (ends_cons hequals rfl _)).bind ?_)
    refine (parses_accept hequals (by decide)).bind_cons ?_
    rw [← List.append_nil us]
    refine (hvalue.closed hends).bind ?_
    simp only [hassigned]
    exact .pure

end Follows

/-! #### Arguments -/

/-- Few enough arguments are read in front of the closing parenthesis. -/
def ArgumentsFollow (n : Site) (ts : List Token) (given : List Expr) (m : Site) : Prop :=
  given.length ≤ maxArguments → ∀ closing rest, closing.kind = .rightParen →
    Parses argumentsIfAny n ts (closing :: rest) given.toArray m

/-- Arguments behind others, in front of a closing parenthesis, are read. -/
def SomeArgumentsFollow (n : Site) (ts : List Token) (given : List Expr) (m : Site) : Prop :=
  ∀ done : Array Expr, done.size + given.length ≤ maxArguments → ∀ closing rest, closing.kind = .rightParen →
    Parses (arguments · done) n ts (closing :: rest) (done ++ given.toArray) m

theorem argumentsFollow_none {n : Site} : ArgumentsFollow n [] [] n := fun _ closing rest hclosing => by
  refine .of_succ argumentsIfAny.eq_2 (parses_check.bind_nil ?_)
  simp only [hclosing]
  exact .pure

theorem argumentsFollow_some {n m : Site} {ts : List Token} {given : List Expr} (h : SomeArguments n ts given m)
    (hfollow : SomeArgumentsFollow n ts given m) : ArgumentsFollow n ts given m := fun hlength closing rest hclosing => by
  obtain ⟨t, ts, rfl, ht⟩ := h.begun
  have hkind : (t.kind == .rightParen) = false := by
    generalize t.kind = kind at ht ⊢
    cases kind <;> first | rfl | cases ht
  refine .of_succ argumentsIfAny.eq_2 (parses_check.bind_nil ?_)
  simp only [hkind, Bool.and_false, Bool.false_eq_true, ↓reduceIte]
  simpa using hfollow #[] (by simpa using hlength) closing rest hclosing

theorem someArgumentsFollow_last {n m : Site} {ts : List Token} {e : Expr} (h : Follows .assignment n ts e m) :
    SomeArgumentsFollow n ts [e] m := fun done hlength closing rest hclosing => by
  rw [List.length_singleton] at hlength
  refine .of_succ (arguments.eq_2 done) ((parses_complainIfFull (by omega)).bind_nil ?_)
  rw [← List.append_nil ts]
  refine (h.closed (ends_cons hclosing rfl _)).bind ?_
  refine (parses_accept_none (by rw [hclosing]; decide)).bind_nil ?_
  simpa using Parses.pure

theorem someArgumentsFollow_more {n k m : Site} {comma : Token} {ts us : List Token} {e : Expr} {given : List Expr}
    (h : Follows .assignment n ts e k) (hcomma : comma.kind = .comma) (hgiven : SomeArgumentsFollow k us given m) :
    SomeArgumentsFollow n (ts ++ comma :: us) (e :: given) m := fun done hlength closing rest hclosing => by
  rw [List.length_cons] at hlength
  refine .of_succ (arguments.eq_2 done) ((parses_complainIfFull (by omega)).bind_nil ?_)
  refine (h.closed (ends_cons hcomma rfl _)).bind ?_
  refine (parses_accept hcomma (by decide)).bind_cons ?_
  simpa using hgiven (done.push e) (by rw [Array.size_push]; omega) closing rest hclosing

theorem Derives.follows {X : Symbol} {n m : Site} {ts : List Token} {e : Expr} (h : Derives X n ts e m) :
    Follows X n ts e m := by
  induction h using @Derives.rec _ (fun n ts given m _ => ArgumentsFollow n ts given m)
    (fun n ts given m _ => SomeArgumentsFollow n ts given m) with
  | @assignVariable n m name equals ts value hname hequals _ ih =>
    have hread : Follows .primary n [name] (.use n name) (n + 1) := .single fun rest => by
      refine .of_succ primary.eq_2 (parses_peek.bind_nil ?_)
      simp only [hname]
      exact (parses_accept hname (by decide)).bind_cons (parses_freshSite.bind_nil .pure)
    exact (hread.atom.logicOr (Symbol.begun_cons hname rfl _)).assign hequals ih rfl
  | @assignProperty n k m dot name equals ts us object value hobject hdot hname hequals _ ihObject ihValue =>
    have hread := (ihObject.property hdot hname).logicOr (hobject.begun.append _)
    have hall := hread.assign hequals ihValue rfl
    rwa [List.append_assoc] at hall
  | value _ ih => exact ih.value
  | operand hrule _ ih => exact .operand hrule ih
  | operator hrule _ hoperator _ ihLeft ihRight => exact .operator hrule ihLeft hoperator ihRight
  | negation hoperator _ ih => exact .negation hoperator ih
  | plain h ih => exact ih.plain h.begun
  | atom _ ih => exact ih.atom
  | call _ hopening _ hlength hclosing ih ihGiven =>
    exact ih.call hopening hclosing fun rest => ihGiven hlength _ rest hclosing
  | property _ hdot hname ih => exact ih.property hdot hname
  | trueWord h | falseWord h | nilWord h =>
    refine .single fun rest => .of_succ primary.eq_2 (parses_peek.bind_nil ?_)
    simp only [h]
    exact (parses_accept h (by decide)).bind_cons .pure
  | constant h =>
    refine .single fun rest => .of_succ primary.eq_2 (parses_peek.bind_nil ?_)
    rcases h with h | h
    · simp only [h]
      exact (parses_accept h (by decide)).bind_cons .pure
    · simp only [h]
      exact (parses_accept h (by decide)).bind_cons .pure
  | this h | name h =>
    refine .single fun rest => .of_succ primary.eq_2 (parses_peek.bind_nil ?_)
    simp only [h]
    exact (parses_accept h (by decide)).bind_cons (parses_freshSite.bind_nil .pure)
  | grouping hopening _ hclosing ih => exact .grouping hopening hclosing ih
  | none => exact argumentsFollow_none
  | some h ih => exact argumentsFollow_some h ih
  | last _ ih => exact someArgumentsFollow_last ih
  | more _ hcomma _ ih ihGiven => exact someArgumentsFollow_more ih hcomma ihGiven

theorem expression_parses {n m : Site} {ts rest : List Token} {e : Expr} (h : Expression n ts e m)
    (hends : Symbol.assignment.Ends rest) : Parses expression n ts rest e m :=
  h.follows.closed hends

/-- The first token of an expression begins no other statement and no declaration. -/
theorem Derives.opens {n m : Site} {ts : List Token} {e : Expr} (h : Expression n ts e m) :
    ∃ t us, ts = t :: us ∧ opensDeclaration t.kind = false ∧ opensStatement t.kind = false ∧ t.kind ≠ .eof := by
  obtain ⟨t, us, rfl, ht⟩ := h.begun
  refine ⟨t, us, rfl, ?_⟩
  generalize t.kind = kind at ht ⊢
  cases kind <;> cases ht <;> exact ⟨rfl, rfl, by decide⟩

/-! ### Parts of statements -/

section Parts
variable {n m : Site} {ts rest : List Token}

theorem parameters_parses {names : List Token} (h : SomeParameters ts names) (done : Array Token)
    (hlength : done.size + names.length ≤ maxArguments) {closing : Token} (hclosing : closing.kind = .rightParen) :
    Parses (parameters · done) n ts (closing :: rest) (done ++ names.toArray) n := by
  induction h generalizing done with
  | last hname =>
    rw [List.length_singleton] at hlength
    refine .of_succ (parameters.eq_2 done) ((parses_complainIfFull (by omega)).bind_nil ?_)
    refine (parses_expect hname (by decide)).bind_cons ?_
    refine (parses_accept_none (by rw [hclosing]; decide)).bind_nil ?_
    simpa using Parses.pure
  | more hname hcomma _ ih =>
    rw [List.length_cons] at hlength
    refine .of_succ (parameters.eq_2 done) ((parses_complainIfFull (by omega)).bind_nil ?_)
    refine (parses_expect hname (by decide)).bind_cons ((parses_accept hcomma (by decide)).bind_cons ?_)
    simpa using ih (done.push _) (by rw [Array.size_push]; omega)

theorem parametersIfAny_parses {names : List Token} (h : Parameters ts names) (hlength : names.length ≤ maxArguments)
    {closing : Token} (hclosing : closing.kind = .rightParen) :
    Parses parametersIfAny n ts (closing :: rest) names.toArray n := by
  cases h with
  | none =>
    refine parses_check.bind_nil ?_
    simp only [hclosing]
    exact .pure
  | some h =>
    have hfirst : ∃ t us, ts = t :: us ∧ t.kind = .identifier := by
      cases h with
      | last hname => exact ⟨_, _, rfl, hname⟩
      | more hname => exact ⟨_, _, rfl, hname⟩
    have hall : Parses (parameters · #[]) n ts (closing :: rest) _ n :=
      parameters_parses h #[] (by simpa using hlength) hclosing
    obtain ⟨t, us, rfl, ht⟩ := hfirst
    refine parses_check.bind_nil ?_
    simp only [ht]
    simpa using hall

theorem Variable.parses {a : Stmt} (h : Variable n ts a m) :
    ∃ keyword us, ts = keyword :: us ∧ keyword.kind = .varWord ∧ ∀ rest, Parses variableDeclaration n us rest a m := by
  cases h with
  | plain hkeyword hname hsemicolon =>
    refine ⟨_, _, rfl, hkeyword, fun rest => (parses_expect hname (by decide)).bind_cons ?_⟩
    refine Parses.bind_nil ((parses_accept_none (by rw [hsemicolon]; decide)).bind_nil .pure) ?_
    exact (parses_expect hsemicolon (by decide)).bind_cons .pure
  | @initialized _ _ _ equals semicolon ts e hkeyword hname hequals he hsemicolon =>
    refine ⟨_, _, rfl, hkeyword, fun rest => (parses_expect hname (by decide)).bind_cons ?_⟩
    have hinitializer : Parses initializerIfAny n (equals :: ts) (semicolon :: rest) (some e) m :=
      (parses_accept hequals (by decide)).bind_cons (expression_parses he (ends_cons hsemicolon rfl _)).map
    rw [← List.cons_append]
    refine hinitializer.bind ?_
    exact (parses_expect hsemicolon (by decide)).bind_cons .pure

theorem expressionStatement_parses {e : Expr} {semicolon : Token} (h : Expression n ts e m)
    (hsemicolon : semicolon.kind = .semicolon) : Parses expressionStatement n (ts ++ [semicolon]) rest (.expression e) m :=
  (expression_parses h (ends_cons hsemicolon rfl _)).bind ((parses_expect hsemicolon (by decide)).bind_cons .pure)

theorem expressionUnless_parses {value : Option Expr} {closing : Token} {kind : Kind} (h : OptionalExpression n ts value m)
    (hclosing : closing.kind = kind) (hkind : kind ≠ .eof) (hends : Symbol.assignment.goesOn kind = false)
    (hbegins : Symbol.assignment.begins kind = false) : Parses (expressionUnless kind) n ts (closing :: rest) value m := by
  cases h with
  | none =>
    refine parses_check.bind_nil ?_
    simp only [hclosing, bne_iff_ne.mpr hkind, beq_self_eq_true, Bool.and_self]
    exact .pure
  | some h =>
    have hread : Parses (fun fuel => some <$> expression fuel) n ts (closing :: rest) _ m :=
      (expression_parses h (ends_cons hclosing hends rest)).map
    obtain ⟨t, us, rfl, ht⟩ := h.begun
    have hne : (t.kind == kind) = false := beq_eq_false_iff_ne.mpr fun he => by
      rw [he, hbegins] at ht
      cases ht
    refine parses_check.bind_nil ?_
    simpa only [hne, Bool.and_false, Bool.false_eq_true, ↓reduceIte] using hread

theorem forInitializer_parses {initializer : Option Stmt} (h : Initializer n ts initializer m) :
    Parses forInitializer n ts rest initializer m := by
  cases h with
  | none hsemicolon => exact (parses_accept hsemicolon (by decide)).bind_cons .pure
  | declaration h =>
    obtain ⟨keyword, us, rfl, hkeyword, hread⟩ := h.parses
    refine (parses_accept_none (by rw [hkeyword]; decide)).bind_nil ?_
    exact (parses_accept hkeyword (by decide)).bind_cons (hread rest).map
  | expression h hsemicolon =>
    have hread : Parses (fun fuel => some <$> expressionStatement fuel) n _ rest _ m :=
      (expressionStatement_parses h hsemicolon).map
    obtain ⟨t, us, rfl, ht⟩ := h.begun
    have hsemicolon' : t.kind ≠ .semicolon := fun he => by rw [he] at ht; cases ht
    have hvar : t.kind ≠ .varWord := fun he => by rw [he] at ht; cases ht
    refine (parses_accept_none hsemicolon').bind_nil ?_
    refine (parses_accept_none hvar).bind_nil ?_
    exact hread

end Parts

/-! ### Statements -/

/-- The kinds of token that begin a declaration or a statement. -/
def beginsDeclaration (kind : Kind) : Bool :=
  opensDeclaration kind || opensStatement kind || Symbol.assignment.begins kind

/-- A row begins with a token of a kind that begins a declaration or a statement. -/
def DeclarationBegun (ts : List Token) : Prop :=
  ∃ t rest, ts = t :: rest ∧ beginsDeclaration t.kind = true

theorem declarationBegun_cons {t : Token} {kind : Kind} (h : t.kind = kind) (hb : beginsDeclaration kind = true)
    (rest : List Token) : DeclarationBegun (t :: rest) :=
  ⟨t, rest, rfl, h ▸ hb⟩

theorem Statement.begun {dangles : Bool} {n m : Site} {ts : List Token} {a : Stmt} (h : Statement dangles n ts a m) :
    DeclarationBegun ts := by
  cases h with
  | expression h =>
    obtain ⟨t, us, rfl, ht⟩ := h.begun
    exact ⟨t, _, rfl, by rw [beginsDeclaration, ht, Bool.or_true]⟩
  | print hkeyword | returns hkeyword | block hkeyword | loop hkeyword | loopFor hkeyword | branch hkeyword
  | branchElse hkeyword => exact declarationBegun_cons hkeyword rfl _

theorem Declaration.begun {n m : Site} {ts : List Token} {a : Stmt} (h : Declaration n ts a m) : DeclarationBegun ts := by
  cases h with
  | classes hkeyword | function hkeyword => exact declarationBegun_cons hkeyword rfl _
  | binding h =>
    obtain ⟨keyword, us, rfl, hkeyword, -⟩ := h.parses
    exact declarationBegun_cons hkeyword rfl _
  | statement h => exact h.begun

/-- Behind any number of declarations in front of a row without `else`, there is no `else`. -/
theorem Declarations.noElse {n m : Site} {ts rest : List Token} {body : List Stmt} (h : Declarations n ts body m)
    (hrest : NoElse rest) : NoElse (ts ++ rest) := by
  cases h with
  | none => exact hrest
  | more h =>
    obtain ⟨t, us, rfl, ht⟩ := h.begun
    exact ⟨t, _, rfl, fun he => by rw [he] at ht; cases ht⟩

theorem Parses.recovering {n m : Site} {ts rest : List Token} {α : Type} {p : Nat → Parser α} {a : α}
    (h : Parses p n ts rest a m) : Parses (fun fuel => recovering (p fuel)) n ts rest (some a) m := fun before problems => by
  obtain ⟨least, h⟩ := h before problems
  exact ⟨least, fun fuel hle => by simp only [Parser.recovering, h fuel hle]⟩

/-- A declaration is read, where no `else` follows. -/
def DeclarationFollows (n : Site) (ts : List Token) (a : Stmt) (m : Site) : Prop :=
  ∀ rest, NoElse rest → Parses declaration n ts rest a m

/-- A statement is read; if it dangles, where no `else` follows. -/
def StatementFollows (dangles : Bool) (n : Site) (ts : List Token) (a : Stmt) (m : Site) : Prop :=
  ∀ rest, (dangles = true → NoElse rest) → Parses statement n ts rest a m

/-- Statements are read in front of the closing brace, behind those already found. -/
def ItemsFollow (n : Site) (ts : List Token) (body : List Stmt) (m : Site) : Prop :=
  ∀ (found : Array Stmt) closing rest, closing.kind = .rightBrace →
    Parses (items · found) n ts (closing :: rest) (found ++ body.toArray) m

/-- Methods are read in front of the closing brace, behind those already found. -/
def MethodsFollow (n : Site) (ts : List Token) (all : List Function) (m : Site) : Prop :=
  ∀ (found : Array Function) closing rest, closing.kind = .rightBrace →
    Parses (methods · found) n ts (closing :: rest) (found ++ all.toArray) m

/-- A routine is read, whatever follows. -/
def RoutineFollows (n : Site) (ts : List Token) (f : Function) (m : Site) : Prop :=
  ∀ kind rest, Parses (routine · kind) n ts rest f m

section Statements
variable {n k l m : Site} {ts us vs : List Token}

theorem block_parses {body : List Stmt} {closing : Token} (h : ItemsFollow n ts body m) (hclosing : closing.kind = .rightBrace)
    (rest : List Token) : Parses block n (ts ++ [closing]) rest body m := by
  refine .of_succ block.eq_2 ((h #[] closing rest hclosing).bind ?_)
  refine (parses_expect hclosing (by decide)).bind_cons ?_
  simpa using Parses.pure

theorem routineFollows {name opening closing brace endBrace : Token} {parameters : List Token} {body : List Stmt}
    (hname : name.kind = .identifier) (hopening : opening.kind = .leftParen) (hparameters : Parameters ts parameters)
    (hlength : parameters.length ≤ maxArguments) (hclosing : closing.kind = .rightParen) (hbrace : brace.kind = .leftBrace)
    (hbody : ItemsFollow n us body m) (hendBrace : endBrace.kind = .rightBrace) :
    RoutineFollows n (name :: opening :: (ts ++ closing :: brace :: (us ++ [endBrace]))) (.mk name parameters body) m :=
  fun kind rest => by
    refine .of_succ (routine.eq_2 kind) ((parses_expect hname (by decide)).bind_cons ?_)
    refine (parses_expect hopening (by decide)).bind_cons ?_
    refine (parametersIfAny_parses hparameters hlength hclosing).bind ?_
    refine (parses_expect hclosing (by decide)).bind_cons ((parses_expect hbrace (by decide)).bind_cons ?_)
    rw [← List.append_nil (us ++ [endBrace])]
    exact (block_parses hbody hendBrace ([] ++ rest)).bind .pure

theorem methodsFollow_nil : MethodsFollow n [] [] n := fun found closing rest hclosing => by
  refine .of_succ (methods.eq_2 found) (parses_check.bind_nil (parses_atEnd.bind_nil ?_))
  simp only [hclosing]
  simpa using Parses.pure

theorem methodsFollow_cons {f : Function} {all : List Function} (hbegun : ∃ t vs, ts = t :: vs ∧ t.kind = .identifier)
    (h : RoutineFollows n ts f k) (hall : MethodsFollow k us all m) : MethodsFollow n (ts ++ us) (f :: all) m :=
  fun found closing rest hclosing => by
    have hread : Parses (fun fuel => routine fuel .method >>= fun f => methods fuel (found.push f)) n (ts ++ us)
        (closing :: rest) ((found.push f) ++ all.toArray) m :=
      (h .method _).bind (hall (found.push f) closing rest hclosing)
    obtain ⟨t, vs, rfl, ht⟩ := hbegun
    refine .of_succ (methods.eq_2 found) (parses_check.bind_nil (parses_atEnd.bind_nil ?_))
    simp only [ht]
    simpa using hread

theorem itemsFollow_none : ItemsFollow n [] [] n := fun found closing rest hclosing => by
  refine .of_succ (items.eq_2 found) (parses_check.bind_nil (parses_atEnd.bind_nil ?_))
  simp only [hclosing]
  simpa using Parses.pure

theorem itemsFollow_more {a : Stmt} {body : List Stmt} (hbegun : DeclarationBegun ts) (hmore : Declarations k us body m)
    (h : DeclarationFollows n ts a k) (hbody : ItemsFollow k us body m) : ItemsFollow n (ts ++ us) (a :: body) m :=
  fun found closing rest hclosing => by
    have hnext := h _ (hmore.noElse ⟨closing, rest, rfl, by rw [hclosing]; decide⟩)
    obtain ⟨t, vs, rfl, ht⟩ := hbegun
    have hbrace : (t.kind == .rightBrace) = false := beq_eq_false_iff_ne.mpr fun he => by rw [he] at ht; cases ht
    have heof : (t.kind == .eof) = false := beq_eq_false_iff_ne.mpr fun he => by rw [he] at ht; cases ht
    refine .of_succ (items.eq_2 found) (parses_check.bind_nil (parses_atEnd.bind_nil ?_))
    simp only [hbrace, heof, Bool.and_false, Bool.or_self, Bool.false_eq_true, ↓reduceIte]
    refine hnext.recovering.bind ?_
    simpa using hbody (found.push a) closing rest hclosing

theorem statementFollows_expression {semicolon : Token} {e : Expr} (h : Expression n ts e m)
    (hsemicolon : semicolon.kind = .semicolon) : StatementFollows false n (ts ++ [semicolon]) (.expression e) m :=
  fun rest _ => by
    have hread : Parses expressionStatement n (ts ++ [semicolon]) rest (.expression e) m :=
      expressionStatement_parses h hsemicolon
    obtain ⟨t, us, rfl, -, hopen, -⟩ := h.opens
    exact .of_eq_at (fun _ _ hs => statement_eq_expression hs hopen) hread

theorem statementFollows_print {keyword semicolon : Token} {e : Expr} (hkeyword : keyword.kind = .printWord)
    (h : Expression n ts e m) (hsemicolon : semicolon.kind = .semicolon) :
    StatementFollows false n (keyword :: (ts ++ [semicolon])) (.print e) m := fun rest _ => by
  refine .of_next (fun _ _ hs => statement_eq_print hs hkeyword) ?_
  refine (expression_parses h (ends_cons hsemicolon rfl _)).bind ?_
  exact (parses_expect hsemicolon (by decide)).bind_cons .pure

theorem statementFollows_returns {keyword semicolon : Token} {value : Option Expr} (hkeyword : keyword.kind = .returnWord)
    (h : OptionalExpression n ts value m) (hsemicolon : semicolon.kind = .semicolon) :
    StatementFollows false n (keyword :: (ts ++ [semicolon])) (.returnValue keyword value) m := fun rest _ => by
  refine .of_next (fun _ _ hs => statement_eq_return hs hkeyword) ?_
  refine (expressionUnless_parses h hsemicolon (by decide) rfl rfl).bind ?_
  exact (parses_expect hsemicolon (by decide)).bind_cons .pure

theorem statementFollows_block {opening closing : Token} {body : List Stmt} (hopening : opening.kind = .leftBrace)
    (h : ItemsFollow n ts body m) (hclosing : closing.kind = .rightBrace) :
    StatementFollows false n (opening :: (ts ++ [closing])) (.block body) m := fun rest _ => by
  refine .of_next (fun _ _ hs => statement_eq_block hs hopening) ?_
  rw [← List.append_nil (ts ++ [closing])]
  exact (block_parses h hclosing ([] ++ rest)).bind .pure

theorem statementFollows_loop {dangles : Bool} {keyword opening closing : Token} {condition : Expr} {body : Stmt}
    (hkeyword : keyword.kind = .whileWord) (hopening : opening.kind = .leftParen) (hcondition : Expression n ts condition k)
    (hclosing : closing.kind = .rightParen) (h : StatementFollows dangles k us body m) :
    StatementFollows dangles n (keyword :: opening :: (ts ++ closing :: us)) (.loop condition body) m := fun rest hrest => by
  refine .of_next (fun _ _ hs => statement_eq_while hs hkeyword) ?_
  refine .of_succ whileStatement.eq_2 ((parses_expect hopening (by decide)).bind_cons ?_)
  refine (expression_parses hcondition (ends_cons hclosing rfl _)).bind ?_
  refine (parses_expect hclosing (by decide)).bind_cons ?_
  rw [← List.append_nil us]
  exact (h ([] ++ rest) hrest).bind .pure

theorem statementFollows_loopFor {dangles : Bool} {j : Site} {keyword opening semicolon closing : Token} {ws : List Token}
    {initializer : Option Stmt} {condition increment : Option Expr} {body : Stmt} (hkeyword : keyword.kind = .forWord)
    (hopening : opening.kind = .leftParen) (hinitializer : Initializer n ts initializer k)
    (hcondition : OptionalExpression k us condition l) (hsemicolon : semicolon.kind = .semicolon)
    (hincrement : OptionalExpression l vs increment j) (hclosing : closing.kind = .rightParen)
    (h : StatementFollows dangles j ws body m) :
    StatementFollows dangles n (keyword :: opening :: (ts ++ (us ++ semicolon :: (vs ++ closing :: ws))))
      (forTree initializer condition increment body) m := fun rest hrest => by
  refine .of_next (fun _ _ hs => statement_eq_for hs hkeyword) ?_
  refine .of_succ forStatement.eq_2 ((parses_expect hopening (by decide)).bind_cons ?_)
  refine (forInitializer_parses hinitializer).bind ?_
  refine (expressionUnless_parses hcondition hsemicolon (by decide) rfl rfl).bind ?_
  refine (parses_expect hsemicolon (by decide)).bind_cons ?_
  refine (expressionUnless_parses hincrement hclosing (by decide) rfl rfl).bind ?_
  refine (parses_expect hclosing (by decide)).bind_cons ?_
  rw [← List.append_nil ws, ← desugarFor_eq]
  exact (h ([] ++ rest) hrest).bind .pure

theorem statementFollows_branch {dangles : Bool} {keyword opening closing : Token} {condition : Expr} {whenTrue : Stmt}
    (hkeyword : keyword.kind = .ifWord) (hopening : opening.kind = .leftParen) (hcondition : Expression n ts condition k)
    (hclosing : closing.kind = .rightParen) (h : StatementFollows dangles k us whenTrue m) :
    StatementFollows true n (keyword :: opening :: (ts ++ closing :: us)) (.branch condition whenTrue none) m :=
  fun rest hrest => by
    obtain ⟨t, rest, rfl, ht⟩ := hrest rfl
    refine .of_next (fun _ _ hs => statement_eq_if hs hkeyword) ?_
    refine .of_succ ifStatement.eq_2 ((parses_expect hopening (by decide)).bind_cons ?_)
    refine (expression_parses hcondition (ends_cons hclosing rfl _)).bind ?_
    refine (parses_expect hclosing (by decide)).bind_cons ?_
    rw [← List.append_nil us]
    refine (h ([] ++ t :: rest) fun _ => ⟨t, rest, rfl, ht⟩).bind ?_
    exact (parses_accept_none ht).bind_nil .pure

/-- The statement in front of an `else` does not dangle, so it ends there. -/
theorem statementFollows_branchElse {dangles : Bool} {keyword opening closing otherwise : Token} {condition : Expr}
    {whenTrue whenFalse : Stmt} (hkeyword : keyword.kind = .ifWord) (hopening : opening.kind = .leftParen)
    (hcondition : Expression n ts condition k) (hclosing : closing.kind = .rightParen)
    (htrue : StatementFollows false k us whenTrue l) (hotherwise : otherwise.kind = .elseWord)
    (hfalse : StatementFollows dangles l vs whenFalse m) :
    StatementFollows dangles n (keyword :: opening :: (ts ++ closing :: (us ++ otherwise :: vs)))
      (.branch condition whenTrue (some whenFalse)) m := fun rest hrest => by
  refine .of_next (fun _ _ hs => statement_eq_if hs hkeyword) ?_
  refine .of_succ ifStatement.eq_2 ((parses_expect hopening (by decide)).bind_cons ?_)
  refine (expression_parses hcondition (ends_cons hclosing rfl _)).bind ?_
  have hends := htrue (otherwise :: vs ++ rest) fun h => absurd h Bool.false_ne_true
  refine (parses_expect hclosing (by decide)).bind_cons (hends.bind ?_)
  refine (parses_accept hotherwise (by decide)).bind_cons ?_
  rw [← List.append_nil vs]
  exact (hfalse ([] ++ rest) hrest).bind .pure

theorem declarationFollows_classes {keyword name opening closing : Token} {all : List Function}
    (hkeyword : keyword.kind = .classWord) (hname : name.kind = .identifier) (hopening : opening.kind = .leftBrace)
    (h : MethodsFollow n ts all m) (hclosing : closing.kind = .rightBrace) :
    DeclarationFollows n (keyword :: name :: opening :: (ts ++ [closing])) (.declareClass name all) m := fun rest _ => by
  refine .of_next (fun _ _ hs => declaration_eq_class hs hkeyword) ?_
  refine .of_succ classDeclaration.eq_2 ((parses_expect hname (by decide)).bind_cons ?_)
  refine (parses_expect hopening (by decide)).bind_cons ((h #[] closing rest hclosing).bind ?_)
  refine (parses_expect hclosing (by decide)).bind_cons ?_
  simpa using Parses.pure

theorem declarationFollows_function {keyword : Token} {f : Function} (hkeyword : keyword.kind = .funWord)
    (h : RoutineFollows n ts f m) : DeclarationFollows n (keyword :: ts) (.declareFunction f) m := fun rest _ => by
  refine .of_next (fun _ _ hs => declaration_eq_function hs hkeyword) ?_
  rw [← List.append_nil ts]
  exact (h .function ([] ++ rest)).bind .pure

theorem declarationFollows_statement {dangles : Bool} {a : Stmt} (hstatement : Statement dangles n ts a m)
    (h : StatementFollows dangles n ts a m) : DeclarationFollows n ts a m := fun rest hrest => by
  have hread := h rest fun _ => hrest
  have hopen : ∃ t us, ts = t :: us ∧ opensDeclaration t.kind = false := by
    cases hstatement with
    | expression he =>
      obtain ⟨t, us, rfl, hopen, -⟩ := he.opens
      exact ⟨t, _, rfl, hopen⟩
    | print hkeyword | returns hkeyword | block hkeyword | loop hkeyword | loopFor hkeyword | branch hkeyword
    | branchElse hkeyword => exact ⟨_, _, rfl, by rw [hkeyword]; rfl⟩
  obtain ⟨t, us, rfl, hopen⟩ := hopen
  exact .of_eq_at (fun _ _ hs => declaration_eq_statement hs hopen) hread

end Statements

theorem Declaration.follows {n m : Site} {ts : List Token} {a : Stmt} (h : Declaration n ts a m) :
    DeclarationFollows n ts a m := by
  induction h using @Declaration.rec _ (fun n ts f m _ => RoutineFollows n ts f m)
    (fun n ts all m _ => MethodsFollow n ts all m) (fun n ts body m _ => ItemsFollow n ts body m)
    (fun dangles n ts a m _ => StatementFollows dangles n ts a m) with
  | classes hkeyword hname hopening _ hclosing ih => exact declarationFollows_classes hkeyword hname hopening ih hclosing
  | function hkeyword _ ih => exact declarationFollows_function hkeyword ih
  | binding h =>
    obtain ⟨keyword, us, rfl, hkeyword, hread⟩ := h.parses
    exact fun rest _ => .of_next (fun _ _ hs => declaration_eq_variable hs hkeyword) (hread rest)
  | statement h ih => exact declarationFollows_statement h ih
  | mk hname hopening hparameters hlength hclosing hbrace _ hendBrace ih =>
    exact routineFollows hname hopening hparameters hlength hclosing hbrace ih hendBrace
  | nil => exact methodsFollow_nil
  | cons h _ ih ihMethods =>
    refine methodsFollow_cons ?_ ih ihMethods
    cases h with
    | mk hname => exact ⟨_, _, rfl, hname⟩
  | none => exact itemsFollow_none
  | more h hmore ih ihBody => exact itemsFollow_more h.begun hmore ih ihBody
  | expression h hsemicolon => exact statementFollows_expression h hsemicolon
  | print hkeyword h hsemicolon => exact statementFollows_print hkeyword h hsemicolon
  | returns hkeyword h hsemicolon => exact statementFollows_returns hkeyword h hsemicolon
  | block hopening _ hclosing ih => exact statementFollows_block hopening ih hclosing
  | loop hkeyword hopening hcondition hclosing _ ih => exact statementFollows_loop hkeyword hopening hcondition hclosing ih
  | loopFor hkeyword hopening hinitializer hcondition hsemicolon hincrement hclosing _ ih =>
    exact statementFollows_loopFor hkeyword hopening hinitializer hcondition hsemicolon hincrement hclosing ih
  | branch hkeyword hopening hcondition hclosing _ ih =>
    exact statementFollows_branch hkeyword hopening hcondition hclosing ih
  | branchElse hkeyword hopening hcondition hclosing _ hotherwise _ ihTrue ihFalse =>
    exact statementFollows_branchElse hkeyword hopening hcondition hclosing ihTrue hotherwise ihFalse


/-- What is derived as a program is read up to the end mark. -/
theorem program_parses {n m : Site} {ts : List Token} {body : List Stmt} (h : Program n ts body m) (found : Array Stmt)
    {eof : Token} (heof : eof.kind = .eof) : Parses (program · found) n ts [eof] (found ++ body.toArray) m := by
  induction h using @Declarations.rec (fun _ _ _ _ _ => True) (fun _ _ _ _ _ => True) (fun _ _ _ _ _ => True) _
    (fun _ _ _ _ _ _ => True) generalizing found with
  | none =>
    refine .of_succ (program.eq_2 found) (parses_atEnd.bind_nil ?_)
    simp only [heof]
    simpa using Parses.pure
  | @more n k m ts us a body h hmore _ ih =>
    have hnext := h.follows _ (hmore.noElse ⟨eof, [], rfl, by rw [heof]; decide⟩)
    obtain ⟨t, vs, rfl, ht⟩ := h.begun
    have heof : (t.kind == .eof) = false := beq_eq_false_iff_ne.mpr fun he => by rw [he] at ht; cases ht
    refine .of_succ (program.eq_2 found) (parses_atEnd.bind_nil ?_)
    simp only [heof, Bool.false_eq_true, ↓reduceIte]
    refine hnext.recovering.bind ?_
    simpa using ih (found.push a)
  | _ => trivial

end LoxLanguage.Grammar
