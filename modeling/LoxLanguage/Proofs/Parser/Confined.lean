import LoxLanguage.Proofs.Grammar.Lookahead
import LoxLanguage.Proofs.Parser.Makeup
import LoxLanguage.Proofs.Parser.Progress

/-! Statements that end at a semicolon, broken or not. In front of its only semicolon such a statement has no brace, and no
token that begins another statement, so nothing in it can be read that reaches behind the semicolon: a parser either
ends there or breaks off in front of it, and then recovery skips up to it. What is read is the same whatever stands
before and behind (`Reaches`), except that an `else` behind an `if` would be taken. -/

namespace LoxLanguage.Parser

open Token (Kind)
open Grammar (NoElse)

/-! ### Rows up to a semicolon -/

/-- The kinds of the tokens inside of a statement that ends at its only semicolon. -/
def isInner (kind : Kind) : Bool :=
  !isBoundary kind && kind != .semicolon && kind != .leftBrace && kind != .rightBrace && kind != .eof

/-- Tokens inside of a statement, up to its semicolon. -/
inductive Remains : List Token → Prop where
  | last {t : Token} (h : t.kind = .semicolon) : Remains [t]
  | cons {t : Token} {ts : List Token} (h : isInner t.kind = true) (hts : Remains ts) : Remains (t :: ts)

/-- The kinds of the tokens of such a row. -/
def isRemaining (kind : Kind) : Bool :=
  isInner kind || kind == .semicolon

theorem Remains.exists_cons {ts : List Token} (h : Remains ts) :
    ∃ t us, ts = t :: us ∧ isRemaining t.kind = true ∧ (t.kind = .semicolon ∧ us = [] ∨ isInner t.kind = true ∧ Remains us) := by
  cases h with
  | last h => exact ⟨_, _, rfl, by rw [h]; rfl, .inl ⟨h, rfl⟩⟩
  | cons h hts => exact ⟨_, _, rfl, by rw [isRemaining, h]; rfl, .inr ⟨h, hts⟩⟩

/-- Behind a token that is no semicolon there is more. -/
theorem Remains.tail {t : Token} {ts : List Token} (h : Remains (t :: ts)) (ht : t.kind ≠ .semicolon) : Remains ts := by
  cases h with
  | last h => exact absurd h ht
  | cons _ hts => exact hts

theorem ne_of_isRemaining {t : Token} {kind : Kind} (h : isRemaining t.kind = true) (hkind : isRemaining kind = false) :
    t.kind ≠ kind := by
  intro heq
  rw [heq, hkind] at h
  cases h

/-! ### Runs that do not depend on what is around -/

/-- The end of a run. -/
def ending {α : Type} : Except Stop α → State → EStateM.Result Stop State α
  | .ok a, s => .ok a s
  | .error stop, s => .error stop s

/-- At the tokens `ts` a parser ends in the same way wherever it begins, with the tokens `left` of them still to come and
    the problems `found` reported, as long as there is no `else` behind them. -/
def Reaches {α : Type} (p : Parser α) (n : Site) (ts : List Token) (result : Except Stop α) (left : List Token) (m : Site)
    (found : Array Problem) : Prop :=
  ∃ taken, ts = taken ++ left ∧ ∀ before rest problems, NoElse rest →
    p ⟨before, ts ++ rest, n, problems⟩ = ending result ⟨taken.reverse ++ before, left ++ rest, m, problems ++ found⟩

namespace Reaches

variable {α β : Type} {p q : Parser α} {f : α → Parser β} {n k m : Site} {ts us left : List Token} {a : α}
  {result : Except Stop α} {found more : Array Problem}

theorem bind {result : Except Stop β} (hp : Reaches p n ts (.ok a) us k found) (hf : Reaches (f a) k us result left m more) :
    Reaches (p >>= f) n ts result left m (found ++ more) := by
  obtain ⟨taken, hts, hp⟩ := hp
  obtain ⟨taken', hus, hf⟩ := hf
  refine ⟨taken ++ taken', by rw [hts, hus, List.append_assoc], ?_⟩
  intro before rest problems hrest
  rw [bind_eq, hp before rest problems hrest]
  show f a _ = _
  rw [hf _ rest _ hrest]
  simp

theorem stop {stop : Stop} (hp : Reaches p n ts (.error stop) left m found) :
    Reaches (p >>= f) n ts (.error stop) left m found := by
  obtain ⟨taken, hts, hp⟩ := hp
  refine ⟨taken, hts, ?_⟩
  intro before rest problems hrest
  rw [bind_eq, hp before rest problems hrest]
  rfl

/-- A step that takes nothing and reports nothing. -/
theorem still (h : ∀ before rest problems, NoElse rest →
    p ⟨before, ts ++ rest, n, problems⟩ = ending result ⟨before, ts ++ rest, m, problems⟩) :
    Reaches p n ts result ts m #[] := by
  refine ⟨[], rfl, ?_⟩
  intro before rest problems hrest
  rw [h before rest problems hrest]
  simp

/-- A step that takes the next token. -/
theorem next {t : Token} (h : ∀ before rest problems, NoElse rest →
    p ⟨before, t :: (ts ++ rest), n, problems⟩ = ending result ⟨t :: before, ts ++ rest, m, problems⟩) :
    Reaches p n (t :: ts) result ts m #[] := by
  refine ⟨[t], rfl, ?_⟩
  intro before rest problems hrest
  rw [List.cons_append, h before rest problems hrest]
  simp

/-- A parser that does at these tokens what another one does. -/
theorem congr (h : Reaches q n ts result left m found)
    (heq : ∀ before rest problems, p ⟨before, ts ++ rest, n, problems⟩ = q ⟨before, ts ++ rest, n, problems⟩) :
    Reaches p n ts result left m found := by
  obtain ⟨taken, hts, h⟩ := h
  refine ⟨taken, hts, ?_⟩
  intro before rest problems hrest
  rw [heq, h before rest problems hrest]

/-- A parser that does at these tokens what another one does behind the first of them. -/
theorem behind {t : Token} (h : Reaches q n ts result left m found)
    (heq : ∀ s rest, s.rest = t :: (ts ++ rest) → p s = q s.next) : Reaches p n (t :: ts) result left m found := by
  obtain ⟨taken, hts, h⟩ := h
  refine ⟨t :: taken, by rw [hts]; rfl, ?_⟩
  intro before rest problems hrest
  rw [heq ⟨before, t :: ts ++ rest, n, problems⟩ rest rfl]
  show q ⟨t :: before, ts ++ rest, n, problems⟩ = _
  rw [h (t :: before) rest problems hrest]
  simp

end Reaches

/-- A run that has stayed inside of the statement: it has given a tree with `post`, or has broken off in front of the end
    of the statement, or has reached its bound. -/
def Stays {α : Type} (post : α → List Token → Prop) : Except Stop α → List Token → Prop
  | .ok a, left => post a left
  | .error .broken, left => Remains left
  | .error .outside, _ => False
  | .error .exhausted, _ => True

/-- At the tokens `ts`, a parser stays inside of the statement, and where it ends does not depend on what is around. -/
def StaysAt {α : Type} (p : Parser α) (n : Site) (ts : List Token) (post : α → List Token → Prop) : Prop :=
  ∃ result left m found, Reaches p n ts result left m found ∧ Stays post result left

/-- At tokens with `pre`, a parser stays inside of the statement. -/
def Confined {α : Type} (pre : List Token → Prop) (p : Parser α) (post : α → List Token → Prop) : Prop :=
  ∀ n ts, pre ts → StaysAt p n ts post

namespace Confined

variable {α β : Type} {pre pre' : List Token → Prop} {p q : Parser α} {f : α → Parser β} {mid : α → List Token → Prop}
  {post : β → List Token → Prop}

theorem bind (hp : Confined pre p mid) (hf : ∀ a, Confined (mid a) (f a) post) : Confined pre (p >>= f) post := by
  intro n ts hts
  obtain ⟨result, left, m, found, hreach, hresult⟩ := hp n ts hts
  cases result with
  | ok a =>
    obtain ⟨result', left', m', found', hreach', hresult'⟩ := hf a m left hresult
    exact ⟨result', left', m', _, hreach.bind hreach', hresult'⟩
  | error stop =>
    refine ⟨.error stop, left, m, found, hreach.stop, ?_⟩
    cases stop <;> exact hresult

theorem pure (a : α) : Confined pre (pure a : Parser α) fun b left => b = a ∧ pre left := by
  intro n ts hts
  exact ⟨.ok a, ts, n, #[], .still fun _ _ _ _ => rfl, rfl, hts⟩

theorem weaken {post' : α → List Token → Prop} (h : Confined pre p mid) (hpre : ∀ ts, pre' ts → pre ts)
    (hpost : ∀ a left, mid a left → post' a left) : Confined pre' p post' := by
  intro n ts hts
  obtain ⟨result, left, m, found, hreach, hresult⟩ := h n ts (hpre ts hts)
  refine ⟨result, left, m, found, hreach, ?_⟩
  cases result with
  | ok a => exact hpost a left hresult
  | error stop => cases stop <;> exact hresult

/-- Nothing has to be shown where nothing comes. -/
theorem absurd : Confined (fun _ => False) p mid :=
  fun _ _ h => h.elim

theorem exhausted : Confined pre (throw .exhausted : Parser α) mid := by
  intro n ts _
  exact ⟨.error .exhausted, ts, n, #[], .still fun _ _ _ _ => rfl, trivial⟩

/-! ### Steps -/

/-- A step that may take the next token, which is no semicolon, or leave it. -/
theorem acceptIf {test : Kind → Bool} (htest : ∀ kind, test kind = true → kind ≠ .semicolon) :
    Confined Remains (acceptIf test) fun _ => Remains := by
  intro n ts hts
  obtain ⟨t, us, rfl, hkind, -⟩ := hts.exists_cons
  cases ht : test t.kind with
  | false =>
    refine ⟨.ok none, _, n, #[], .still fun before rest problems _ => ?_, hts⟩
    exact acceptIf_neg rfl (.inr ht)
  | true =>
    refine ⟨.ok (some t), us, n, #[], .next fun before rest problems _ => ?_, hts.tail (htest _ ht)⟩
    exact acceptIf_pos rfl (ne_of_isRemaining hkind rfl) ht

theorem peek : Confined Remains peek fun _ => Remains := by
  intro n ts hts
  obtain ⟨t, us, rfl, -⟩ := hts.exists_cons
  exact ⟨.ok t, _, n, #[], .still fun _ _ _ _ => rfl, hts⟩

theorem complain (t : Token) (complaint : Complaint) : Confined Remains (complain t complaint) fun _ => Remains := by
  intro n ts hts
  refine ⟨.ok (), ts, n, #[.atToken t complaint], ⟨[], rfl, ?_⟩, hts⟩
  intro before rest problems _
  rw [complain_eq]
  simp [ending, State.report]

end Confined

/-- What takes no semicolon stays in front of it. -/
theorem Made.confined {α : Type} {p : Parser α} (h : Made inExpression p) : Confined Remains p fun _ => Remains := by
  induction h with
  | pure a => exact (Confined.pure a).weaken (fun _ h => h) fun _ _ h => h.2
  | exhausted => exact .exhausted
  | broken =>
    intro n ts hts
    exact ⟨.error .broken, ts, n, #[], .still fun _ _ _ _ => rfl, hts⟩
  | bind _ _ ih ihf => exact ih.bind ihf
  | peek => exact .peek
  | acceptIf htest => exact .acceptIf htest
  | complain t complaint => exact .complain t complaint
  | freshSite =>
    intro n ts hts
    exact ⟨.ok n, ts, n + 1, #[], .still fun _ _ _ _ => rfl, hts⟩
  | recovering hall _ _ => exact absurd rfl (hall .semicolon)

/-! ### The end of a statement -/

/-- All of the statement has been read. -/
def Over {α : Type} : α → List Token → Prop :=
  fun _ left => left = []

/-- A brace is asked for in vain. -/
theorem expect_brace_confined {complaint : Complaint} : Confined Remains (expect .leftBrace complaint) fun _ _ => False := by
  intro n ts hts
  obtain ⟨t, us, rfl, hkind, -⟩ := hts.exists_cons
  refine ⟨.error .broken, _, n, #[.atToken t complaint], ⟨[], rfl, ?_⟩, hts⟩
  intro before rest problems _
  rw [expect_neg rfl (ne_of_isRemaining hkind rfl)]
  simp [ending, State.report]

/-- The semicolon is taken where it comes. -/
theorem expect_semicolon_confined {complaint : Complaint} : Confined Remains (expect .semicolon complaint) Over := by
  intro n ts hts
  obtain ⟨t, us, rfl, -, ⟨hkind, rfl⟩ | ⟨hinner, -⟩⟩ := hts.exists_cons
  · refine ⟨.ok t, [], n, #[], .next fun before rest problems _ => ?_, rfl⟩
    exact expect_pos rfl hkind nofun
  · refine ⟨.error .broken, _, n, #[.atToken t complaint], ⟨[], rfl, ?_⟩, hts⟩
    intro before rest problems _
    have hne : t.kind ≠ .semicolon := by
      intro heq
      rw [heq] at hinner
      cases hinner
    rw [expect_neg rfl hne]
    simp [ending, State.report]

/-- Behind the statement no `else` is taken. -/
theorem accept_else_confined : Confined (· = []) (accept .elseWord) fun o left => o = none ∧ left = [] := by
  rintro n _ rfl
  refine ⟨.ok none, [], n, #[], .still ?_, rfl, rfl⟩
  rintro before _ problems ⟨t, rest, rfl, ht⟩
  exact accept_neg rfl ht

section Statements
variable (fuel : Nat)

theorem pure_over {α : Type} (a : α) : Confined (· = []) (pure a : Parser α) Over :=
  (Confined.pure a).weaken (fun _ h => h) fun _ _ h => h.2

theorem expect_confined (kind : Kind) {complaint : Complaint} (h : kind ≠ .semicolon) :
    Confined Remains (expect kind complaint) fun _ => Remains := by
  have hmade : Made inExpression (expect kind complaint) := .expect h
  exact hmade.confined

theorem expression_confined : Confined Remains (expression fuel) fun _ => Remains :=
  (expression_made fuel).confined

theorem expressionStatement_confined : Confined Remains (expressionStatement fuel) Over :=
  (expression_confined fuel).bind fun _ => expect_semicolon_confined.bind fun _ => pure_over _

theorem printStatement_confined : Confined Remains (printStatement fuel) Over :=
  (expression_confined fuel).bind fun _ => expect_semicolon_confined.bind fun _ => pure_over _

theorem returnStatement_confined (keyword : Token) : Confined Remains (returnStatement fuel keyword) Over := by
  refine (expressionUnless_made fuel (expression_made fuel)).confined.bind fun _ => ?_
  exact expect_semicolon_confined.bind fun _ => pure_over _

theorem variableDeclaration_confined : Confined Remains (variableDeclaration fuel) Over := by
  refine (expect_confined .identifier (by simp)).bind fun name => ?_
  refine (initializerIfAny_made fuel (by simp [inExpression]) (expression_made fuel)).confined.bind fun initializer => ?_
  exact expect_semicolon_confined.bind fun _ => pure_over _

theorem classDeclaration_confined : Confined Remains (classDeclaration fuel) Over := by
  cases fuel with
  | zero => exact .exhausted
  | succ fuel =>
    rw [classDeclaration.eq_2]
    exact (expect_confined .identifier (by simp)).bind fun name => expect_brace_confined.bind fun _ => .absurd

theorem routine_confined (kind : Routine) : Confined Remains (routine fuel kind) fun _ _ => False := by
  cases fuel with
  | zero => exact .exhausted
  | succ fuel =>
    rw [routine.eq_2]
    refine (expect_confined .identifier (by simp)).bind fun name => (expect_confined .leftParen (by simp)).bind fun _ => ?_
    refine (parametersIfAny_made fuel (by simp [inExpression]) (by simp [inExpression])).confined.bind fun given => ?_
    exact (expect_confined .rightParen (by simp)).bind fun _ => expect_brace_confined.bind fun _ => .absurd

/-- Inside of the statement, another one can only be an expression. -/
theorem statement_confined : Confined Remains (statement fuel) Over := by
  cases fuel with
  | zero => exact .exhausted
  | succ fuel =>
    intro n ts hts
    obtain ⟨result, left, m, found, hreach, hresult⟩ := expressionStatement_confined fuel n ts hts
    refine ⟨result, left, m, found, hreach.congr ?_, hresult⟩
    intro before rest problems
    obtain ⟨t, us, rfl, hkind, -⟩ := hts.exists_cons
    refine statement_eq_expression rfl ?_
    generalize t.kind = kind at hkind
    cases kind <;> first | rfl | cases hkind

theorem whileStatement_confined : Confined Remains (whileStatement fuel) Over := by
  cases fuel with
  | zero => exact .exhausted
  | succ fuel =>
    rw [whileStatement.eq_2]
    refine (expect_confined .leftParen (by simp)).bind fun _ => (expression_confined fuel).bind fun condition => ?_
    exact (expect_confined .rightParen (by simp)).bind fun _ => (statement_confined fuel).bind fun body => pure_over _

theorem ifStatement_confined : Confined Remains (ifStatement fuel) Over := by
  cases fuel with
  | zero => exact .exhausted
  | succ fuel =>
    rw [ifStatement.eq_2]
    refine (expect_confined .leftParen (by simp)).bind fun _ => (expression_confined fuel).bind fun condition => ?_
    refine (expect_confined .rightParen (by simp)).bind fun _ => (statement_confined fuel).bind fun whenTrue => ?_
    refine accept_else_confined.bind fun o => ?_
    cases o with
    | none => exact (pure_over _).weaken (fun _ h => h.2) fun _ _ h => h
    | some keyword => exact Confined.absurd.weaken (fun _ h => Option.some_ne_none keyword h.1) fun _ _ h => h

/-! ### Whole statements -/

/-- What begins a statement of this kind: a keyword that begins a statement other than a `for`, or nothing special. -/
inductive SimpleRow : List Token → Prop where
  | plain {ts : List Token} (h : Remains ts) : SimpleRow ts
  | keyword {t : Token} {ts : List Token} (hbound : isBoundary t.kind = true) (hfor : t.kind ≠ .forWord) (h : Remains ts) :
      SimpleRow (t :: ts)

/-- A declaration by the parser that its keyword names. -/
theorem declaration_staysAt {t : Token} {ts : List Token} {p : Parser Stmt} (hp : declarationBehind? fuel t = some p)
    (h : Confined Remains p Over) (hts : Remains ts) (n : Site) : StaysAt (declaration (fuel + 1)) n (t :: ts) Over := by
  obtain ⟨result, left, m, found, hreach, hresult⟩ := h n ts hts
  exact ⟨result, left, m, found, hreach.behind fun s rest hs => declaration_eq_next hs hp, hresult⟩

/-- A keyword that is not one of a declaration is looked at once more. -/
theorem declaration_staysAt_statement {t : Token} {ts : List Token} {p : Nat → Parser Stmt}
    (ht : opensDeclaration t.kind = false) (hp : ∀ fuel, statementBehind? fuel t = some (p fuel))
    (h : ∀ fuel, Confined Remains (p fuel) Over) (hts : Remains ts) (n : Site) :
    StaysAt (declaration (fuel + 1)) n (t :: ts) Over := by
  cases fuel with
  | zero =>
    refine ⟨.error .exhausted, t :: ts, n, #[], .still fun before rest problems _ => ?_, trivial⟩
    rw [declaration_eq_statement rfl ht]
    rfl
  | succ fuel =>
    obtain ⟨result, left, m, found, hreach, hresult⟩ := h fuel n ts hts
    refine ⟨result, left, m, found, hreach.behind fun s rest hs => ?_, hresult⟩
    rw [declaration_eq_statement hs ht, statement_eq_next hs (hp fuel)]

theorem declaration_confined : Confined SimpleRow (declaration fuel) Over := by
  cases fuel with
  | zero => exact .exhausted
  | succ fuel =>
    intro n ts hts
    cases hts with
    | plain h =>
      obtain ⟨result, left, m, found, hreach, hresult⟩ := statement_confined fuel n ts h
      refine ⟨result, left, m, found, hreach.congr ?_, hresult⟩
      intro before rest problems
      obtain ⟨t, us, rfl, hkind, -⟩ := h.exists_cons
      refine declaration_eq_statement rfl ?_
      generalize t.kind = kind at hkind
      cases kind <;> first | rfl | cases hkind
    | @keyword t us hbound hfor h =>
      cases hkind : t.kind with
      | classWord =>
        exact declaration_staysAt fuel (by rw [declarationBehind?, hkind]) (classDeclaration_confined fuel) h n
      | funWord =>
        refine declaration_staysAt fuel (by rw [declarationBehind?, hkind]) ?_ h n
        exact (routine_confined fuel .function).bind fun f => .absurd
      | varWord =>
        exact declaration_staysAt fuel (by rw [declarationBehind?, hkind]) (variableDeclaration_confined fuel) h n
      | ifWord =>
        refine declaration_staysAt_statement fuel (by rw [hkind]; rfl) ?_ ifStatement_confined h n
        intro fuel
        rw [statementBehind?, hkind]
      | whileWord =>
        refine declaration_staysAt_statement fuel (by rw [hkind]; rfl) ?_ whileStatement_confined h n
        intro fuel
        rw [statementBehind?, hkind]
      | printWord =>
        refine declaration_staysAt_statement fuel (by rw [hkind]; rfl) ?_ printStatement_confined h n
        intro fuel
        rw [statementBehind?, hkind]
      | returnWord =>
        have hreturn : ∀ fuel, Confined Remains (returnStatement fuel t) Over :=
          fun fuel => returnStatement_confined fuel t
        refine declaration_staysAt_statement fuel (by rw [hkind]; rfl) ?_ hreturn h n
        intro fuel
        rw [statementBehind?, hkind]
      | forWord => exact absurd hkind hfor
      | _ =>
        rw [hkind] at hbound
        cases hbound

end Statements

/-! ### Recovery -/

/-- Skipping inside of the statement ends behind it. -/
theorem skipFrom_remains {ts : List Token} (h : Remains ts) {t last : Token} {before rest : List Token}
    (hlast : last.kind ≠ .semicolon) :
    skipFrom (last :: before) (ts ++ t :: rest) = .ok (ts.reverse ++ last :: before, t :: rest) := by
  induction h generalizing last before with
  | @last u hu =>
    have hskip : skipFrom (last :: before) (u :: t :: rest) = skipFrom (u :: last :: before) (t :: rest) := by
      rw [skipFrom, hu]
      simp [hlast, isBoundary]
    show skipFrom (last :: before) (u :: t :: rest) = _
    rw [hskip, skipFrom, hu]
    split <;> rfl
  | @cons u us hu _ ih =>
    simp only [isInner, Bool.and_eq_true, Bool.not_eq_true', bne_iff_ne, ne_eq] at hu
    obtain ⟨⟨⟨⟨hbound, hsemicolon⟩, -⟩, -⟩, heof⟩ := hu
    rw [List.cons_append, skipFrom, if_neg heof]
    simp only [hlast, hbound, Bool.or_false, decide_false, Bool.false_eq_true, ↓reduceIte]
    rw [ih hsemicolon]
    simp

/-- Recovery inside of the statement ends behind it. -/
theorem synchronize_remains {ts : List Token} (h : Remains ts) {before : List Token} {t : Token} {rest : List Token} {n : Site}
    {problems : Array Problem} : synchronize ⟨before, ts ++ t :: rest, n, problems⟩ =
      .ok () ⟨ts.reverse ++ before, t :: rest, n, problems⟩ := by
  obtain ⟨u, us, rfl, hkind, hend⟩ := h.exists_cons
  have hbound : isBoundary u.kind = false := by
    generalize u.kind = kind at hkind
    cases kind <;> first | rfl | cases hkind
  have hoffending : skipOffending ⟨before, u :: us ++ t :: rest, n, problems⟩ =
      .ok () ⟨u :: before, us ++ t :: rest, n, problems⟩ :=
    skipOffending_next rfl hbound (ne_of_isRemaining hkind rfl)
  rw [synchronize, bind_eq, hoffending]
  rcases hend with ⟨hsemicolon, rfl⟩ | ⟨hinner, hus⟩
  · have hskip : skipFrom (u :: before) (t :: rest) = .ok (u :: before, t :: rest) := by
      rw [skipFrom, hsemicolon]
      split <;> rfl
    simp only [skip, List.nil_append, hskip]
    rfl
  · have hne : u.kind ≠ .semicolon := by
      intro heq
      rw [heq] at hinner
      cases hinner
    simp only [skip, skipFrom_remains hus hne]
    simp

/-- A statement of this kind, made to recover, is read to its end and no further, or its bound is reached. -/
theorem recovering_reaches (fuel : Nat) {ts : List Token} (h : SimpleRow ts) (n : Site) :
    (∃ o m found, Reaches (recovering (declaration fuel)) n ts (.ok o) [] m found) ∨
      ∃ left m found, Reaches (recovering (declaration fuel)) n ts (.error .exhausted) left m found := by
  obtain ⟨result, left, m, found, ⟨taken, hts, hreach⟩, hresult⟩ := declaration_confined fuel n ts h
  cases result with
  | ok a =>
    cases hresult
    refine .inl ⟨some a, m, found, taken, hts, ?_⟩
    intro before rest problems hrest
    simp only [recovering, hreach before rest problems hrest, ending]
  | error stop =>
    cases stop with
    | broken =>
      refine .inl ⟨none, m, found, ts, by simp, ?_⟩
      rintro before _ problems ⟨t, rest, rfl, ht⟩
      simp only [recovering, hreach before _ problems ⟨t, rest, rfl, ht⟩, ending, synchronize_remains hresult]
      simp [hts]
    | outside => exact hresult.elim
    | exhausted =>
      refine .inr ⟨left, m, found, taken, hts, ?_⟩
      intro before rest problems hrest
      simp only [recovering, hreach before rest problems hrest, ending]

end LoxLanguage.Parser
