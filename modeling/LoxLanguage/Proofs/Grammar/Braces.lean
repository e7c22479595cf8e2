import Mathlib
import LoxLanguage.Proofs.Grammar.Basic

/-! Braces come in pairs. In the tokens of everything that the grammar derives, each closing brace closes one that was opened
before it, and none stays open. -/

namespace LoxLanguage

open Token (Kind)

/-- How many tokens of a row are of a kind. -/
def Token.count (kind : Kind) (ts : List Token) : Nat :=
  ts.countP (·.kind == kind)

/-- As many braces are closed as are opened, and none before it is opened. -/
structure Balanced (ts : List Token) : Prop where
  closed : Token.count .leftBrace ts = Token.count .rightBrace ts
  opened : ∀ front, front <+: ts → Token.count .rightBrace front ≤ Token.count .leftBrace front

/-- The kinds of the two braces. -/
def Token.Kind.isBrace : Kind → Bool
  | .leftBrace | .rightBrace => true
  | _ => false

/-! ### Counting -/

namespace Token

theorem count_append (kind : Kind) (ts us : List Token) : count kind (ts ++ us) = count kind ts + count kind us :=
  List.countP_append

theorem count_cons_self {t : Token} {kind : Kind} (h : t.kind = kind) (ts : List Token) :
    count kind (t :: ts) = count kind ts + 1 :=
  List.countP_cons_of_pos (by simpa using h)

theorem count_cons_of_ne {t : Token} {kind : Kind} (h : t.kind ≠ kind) (ts : List Token) :
    count kind (t :: ts) = count kind ts :=
  List.countP_cons_of_neg (by simpa using h)

end Token

namespace Balanced

variable {ts us : List Token} {t : Token}

theorem nil : Balanced [] := by
  refine ⟨rfl, fun front hfront => ?_⟩
  rw [List.prefix_nil.mp hfront]
  exact Nat.le_refl _

theorem append (h : Balanced ts) (h' : Balanced us) : Balanced (ts ++ us) := by
  refine ⟨?_, fun front hfront => ?_⟩
  · rw [Token.count_append, Token.count_append, h.closed, h'.closed]
  · rcases List.prefix_or_prefix_of_prefix hfront (List.prefix_append ts us) with hinside | ⟨rest, rfl⟩
    · exact h.opened front hinside
    · have hrest := h'.opened rest ((List.prefix_append_right_inj ts).mp hfront)
      rw [Token.count_append, Token.count_append, h.closed]
      exact Nat.add_le_add_left hrest _

/-- A token that is no brace changes nothing. -/
theorem cons {kind : Kind} (ht : t.kind = kind) (hkind : kind.isBrace = false) (h : Balanced ts) : Balanced (t :: ts) := by
  obtain ⟨hleft, hright⟩ : t.kind ≠ .leftBrace ∧ t.kind ≠ .rightBrace := by
    rw [← ht] at hkind
    constructor <;> intro heq <;> rw [heq] at hkind <;> cases hkind
  refine ⟨?_, fun front hfront => ?_⟩
  · rw [Token.count_cons_of_ne hleft, Token.count_cons_of_ne hright, h.closed]
  · rcases List.prefix_cons_iff.mp hfront with rfl | ⟨rest, rfl, hrest⟩
    · exact Nat.le_refl _
    · rw [Token.count_cons_of_ne hleft, Token.count_cons_of_ne hright]
      exact h.opened rest hrest

/-- A token that is no brace at the end changes nothing. -/
theorem concat {kind : Kind} (ht : t.kind = kind) (hkind : kind.isBrace = false) (h : Balanced ts) : Balanced (ts ++ [t]) :=
  h.append (nil.cons ht hkind)

/-- A pair of braces around a row. -/
theorem braces {opening closing : Token} (hopening : opening.kind = .leftBrace) (hclosing : closing.kind = .rightBrace)
    (h : Balanced ts) : Balanced (opening :: (ts ++ [closing])) := by
  have hopened : opening.kind ≠ .rightBrace := by simp [hopening]
  have hclosed : closing.kind ≠ .leftBrace := by simp [hclosing]
  refine ⟨?_, fun front hfront => ?_⟩
  · rw [Token.count_cons_self hopening, Token.count_cons_of_ne hopened, Token.count_append, Token.count_append,
      Token.count_cons_self hclosing, Token.count_cons_of_ne hclosed, h.closed]
    rfl
  · rcases List.prefix_cons_iff.mp hfront with rfl | ⟨rest, rfl, hrest⟩
    · exact Nat.le_refl _
    · rw [Token.count_cons_self hopening, Token.count_cons_of_ne hopened]
      rcases List.prefix_concat_iff.mp hrest with rfl | hrest
      · rw [Token.count_append, Token.count_append, Token.count_cons_self hclosing, Token.count_cons_of_ne hclosed, h.closed]
        exact Nat.le_refl _
      · exact Nat.le_succ_of_le (h.opened rest hrest)

end Balanced

/-! ### Derivations -/

namespace Grammar

variable {n m : Site} {ts : List Token}

theorem isBrace_of_operator {X : Symbol} {rule : OperatorRule} (hrule : X.rule? = some rule) :
    ∀ kind ∈ rule.operators, kind.isBrace = false := by
  cases X <;> cases hrule <;> decide

theorem Derives.balanced {X : Symbol} {e : Expr} (h : Derives X n ts e m) : Balanced ts := by
  induction h using @Derives.rec _ (fun _ ts _ _ _ => Balanced ts) (fun _ ts _ _ _ => Balanced ts) with
  | assignVariable hname hequals _ ih => exact (ih.cons hequals rfl).cons hname rfl
  | assignProperty _ hdot hname hequals _ ihObject ihValue =>
    exact ihObject.append (((ihValue.cons hequals rfl).cons hname rfl).cons hdot rfl)
  | value _ ih => exact ih
  | operand _ _ ih => exact ih
  | operator hrule _ hoperator _ ihLeft ihRight =>
    exact ihLeft.append (ihRight.cons rfl (isBrace_of_operator hrule _ hoperator))
  | negation hoperator _ ih =>
    rcases hoperator with h | h
    · exact ih.cons h rfl
    · exact ih.cons h rfl
  | plain _ ih => exact ih
  | atom _ ih => exact ih
  | call _ hopening _ _ hclosing ihCallee ihGiven =>
    exact ihCallee.append ((ihGiven.concat hclosing rfl).cons hopening rfl)
  | property _ hdot hname ih => exact ih.append ((Balanced.nil.cons hname rfl).cons hdot rfl)
  | trueWord h => exact Balanced.nil.cons h rfl
  | falseWord h => exact Balanced.nil.cons h rfl
  | nilWord h => exact Balanced.nil.cons h rfl
  | constant h =>
    rcases h with h | h
    · exact Balanced.nil.cons h rfl
    · exact Balanced.nil.cons h rfl
  | this h => exact Balanced.nil.cons h rfl
  | name h => exact Balanced.nil.cons h rfl
  | grouping hopening _ hclosing ih => exact (ih.concat hclosing rfl).cons hopening rfl
  | none => exact .nil
  | some _ ih => exact ih
  | last _ ih => exact ih
  | more _ hcomma _ ih ihGiven => exact ih.append (ihGiven.cons hcomma rfl)

theorem OptionalExpression.balanced {e : Option Expr} (h : OptionalExpression n ts e m) : Balanced ts := by
  cases h with
  | none => exact .nil
  | some h => exact h.balanced

theorem SomeParameters.balanced {names : List Token} (h : SomeParameters ts names) : Balanced ts := by
  induction h with
  | last h => exact Balanced.nil.cons h rfl
  | more h hcomma _ ih => exact (ih.cons hcomma rfl).cons h rfl

theorem Parameters.balanced {names : List Token} (h : Parameters ts names) : Balanced ts := by
  cases h with
  | none => exact .nil
  | some h => exact h.balanced

theorem Variable.balanced {a : Stmt} (h : Variable n ts a m) : Balanced ts := by
  cases h with
  | plain hkeyword hname hsemicolon => exact ((Balanced.nil.cons hsemicolon rfl).cons hname rfl).cons hkeyword rfl
  | initialized hkeyword hname hequals h hsemicolon =>
    exact (((h.balanced.concat hsemicolon rfl).cons hequals rfl).cons hname rfl).cons hkeyword rfl

theorem Initializer.balanced {a : Option Stmt} (h : Initializer n ts a m) : Balanced ts := by
  cases h with
  | none hsemicolon => exact Balanced.nil.cons hsemicolon rfl
  | declaration h => exact h.balanced
  | expression h hsemicolon => exact h.balanced.concat hsemicolon rfl

/-- Every declaration opens and closes its braces in pairs: those of a class, of a body and of a block. -/
theorem Declaration.balanced {a : Stmt} (h : Declaration n ts a m) : Balanced ts := by
  induction h using @Declaration.rec _ (fun _ ts _ _ _ => Balanced ts) (fun _ ts _ _ _ => Balanced ts)
    (fun _ ts _ _ _ => Balanced ts) (fun _ _ ts _ _ _ => Balanced ts) with
  | classes hkeyword hname hopening _ hclosing ih => exact ((ih.braces hopening hclosing).cons hname rfl).cons hkeyword rfl
  | function hkeyword _ ih => exact ih.cons hkeyword rfl
  | binding h => exact h.balanced
  | statement _ ih => exact ih
  | mk hname hopening hparameters _ hclosing hbrace _ hendBrace ih =>
    exact ((hparameters.balanced.append ((ih.braces hbrace hendBrace).cons hclosing rfl)).cons hopening rfl).cons hname rfl
  | nil => exact .nil
  | cons _ _ ih ihMethods => exact ih.append ihMethods
  | none => exact .nil
  | more _ _ ih ihBody => exact ih.append ihBody
  | expression h hsemicolon => exact (Derives.balanced h).concat hsemicolon rfl
  | print hkeyword h hsemicolon => exact ((Derives.balanced h).concat hsemicolon rfl).cons hkeyword rfl
  | returns hkeyword hvalue hsemicolon => exact (hvalue.balanced.concat hsemicolon rfl).cons hkeyword rfl
  | block hopening _ hclosing ih => exact ih.braces hopening hclosing
  | loop hkeyword hopening hcondition hclosing _ ih =>
    exact (((Derives.balanced hcondition).append (ih.cons hclosing rfl)).cons hopening rfl).cons hkeyword rfl
  | loopFor hkeyword hopening hinitializer hcondition hsemicolon hincrement hclosing _ ih =>
    have hsteps := hincrement.balanced.append (ih.cons hclosing rfl)
    exact ((hinitializer.balanced.append (hcondition.balanced.append (hsteps.cons hsemicolon rfl))).cons hopening rfl).cons
      hkeyword rfl
  | branch hkeyword hopening hcondition hclosing _ ih =>
    exact (((Derives.balanced hcondition).append (ih.cons hclosing rfl)).cons hopening rfl).cons hkeyword rfl
  | branchElse hkeyword hopening hcondition hclosing _ hotherwise _ ihTrue ihFalse =>
    have hbranches := ihTrue.append (ihFalse.cons hotherwise rfl)
    exact (((Derives.balanced hcondition).append (hbranches.cons hclosing rfl)).cons hopening rfl).cons hkeyword rfl

/-- The braces of a program come in pairs. -/
theorem Program.balanced {body : List Stmt} (h : Program n ts body m) : Balanced ts := by
  induction h using @Declarations.rec (fun _ _ _ _ _ => True) (fun _ _ _ _ _ => True) (fun _ _ _ _ _ => True) _
    (fun _ _ _ _ _ _ => True) with
  | none => exact .nil
  | more h _ _ ih => exact h.balanced.append ih
  | _ => trivial

end Grammar

end LoxLanguage
