import Mathlib
import LoxLanguage.Proofs.Grammar.Complete
import LoxLanguage.Proofs.Parser.Progress

/-! An expression alone. It has no semicolon in it, so it is no statement: the parser reads it up to the end mark, complains
there and gives no tree (`parse_unended`). -/

namespace LoxLanguage.Grammar

open LoxLanguage.Parser
open Token (Kind)

variable {n m : Site} {ts : List Token} {e : Expr}

/-- No token of an expression is a semicolon. -/
theorem Derives.semicolon_notMem {X : Symbol} (h : Derives X n ts e m) : .semicolon ∉ ts.map Token.kind := by
  have hoperators : ∀ {X : Symbol} {rule : OperatorRule}, X.rule? = some rule → .semicolon ∉ rule.operators := by
    intro X rule hrule
    cases X <;> cases hrule <;> decide
  induction h using @Derives.rec _ (fun _ ts _ _ _ => .semicolon ∉ ts.map Token.kind)
    (fun _ ts _ _ _ => .semicolon ∉ ts.map Token.kind) with
  | operator hrule _ hoperator _ ihLeft ihRight =>
    rw [List.map_append, List.map_cons, List.mem_append, List.mem_cons]
    rintro (hleft | hkind | hright)
    · exact ihLeft hleft
    · exact hoperators hrule (hkind ▸ hoperator)
    · exact ihRight hright
  | negation hoperator _ ih => rcases hoperator with h | h <;> simpa [h] using ih
  | constant h => rcases h with h | h <;> simp [h]
  | _ => simp_all

/-! ### The end of a row -/

section Ends
variable {eof : Token}

/-- At the end mark recovery does not move. -/
theorem synchronize_end {s : Parser.State} (h : s.rest = [eof]) (heof : eof.kind = .eof) (hbefore : s.before ≠ []) :
    synchronize s = .ok () s := by
  obtain ⟨last, earlier, hlast⟩ := List.exists_cons_of_ne_nil hbefore
  have hskip : skipFrom s.before s.rest = .ok (s.before, s.rest) := by rw [h, hlast, skipFrom, if_pos heof]
  simp only [synchronize, bind_eq, skipOffending_end h heof hbefore, skip, hskip]

/-- At the end mark, a statement without its semicolon breaks off. -/
theorem expressionStatement_unended (h : Expression n ts e m) (heof : eof.kind = .eof) (before : List Token)
    (problems : Array Problem) :
    Settles expressionStatement ⟨before, ts ++ [eof], n, problems⟩
      (.error .broken ⟨ts.reverse ++ before, [eof], m, problems.push (.atToken eof .expectExpressionEnd)⟩) := by
  have hsemicolon : eof.kind ≠ .semicolon := by rw [heof]; decide
  refine Settles.bind (expression_parses h (ends_cons heof rfl []) before problems) (.of_eq fun _ => ?_)
  rw [bind_eq, expect_neg rfl hsemicolon]
  rfl

theorem declaration_unended (h : Expression n ts e m) (heof : eof.kind = .eof) (before : List Token)
    (problems : Array Problem) :
    Settles declaration ⟨before, ts ++ [eof], n, problems⟩
      (.error .broken ⟨ts.reverse ++ before, [eof], m, problems.push (.atToken eof .expectExpressionEnd)⟩) := by
  have hbroken := expressionStatement_unended h heof before problems
  obtain ⟨t, us, rfl, hdeclaration, hstatement, -⟩ := h.opens
  have hread := hbroken.of_succ fun fuel => statement_eq_expression rfl hstatement
  exact hread.of_succ fun fuel => declaration_eq_statement rfl hdeclaration

theorem program_unended (h : Expression n ts e m) (heof : eof.kind = .eof) :
    Settles (program · #[]) ⟨[], ts ++ [eof], n, #[]⟩
      (.ok #[] ⟨ts.reverse, [eof], m, #[.atToken eof .expectExpressionEnd]⟩) := by
  obtain ⟨least, hbroken⟩ := declaration_unended h heof [] #[]
  obtain ⟨t, us, rfl, -, -, ht⟩ := h.opens
  rw [List.append_nil, List.push_toArray, List.nil_append] at hbroken
  set s : Parser.State := ⟨(t :: us).reverse, [eof], m, #[.atToken eof .expectExpressionEnd]⟩
  have hsync : synchronize s = .ok () s := synchronize_end rfl heof (by simp [s])
  have hlast (fuel : Nat) : program (fuel + 1) #[] s = .ok #[] s := by
    rw [program.eq_2, bind_eq, atEnd_eq (show s.rest = eof :: [] from rfl)]
    simp only [heof, beq_self_eq_true, ↓reduceIte, pure_eq]
  -- One call meets the broken declaration, and the next one is at the end.
  refine ⟨least + 2, fun fuel hle => ?_⟩
  obtain ⟨fuel, rfl⟩ := Nat.exists_eq_add_of_le' (Nat.le_trans (Nat.le_add_left 2 least) hle)
  have hrecovered : recovering (declaration (fuel + 1)) ⟨[], t :: us ++ [eof], n, #[]⟩ = .ok none s := by
    simp only [recovering, hbroken (fuel + 1) (by omega), hsync]
  show program (fuel + 2) #[] _ = _
  rw [program.eq_2, bind_eq, atEnd_eq rfl]
  simp only [beq_eq_false_iff_ne.mpr ht, Bool.false_eq_true, ↓reduceIte]
  rw [bind_eq, hrecovered]
  exact hlast fuel

/-- A row that is an expression and nothing else gives no tree, and the problem is at its end. -/
theorem parse_unended (hts : ∀ t ∈ ts, t.kind ≠ .eof) (heof : eof.kind = .eof) (h : Expression n ts e m) :
    parse n (ts ++ [eof]) = ⟨[], m, [.atToken eof .expectExpressionEnd]⟩ := by
  rw [parse, (program_unended h heof).program_eq (closed_append hts heof) (le_fuelFor (ts ++ [eof]).length)]

end Ends

end LoxLanguage.Grammar
