import LoxLanguage.Proofs.Parser.Reading

/-! Progress of the parsers. Each one proceeds on a closed row, and each one that gives a tree has taken a
token at least, apart from those of a list that may be empty. A call that takes no token goes down by
one rank and a call behind a token may go up again, so a depth of 24 for each token that is left, and the
rank on top, is never used up. A declaration takes a token even when it breaks off. -/

namespace LoxLanguage.Parser

open Token (Kind)

/-- A token at least has been taken since `s`. -/
def Shorter {α : Type} (s : State) : α → State → Prop :=
  fun _ s' => s'.left < s.left

/-! ### Expressions -/

/-- The parsers of expressions proceed at a depth. The number added to the tokens is the rank. -/
structure ExpressionsProceed (fuel : Nat) : Prop where
  expression : ∀ {s : State}, Closed s.rest →
    Proceeds (24 * s.left + 10 ≤ fuel) (expression fuel) s (Shorter s)
  operation : ∀ {s : State} (tighter : List Level), tighter.length ≤ 6 → Closed s.rest →
    Proceeds (24 * s.left + 3 + tighter.length ≤ fuel) (operation fuel tighter) s (Shorter s)
  chain : ∀ {s : State} (level : Level) (tighter : List Level) (left : Expr), tighter.length ≤ 6 → Closed s.rest →
    Proceeds (24 * s.left + 1 ≤ fuel) (chain fuel level tighter left) s fun _ _ => True
  unary : ∀ {s : State}, Closed s.rest → Proceeds (24 * s.left + 2 ≤ fuel) (unary fuel) s (Shorter s)
  suffixes : ∀ {s : State} (e : Expr), Closed s.rest →
    Proceeds (24 * s.left + 1 ≤ fuel) (suffixes fuel e) s fun _ _ => True
  argumentsIfAny : ∀ {s : State}, Closed s.rest →
    Proceeds (24 * s.left + 12 ≤ fuel) (argumentsIfAny fuel) s fun _ _ => True
  arguments : ∀ {s : State} (given : Array Expr), Closed s.rest →
    Proceeds (24 * s.left + 11 ≤ fuel) (arguments fuel given) s (Shorter s)
  primary : ∀ {s : State}, Closed s.rest → Proceeds (24 * s.left + 1 ≤ fuel) (primary fuel) s (Shorter s)

section Expressions
variable {fuel : Nat} {s : State}

theorem expression_proceeds_succ (ih : ExpressionsProceed fuel) (hs : Closed s.rest) :
    Proceeds (24 * s.left + 10 ≤ fuel + 1) (expression (fuel + 1)) s (Shorter s) := by
  rw [expression]
  refine (ih.operation levels (by decide) hs).bind (fun h => by simp only [levels, List.length]; omega)
    fun target s₁ hr₁ h₁ => ?_
  refine (accept_proceeds (hr₁.closed hs)).bind id fun o s₂ hr₂ h₂ => ?_
  simp only [Shorter] at h₁
  cases o with
  | none => exact .pure (Nat.lt_of_le_of_lt hr₂.left_le h₁)
  | some equals =>
    have h₂ := h₂ rfl
    refine (ih.expression (hr₂.closed (hr₁.closed hs))).bind (fun h => by omega) fun value s₃ hr₃ h₃ => ?_
    simp only [Shorter] at h₃
    cases assignment? target value with
    | some e => exact .pure (by simp only [Shorter]; omega)
    | none =>
      refine (complain_proceeds equals _ s₃).bind id fun _ s₄ hr₄ _ => .pure ?_
      have := hr₄.left_le
      simp only [Shorter]
      omega

theorem operation_proceeds_succ (ih : ExpressionsProceed fuel) (tighter : List Level) (hl : tighter.length ≤ 6)
    (hs : Closed s.rest) :
    Proceeds (24 * s.left + 3 + tighter.length ≤ fuel + 1) (operation (fuel + 1) tighter) s (Shorter s) := by
  cases tighter with
  | nil =>
    rw [operation]
    exact (ih.unary hs).mono (fun h => by simp only [List.length] at h; omega) fun _ _ _ h => h
  | cons level tighter =>
    simp only [List.length_cons] at hl
    rw [operation]
    refine (ih.operation tighter (by omega) hs).bind (fun h => by simp only [List.length_cons] at h; omega)
      fun left s₁ hr₁ h₁ => ?_
    simp only [Shorter] at h₁
    refine (ih.chain level tighter left (by omega) (hr₁.closed hs)).mono (fun h => by omega) fun e s₂ hr₂ _ => ?_
    exact Nat.lt_of_le_of_lt hr₂.left_le h₁

theorem chain_proceeds_succ (ih : ExpressionsProceed fuel) (level : Level) (tighter : List Level) (left : Expr)
    (hl : tighter.length ≤ 6) (hs : Closed s.rest) :
    Proceeds (24 * s.left + 1 ≤ fuel + 1) (chain (fuel + 1) level tighter left) s fun _ _ => True := by
  rw [chain]
  refine (acceptIf_proceeds hs).bind id fun o s₁ hr₁ h₁ => ?_
  cases o with
  | none => exact .pure trivial
  | some operator =>
    have h₁ := h₁ rfl
    refine (ih.operation tighter hl (hr₁.closed hs)).bind (fun h => by omega) fun right s₂ hr₂ h₂ => ?_
    simp only [Shorter] at h₂
    exact (ih.chain level tighter _ hl (hr₂.closed (hr₁.closed hs))).mono (fun h => by omega) fun _ _ _ h => h

theorem unary_proceeds_succ (ih : ExpressionsProceed fuel) (hs : Closed s.rest) :
    Proceeds (24 * s.left + 2 ≤ fuel + 1) (unary (fuel + 1)) s (Shorter s) := by
  rw [unary]
  refine (acceptIf_proceeds hs).bind id fun o s₁ hr₁ h₁ => ?_
  cases o with
  | none =>
    refine (ih.primary (hr₁.closed hs)).bind (fun h => by have := hr₁.left_le; omega) fun e s₂ hr₂ h₂ => ?_
    simp only [Shorter] at h₂
    have := hr₁.left_le
    refine (ih.suffixes e (hr₂.closed (hr₁.closed hs))).mono (fun h => by omega) fun _ s₃ hr₃ _ => ?_
    have := hr₃.left_le
    simp only [Shorter]
    omega
  | some operator =>
    have h₁ := h₁ rfl
    refine (ih.unary (hr₁.closed hs)).bind (fun h => by omega) fun operand s₂ hr₂ h₂ => .pure ?_
    exact Nat.lt_trans h₂ h₁

theorem suffixes_proceeds_succ (ih : ExpressionsProceed fuel) (e : Expr) (hs : Closed s.rest) :
    Proceeds (24 * s.left + 1 ≤ fuel + 1) (suffixes (fuel + 1) e) s fun _ _ => True := by
  rw [suffixes]
  refine (accept_proceeds hs).bind id fun o s₁ hr₁ h₁ => ?_
  have hs₁ := hr₁.closed hs
  cases o with
  | some paren =>
    have h₁ := h₁ rfl
    refine (ih.argumentsIfAny hs₁).bind (fun h => by omega) fun given s₂ hr₂ _ => ?_
    have hs₂ := hr₂.closed hs₁
    refine (expect_proceeds hs₂ (by decide)).bind id fun close s₃ hr₃ h₃ => ?_
    have := hr₂.left_le
    exact (ih.suffixes _ (hr₃.closed hs₂)).mono (fun h => by omega) fun _ _ _ h => h
  | none =>
    refine (accept_proceeds hs₁).bind id fun o s₂ hr₂ h₂ => ?_
    have hs₂ := hr₂.closed hs₁
    cases o with
    | none => exact .pure trivial
    | some dot =>
      have h₂ := h₂ rfl
      refine (expect_proceeds hs₂ (by decide)).bind id fun name s₃ hr₃ h₃ => ?_
      have := hr₁.left_le
      exact (ih.suffixes _ (hr₃.closed hs₂)).mono (fun h => by omega) fun _ _ _ h => h

theorem argumentsIfAny_proceeds_succ (ih : ExpressionsProceed fuel) (hs : Closed s.rest) :
    Proceeds (24 * s.left + 12 ≤ fuel + 1) (argumentsIfAny (fuel + 1)) s fun _ _ => True := by
  rw [argumentsIfAny]
  refine (check_proceeds hs).bind id fun b s₁ hr₁ h₁ => ?_
  subst h₁
  split
  · exact .pure trivial
  · exact (ih.arguments _ hs).mono (fun h => by omega) fun _ _ _ _ => trivial

theorem arguments_proceeds_succ (ih : ExpressionsProceed fuel) (given : Array Expr) (hs : Closed s.rest) :
    Proceeds (24 * s.left + 11 ≤ fuel + 1) (arguments (fuel + 1) given) s (Shorter s) := by
  rw [arguments]
  refine (complainIfFull_proceeds hs).bind id fun _ s₁ hr₁ _ => ?_
  have hs₁ := hr₁.closed hs
  have := hr₁.left_le
  refine (ih.expression hs₁).bind (fun h => by omega) fun e s₂ hr₂ h₂ => ?_
  simp only [Shorter] at h₂
  refine (accept_proceeds (hr₂.closed hs₁)).bind id fun o s₃ hr₃ h₃ => ?_
  have := hr₃.left_le
  cases o with
  | none => exact .pure (by simp only [Shorter]; omega)
  | some comma =>
    refine (ih.arguments _ (hr₃.closed (hr₂.closed hs₁))).mono (fun h => by omega) fun _ s₄ hr₄ h₄ => ?_
    simp only [Shorter] at h₄ ⊢
    omega

theorem primary_proceeds_succ (ih : ExpressionsProceed fuel) (hs : Closed s.rest) :
    Proceeds (24 * s.left + 1 ≤ fuel + 1) (primary (fuel + 1)) s (Shorter s) := by
  rw [primary]
  refine (peek_proceeds hs).bind id fun t s₀ _ h₀ => ?_
  obtain ⟨rfl, rest, h⟩ := h₀
  -- A token of a kind that begins a primary expression is taken, and then all is done but for a grouping.
  have take {kind : Kind} (hk : t.kind = kind) (ht : kind ≠ .eof) {α : Type} {f : Option Token → Parser α}
      (hf : ∀ o s₁, Reads s₀ s₁ → s₁.left < s₀.left → Proceeds (24 * s₀.left + 1 ≤ fuel + 1) (f o) s₁ (Shorter s₀)) :
      Proceeds (24 * s₀.left + 1 ≤ fuel + 1) (accept kind >>= f) s₀ (Shorter s₀) :=
    (accept_proceeds_of_kind h hk ht).bind id hf
  split
  case h_8 hk =>
    refine take hk (by decide) fun _ s₁ hr₁ h₁ => ?_
    refine (ih.expression (hr₁.closed hs)).bind (fun h => by omega) fun inner s₂ hr₂ h₂ => ?_
    refine (expect_proceeds (hr₂.closed (hr₁.closed hs)) (by decide)).bind id fun _ s₃ hr₃ h₃ => .pure ?_
    have := hr₂.left_le
    simp only [Shorter]
    omega
  case h_9 => exact fail_proceeds hs
  case h_6 hk =>
    refine take hk (by decide) fun _ s₁ _ h₁ => ?_
    exact (freshSite_proceeds s₁).bind id fun _ s₂ hr₂ _ => .pure (Nat.lt_of_le_of_lt hr₂.left_le h₁)
  case h_7 hk =>
    refine take hk (by decide) fun _ s₁ _ h₁ => ?_
    exact (freshSite_proceeds s₁).bind id fun _ s₂ hr₂ _ => .pure (Nat.lt_of_le_of_lt hr₂.left_le h₁)
  all_goals exact take (by assumption) (by decide) fun _ s₁ _ h₁ => .pure h₁

end Expressions

theorem expressionsProceed (fuel : Nat) : ExpressionsProceed fuel := by
  induction fuel with
  | zero =>
    constructor <;> intros <;> exact .exhausted (by omega)
  | succ fuel ih =>
    exact ⟨expression_proceeds_succ ih, operation_proceeds_succ ih, chain_proceeds_succ ih, unary_proceeds_succ ih,
      suffixes_proceeds_succ ih, argumentsIfAny_proceeds_succ ih, arguments_proceeds_succ ih,
      primary_proceeds_succ ih⟩

/-! ### Parts of statements -/

section Parts
variable {fuel : Nat} {s : State}

theorem expression_proceeds (hs : Closed s.rest) :
    Proceeds (24 * s.left + 10 ≤ fuel) (expression fuel) s (Shorter s) :=
  (expressionsProceed fuel).expression hs

theorem parameters_proceeds (given : Array Token) (hs : Closed s.rest) :
    Proceeds (24 * s.left + 1 ≤ fuel) (parameters fuel given) s fun _ _ => True := by
  induction fuel generalizing s given with
  | zero => exact .exhausted (by omega)
  | succ fuel ih =>
    rw [parameters]
    refine (complainIfFull_proceeds hs).bind id fun _ s₁ hr₁ _ => ?_
    have hs₁ := hr₁.closed hs
    have := hr₁.left_le
    refine (expect_proceeds hs₁ (by decide)).bind id fun name s₂ hr₂ h₂ => ?_
    have hs₂ := hr₂.closed hs₁
    refine (accept_proceeds hs₂).bind id fun o s₃ hr₃ h₃ => ?_
    cases o with
    | none => exact .pure trivial
    | some comma =>
      have := hr₃.left_le
      exact (ih _ (hr₃.closed hs₂)).mono (fun h => by omega) fun _ _ _ h => h

theorem parametersIfAny_proceeds (hs : Closed s.rest) :
    Proceeds (24 * s.left + 1 ≤ fuel) (parametersIfAny fuel) s fun _ _ => True := by
  rw [parametersIfAny]
  refine (check_proceeds hs).bind id fun b s₁ _ h₁ => ?_
  subst h₁
  split
  · exact .pure trivial
  · exact parameters_proceeds _ hs

theorem initializerIfAny_proceeds (hs : Closed s.rest) :
    Proceeds (24 * s.left ≤ fuel) (initializerIfAny fuel) s fun _ _ => True := by
  rw [initializerIfAny]
  refine (accept_proceeds hs).bind id fun o s₁ hr₁ h₁ => ?_
  cases o with
  | none => exact .pure trivial
  | some equals =>
    have h₁ := h₁ rfl
    exact ((expression_proceeds (hr₁.closed hs)).map fun _ _ _ _ => trivial).mono (fun h => by omega) fun _ _ _ h => h

theorem variableDeclaration_proceeds (hs : Closed s.rest) :
    Proceeds (24 * s.left ≤ fuel) (variableDeclaration fuel) s (Shorter s) := by
  rw [variableDeclaration]
  refine (expect_proceeds hs (by decide)).bind id fun name s₁ hr₁ h₁ => ?_
  refine (initializerIfAny_proceeds (hr₁.closed hs)).bind (fun h => by omega) fun initializer s₂ hr₂ _ => ?_
  refine (expect_proceeds (hr₂.closed (hr₁.closed hs)) (by decide)).bind id fun _ s₃ hr₃ h₃ => .pure ?_
  have := hr₂.left_le
  simp only [Shorter]
  omega

theorem expressionStatement_proceeds (hs : Closed s.rest) :
    Proceeds (24 * s.left + 10 ≤ fuel) (expressionStatement fuel) s (Shorter s) := by
  rw [expressionStatement]
  refine (expression_proceeds hs).bind id fun e s₁ hr₁ h₁ => ?_
  refine (expect_proceeds (hr₁.closed hs) (by decide)).bind id fun _ s₂ hr₂ h₂ => .pure ?_
  exact Nat.lt_trans h₂ h₁

theorem expressionUnless_proceeds (kind : Kind) (hs : Closed s.rest) :
    Proceeds (24 * s.left + 10 ≤ fuel) (expressionUnless kind fuel) s fun _ _ => True := by
  rw [expressionUnless]
  refine (check_proceeds hs).bind id fun b s₁ _ h₁ => ?_
  subst h₁
  split
  · exact .pure trivial
  · exact (expression_proceeds hs).map fun _ _ _ _ => trivial

theorem printStatement_proceeds (hs : Closed s.rest) :
    Proceeds (24 * s.left + 10 ≤ fuel) (printStatement fuel) s (Shorter s) := by
  rw [printStatement]
  refine (expression_proceeds hs).bind id fun e s₁ hr₁ h₁ => ?_
  refine (expect_proceeds (hr₁.closed hs) (by decide)).bind id fun _ s₂ hr₂ h₂ => .pure ?_
  exact Nat.lt_trans h₂ h₁

theorem returnStatement_proceeds (keyword : Token) (hs : Closed s.rest) :
    Proceeds (24 * s.left + 10 ≤ fuel) (returnStatement fuel keyword) s (Shorter s) := by
  rw [returnStatement]
  refine (expressionUnless_proceeds .semicolon hs).bind id fun value s₁ hr₁ _ => ?_
  refine (expect_proceeds (hr₁.closed hs) (by decide)).bind id fun _ s₂ hr₂ h₂ => .pure ?_
  exact Nat.lt_of_lt_of_le h₂ hr₁.left_le

theorem forInitializer_proceeds (hs : Closed s.rest) :
    Proceeds (24 * s.left + 10 ≤ fuel) (forInitializer fuel) s fun _ _ => True := by
  rw [forInitializer]
  refine (accept_proceeds hs).bind id fun o s₁ hr₁ h₁ => ?_
  have hs₁ := hr₁.closed hs
  have := hr₁.left_le
  cases o with
  | some semicolon => exact .pure trivial
  | none =>
    refine (accept_proceeds hs₁).bind id fun o s₂ hr₂ h₂ => ?_
    have hs₂ := hr₂.closed hs₁
    have := hr₂.left_le
    cases o with
    | some keyword =>
      exact ((variableDeclaration_proceeds hs₂).map fun _ _ _ _ => trivial).mono (fun h => by omega) fun _ _ _ h => h
    | none =>
      exact ((expressionStatement_proceeds hs₂).map fun _ _ _ _ => trivial).mono (fun h => by omega) fun _ _ _ h => h

end Parts

/-! ### Recovery -/

section Recovery
variable {s : State}

/-- Behind the first token, skipping stays on the row. -/
theorem skipFrom_ok {before rest : List Token} (hb : before ≠ []) (hr : Closed rest) :
    ∃ taken rest', skipFrom before rest = .ok (taken.reverse ++ before, rest') ∧ rest = taken ++ rest' ∧
      ∀ t ∈ taken, t.kind ≠ .eof := by
  induction rest generalizing before with
  | nil => cases hr
  | cons t rest ih =>
    obtain ⟨last, earlier, rfl⟩ := List.exists_cons_of_ne_nil hb
    rw [skipFrom]
    by_cases ht : t.kind = .eof
    · exact ⟨[], t :: rest, by simp [ht], rfl, by simp⟩
    · by_cases hstop : (last.kind = .semicolon || isBoundary t.kind) = true
      · exact ⟨[], t :: rest, by simp only [ht, hstop, ↓reduceIte]; rfl, rfl, by simp⟩
      · have hbefore : t :: last :: earlier ≠ [] := by simp
        obtain ⟨taken, rest', heq, hrest, htaken⟩ := ih hbefore (hr.tail ht)
        refine ⟨t :: taken, rest', ?_, by simp [hrest], ?_⟩
        · simp only [ht, hstop, ↓reduceIte, heq, List.reverse_cons, List.append_assoc, List.cons_append,
            List.nil_append, Bool.false_eq_true]
        · intro u hu
          rcases List.mem_cons.mp hu with rfl | hu
          · exact ht
          · exact htaken u hu

/-- A token that begins a statement is not skipped. -/
theorem skipOffending_boundary {t : Token} {rest : List Token} (h : s.rest = t :: rest) (hbound : isBoundary t.kind = true) :
    skipOffending s = .ok () s := by
  simp only [skipOffending, bind_eq, peek_eq h, hbound, ↓reduceIte, pure_eq]

/-- The end mark is not skipped. -/
theorem skipOffending_end {t : Token} {rest : List Token} (h : s.rest = t :: rest) (ht : t.kind = .eof)
    (hb : s.before ≠ []) : skipOffending s = .ok () s := by
  obtain ⟨last, earlier, hlast⟩ := List.exists_cons_of_ne_nil hb
  have hadv : advance s = .ok last s := by
    simp only [advance, move, bind_eq, atEnd_eq h, ht, beq_self_eq_true, ↓reduceIte, pure_eq, previous, hlast]
  have hbound : isBoundary t.kind = false := by rw [ht]; rfl
  simp only [skipOffending, bind_eq, peek_eq h, hbound]
  exact (bind_eq advance (fun _ => pure ()) s).trans (by rw [hadv]; rfl)

/-- Every other token is skipped. -/
theorem skipOffending_next {t : Token} {rest : List Token} (h : s.rest = t :: rest) (hbound : isBoundary t.kind = false)
    (ht : t.kind ≠ .eof) : skipOffending s = .ok () s.next := by
  simp only [skipOffending, bind_eq, peek_eq h, hbound]
  exact (bind_eq advance (fun _ => pure ()) s).trans (by rw [advance_eq h ht]; rfl)

/-- Recovery ends on the row, unless it starts at the first token and that one begins a statement. It moves on from
    every other token, except the end mark. -/
theorem synchronize_ok {t : Token} {rest : List Token} (hs : Closed s.rest) (h : s.rest = t :: rest)
    (hb : s.before ≠ [] ∨ (isBoundary t.kind = false ∧ t.kind ≠ .eof)) :
    ∃ s', synchronize s = .ok () s' ∧ Reads s s' ∧
      (isBoundary t.kind = false → t.kind ≠ .eof → s'.left < s.left) := by
  -- The place from which the second half of recovery starts.
  have halfway : ∃ u, skipOffending s = .ok () u ∧ Reads s u ∧ u.before ≠ [] ∧
      (isBoundary t.kind = false → t.kind ≠ .eof → u.left < s.left) := by
    by_cases hbound : isBoundary t.kind = true
    · exact ⟨s, skipOffending_boundary h hbound, .refl s, hb.resolve_right (by simp [hbound]), by simp [hbound]⟩
    · have hbound : isBoundary t.kind = false := by simpa using hbound
      by_cases ht : t.kind = .eof
      · have hbefore : s.before ≠ [] := hb.resolve_right (by simp [ht])
        exact ⟨s, skipOffending_end h ht hbefore, .refl s, hbefore, fun _ hne => absurd ht hne⟩
      · exact ⟨s.next, skipOffending_next h hbound ht, reads_next h ht, by simp [next_eq h], fun _ _ => left_next h⟩
  obtain ⟨u, hu, hru, hbu, hlt⟩ := halfway
  obtain ⟨taken, rest', heq, hrest, htaken⟩ := skipFrom_ok hbu (hru.closed hs)
  have hr : Reads u { u with before := taken.reverse ++ u.before, rest := rest' } :=
    ⟨⟨taken, hrest, rfl, htaken⟩, List.prefix_rfl⟩
  refine ⟨_, ?_, hru.trans hr, fun h₁ h₂ => Nat.lt_of_le_of_lt hr.left_le (hlt h₁ h₂)⟩
  simp only [synchronize, bind_eq, hu, skip, heq]

/-- What a parser that is made to recover ends with: the tree that it gives, or nothing and a problem. -/
def Recovered {α : Type} (p : Parser α) (s : State) (o : Option α) (s' : State) : Prop :=
  (∃ a, o = some a ∧ p s = .ok a s') ∨ (o = none ∧ s.problems.size < s'.problems.size)

/-- A parser that takes a token when it gives a tree, and also when it breaks off at a token that begins a
    statement, takes one in any case when it is made to recover. -/
theorem recovering_cases {α : Type} {enough : Prop} {p : Parser α} {t : Token} {rest : List Token}
    (hs : Closed s.rest) (h : s.rest = t :: rest) (ht : t.kind ≠ .eof) (hp : Proceeds enough p s (Shorter s))
    (hb : isBoundary t.kind = true → ∀ s', p s = .error .broken s' → s'.left < s.left) :
    (∃ o s', recovering p s = .ok o s' ∧ Reads s s' ∧ s'.left < s.left ∧ Recovered p s o s') ∨
      (¬enough ∧ ∃ s', recovering p s = .error .exhausted s') := by
  unfold Proceeds at hp
  split at hp
  · rename_i a s' heq
    exact Or.inl ⟨some a, s', by simp only [recovering, heq], hp.1, hp.2, Or.inl ⟨a, rfl, heq⟩⟩
  · rename_i s' heq
    obtain ⟨hr, hlt⟩ := hp
    -- Where nothing was taken, the next token is still `t`, which then begins no statement.
    have hcase : s'.left < s.left ∨ (s'.rest = t :: rest ∧ isBoundary t.kind = false) := by
      obtain ⟨taken, htaken, -, -⟩ := hr.row
      cases taken with
      | nil =>
        have hsame : s'.rest = t :: rest := by rw [← h, htaken]; rfl
        cases hbound : isBoundary t.kind with
        | false => exact Or.inr ⟨hsame, rfl⟩
        | true => exact Or.inl (hb hbound s' heq)
      | cons u taken =>
        left
        simp only [State.left, htaken, List.cons_append, List.length_cons, List.length_append]
        omega
    obtain ⟨u, rest', hu⟩ := (hr.closed hs).exists_cons
    have hstart : s'.before ≠ [] ∨ (isBoundary u.kind = false ∧ u.kind ≠ .eof) := by
      rcases hcase with hless | ⟨hsame, hbound⟩
      · left
        obtain ⟨taken, htaken, hbefore, -⟩ := hr.row
        intro hnil
        rw [hbefore, List.append_eq_nil_iff, List.reverse_eq_nil_iff] at hnil
        simp [State.left, htaken, hnil.1] at hless
      · obtain ⟨rfl, -⟩ := List.cons.inj (hsame.symm.trans hu)
        exact Or.inr ⟨hbound, ht⟩
    obtain ⟨s'', heq', hr', hless'⟩ := synchronize_ok (hr.closed hs) hu hstart
    refine Or.inl ⟨none, s'', by simp only [recovering, heq, heq'], hr.trans hr', ?_,
      Or.inr ⟨rfl, Nat.lt_of_lt_of_le hlt hr'.size_le⟩⟩
    rcases hcase with hless | ⟨hsame, hbound⟩
    · exact Nat.lt_of_le_of_lt hr'.left_le hless
    · obtain ⟨rfl, -⟩ := List.cons.inj (hsame.symm.trans hu)
      exact Nat.lt_of_lt_of_le (hless' hbound ht) hr.left_le
  · exact hp.elim
  · rename_i s' heq
    exact Or.inr ⟨hp, s', by simp only [recovering, heq]⟩

end Recovery

/-! ### Statements -/

/-- Tokens that begin a statement other than an expression. -/
def opensStatement : Kind → Bool
  | .forWord | .ifWord | .printWord | .returnWord | .whileWord | .leftBrace => true
  | _ => false

/-- Tokens that begin a declaration other than a statement. -/
def opensDeclaration : Kind → Bool
  | .classWord | .funWord | .varWord => true
  | _ => false

/-- The parsers of statements proceed at a depth. -/
structure StatementsProceed (fuel : Nat) : Prop where
  declaration : ∀ {s : State}, Closed s.rest →
    Proceeds (24 * s.left + 12 ≤ fuel) (declaration fuel) s (Shorter s)
  classDeclaration : ∀ {s : State}, Closed s.rest →
    Proceeds (24 * s.left + 1 ≤ fuel) (classDeclaration fuel) s (Shorter s)
  methods : ∀ {s : State} (found : Array Function), Closed s.rest →
    Proceeds (24 * s.left + 2 ≤ fuel) (methods fuel found) s fun _ _ => True
  routine : ∀ {s : State} (kind : Routine), Closed s.rest →
    Proceeds (24 * s.left + 1 ≤ fuel) (routine fuel kind) s (Shorter s)
  block : ∀ {s : State}, Closed s.rest → Proceeds (24 * s.left + 14 ≤ fuel) (block fuel) s (Shorter s)
  items : ∀ {s : State} (found : Array Stmt), Closed s.rest →
    Proceeds (24 * s.left + 13 ≤ fuel) (items fuel found) s fun _ _ => True
  statement : ∀ {s : State}, Closed s.rest → Proceeds (24 * s.left + 11 ≤ fuel) (statement fuel) s (Shorter s)
  forStatement : ∀ {s : State}, Closed s.rest →
    Proceeds (24 * s.left + 1 ≤ fuel) (forStatement fuel) s (Shorter s)
  ifStatement : ∀ {s : State}, Closed s.rest → Proceeds (24 * s.left + 1 ≤ fuel) (ifStatement fuel) s (Shorter s)
  whileStatement : ∀ {s : State}, Closed s.rest →
    Proceeds (24 * s.left + 1 ≤ fuel) (whileStatement fuel) s (Shorter s)
  /-- What begins a statement is taken before anything can break off. -/
  statementBroken : ∀ {s s' : State} {t : Token} {rest : List Token}, Closed s.rest → s.rest = t :: rest →
    opensStatement t.kind = true → Parser.statement fuel s = .error .broken s' → s'.left < s.left
  declarationBroken : ∀ {s s' : State} {t : Token} {rest : List Token}, Closed s.rest → s.rest = t :: rest →
    isBoundary t.kind = true → Parser.declaration fuel s = .error .broken s' → s'.left < s.left

section Statements
variable {fuel : Nat} {s : State}

theorem classDeclaration_proceeds_succ (ih : StatementsProceed fuel) (hs : Closed s.rest) :
    Proceeds (24 * s.left + 1 ≤ fuel + 1) (classDeclaration (fuel + 1)) s (Shorter s) := by
  rw [classDeclaration]
  refine (expect_proceeds hs (by decide)).bind id fun name s₁ hr₁ h₁ => ?_
  have hs₁ := hr₁.closed hs
  refine (expect_proceeds hs₁ (by decide)).bind id fun _ s₂ hr₂ h₂ => ?_
  have hs₂ := hr₂.closed hs₁
  refine (ih.methods _ hs₂).bind (fun h => by omega) fun found s₃ hr₃ _ => ?_
  refine (expect_proceeds (hr₃.closed hs₂) (by decide)).bind id fun _ s₄ hr₄ h₄ => .pure ?_
  have := hr₃.left_le
  simp only [Shorter]
  omega

theorem methods_proceeds_succ (ih : StatementsProceed fuel) (found : Array Function) (hs : Closed s.rest) :
    Proceeds (24 * s.left + 2 ≤ fuel + 1) (methods (fuel + 1) found) s fun _ _ => True := by
  rw [methods]
  refine (check_proceeds hs).bind id fun b s₁ _ h₁ => ?_
  subst h₁
  refine (atEnd_proceeds hs).bind id fun b' s₂ _ h₂ => ?_
  obtain ⟨rfl, -⟩ := h₂
  split
  · exact .pure trivial
  · refine (ih.routine .method hs).bind (fun h => by omega) fun f s₃ hr₃ h₃ => ?_
    simp only [Shorter] at h₃
    exact (ih.methods _ (hr₃.closed hs)).mono (fun h => by omega) fun _ _ _ h => h

theorem routine_proceeds_succ (ih : StatementsProceed fuel) (kind : Routine) (hs : Closed s.rest) :
    Proceeds (24 * s.left + 1 ≤ fuel + 1) (routine (fuel + 1) kind) s (Shorter s) := by
  rw [routine]
  refine (expect_proceeds hs (by decide)).bind id fun name s₁ hr₁ h₁ => ?_
  have hs₁ := hr₁.closed hs
  refine (expect_proceeds hs₁ (by decide)).bind id fun _ s₂ hr₂ h₂ => ?_
  have hs₂ := hr₂.closed hs₁
  refine (parametersIfAny_proceeds hs₂).bind (fun h => by omega) fun given s₃ hr₃ _ => ?_
  have hs₃ := hr₃.closed hs₂
  have := hr₃.left_le
  refine (expect_proceeds hs₃ (by decide)).bind id fun _ s₄ hr₄ h₄ => ?_
  have hs₄ := hr₄.closed hs₃
  refine (expect_proceeds hs₄ (by decide)).bind id fun _ s₅ hr₅ h₅ => ?_
  refine (ih.block (hr₅.closed hs₄)).bind (fun h => by omega) fun body s₆ hr₆ h₆ => .pure ?_
  simp only [Shorter] at h₆ ⊢
  omega

theorem block_proceeds_succ (ih : StatementsProceed fuel) (hs : Closed s.rest) :
    Proceeds (24 * s.left + 14 ≤ fuel + 1) (block (fuel + 1)) s (Shorter s) := by
  rw [block]
  refine (ih.items _ hs).bind (fun h => by omega) fun found s₁ hr₁ _ => ?_
  refine (expect_proceeds (hr₁.closed hs) (by decide)).bind id fun _ s₂ hr₂ h₂ => .pure ?_
  exact Nat.lt_of_lt_of_le h₂ hr₁.left_le

/-- A declaration at a token that is not the end mark, made to recover. -/
theorem StatementsProceed.recovering (ih : StatementsProceed fuel) {t : Token} {rest : List Token} (hs : Closed s.rest)
    (h : s.rest = t :: rest) (ht : t.kind ≠ .eof) :
    Proceeds (24 * s.left + 12 ≤ fuel) (recovering (Parser.declaration fuel)) s (Shorter s) := by
  rcases recovering_cases hs h ht (ih.declaration hs) fun hb _ heq => ih.declarationBroken hs h hb heq with
    ⟨o, s', heq, hr, hlt, -⟩ | ⟨hne, s', heq⟩
  · exact .of_ok heq hr hlt
  · unfold Proceeds
    rw [heq]
    exact hne

theorem items_proceeds_succ (ih : StatementsProceed fuel) (found : Array Stmt) (hs : Closed s.rest) :
    Proceeds (24 * s.left + 13 ≤ fuel + 1) (items (fuel + 1) found) s fun _ _ => True := by
  rw [items]
  refine (check_proceeds hs).bind id fun b s₁ _ h₁ => ?_
  subst h₁
  refine (atEnd_proceeds hs).bind id fun b' s₂ _ h₂ => ?_
  obtain ⟨rfl, t, rest, h, hend⟩ := h₂
  split
  · exact .pure trivial
  · rename_i hgo
    simp only [Bool.or_eq_true, not_or, hend] at hgo
    refine (ih.recovering hs h hgo.2).bind (fun h => by omega) fun o s₃ hr₃ h₃ => ?_
    simp only [Shorter] at h₃
    cases o with
    | some statement => exact (ih.items _ (hr₃.closed hs)).mono (fun h => by omega) fun _ _ _ h => h
    | none => exact (ih.items _ (hr₃.closed hs)).mono (fun h => by omega) fun _ _ _ h => h

theorem forStatement_proceeds_succ (ih : StatementsProceed fuel) (hs : Closed s.rest) :
    Proceeds (24 * s.left + 1 ≤ fuel + 1) (forStatement (fuel + 1)) s (Shorter s) := by
  rw [forStatement]
  refine (expect_proceeds hs (by decide)).bind id fun _ s₁ hr₁ h₁ => ?_
  have hs₁ := hr₁.closed hs
  refine (forInitializer_proceeds hs₁).bind (fun h => by omega) fun initializer s₂ hr₂ _ => ?_
  have hs₂ := hr₂.closed hs₁
  have := hr₂.left_le
  refine (expressionUnless_proceeds .semicolon hs₂).bind (fun h => by omega) fun condition s₃ hr₃ _ => ?_
  have hs₃ := hr₃.closed hs₂
  have := hr₃.left_le
  refine (expect_proceeds hs₃ (by decide)).bind id fun _ s₄ hr₄ h₄ => ?_
  have hs₄ := hr₄.closed hs₃
  refine (expressionUnless_proceeds .rightParen hs₄).bind (fun h => by omega) fun increment s₅ hr₅ _ => ?_
  have hs₅ := hr₅.closed hs₄
  have := hr₅.left_le
  refine (expect_proceeds hs₅ (by decide)).bind id fun _ s₆ hr₆ h₆ => ?_
  refine (ih.statement (hr₆.closed hs₅)).bind (fun h => by omega) fun body s₇ hr₇ h₇ => .pure ?_
  simp only [Shorter] at h₇ ⊢
  omega

theorem ifStatement_proceeds_succ (ih : StatementsProceed fuel) (hs : Closed s.rest) :
    Proceeds (24 * s.left + 1 ≤ fuel + 1) (ifStatement (fuel + 1)) s (Shorter s) := by
  rw [ifStatement]
  refine (expect_proceeds hs (by decide)).bind id fun _ s₁ hr₁ h₁ => ?_
  have hs₁ := hr₁.closed hs
  refine (expression_proceeds hs₁).bind (fun h => by omega) fun condition s₂ hr₂ h₂ => ?_
  have hs₂ := hr₂.closed hs₁
  simp only [Shorter] at h₂
  refine (expect_proceeds hs₂ (by decide)).bind id fun _ s₃ hr₃ h₃ => ?_
  have hs₃ := hr₃.closed hs₂
  refine (ih.statement hs₃).bind (fun h => by omega) fun whenTrue s₄ hr₄ h₄ => ?_
  have hs₄ := hr₄.closed hs₃
  simp only [Shorter] at h₄
  refine (accept_proceeds hs₄).bind id fun o s₅ hr₅ _ => ?_
  have := hr₅.left_le
  cases o with
  | none => exact .pure (by simp only [Shorter]; omega)
  | some keyword =>
    refine (ih.statement (hr₅.closed hs₄)).bind (fun h => by omega) fun whenFalse s₆ hr₆ h₆ => .pure ?_
    simp only [Shorter] at h₆ ⊢
    omega

theorem whileStatement_proceeds_succ (ih : StatementsProceed fuel) (hs : Closed s.rest) :
    Proceeds (24 * s.left + 1 ≤ fuel + 1) (whileStatement (fuel + 1)) s (Shorter s) := by
  rw [whileStatement]
  refine (expect_proceeds hs (by decide)).bind id fun _ s₁ hr₁ h₁ => ?_
  have hs₁ := hr₁.closed hs
  refine (expression_proceeds hs₁).bind (fun h => by omega) fun condition s₂ hr₂ h₂ => ?_
  have hs₂ := hr₂.closed hs₁
  simp only [Shorter] at h₂
  refine (expect_proceeds hs₂ (by decide)).bind id fun _ s₃ hr₃ h₃ => ?_
  refine (ih.statement (hr₃.closed hs₂)).bind (fun h => by omega) fun body s₄ hr₄ h₄ => .pure ?_
  simp only [Shorter] at h₄ ⊢
  omega

/-! The next token decides what kind of statement or declaration is read. -/

variable {t : Token} {rest : List Token}

/-- What is read behind the first token of a statement, unless the statement is an expression. -/
def statementBehind? (fuel : Nat) (t : Token) : Option (Parser Stmt) :=
  match t.kind with
  | .forWord => some (forStatement fuel)
  | .ifWord => some (ifStatement fuel)
  | .printWord => some (printStatement fuel)
  | .returnWord => some (returnStatement fuel t)
  | .whileWord => some (whileStatement fuel)
  | .leftBrace => some (block fuel >>= fun body => pure (.block body))
  | _ => none

theorem statement_eq_next (h : s.rest = t :: rest) {p : Parser Stmt} (hp : statementBehind? fuel t = some p) :
    statement (fuel + 1) s = p s.next := by
  rw [statement, bind_eq, peek_eq h]
  unfold statementBehind? at hp
  split at hp <;> cases hp
  all_goals
    rename_i hk
    simp only [hk, bind_eq, accept_pos h hk (by decide)]

theorem statement_eq_for (h : s.rest = t :: rest) (hk : t.kind = .forWord) :
    statement (fuel + 1) s = forStatement fuel s.next :=
  statement_eq_next h (by rw [statementBehind?, hk])

theorem statement_eq_if (h : s.rest = t :: rest) (hk : t.kind = .ifWord) :
    statement (fuel + 1) s = ifStatement fuel s.next :=
  statement_eq_next h (by rw [statementBehind?, hk])

theorem statement_eq_print (h : s.rest = t :: rest) (hk : t.kind = .printWord) :
    statement (fuel + 1) s = printStatement fuel s.next :=
  statement_eq_next h (by rw [statementBehind?, hk])

theorem statement_eq_return (h : s.rest = t :: rest) (hk : t.kind = .returnWord) :
    statement (fuel + 1) s = returnStatement fuel t s.next :=
  statement_eq_next h (by rw [statementBehind?, hk])

theorem statement_eq_while (h : s.rest = t :: rest) (hk : t.kind = .whileWord) :
    statement (fuel + 1) s = whileStatement fuel s.next :=
  statement_eq_next h (by rw [statementBehind?, hk])

theorem statement_eq_block (h : s.rest = t :: rest) (hk : t.kind = .leftBrace) :
    statement (fuel + 1) s = (block fuel >>= fun body => pure (.block body)) s.next :=
  statement_eq_next h (by rw [statementBehind?, hk])

theorem statement_eq_expression (h : s.rest = t :: rest) (hk : opensStatement t.kind = false) :
    statement (fuel + 1) s = expressionStatement fuel s := by
  rw [statement, bind_eq, peek_eq h]
  dsimp only
  generalize t.kind = kind at hk ⊢
  cases kind <;> simp only [opensStatement, Bool.true_eq_false] at hk <;> rfl

/-- What is read behind the first token of a declaration, unless the declaration is a statement. -/
def declarationBehind? (fuel : Nat) (t : Token) : Option (Parser Stmt) :=
  match t.kind with
  | .classWord => some (classDeclaration fuel)
  | .funWord => some (routine fuel .function >>= fun f => pure (.declareFunction f))
  | .varWord => some (variableDeclaration fuel)
  | _ => none

theorem declaration_eq_next (h : s.rest = t :: rest) {p : Parser Stmt} (hp : declarationBehind? fuel t = some p) :
    declaration (fuel + 1) s = p s.next := by
  rw [declaration, bind_eq, peek_eq h]
  unfold declarationBehind? at hp
  split at hp <;> cases hp
  all_goals
    rename_i hk
    simp only [hk, bind_eq, accept_pos h hk (by decide)]

theorem declaration_eq_class (h : s.rest = t :: rest) (hk : t.kind = .classWord) :
    declaration (fuel + 1) s = classDeclaration fuel s.next :=
  declaration_eq_next h (by rw [declarationBehind?, hk])

theorem declaration_eq_function (h : s.rest = t :: rest) (hk : t.kind = .funWord) :
    declaration (fuel + 1) s = (routine fuel .function >>= fun f => pure (.declareFunction f)) s.next :=
  declaration_eq_next h (by rw [declarationBehind?, hk])

theorem declaration_eq_variable (h : s.rest = t :: rest) (hk : t.kind = .varWord) :
    declaration (fuel + 1) s = variableDeclaration fuel s.next :=
  declaration_eq_next h (by rw [declarationBehind?, hk])

theorem declaration_eq_statement (h : s.rest = t :: rest) (hk : opensDeclaration t.kind = false) :
    declaration (fuel + 1) s = statement fuel s := by
  rw [declaration, bind_eq, peek_eq h]
  dsimp only
  generalize t.kind = kind at hk ⊢
  cases kind <;> simp only [opensDeclaration, Bool.true_eq_false] at hk <;> rfl

/-- A run that goes on like another one behind the next token has taken that token. -/
theorem Proceeds.of_next {α : Type} {enough enough' : Prop} {p q : Parser α} {post : α → State → Prop}
    (h : s.rest = t :: rest) (ht : t.kind ≠ .eof) (heq : p s = q s.next) (hq : Proceeds enough q s.next post)
    (he : enough' → enough) : Proceeds enough' p s (Shorter s) := by
  have hlt := left_next h
  unfold Proceeds at hq ⊢
  rw [heq]
  split at hq
  · exact ⟨(reads_next h ht).trans hq.1, Nat.lt_of_le_of_lt hq.1.left_le hlt⟩
  · exact ⟨(reads_next h ht).trans hq.1, by simpa using hq.2⟩
  · exact hq
  · exact fun h' => hq (he h')

theorem statement_proceeds_succ (ih : StatementsProceed fuel) (hs : Closed s.rest) :
    Proceeds (24 * s.left + 11 ≤ fuel + 1) (statement (fuel + 1)) s (Shorter s) := by
  obtain ⟨t, rest, h⟩ := hs.exists_cons
  by_cases hopen : opensStatement t.kind = false
  · have hp : Proceeds (24 * s.left + 11 ≤ fuel + 1) (expressionStatement fuel) s (Shorter s) :=
      (expressionStatement_proceeds hs).mono (fun h => by omega) fun _ _ _ h => h
    unfold Proceeds at hp ⊢
    rwa [statement_eq_expression h hopen]
  · have ht : t.kind ≠ .eof := fun he => hopen (by rw [he]; rfl)
    have hs' := (reads_next h ht).closed hs
    have hlt := left_next h
    cases hk : t.kind <;> simp only [hk, opensStatement, not_true_eq_false, Bool.true_eq_false, not_false_eq_true] at hopen
    case forWord => exact .of_next h ht (statement_eq_for h hk) (ih.forStatement hs') fun _ => by omega
    case ifWord => exact .of_next h ht (statement_eq_if h hk) (ih.ifStatement hs') fun _ => by omega
    case printWord => exact .of_next h ht (statement_eq_print h hk) (printStatement_proceeds hs') fun _ => by omega
    case returnWord => exact .of_next h ht (statement_eq_return h hk) (returnStatement_proceeds t hs') fun _ => by omega
    case whileWord => exact .of_next h ht (statement_eq_while h hk) (ih.whileStatement hs') fun _ => by omega
    case leftBrace =>
      have hblock : Proceeds (24 * s.left + 11 ≤ fuel + 1) (block fuel >>= fun body => pure (Stmt.block body)) s.next
          fun _ _ => True := (ih.block hs').bind (fun h => by omega) fun _ _ _ _ => .pure trivial
      exact .of_next h ht (statement_eq_block h hk) hblock id

theorem declaration_proceeds_succ (ih : StatementsProceed fuel) (hs : Closed s.rest) :
    Proceeds (24 * s.left + 12 ≤ fuel + 1) (declaration (fuel + 1)) s (Shorter s) := by
  obtain ⟨t, rest, h⟩ := hs.exists_cons
  by_cases hopen : opensDeclaration t.kind = false
  · have hp : Proceeds (24 * s.left + 12 ≤ fuel + 1) (statement fuel) s (Shorter s) :=
      (ih.statement hs).mono (fun h => by omega) fun _ _ _ h => h
    unfold Proceeds at hp ⊢
    rwa [declaration_eq_statement h hopen]
  · have ht : t.kind ≠ .eof := fun he => hopen (by rw [he]; rfl)
    have hs' := (reads_next h ht).closed hs
    have hlt := left_next h
    cases hk : t.kind <;>
      simp only [hk, opensDeclaration, not_true_eq_false, Bool.true_eq_false, not_false_eq_true] at hopen
    case classWord => exact .of_next h ht (declaration_eq_class h hk) (ih.classDeclaration hs') fun _ => by omega
    case funWord =>
      have hroutine : Proceeds (24 * s.left + 12 ≤ fuel + 1) (routine fuel .function >>= fun f => pure (Stmt.declareFunction f))
          s.next fun _ _ => True := (ih.routine .function hs').bind (fun h => by omega) fun _ _ _ _ => .pure trivial
      exact .of_next h ht (declaration_eq_function h hk) hroutine id
    case varWord =>
      exact .of_next h ht (declaration_eq_variable h hk) (variableDeclaration_proceeds hs') fun _ => by omega

theorem Proceeds.left_lt_of_broken {α : Type} {enough : Prop} {p q : Parser α} {post : α → State → Prop} {s' : State}
    (hq : Proceeds enough q s.next post) (h : s.rest = t :: rest) (heq : p s = q s.next)
    (hp : p s = .error .broken s') : s'.left < s.left :=
  Nat.lt_of_le_of_lt (hq.broken (heq.symm.trans hp)).1.left_le (left_next h)

theorem statementBroken_succ (ih : StatementsProceed fuel) {s' : State} (hs : Closed s.rest) (h : s.rest = t :: rest)
    (hopen : opensStatement t.kind = true) (hp : statement (fuel + 1) s = .error .broken s') : s'.left < s.left := by
  have ht : t.kind ≠ .eof := fun he => by rw [he] at hopen; cases hopen
  have hs' := (reads_next h ht).closed hs
  cases hk : t.kind <;> simp only [hk, opensStatement, Bool.false_eq_true] at hopen
  case forWord => exact (ih.forStatement hs').left_lt_of_broken h (statement_eq_for h hk) hp
  case ifWord => exact (ih.ifStatement hs').left_lt_of_broken h (statement_eq_if h hk) hp
  case printWord => exact (printStatement_proceeds hs').left_lt_of_broken h (statement_eq_print h hk) hp
  case returnWord => exact (returnStatement_proceeds t hs').left_lt_of_broken h (statement_eq_return h hk) hp
  case whileWord => exact (ih.whileStatement hs').left_lt_of_broken h (statement_eq_while h hk) hp
  case leftBrace =>
    have hblock : Proceeds _ (block fuel >>= fun body => pure (Stmt.block body)) s.next fun _ _ => True :=
      (ih.block hs').bind id fun _ _ _ _ => .pure trivial
    exact hblock.left_lt_of_broken h (statement_eq_block h hk) hp

theorem declarationBroken_succ (ih : StatementsProceed fuel) {s' : State} (hs : Closed s.rest) (h : s.rest = t :: rest)
    (hbound : isBoundary t.kind = true) (hp : declaration (fuel + 1) s = .error .broken s') : s'.left < s.left := by
  have ht : t.kind ≠ .eof := fun he => by rw [he] at hbound; cases hbound
  have hs' := (reads_next h ht).closed hs
  by_cases hopen : opensDeclaration t.kind = false
  · rw [declaration_eq_statement h hopen] at hp
    refine ih.statementBroken hs h ?_ hp
    cases hk : t.kind <;> simp only [hk, isBoundary, opensDeclaration, Bool.false_eq_true, Bool.true_eq_false] at hbound hopen <;>
      rfl
  · cases hk : t.kind <;>
      simp only [hk, opensDeclaration, not_true_eq_false, Bool.true_eq_false, not_false_eq_true] at hopen
    case classWord => exact (ih.classDeclaration hs').left_lt_of_broken h (declaration_eq_class h hk) hp
    case funWord =>
      have hroutine : Proceeds _ (routine fuel .function >>= fun f => pure (Stmt.declareFunction f)) s.next
          fun _ _ => True :=
        (ih.routine .function hs').bind id fun _ _ _ _ => .pure trivial
      exact hroutine.left_lt_of_broken h (declaration_eq_function h hk) hp
    case varWord => exact (variableDeclaration_proceeds hs').left_lt_of_broken h (declaration_eq_variable h hk) hp

end Statements

theorem statementsProceed (fuel : Nat) : StatementsProceed fuel := by
  induction fuel with
  | zero =>
    constructor
    case statementBroken => intro s s' t rest _ _ _ hp; cases hp
    case declarationBroken => intro s s' t rest _ _ _ hp; cases hp
    all_goals intros; exact .exhausted (by omega)
  | succ fuel ih =>
    exact ⟨declaration_proceeds_succ ih, classDeclaration_proceeds_succ ih, methods_proceeds_succ ih,
      routine_proceeds_succ ih, block_proceeds_succ ih, items_proceeds_succ ih, statement_proceeds_succ ih,
      forStatement_proceeds_succ ih, ifStatement_proceeds_succ ih, whileStatement_proceeds_succ ih,
      statementBroken_succ ih, declarationBroken_succ ih⟩

/-- A declaration before the end mark, made to recover, takes a token or has reached its bound. -/
theorem recovering_declaration_cases (fuel : Nat) {s : State} {t : Token} {rest : List Token} (hs : Closed s.rest)
    (h : s.rest = t :: rest) (ht : t.kind ≠ .eof) :
    (∃ o s', recovering (declaration fuel) s = .ok o s' ∧ Reads s s' ∧ s'.left < s.left ∧
      Recovered (declaration fuel) s o s') ∨
      (¬24 * s.left + 12 ≤ fuel ∧ ∃ s', recovering (declaration fuel) s = .error .exhausted s') :=
  recovering_cases hs h ht ((statementsProceed fuel).declaration hs) fun hb _ heq =>
    (statementsProceed fuel).declarationBroken hs h hb heq

/-- A whole program is read up to its end mark, or has reached its bound. -/
theorem program_cases (fuel : Nat) {s : State} (found : Array Stmt) (hs : Closed s.rest) :
    (∃ found' s', program fuel found s = .ok found' s' ∧ Reads s s' ∧ s'.left = 1) ∨
      (¬24 * s.left + 13 ≤ fuel ∧ ∃ s', program fuel found s = .error .exhausted s') := by
  induction fuel generalizing s found with
  | zero => exact Or.inr ⟨by omega, s, rfl⟩
  | succ fuel ih =>
    obtain ⟨t, rest, h⟩ := hs.exists_cons
    rw [program, bind_eq, atEnd_eq h]
    by_cases ht : t.kind = .eof
    · refine Or.inl ⟨found, s, by simp [ht, pure_eq], .refl s, ?_⟩
      rw [h] at hs
      cases hs with
      | last => simp [State.left, h]
      | cons hne => exact absurd ht hne
    · simp only [beq_eq_false_iff_ne.mpr ht, Bool.false_eq_true, ↓reduceIte, bind_eq]
      rcases recovering_declaration_cases fuel hs h ht with ⟨o, s₁, heq, hr, hlt, -⟩ | ⟨hne, s₁, heq⟩
      · rw [heq]
        -- Whether or not the declaration was broken, the rest of the program follows.
        have hrest : ∀ found, (∃ found' s', program fuel found s₁ = .ok found' s' ∧ Reads s s' ∧ s'.left = 1) ∨
            (¬24 * s.left + 13 ≤ fuel + 1 ∧ ∃ s', program fuel found s₁ = .error .exhausted s') := fun found => by
          rcases ih found (hr.closed hs) with ⟨found', s', heq', hr', hend⟩ | ⟨hne, s', heq'⟩
          · exact Or.inl ⟨found', s', heq', hr.trans hr', hend⟩
          · exact Or.inr ⟨by omega, s', heq'⟩
        cases o with
        | some statement => exact hrest _
        | none => exact hrest _
      · rw [heq]
        exact Or.inr ⟨by omega, s₁, rfl⟩

/-- The bound that a row is parsed with is enough. -/
theorem le_fuelFor (count : Nat) : 24 * count + 13 ≤ fuelFor count := by
  unfold fuelFor
  omega

theorem program_ok {fuel : Nat} {s : State} (found : Array Stmt) (hs : Closed s.rest) (he : 24 * s.left + 13 ≤ fuel) :
    ∃ found' s', program fuel found s = .ok found' s' ∧ Reads s s' ∧ s'.left = 1 :=
  (program_cases fuel found hs).resolve_right fun h => h.1 he

end LoxLanguage.Parser
