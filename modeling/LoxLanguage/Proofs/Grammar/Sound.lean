import LoxLanguage.Proofs.Grammar.Lookahead
import LoxLanguage.Proofs.Parser.Progress

/-! The parser reads nothing but the grammar. A run that gives a tree and reports nothing has taken tokens
that are derived from the nonterminal it was for, and its tree is the tree of that derivation. The proof
follows the parser, by induction on its bound; the bound itself plays no role. -/

namespace LoxLanguage.Grammar

open Token (Kind)
open LoxLanguage.Parser

/-! ### What a run finds -/

/-- If nothing was reported between `s` and `s'`, the tokens between them are derived by `D` with the tree `a`. -/
def Finds {α : Type} (D : Site → List Token → α → Site → Prop) (s : Parser.State) (a : α) (s' : Parser.State) : Prop :=
  s'.problems.size ≤ s.problems.size → ∃ ts, s.rest = ts ++ s'.rest ∧ D s.nextSite ts a s'.nextSite

/-- The run of `p` from `s` finds a derivation, if it gives a tree and reports nothing. -/
abbrev Sound {α : Type} (D : Site → List Token → α → Site → Prop) (p : Parser α) (s : Parser.State) : Prop :=
  Proceeds False p s (Finds D s)

section Tokens
variable {s : Parser.State} {kind : Kind} {test : Kind → Bool} {complaint : Complaint}

/-- The next token of `s` is `t`, and `s'` is the place behind it. -/
def Takes (s : Parser.State) (t : Token) (s' : Parser.State) : Prop :=
  ∃ rest, s.rest = t :: rest ∧ s' = s.next

namespace Takes

variable {t : Token} {s' : Parser.State}

theorem rest_eq (h : Takes s t s') : s.rest = t :: s'.rest := by
  obtain ⟨rest, h, rfl⟩ := h
  rw [h, next_rest h]

theorem site_eq (h : Takes s t s') : s'.nextSite = s.nextSite := by
  obtain ⟨rest, h, rfl⟩ := h
  exact next_nextSite s

theorem size_eq (h : Takes s t s') : s'.problems.size = s.problems.size := by
  obtain ⟨rest, h, rfl⟩ := h
  rw [next_problems]

/-- What is found behind a token, with that token. -/
theorem finds {α β : Type} {D : Site → List Token → α → Site → Prop} {E : Site → List Token → β → Site → Prop} {a : α} {b : β}
    {s'' : Parser.State} (h : Takes s t s') (hf : Finds D s' a s'') (hE : ∀ {n ts m}, D n ts a m → E n (t :: ts) b m) :
    Finds E s b s'' := fun hclean => by
  obtain ⟨ts, hts, hd⟩ := hf (h.size_eq ▸ hclean)
  rw [h.site_eq] at hd
  exact ⟨t :: ts, by rw [h.rest_eq, hts]; rfl, hE hd⟩

/-- What goes on behind a token finds a derivation that begins with it. -/
theorem proceeds {α : Type} {E : Site → List Token → α → Site → Prop} {p : Parser α} {s'' : Parser.State} (h : Takes s t s')
    (hp : Proceeds False p s'' (Finds (fun n ts a m => E n (t :: ts) a m) s')) : Proceeds False p s'' (Finds E s) :=
  hp.mono id fun _ _ _ hf => h.finds hf id

end Takes

theorem expect_takes (hs : Closed s.rest) (ht : kind ≠ .eof) :
    Proceeds False (expect kind complaint) s fun t s' => Takes s t s' ∧ t.kind = kind := by
  obtain ⟨t, rest, h⟩ := hs.exists_cons
  by_cases hk : t.kind = kind
  · exact .of_ok (expect_pos h hk ht) (reads_next h (hk ▸ ht)) ⟨⟨rest, h, rfl⟩, hk⟩
  · exact .of_broken (expect_neg h hk) (reads_report s _) (by simp [Parser.State.report])

/-- Either a token that passes the test has been taken, or the next one does not pass it. -/
theorem acceptIf_takes (hs : Closed s.rest) :
    Proceeds False (acceptIf test) s fun o s' =>
      (∃ t, o = some t ∧ Takes s t s' ∧ test t.kind = true) ∨
        (o = none ∧ s' = s ∧ ∃ t rest, s.rest = t :: rest ∧ (t.kind = .eof ∨ test t.kind = false)) := by
  obtain ⟨t, rest, h⟩ := hs.exists_cons
  by_cases hk : t.kind = .eof ∨ test t.kind = false
  · exact .of_ok (acceptIf_neg h hk) (.refl s) (Or.inr ⟨rfl, rfl, t, rest, h, hk⟩)
  · simp only [not_or, Bool.not_eq_false] at hk
    exact .of_ok (acceptIf_pos h hk.1 hk.2) (reads_next h hk.1) (Or.inl ⟨t, rfl, ⟨rest, h, rfl⟩, hk.2⟩)

theorem accept_takes (hs : Closed s.rest) :
    Proceeds False (accept kind) s fun o s' =>
      (∃ t, o = some t ∧ Takes s t s' ∧ t.kind = kind) ∨
        (o = none ∧ s' = s ∧ ∃ t rest, s.rest = t :: rest ∧ (t.kind = .eof ∨ t.kind ≠ kind)) :=
  (acceptIf_takes hs).mono id fun _ _ _ h => by simpa using h

theorem accept_takes_of_kind {t : Token} {rest : List Token} (h : s.rest = t :: rest) (hk : t.kind = kind)
    (ht : kind ≠ .eof) : Proceeds False (accept kind) s fun _ s' => Takes s t s' :=
  .of_ok (accept_pos h hk ht) (reads_next h (hk ▸ ht)) ⟨rest, h, rfl⟩

theorem check_tells (hs : Closed s.rest) :
    Proceeds False (check kind) s fun b s' =>
      s' = s ∧ ∃ t rest, s.rest = t :: rest ∧ (b = true ↔ t.kind ≠ .eof ∧ t.kind = kind) := by
  obtain ⟨t, rest, h⟩ := hs.exists_cons
  exact .of_ok (check_eq h) (.refl s) ⟨rfl, t, rest, h, by simp⟩

theorem freshSite_gives (s : Parser.State) :
    Proceeds False freshSite s fun n s' =>
      n = s.nextSite ∧ s'.nextSite = s.nextSite + 1 ∧ s'.rest = s.rest ∧ s'.problems = s.problems :=
  .of_ok rfl ⟨⟨[], rfl, rfl, by simp⟩, List.prefix_rfl⟩ ⟨rfl, rfl, rfl, rfl⟩

/-- What is read in front of a token that has to follow, and that token. -/
theorem Sound.endedBy {α β : Type} {D : Site → List Token → α → Site → Prop} {E : Site → List Token → β → Site → Prop}
    {p : Parser α} {f : α → β} (hp : Sound D p s) (hs : Closed s.rest) (hkind : kind ≠ .eof)
    (hE : ∀ {n ts a m t}, D n ts a m → t.kind = kind → E n (ts ++ [t]) (f a) m) :
    Sound E (do let a ← p; let _ ← expect kind complaint; return f a) s := by
  refine hp.bind id fun a s₁ hr₁ h₁ => ?_
  refine (expect_takes (hr₁.closed hs) hkind).bind id fun t s₂ _ h₂ => .pure fun hclean => ?_
  obtain ⟨htakes, ht⟩ := h₂
  have := htakes.size_eq
  obtain ⟨ts, hts, hd⟩ := h₁ (by omega)
  refine ⟨ts ++ [t], by rw [hts, htakes.rest_eq]; simp, ?_⟩
  rw [htakes.site_eq]
  exact hE hd ht

/-- Where one part too many is read, something is reported. -/
theorem complainIfFull_tells {count : Nat} (hs : Closed s.rest) :
    Proceeds False (complainIfFull count complaint) s fun _ s' =>
      s'.problems.size ≤ s.problems.size → s' = s ∧ count < maxArguments := by
  obtain ⟨t, rest, h⟩ := hs.exists_cons
  by_cases hc : maxArguments ≤ count
  · refine .of_ok (complainIfFull_eq_of_le hc h) (reads_report s _) fun hle => ?_
    simp only [Parser.State.report, Array.size_push] at hle
    omega
  · exact .of_ok (complainIfFull_eq_of_lt (Nat.not_le.mp hc)) (.refl s) fun _ => ⟨rfl, Nat.not_le.mp hc⟩

end Tokens

/-! ### Targets of assignments -/

theorem node_of_rule {X : Symbol} {rule : OperatorRule} (h : X.rule? = some rule) :
    rule.node = .logical ∨ rule.node = .binary := by
  cases X <;> cases h <;> simp

/-- What is derived with the tree of a name is that name. -/
theorem Derives.of_use {X : Symbol} {n m site : Site} {ts : List Token} {name : Token}
    (h : Derives X n ts (.use site name) m) : ts = [name] ∧ name.kind = .identifier ∧ site = n ∧ m = n + 1 := by
  generalize he : Expr.use site name = e at h
  induction h using @Derives.rec _ (fun _ _ _ _ _ => True) (fun _ _ _ _ _ => True) with
  | value _ ih => exact ih he
  | operand _ _ ih => exact ih he
  | operator hrule => rcases node_of_rule hrule with hnode | hnode <;> rw [hnode] at he <;> cases he
  | plain _ ih => exact ih he
  | atom _ ih => exact ih he
  | name h => cases he; exact ⟨rfl, h, rfl, rfl⟩
  | none => trivial
  | some => trivial
  | last => trivial
  | more => trivial
  | _ => cases he

/-- What is derived with the tree of a property ends in its name, behind what its object is derived from. -/
theorem Derives.of_get {X : Symbol} {n m : Site} {ts : List Token} {object : Expr} {name : Token}
    (h : Derives X n ts (.get object name) m) :
    ∃ us dot, ts = us ++ [dot, name] ∧ dot.kind = .dot ∧ name.kind = .identifier ∧ Derives .call n us object m := by
  generalize he : Expr.get object name = e at h
  induction h using @Derives.rec _ (fun _ _ _ _ _ => True) (fun _ _ _ _ _ => True) with
  | value _ ih => exact ih he
  | operand _ _ ih => exact ih he
  | operator hrule => rcases node_of_rule hrule with hnode | hnode <;> rw [hnode] at he <;> cases he
  | plain _ ih => exact ih he
  | atom _ ih => exact ih he
  | property hobject hdot hname => cases he; exact ⟨_, _, rfl, hdot, hname, hobject⟩
  | none => trivial
  | some => trivial
  | last => trivial
  | more => trivial
  | _ => cases he

/-- An assignment is derived when its target is derived in front of the equals sign and can be assigned to. -/
theorem Derives.of_assignment? {n k m : Site} {ts us : List Token} {target value e : Expr} {equals : Token}
    (htarget : Derives .logicOr n ts target k) (hequals : equals.kind = .equal) (hvalue : Derives .assignment k us value m)
    (h : assignment? target value = some e) : Derives .assignment n (ts ++ equals :: us) e m := by
  unfold assignment? at h
  split at h
  · cases h
    obtain ⟨rfl, hname, rfl, rfl⟩ := htarget.of_use
    exact .assignVariable hname hequals hvalue
  · cases h
    obtain ⟨vs, dot, rfl, hdot, hname, hobject⟩ := htarget.of_get
    rw [List.append_assoc]
    exact .assignProperty hobject hdot hname hequals hvalue
  · cases h

/-! ### Expressions -/

/-- The parsers of expressions find derivations, at a bound. -/
structure ExpressionsSound (fuel : Nat) : Prop where
  expression : ∀ {s : Parser.State}, Closed s.rest → Sound (Derives .assignment) (expression fuel) s
  operation : ∀ {s : Parser.State} {X : Symbol}, X.IsOperation → Closed s.rest →
    Sound (Derives X) (operation fuel X.levels) s
  chain : ∀ {s : Parser.State} {X : Symbol} {rule : OperatorRule} {level : Level} {left : Expr} {n : Site} {ts : List Token},
    X.rule? = some rule → level.join = rule.node → (∀ kind, level.has kind = true ↔ kind ∈ rule.operators) →
    Derives X n ts left s.nextSite → Closed s.rest →
    Sound (fun _ us e m => Derives X n (ts ++ us) e m) (chain fuel level rule.operand.levels left) s
  unary : ∀ {s : Parser.State}, Closed s.rest → Sound (Derives .unary) (unary fuel) s
  suffixes : ∀ {s : Parser.State} {e : Expr} {n : Site} {ts : List Token}, Derives .call n ts e s.nextSite → Closed s.rest →
    Sound (fun _ us e m => Derives .call n (ts ++ us) e m) (suffixes fuel e) s
  argumentsIfAny : ∀ {s : Parser.State}, Closed s.rest →
    Sound (fun n ts given m => Arguments n ts given.toList m ∧ given.size ≤ maxArguments) (argumentsIfAny fuel) s
  arguments : ∀ {s : Parser.State} (given : Array Expr), Closed s.rest →
    Sound (fun n ts all m => ∃ more, all = given ++ more ∧ SomeArguments n ts more.toList m ∧ all.size ≤ maxArguments)
      (arguments fuel given) s
  primary : ∀ {s : Parser.State}, Closed s.rest → Sound (Derives .primary) (primary fuel) s

section Expressions
variable {fuel : Nat} {s : Parser.State}

theorem expression_sound_succ (ih : ExpressionsSound fuel) (hs : Closed s.rest) :
    Sound (Derives .assignment) (expression (fuel + 1)) s := by
  rw [expression]
  refine (ih.operation (X := .logicOr) (.rule rfl) hs).bind id fun target s₁ hr₁ h₁ => ?_
  have hs₁ := hr₁.closed hs
  refine (accept_takes hs₁).bind id fun o s₂ hr₂ h₂ => ?_
  rcases h₂ with ⟨equals, rfl, htakes, hequals⟩ | ⟨rfl, rfl, -⟩
  · refine (ih.expression (hr₂.closed hs₁)).bind id fun value s₃ hr₃ h₃ => ?_
    have := hr₁.size_le
    have := htakes.size_eq
    cases hassign : assignment? target value with
    | some e =>
      refine .pure fun hclean => ?_
      have := hr₃.size_le
      obtain ⟨ts, hts, hd⟩ := h₁ (by omega)
      obtain ⟨us, hus, hd'⟩ := h₃ (by omega)
      refine ⟨ts ++ equals :: us, by rw [hts, htakes.rest_eq, hus]; simp, ?_⟩
      rw [htakes.site_eq] at hd'
      exact hd.of_assignment? hequals hd' hassign
    | none =>
      -- The target cannot be assigned to, and that is reported.
      have hreport : Proceeds False (complain equals .invalidAssignmentTarget) s₃ fun _ s₄ =>
          s₃.problems.size < s₄.problems.size :=
        .of_ok (complain_eq equals s₃) (reads_report s₃ _) (by simp [Parser.State.report])
      refine hreport.bind id fun _ s₄ hr₄ h₄ => .pure fun hclean => ?_
      have := hr₃.size_le
      omega
  · refine .pure fun hclean => ?_
    obtain ⟨ts, hts, hd⟩ := h₁ hclean
    exact ⟨ts, hts, .value hd⟩

theorem operation_sound_succ (ih : ExpressionsSound fuel) {X : Symbol} (hX : X.IsOperation) (hs : Closed s.rest) :
    Sound (Derives X) (operation (fuel + 1) X.levels) s := by
  cases hX with
  | unary =>
    show Proceeds False (operation (fuel + 1) []) s _
    rw [operation]
    exact ih.unary hs
  | @rule _ rule hrule =>
    obtain ⟨level, hlevels, hjoin, hhas⟩ := levels_of_rule hrule
    rw [hlevels, operation]
    refine (ih.operation (isOperation_operand hrule) hs).bind id fun left s₁ hr₁ h₁ => ?_
    have hs₁ := hr₁.closed hs
    by_cases hclean₁ : s₁.problems.size ≤ s.problems.size
    · obtain ⟨ts, hts, hd⟩ := h₁ hclean₁
      refine (ih.chain hrule hjoin hhas (.operand hrule hd) hs₁).mono id fun e s₂ hr₂ h₂ hclean => ?_
      obtain ⟨us, hus, hd'⟩ := h₂ (Nat.le_trans hclean hr₁.size_le)
      exact ⟨ts ++ us, by rw [hts, hus, List.append_assoc], hd'⟩
    · refine ((expressionsProceed fuel).chain level _ left ?_ hs₁).mono False.elim fun e s₂ hr₂ _ hclean => ?_
      · have hlength : X.levels.length ≤ 6 := by cases X <;> decide
        rw [hlevels, List.length_cons] at hlength
        omega
      · exact absurd (Nat.le_trans hr₂.size_le hclean) hclean₁

theorem chain_sound_succ (ih : ExpressionsSound fuel) {X : Symbol} {rule : OperatorRule} {level : Level} {left : Expr}
    {n : Site} {ts : List Token} (hrule : X.rule? = some rule) (hjoin : level.join = rule.node)
    (hhas : ∀ kind, level.has kind = true ↔ kind ∈ rule.operators) (hleft : Derives X n ts left s.nextSite)
    (hs : Closed s.rest) :
    Sound (fun _ us e m => Derives X n (ts ++ us) e m) (chain (fuel + 1) level rule.operand.levels left) s := by
  rw [chain]
  refine (acceptIf_takes hs).bind id fun o s₁ hr₁ h₁ => ?_
  have hs₁ := hr₁.closed hs
  rcases h₁ with ⟨operator, rfl, htakes, hoperator⟩ | ⟨rfl, rfl, -⟩
  · refine (ih.operation (isOperation_operand hrule) hs₁).bind id fun right s₂ hr₂ h₂ => ?_
    have hs₂ := hr₂.closed hs₁
    have := htakes.size_eq
    by_cases hclean₂ : s₂.problems.size ≤ s₁.problems.size
    · obtain ⟨us, hus, hd⟩ := h₂ hclean₂
      rw [htakes.site_eq] at hd
      have hjoined : Derives X n (ts ++ operator :: us) (level.join left operator right) s₂.nextSite := by
        rw [hjoin]
        exact .operator hrule hleft ((hhas _).mp hoperator) hd
      refine (ih.chain hrule hjoin hhas hjoined hs₂).mono id fun e s₃ hr₃ h₃ hclean => ?_
      have := hr₂.size_le
      obtain ⟨vs, hvs, hd'⟩ := h₃ (by omega)
      refine ⟨operator :: (us ++ vs), by rw [htakes.rest_eq, hus, hvs]; simp, ?_⟩
      simpa using hd'
    · refine ((expressionsProceed fuel).chain level _ _ ?_ hs₂).mono False.elim fun e s₃ hr₃ _ hclean => ?_
      · have : rule.operand.levels.length ≤ 6 := by cases rule.operand <;> decide
        exact this
      · have := hr₃.size_le
        omega
  · exact .pure fun _ => ⟨[], rfl, by simpa using hleft⟩

/-- An expression with the calls and properties behind it. -/
theorem primary_suffixes_sound (ih : ExpressionsSound fuel) (hs : Closed s.rest) :
    Sound (Derives .call) (primary fuel >>= suffixes fuel) s := by
  refine (ih.primary hs).bind id fun e s₁ hr₁ h₁ => ?_
  have hs₁ := hr₁.closed hs
  by_cases hclean₁ : s₁.problems.size ≤ s.problems.size
  · obtain ⟨ts, hts, hd⟩ := h₁ hclean₁
    refine (ih.suffixes (.atom hd) hs₁).mono id fun e s₂ hr₂ h₂ hclean => ?_
    have := hr₁.size_le
    obtain ⟨us, hus, hd'⟩ := h₂ (by omega)
    exact ⟨ts ++ us, by rw [hts, hus, List.append_assoc], hd'⟩
  · refine ((expressionsProceed fuel).suffixes e hs₁).mono False.elim fun e s₂ hr₂ _ hclean => ?_
    exact absurd (Nat.le_trans hr₂.size_le hclean) hclean₁

theorem unary_sound_succ (ih : ExpressionsSound fuel) (hs : Closed s.rest) :
    Sound (Derives .unary) (unary (fuel + 1)) s := by
  rw [unary]
  refine (acceptIf_takes hs).bind id fun o s₁ hr₁ h₁ => ?_
  have hs₁ := hr₁.closed hs
  rcases h₁ with ⟨operator, rfl, htakes, hoperator⟩ | ⟨rfl, rfl, -⟩
  · refine (ih.unary hs₁).bind id fun operand s₂ hr₂ h₂ => .pure fun hclean => ?_
    have := htakes.size_eq
    obtain ⟨ts, hts, hd⟩ := h₂ (by omega)
    rw [htakes.site_eq] at hd
    refine ⟨operator :: ts, by rw [htakes.rest_eq, hts]; rfl, .negation ?_ hd⟩
    generalize operator.kind = kind at hoperator
    cases kind <;> simp [isUnary] at hoperator ⊢
  · refine (primary_suffixes_sound ih hs).mono id fun e s₂ _ h₂ hclean => ?_
    obtain ⟨ts, hts, hd⟩ := h₂ hclean
    exact ⟨ts, hts, .plain hd⟩

theorem suffixes_sound_succ (ih : ExpressionsSound fuel) {e : Expr} {n : Site} {ts : List Token}
    (he : Derives .call n ts e s.nextSite) (hs : Closed s.rest) :
    Sound (fun _ us e m => Derives .call n (ts ++ us) e m) (suffixes (fuel + 1) e) s := by
  rw [suffixes]
  refine (accept_takes hs).bind id fun o s₁ hr₁ h₁ => ?_
  have hs₁ := hr₁.closed hs
  rcases h₁ with ⟨opening, rfl, htakes, hopening⟩ | ⟨rfl, rfl, -⟩
  · have := htakes.size_eq
    refine (ih.argumentsIfAny hs₁).bind id fun given s₂ hr₂ h₂ => ?_
    have hs₂ := hr₂.closed hs₁
    refine (expect_takes hs₂ (by decide)).bind id fun closing s₃ hr₃ h₃ => ?_
    obtain ⟨htakes', hclosing⟩ := h₃
    have := htakes'.size_eq
    have hs₃ := hr₃.closed hs₂
    by_cases hclean₂ : s₂.problems.size ≤ s₁.problems.size
    · obtain ⟨us, hus, hgiven, hlength⟩ := h₂ hclean₂
      rw [htakes.site_eq] at hgiven
      have hcall : Derives .call n (ts ++ opening :: (us ++ [closing])) (.call e closing given.toList) s₃.nextSite := by
        rw [htakes'.site_eq]
        exact .call he hopening hgiven (by simpa [maxArguments] using hlength) hclosing
      refine (ih.suffixes hcall hs₃).mono id fun e s₄ hr₄ h₄ hclean => ?_
      have := hr₂.size_le
      obtain ⟨vs, hvs, hd⟩ := h₄ (by omega)
      refine ⟨opening :: (us ++ closing :: vs), by rw [htakes.rest_eq, hus, htakes'.rest_eq, hvs]; simp, ?_⟩
      simpa using hd
    · refine ((expressionsProceed fuel).suffixes _ hs₃).mono False.elim fun e s₄ hr₄ _ hclean => ?_
      have := hr₄.size_le
      omega
  · refine (accept_takes hs).bind id fun o s₂ hr₂ h₂ => ?_
    have hs₂ := hr₂.closed hs
    rcases h₂ with ⟨dot, rfl, htakes, hdot⟩ | ⟨rfl, rfl, -⟩
    · have := htakes.size_eq
      refine (expect_takes hs₂ (by decide)).bind id fun name s₃ hr₃ h₃ => ?_
      obtain ⟨htakes', hname⟩ := h₃
      have := htakes'.size_eq
      have hget : Derives .call n (ts ++ [dot, name]) (.get e name) s₃.nextSite := by
        rw [htakes'.site_eq, htakes.site_eq]
        exact .property he hdot hname
      refine (ih.suffixes hget (hr₃.closed hs₂)).mono id fun e s₄ hr₄ h₄ hclean => ?_
      obtain ⟨vs, hvs, hd⟩ := h₄ (by omega)
      refine ⟨dot :: name :: vs, by rw [htakes.rest_eq, htakes'.rest_eq, hvs]; rfl, ?_⟩
      simpa using hd
    · exact .pure fun _ => ⟨[], rfl, by simpa using he⟩

theorem argumentsIfAny_sound_succ (ih : ExpressionsSound fuel) (hs : Closed s.rest) :
    Sound (fun n ts given m => Arguments n ts given.toList m ∧ given.size ≤ maxArguments)
      (argumentsIfAny (fuel + 1)) s := by
  rw [argumentsIfAny]
  refine (check_tells hs).bind id fun b s₁ _ h₁ => ?_
  obtain ⟨rfl, -⟩ := h₁
  split
  · exact .pure fun _ => ⟨[], rfl, .none, Nat.zero_le _⟩
  · refine (ih.arguments #[] hs).mono id fun given s₂ _ h₂ hclean => ?_
    obtain ⟨ts, hts, more, rfl, hmore, hlength⟩ := h₂ hclean
    exact ⟨ts, hts, .some (by simpa using hmore), hlength⟩

theorem arguments_sound_succ (ih : ExpressionsSound fuel) (given : Array Expr) (hs : Closed s.rest) :
    Sound (fun n ts all m => ∃ more, all = given ++ more ∧ SomeArguments n ts more.toList m ∧ all.size ≤ maxArguments)
      (arguments (fuel + 1) given) s := by
  rw [arguments]
  refine (complainIfFull_tells hs).bind id fun _ s₁ hr₁ h₁ => ?_
  have hs₁ := hr₁.closed hs
  have := hr₁.size_le
  refine (ih.expression hs₁).bind id fun e s₂ hr₂ h₂ => ?_
  have hs₂ := hr₂.closed hs₁
  have := hr₂.size_le
  refine (accept_takes hs₂).bind id fun o s₃ hr₃ h₃ => ?_
  rcases h₃ with ⟨comma, rfl, htakes, hcomma⟩ | ⟨rfl, rfl, -⟩
  · have := htakes.size_eq
    refine (ih.arguments (given.push e) (hr₃.closed hs₂)).mono id fun all s₄ hr₄ h₄ hclean => ?_
    have := hr₄.size_le
    obtain ⟨rfl, -⟩ := h₁ (by omega)
    obtain ⟨ts, hts, hd⟩ := h₂ (by omega)
    obtain ⟨us, hus, more, rfl, hmore, hlength⟩ := h₄ (by omega)
    rw [htakes.site_eq] at hmore
    refine ⟨ts ++ comma :: us, by rw [hts, htakes.rest_eq, hus]; simp, #[e] ++ more, by simp, ?_, hlength⟩
    simpa using SomeArguments.more hd hcomma hmore
  · refine .pure fun hclean => ?_
    obtain ⟨rfl, hcount⟩ := h₁ (by omega)
    obtain ⟨ts, hts, hd⟩ := h₂ hclean
    refine ⟨ts, hts, #[e], by simp, .last hd, ?_⟩
    simp only [Array.size_push]
    omega

theorem primary_sound_succ (ih : ExpressionsSound fuel) (hs : Closed s.rest) :
    Sound (Derives .primary) (primary (fuel + 1)) s := by
  rw [primary]
  refine (peek_proceeds hs).bind id fun t s₀ _ h₀ => ?_
  obtain ⟨rfl, rest, h⟩ := h₀
  -- Most primary expressions are a single token without a use.
  have single {kind : Kind} {e : Expr} (hk : t.kind = kind) (ht : kind ≠ .eof)
      (hd : Derives .primary s₀.nextSite [t] e s₀.nextSite) :
      Sound (Derives .primary) (do let _ ← accept kind; return e) s₀ := by
    refine (accept_takes_of_kind h hk ht).bind id fun _ s₁ _ htakes => .pure fun _ => ?_
    exact ⟨[t], htakes.rest_eq, by rwa [htakes.site_eq]⟩
  -- A name and `this` are a use, at the next free site.
  have use {kind : Kind} {e : Site → Expr} (hk : t.kind = kind) (ht : kind ≠ .eof)
      (hd : Derives .primary s₀.nextSite [t] (e s₀.nextSite) (s₀.nextSite + 1)) :
      Sound (Derives .primary) (do let _ ← accept kind; return e (← freshSite)) s₀ := by
    refine (accept_takes_of_kind h hk ht).bind id fun _ s₁ _ htakes => ?_
    refine (freshSite_gives s₁).bind id fun n s₂ _ h₂ => .pure fun _ => ?_
    obtain ⟨rfl, hsite, hrest, -⟩ := h₂
    exact ⟨[t], by rw [htakes.rest_eq, hrest]; rfl, by rwa [hsite, htakes.site_eq]⟩
  split
  case h_1 hk => exact single hk (by decide) (.falseWord hk)
  case h_2 hk => exact single hk (by decide) (.trueWord hk)
  case h_3 hk => exact single hk (by decide) (.nilWord hk)
  case h_4 hk => exact single hk (by decide) (.constant (Or.inl hk))
  case h_5 hk => exact single hk (by decide) (.constant (Or.inr hk))
  case h_6 hk => exact use (e := fun n => .this n t) hk (by decide) (.this hk)
  case h_7 hk => exact use (e := fun n => .use n t) hk (by decide) (.name hk)
  case h_8 hk =>
    refine (accept_takes_of_kind h hk (by decide)).bind id fun _ s₁ hr₁ htakes => ?_
    have hs₁ := hr₁.closed hs
    exact htakes.proceeds ((ih.expression hs₁).endedBy hs₁ (by decide) (.grouping hk))
  case h_9 => exact fail_proceeds hs

end Expressions

theorem expressionsSound (fuel : Nat) : ExpressionsSound fuel := by
  induction fuel with
  | zero =>
    constructor <;> intros <;> exact .exhausted id
  | succ fuel ih =>
    exact ⟨expression_sound_succ ih, operation_sound_succ ih, chain_sound_succ ih, unary_sound_succ ih,
      suffixes_sound_succ ih, argumentsIfAny_sound_succ ih, arguments_sound_succ ih, primary_sound_succ ih⟩

/-! ### Parts of statements -/

section Parts
variable {fuel : Nat} {s : Parser.State}

theorem expression_sound (hs : Closed s.rest) : Sound Expression (expression fuel) s :=
  (expressionsSound fuel).expression hs

theorem parameters_sound (given : Array Token) (hs : Closed s.rest) :
    Sound (fun n ts all m => m = n ∧ ∃ more, all = given ++ more ∧ SomeParameters ts more.toList ∧ all.size ≤ maxArguments)
      (parameters fuel given) s := by
  induction fuel generalizing s given with
  | zero => exact .exhausted id
  | succ fuel ih =>
    rw [parameters]
    refine (complainIfFull_tells hs).bind id fun _ s₁ hr₁ h₁ => ?_
    have hs₁ := hr₁.closed hs
    have := hr₁.size_le
    refine (expect_takes hs₁ (by decide)).bind id fun name s₂ hr₂ h₂ => ?_
    obtain ⟨htakes, hname⟩ := h₂
    have := htakes.size_eq
    have hs₂ := hr₂.closed hs₁
    refine (accept_takes hs₂).bind id fun o s₃ hr₃ h₃ => ?_
    rcases h₃ with ⟨comma, rfl, htakes', hcomma⟩ | ⟨rfl, rfl, -⟩
    · have := htakes'.size_eq
      refine (ih (given.push name) (hr₃.closed hs₂)).mono id fun all s₄ hr₄ h₄ hclean => ?_
      have := hr₄.size_le
      obtain ⟨rfl, -⟩ := h₁ (by omega)
      obtain ⟨us, hus, hsite, more, rfl, hmore, hlength⟩ := h₄ (by omega)
      refine ⟨name :: comma :: us, by rw [htakes.rest_eq, htakes'.rest_eq, hus]; rfl, ?_, #[name] ++ more, by simp, ?_,
        hlength⟩
      · rw [hsite, htakes'.site_eq, htakes.site_eq]
      · simpa using SomeParameters.more hname hcomma hmore
    · refine .pure fun hclean => ?_
      obtain ⟨rfl, hcount⟩ := h₁ (by omega)
      refine ⟨[name], by rw [htakes.rest_eq]; rfl, htakes.site_eq, #[name], by simp, .last hname, ?_⟩
      simp only [Array.size_push]
      omega

theorem parametersIfAny_sound (hs : Closed s.rest) :
    Sound (fun n ts given m => m = n ∧ Parameters ts given.toList ∧ given.size ≤ maxArguments)
      (parametersIfAny fuel) s := by
  rw [parametersIfAny]
  refine (check_tells hs).bind id fun b s₁ _ h₁ => ?_
  obtain ⟨rfl, -⟩ := h₁
  split
  · exact .pure fun _ => ⟨[], rfl, rfl, .none, Nat.zero_le _⟩
  · refine (parameters_sound #[] hs).mono id fun given s₂ _ h₂ hclean => ?_
    obtain ⟨ts, hts, hsite, more, rfl, hmore, hlength⟩ := h₂ hclean
    exact ⟨ts, hts, hsite, .some (by simpa using hmore), hlength⟩

theorem initializerIfAny_sound (hs : Closed s.rest) :
    Sound (fun n ts value m => (ts = [] ∧ value = none ∧ m = n) ∨
        ∃ equals us e, ts = equals :: us ∧ value = some e ∧ equals.kind = .equal ∧ Expression n us e m)
      (initializerIfAny fuel) s := by
  rw [initializerIfAny]
  refine (accept_takes hs).bind id fun o s₁ hr₁ h₁ => ?_
  rcases h₁ with ⟨equals, rfl, htakes, hequals⟩ | ⟨rfl, rfl, -⟩
  · refine (expression_sound (hr₁.closed hs)).map fun e s₂ _ h₂ => ?_
    exact htakes.finds h₂ fun hd => Or.inr ⟨equals, _, e, rfl, rfl, hequals, hd⟩
  · exact .pure fun _ => ⟨[], rfl, Or.inl ⟨rfl, rfl, rfl⟩⟩

/-- Behind a `var`. -/
theorem variableDeclaration_sound {keyword : Token} (hkeyword : keyword.kind = .varWord) (hs : Closed s.rest) :
    Sound (fun n ts a m => Variable n (keyword :: ts) a m) (variableDeclaration fuel) s := by
  rw [variableDeclaration]
  refine (expect_takes hs (by decide)).bind id fun name s₁ hr₁ h₁ => ?_
  obtain ⟨htakes, hname⟩ := h₁
  have hs₁ := hr₁.closed hs
  refine htakes.proceeds ((initializerIfAny_sound hs₁).endedBy hs₁ (by decide) fun hd hsemicolon => ?_)
  rcases hd with ⟨rfl, rfl, rfl⟩ | ⟨equals, us, e, rfl, rfl, hequals, hd⟩
  · exact .plain hkeyword hname hsemicolon
  · exact .initialized hkeyword hname hequals hd hsemicolon

theorem expressionStatement_sound (hs : Closed s.rest) :
    Sound (fun n ts a m => ∃ us semicolon e, ts = us ++ [semicolon] ∧ a = .expression e ∧ semicolon.kind = .semicolon ∧
        Expression n us e m)
      (expressionStatement fuel) s := by
  rw [expressionStatement]
  exact (expression_sound hs).endedBy hs (by decide) fun hd hsemicolon => ⟨_, _, _, rfl, rfl, hsemicolon, hd⟩

theorem expressionUnless_sound (kind : Kind) (hs : Closed s.rest) :
    Sound OptionalExpression (expressionUnless kind fuel) s := by
  rw [expressionUnless]
  refine (check_tells hs).bind id fun b s₁ _ h₁ => ?_
  obtain ⟨rfl, -⟩ := h₁
  split
  · exact .pure fun _ => ⟨[], rfl, .none⟩
  · refine (expression_sound hs).map fun e s₂ _ h₂ hclean => ?_
    obtain ⟨ts, hts, hd⟩ := h₂ hclean
    exact ⟨ts, hts, .some hd⟩

/-- Behind a `print`. -/
theorem printStatement_sound {keyword : Token} (hkeyword : keyword.kind = .printWord) (hs : Closed s.rest) :
    Sound (fun n ts a m => Statement false n (keyword :: ts) a m) (printStatement fuel) s := by
  rw [printStatement]
  exact (expression_sound hs).endedBy hs (by decide) (.print hkeyword)

/-- Behind a `return`. -/
theorem returnStatement_sound {keyword : Token} (hkeyword : keyword.kind = .returnWord) (hs : Closed s.rest) :
    Sound (fun n ts a m => Statement false n (keyword :: ts) a m) (returnStatement fuel keyword) s := by
  rw [returnStatement]
  exact (expressionUnless_sound .semicolon hs).endedBy hs (by decide) (.returns hkeyword)

theorem forInitializer_sound (hs : Closed s.rest) : Sound Initializer (forInitializer fuel) s := by
  rw [forInitializer]
  refine (accept_takes hs).bind id fun o s₁ hr₁ h₁ => ?_
  rcases h₁ with ⟨semicolon, rfl, htakes, hsemicolon⟩ | ⟨rfl, rfl, -⟩
  · refine .pure fun _ => ⟨[semicolon], htakes.rest_eq, ?_⟩
    rw [htakes.site_eq]
    exact .none hsemicolon
  · refine (accept_takes hs).bind id fun o s₂ hr₂ h₂ => ?_
    rcases h₂ with ⟨keyword, rfl, htakes, hkeyword⟩ | ⟨rfl, rfl, -⟩
    · exact (variableDeclaration_sound hkeyword (hr₂.closed hs)).map fun a s₃ _ h₃ => htakes.finds h₃ .declaration
    · refine (expressionStatement_sound hs).map fun a s₃ _ h₃ hclean => ?_
      obtain ⟨ts, hts, us, semicolon, e, rfl, rfl, hsemicolon, hd⟩ := h₃ hclean
      exact ⟨us ++ [semicolon], hts, .expression hd hsemicolon⟩

end Parts

/-! ### Statements -/

/-- If nothing was reported between `s` and `s'`, the tokens between them are derived as a statement when `lead` is
    put in front, and no `else` follows where the statement dangles. -/
def FindsStatement (lead : List Token) (s : Parser.State) (a : Stmt) (s' : Parser.State) : Prop :=
  s'.problems.size ≤ s.problems.size → ∃ ts dangles, s.rest = ts ++ s'.rest ∧
    Statement dangles s.nextSite (lead ++ ts) a s'.nextSite ∧ (dangles = true → NoElse s'.rest)

theorem Finds.statement {lead : List Token} {s s' : Parser.State} {a : Stmt}
    (h : Finds (fun n ts a m => Statement false n (lead ++ ts) a m) s a s') : FindsStatement lead s a s' := fun hclean => by
  obtain ⟨ts, hts, hd⟩ := h hclean
  exact ⟨ts, false, hts, hd, nofun⟩

/-- The parsers of statements find derivations, at a bound. -/
structure StatementsSound (fuel : Nat) : Prop where
  declaration : ∀ {s : Parser.State}, Closed s.rest → Sound Declaration (declaration fuel) s
  classDeclaration : ∀ {s : Parser.State} {keyword : Token}, keyword.kind = .classWord → Closed s.rest →
    Sound (fun n ts a m => Declaration n (keyword :: ts) a m) (classDeclaration fuel) s
  methods : ∀ {s : Parser.State} (found : Array Function), Closed s.rest →
    Sound (fun n ts all m => ∃ more, all = found ++ more ∧ Methods n ts more.toList m) (methods fuel found) s
  routine : ∀ {s : Parser.State} (kind : LoxLanguage.Routine), Closed s.rest → Sound Routine (routine fuel kind) s
  block : ∀ {s : Parser.State}, Closed s.rest →
    Sound (fun n ts body m => ∃ us closing, ts = us ++ [closing] ∧ closing.kind = .rightBrace ∧ Declarations n us body m)
      (block fuel) s
  items : ∀ {s : Parser.State} (found : Array Stmt), Closed s.rest →
    Sound (fun n ts all m => ∃ more, all = found ++ more ∧ Declarations n ts more.toList m) (items fuel found) s
  statement : ∀ {s : Parser.State}, Closed s.rest → Proceeds False (statement fuel) s (FindsStatement [] s)
  forStatement : ∀ {s : Parser.State} {keyword : Token}, keyword.kind = .forWord → Closed s.rest →
    Proceeds False (forStatement fuel) s (FindsStatement [keyword] s)
  ifStatement : ∀ {s : Parser.State} {keyword : Token}, keyword.kind = .ifWord → Closed s.rest →
    Proceeds False (ifStatement fuel) s (FindsStatement [keyword] s)
  whileStatement : ∀ {s : Parser.State} {keyword : Token}, keyword.kind = .whileWord → Closed s.rest →
    Proceeds False (whileStatement fuel) s (FindsStatement [keyword] s)

section Statements
variable {fuel : Nat} {s : Parser.State}

theorem classDeclaration_sound_succ (ih : StatementsSound fuel) {keyword : Token} (hkeyword : keyword.kind = .classWord)
    (hs : Closed s.rest) : Sound (fun n ts a m => Declaration n (keyword :: ts) a m) (classDeclaration (fuel + 1)) s := by
  rw [classDeclaration]
  refine (expect_takes hs (by decide)).bind id fun name s₁ hr₁ h₁ => ?_
  obtain ⟨htakes₁, hname⟩ := h₁
  have hs₁ := hr₁.closed hs
  refine (expect_takes hs₁ (by decide)).bind id fun opening s₂ hr₂ h₂ => ?_
  obtain ⟨htakes₂, hopening⟩ := h₂
  have hs₂ := hr₂.closed hs₁
  refine htakes₁.proceeds (htakes₂.proceeds ((ih.methods #[] hs₂).endedBy hs₂ (by decide) fun hd hclosing => ?_))
  obtain ⟨more, rfl, hmore⟩ := hd
  exact .classes hkeyword hname hopening (by simpa using hmore) hclosing

theorem methods_sound_succ (ih : StatementsSound fuel) (found : Array Function) (hs : Closed s.rest) :
    Sound (fun n ts all m => ∃ more, all = found ++ more ∧ Methods n ts more.toList m) (methods (fuel + 1) found) s := by
  rw [methods]
  refine (check_tells hs).bind id fun b s₁ _ h₁ => ?_
  obtain ⟨rfl, -⟩ := h₁
  refine (atEnd_proceeds hs).bind id fun b' s₂ _ h₂ => ?_
  obtain ⟨rfl, -⟩ := h₂
  split
  · exact .pure fun _ => ⟨[], rfl, #[], by simp, .nil⟩
  · refine (ih.routine .method hs).bind id fun f s₃ hr₃ h₃ => ?_
    refine (ih.methods (found.push f) (hr₃.closed hs)).mono id fun all s₄ hr₄ h₄ hclean => ?_
    have := hr₃.size_le
    have := hr₄.size_le
    obtain ⟨ts, hts, hd⟩ := h₃ (by omega)
    obtain ⟨us, hus, more, rfl, hmore⟩ := h₄ (by omega)
    refine ⟨ts ++ us, by rw [hts, hus, List.append_assoc], #[f] ++ more, by simp, ?_⟩
    simpa using Methods.cons hd hmore

theorem routine_sound_succ (ih : StatementsSound fuel) (kind : LoxLanguage.Routine) (hs : Closed s.rest) :
    Sound Routine (routine (fuel + 1) kind) s := by
  rw [routine]
  refine (expect_takes hs (by decide)).bind id fun name s₁ hr₁ h₁ => ?_
  obtain ⟨htakes₁, hname⟩ := h₁
  have hs₁ := hr₁.closed hs
  refine (expect_takes hs₁ (by decide)).bind id fun opening s₂ hr₂ h₂ => ?_
  obtain ⟨htakes₂, hopening⟩ := h₂
  have hs₂ := hr₂.closed hs₁
  refine (parametersIfAny_sound hs₂).bind id fun given s₃ hr₃ h₃ => ?_
  have hs₃ := hr₃.closed hs₂
  refine (expect_takes hs₃ (by decide)).bind id fun closing s₄ hr₄ h₄ => ?_
  obtain ⟨htakes₄, hclosing⟩ := h₄
  have hs₄ := hr₄.closed hs₃
  refine (expect_takes hs₄ (by decide)).bind id fun brace s₅ hr₅ h₅ => ?_
  obtain ⟨htakes₅, hbrace⟩ := h₅
  refine (ih.block (hr₅.closed hs₄)).bind id fun body s₆ hr₆ h₆ => .pure fun hclean => ?_
  have := htakes₁.size_eq
  have := htakes₂.size_eq
  have := hr₃.size_le
  have := htakes₄.size_eq
  have := htakes₅.size_eq
  have := hr₆.size_le
  obtain ⟨ts, hts, hsite, hparameters, hlength⟩ := h₃ (by omega)
  obtain ⟨us, hus, vs, endBrace, rfl, hendBrace, hbody⟩ := h₆ (by omega)
  rw [htakes₅.site_eq, htakes₄.site_eq, hsite, htakes₂.site_eq, htakes₁.site_eq] at hbody
  refine ⟨name :: opening :: (ts ++ closing :: brace :: (vs ++ [endBrace])), by
    rw [htakes₁.rest_eq, htakes₂.rest_eq, hts, htakes₄.rest_eq, htakes₅.rest_eq, hus]; simp, ?_⟩
  exact .mk hname hopening hparameters (by simpa [maxArguments] using hlength) hclosing hbrace hbody hendBrace

theorem block_sound_succ (ih : StatementsSound fuel) (hs : Closed s.rest) :
    Sound (fun n ts body m => ∃ us closing, ts = us ++ [closing] ∧ closing.kind = .rightBrace ∧ Declarations n us body m)
      (block (fuel + 1)) s := by
  rw [block]
  refine (ih.items #[] hs).endedBy hs (by decide) fun hd hclosing => ?_
  obtain ⟨more, rfl, hmore⟩ := hd
  exact ⟨_, _, rfl, hclosing, by simpa using hmore⟩

/-- A declaration that recovers: if nothing was reported, it was not broken. -/
theorem recovering_sound (ih : StatementsSound fuel) {t : Token} {rest : List Token} (hs : Closed s.rest)
    (h : s.rest = t :: rest) (ht : t.kind ≠ .eof) :
    Proceeds False (recovering (declaration fuel)) s fun o s' =>
      s'.problems.size ≤ s.problems.size → ∃ a, o = some a ∧ Finds Declaration s a s' := by
  rcases recovering_declaration_cases fuel hs h ht with ⟨o, s', heq, hr, -, hrec⟩ | ⟨-, s', heq⟩
  · refine .of_ok heq hr fun hclean => ?_
    rcases hrec with ⟨a, rfl, hok⟩ | ⟨-, hlt⟩
    · exact ⟨a, rfl, ((ih.declaration hs).ok hok).2⟩
    · exact absurd hclean (Nat.not_le.mpr hlt)
  · unfold Proceeds
    rw [heq]
    exact id

theorem items_sound_succ (ih : StatementsSound fuel) (found : Array Stmt) (hs : Closed s.rest) :
    Sound (fun n ts all m => ∃ more, all = found ++ more ∧ Declarations n ts more.toList m) (items (fuel + 1) found) s := by
  rw [items]
  refine (check_tells hs).bind id fun b s₁ _ h₁ => ?_
  obtain ⟨rfl, -⟩ := h₁
  refine (atEnd_proceeds hs).bind id fun b' s₂ _ h₂ => ?_
  obtain ⟨rfl, t, rest, h, hend⟩ := h₂
  split
  · exact .pure fun _ => ⟨[], rfl, #[], by simp, .none⟩
  · rename_i hgo
    simp only [Bool.or_eq_true, not_or, hend] at hgo
    refine (recovering_sound ih hs h hgo.2).bind id fun o s₃ hr₃ h₃ => ?_
    have hs₃ := hr₃.closed hs
    have := hr₃.size_le
    cases o with
    | none =>
      refine ((statementsProceed fuel).items found hs₃).mono False.elim fun all s₄ hr₄ _ hclean => ?_
      have := hr₄.size_le
      obtain ⟨a, ha, -⟩ := h₃ (by omega)
      cases ha
    | some a =>
      refine (ih.items (found.push a) hs₃).mono id fun all s₄ hr₄ h₄ hclean => ?_
      have := hr₄.size_le
      obtain ⟨a', ha, hfind⟩ := h₃ (by omega)
      cases ha
      obtain ⟨ts, hts, hd⟩ := hfind (by omega)
      obtain ⟨us, hus, more, rfl, hmore⟩ := h₄ (by omega)
      refine ⟨ts ++ us, by rw [hts, hus, List.append_assoc], #[a] ++ more, by simp, ?_⟩
      simpa using Declarations.more hd hmore

theorem forStatement_sound_succ (ih : StatementsSound fuel) {keyword : Token} (hkeyword : keyword.kind = .forWord)
    (hs : Closed s.rest) : Proceeds False (forStatement (fuel + 1)) s (FindsStatement [keyword] s) := by
  rw [forStatement]
  refine (expect_takes hs (by decide)).bind id fun opening s₁ hr₁ h₁ => ?_
  obtain ⟨htakes₁, hopening⟩ := h₁
  have hs₁ := hr₁.closed hs
  refine (forInitializer_sound hs₁).bind id fun initializer s₂ hr₂ h₂ => ?_
  have hs₂ := hr₂.closed hs₁
  refine (expressionUnless_sound .semicolon hs₂).bind id fun condition s₃ hr₃ h₃ => ?_
  have hs₃ := hr₃.closed hs₂
  refine (expect_takes hs₃ (by decide)).bind id fun semicolon s₄ hr₄ h₄ => ?_
  obtain ⟨htakes₄, hsemicolon⟩ := h₄
  have hs₄ := hr₄.closed hs₃
  refine (expressionUnless_sound .rightParen hs₄).bind id fun increment s₅ hr₅ h₅ => ?_
  have hs₅ := hr₅.closed hs₄
  refine (expect_takes hs₅ (by decide)).bind id fun closing s₆ hr₆ h₆ => ?_
  obtain ⟨htakes₆, hclosing⟩ := h₆
  refine (ih.statement (hr₆.closed hs₅)).bind id fun body s₇ hr₇ h₇ => .pure fun hclean => ?_
  have := htakes₁.size_eq
  have := hr₂.size_le
  have := hr₃.size_le
  have := htakes₄.size_eq
  have := hr₅.size_le
  have := htakes₆.size_eq
  have := hr₇.size_le
  obtain ⟨ts, hts, hinitializer⟩ := h₂ (by omega)
  obtain ⟨us, hus, hcondition⟩ := h₃ (by omega)
  obtain ⟨vs, hvs, hincrement⟩ := h₅ (by omega)
  obtain ⟨ws, dangles, hws, hbody, helse⟩ := h₇ (by omega)
  rw [htakes₁.site_eq] at hinitializer
  rw [htakes₄.site_eq] at hincrement
  rw [htakes₆.site_eq] at hbody
  refine ⟨opening :: (ts ++ (us ++ semicolon :: (vs ++ closing :: ws))), dangles, by
    rw [htakes₁.rest_eq, hts, hus, htakes₄.rest_eq, hvs, htakes₆.rest_eq, hws]; simp, ?_, helse⟩
  rw [desugarFor_eq]
  exact .loopFor hkeyword hopening hinitializer hcondition hsemicolon hincrement hclosing hbody

theorem ifStatement_sound_succ (ih : StatementsSound fuel) {keyword : Token} (hkeyword : keyword.kind = .ifWord)
    (hs : Closed s.rest) : Proceeds False (ifStatement (fuel + 1)) s (FindsStatement [keyword] s) := by
  rw [ifStatement]
  refine (expect_takes hs (by decide)).bind id fun opening s₁ hr₁ h₁ => ?_
  obtain ⟨htakes₁, hopening⟩ := h₁
  have hs₁ := hr₁.closed hs
  refine (expression_sound hs₁).bind id fun condition s₂ hr₂ h₂ => ?_
  have hs₂ := hr₂.closed hs₁
  refine (expect_takes hs₂ (by decide)).bind id fun closing s₃ hr₃ h₃ => ?_
  obtain ⟨htakes₃, hclosing⟩ := h₃
  have hs₃ := hr₃.closed hs₂
  refine (ih.statement hs₃).bind id fun whenTrue s₄ hr₄ h₄ => ?_
  have hs₄ := hr₄.closed hs₃
  have := htakes₁.size_eq
  have := hr₂.size_le
  have := htakes₃.size_eq
  have := hr₄.size_le
  refine (accept_takes hs₄).bind id fun o s₅ hr₅ h₅ => ?_
  rcases h₅ with ⟨otherwise, rfl, htakes₅, hotherwise⟩ | ⟨rfl, rfl, t, rest, hnext, hkind⟩
  · refine (ih.statement (hr₅.closed hs₄)).bind id fun whenFalse s₆ hr₆ h₆ => .pure fun hclean => ?_
    have := htakes₅.size_eq
    have := hr₆.size_le
    obtain ⟨ts, hts, hcondition⟩ := h₂ (by omega)
    obtain ⟨us, dangles, hus, htrue, helse⟩ := h₄ (by omega)
    obtain ⟨vs, dangles', hvs, hfalse, helse'⟩ := h₆ (by omega)
    -- An `else` follows, so the statement in front of it does not dangle.
    cases dangles with
    | true =>
      obtain ⟨t, rest, hnext, hkind⟩ := helse rfl
      obtain ⟨rfl, -⟩ := List.cons.inj (hnext.symm.trans htakes₅.rest_eq)
      exact absurd hotherwise hkind
    | false =>
      rw [htakes₁.site_eq] at hcondition
      rw [htakes₃.site_eq] at htrue
      rw [htakes₅.site_eq] at hfalse
      refine ⟨opening :: (ts ++ closing :: (us ++ otherwise :: vs)), dangles', by
        rw [htakes₁.rest_eq, hts, htakes₃.rest_eq, hus, htakes₅.rest_eq, hvs]; simp, ?_, helse'⟩
      exact .branchElse hkeyword hopening hcondition hclosing htrue hotherwise hfalse
  · refine .pure fun hclean => ?_
    obtain ⟨ts, hts, hcondition⟩ := h₂ (by omega)
    obtain ⟨us, dangles, hus, htrue, -⟩ := h₄ (by omega)
    rw [htakes₁.site_eq] at hcondition
    rw [htakes₃.site_eq] at htrue
    refine ⟨opening :: (ts ++ closing :: us), true, by rw [htakes₁.rest_eq, hts, htakes₃.rest_eq, hus]; simp, ?_,
      fun _ => ⟨t, rest, hnext, ?_⟩⟩
    · exact .branch hkeyword hopening hcondition hclosing htrue
    · rcases hkind with hkind | hkind
      · rw [hkind]
        decide
      · exact hkind

theorem whileStatement_sound_succ (ih : StatementsSound fuel) {keyword : Token} (hkeyword : keyword.kind = .whileWord)
    (hs : Closed s.rest) : Proceeds False (whileStatement (fuel + 1)) s (FindsStatement [keyword] s) := by
  rw [whileStatement]
  refine (expect_takes hs (by decide)).bind id fun opening s₁ hr₁ h₁ => ?_
  obtain ⟨htakes₁, hopening⟩ := h₁
  have hs₁ := hr₁.closed hs
  refine (expression_sound hs₁).bind id fun condition s₂ hr₂ h₂ => ?_
  have hs₂ := hr₂.closed hs₁
  refine (expect_takes hs₂ (by decide)).bind id fun closing s₃ hr₃ h₃ => ?_
  obtain ⟨htakes₃, hclosing⟩ := h₃
  refine (ih.statement (hr₃.closed hs₂)).bind id fun body s₄ hr₄ h₄ => .pure fun hclean => ?_
  have := htakes₁.size_eq
  have := hr₂.size_le
  have := htakes₃.size_eq
  have := hr₄.size_le
  obtain ⟨ts, hts, hcondition⟩ := h₂ (by omega)
  obtain ⟨us, dangles, hus, hbody, helse⟩ := h₄ (by omega)
  rw [htakes₁.site_eq] at hcondition
  rw [htakes₃.site_eq] at hbody
  refine ⟨opening :: (ts ++ closing :: us), dangles, by rw [htakes₁.rest_eq, hts, htakes₃.rest_eq, hus]; simp, ?_, helse⟩
  exact .loop hkeyword hopening hcondition hclosing hbody

/-! A statement or declaration goes on behind the token that it begins with. -/

variable {t : Token} {rest : List Token}

theorem proceeds_of_next {α : Type} {p q : Parser α} {post post' : α → Parser.State → Prop} (h : s.rest = t :: rest)
    (ht : t.kind ≠ .eof) (heq : p s = q s.next) (hq : Proceeds False q s.next post)
    (hpost : ∀ a s', post a s' → post' a s') : Proceeds False p s post' := by
  unfold Proceeds at hq ⊢
  rw [heq]
  split at hq
  · exact ⟨(reads_next h ht).trans hq.1, hpost _ _ hq.2⟩
  · exact ⟨(reads_next h ht).trans hq.1, by simpa using hq.2⟩
  · exact hq
  · exact hq

theorem FindsStatement.of_next {s' : Parser.State} {a : Stmt} (h : s.rest = t :: rest) (hf : FindsStatement [t] s.next a s') :
    FindsStatement [] s a s' := fun hclean => by
  obtain ⟨ts, dangles, hts, hd, helse⟩ := hf (by simpa using hclean)
  rw [next_nextSite] at hd
  rw [next_rest h] at hts
  exact ⟨t :: ts, dangles, by rw [h, hts]; rfl, hd, helse⟩

theorem statement_sound_succ (ih : StatementsSound fuel) (hs : Closed s.rest) :
    Proceeds False (statement (fuel + 1)) s (FindsStatement [] s) := by
  obtain ⟨t, rest, h⟩ := hs.exists_cons
  by_cases hopen : opensStatement t.kind = false
  · have hp : Proceeds False (expressionStatement fuel) s (FindsStatement [] s) := by
      refine (expressionStatement_sound hs).mono id fun a s₁ _ h₁ => Finds.statement fun hclean => ?_
      obtain ⟨ts, hts, us, semicolon, e, rfl, rfl, hsemicolon, hd⟩ := h₁ hclean
      exact ⟨us ++ [semicolon], hts, .expression hd hsemicolon⟩
    unfold Proceeds at hp ⊢
    rwa [statement_eq_expression h hopen]
  · have ht : t.kind ≠ .eof := fun he => hopen (by rw [he]; rfl)
    have hs' := (reads_next h ht).closed hs
    cases hk : t.kind <;> simp only [hk, opensStatement, not_true_eq_false, Bool.true_eq_false, not_false_eq_true] at hopen
    case forWord =>
      exact proceeds_of_next h ht (statement_eq_for h hk) (ih.forStatement hk hs') fun _ _ => .of_next h
    case ifWord =>
      exact proceeds_of_next h ht (statement_eq_if h hk) (ih.ifStatement hk hs') fun _ _ => .of_next h
    case printWord =>
      exact proceeds_of_next h ht (statement_eq_print h hk) (printStatement_sound hk hs') fun _ _ hf => .of_next h hf.statement
    case returnWord =>
      exact proceeds_of_next h ht (statement_eq_return h hk) (returnStatement_sound hk hs') fun _ _ hf =>
        .of_next h hf.statement
    case whileWord =>
      exact proceeds_of_next h ht (statement_eq_while h hk) (ih.whileStatement hk hs') fun _ _ => .of_next h
    case leftBrace =>
      have hblock : Sound (fun n ts a m => Statement false n ([t] ++ ts) a m) (block fuel >>= fun body => pure (.block body))
          s.next := by
        refine (ih.block hs').bind id fun body s₁ _ h₁ => .pure fun hclean => ?_
        obtain ⟨ts, hts, us, closing, rfl, hclosing, hd⟩ := h₁ hclean
        exact ⟨us ++ [closing], hts, .block hk hd hclosing⟩
      exact proceeds_of_next h ht (statement_eq_block h hk) hblock fun _ _ hf => .of_next h hf.statement

theorem declaration_sound_succ (ih : StatementsSound fuel) (hs : Closed s.rest) :
    Sound Declaration (declaration (fuel + 1)) s := by
  obtain ⟨t, rest, h⟩ := hs.exists_cons
  by_cases hopen : opensDeclaration t.kind = false
  · have hp : Sound Declaration (statement fuel) s := by
      refine (ih.statement hs).mono id fun a s₁ _ h₁ hclean => ?_
      obtain ⟨ts, dangles, hts, hd, -⟩ := h₁ hclean
      exact ⟨ts, hts, .statement hd⟩
    unfold Sound Proceeds at hp ⊢
    rwa [declaration_eq_statement h hopen]
  · have ht : t.kind ≠ .eof := fun he => hopen (by rw [he]; rfl)
    have hs' := (reads_next h ht).closed hs
    cases hk : t.kind <;>
      simp only [hk, opensDeclaration, not_true_eq_false, Bool.true_eq_false, not_false_eq_true] at hopen
    case classWord =>
      exact proceeds_of_next h ht (declaration_eq_class h hk) (ih.classDeclaration hk hs') fun _ _ hf =>
        Takes.finds ⟨rest, h, rfl⟩ hf id
    case funWord =>
      have hroutine : Sound (fun n ts a m => Declaration n (t :: ts) a m)
          (routine fuel .function >>= fun f => pure (.declareFunction f)) s.next := by
        refine (ih.routine .function hs').bind id fun f s₁ _ h₁ => .pure fun hclean => ?_
        obtain ⟨ts, hts, hd⟩ := h₁ hclean
        exact ⟨ts, hts, .function hk hd⟩
      exact proceeds_of_next h ht (declaration_eq_function h hk) hroutine fun _ _ hf => Takes.finds ⟨rest, h, rfl⟩ hf id
    case varWord =>
      exact proceeds_of_next h ht (declaration_eq_variable h hk) (variableDeclaration_sound hk hs') fun _ _ hf =>
        Takes.finds ⟨rest, h, rfl⟩ hf .binding

end Statements

theorem statementsSound (fuel : Nat) : StatementsSound fuel := by
  induction fuel with
  | zero => constructor <;> intros <;> exact .exhausted id
  | succ fuel ih =>
    exact ⟨declaration_sound_succ ih, classDeclaration_sound_succ ih, methods_sound_succ ih, routine_sound_succ ih,
      block_sound_succ ih, items_sound_succ ih, statement_sound_succ ih, forStatement_sound_succ ih,
      ifStatement_sound_succ ih, whileStatement_sound_succ ih⟩

/-- A program that is read without a problem is derived. -/
theorem program_sound {fuel : Nat} {s s' : Parser.State} {found all : Array Stmt} (hs : Closed s.rest)
    (h : program fuel found s = .ok all s') (hclean : s'.problems.size ≤ s.problems.size) :
    ∃ ts more, s.rest = ts ++ s'.rest ∧ all = found ++ more ∧ Program s.nextSite ts more.toList s'.nextSite := by
  induction fuel generalizing s found with
  | zero => cases h
  | succ fuel ih =>
    obtain ⟨t, rest, hnext⟩ := hs.exists_cons
    rw [program, bind_eq, atEnd_eq hnext] at h
    by_cases ht : t.kind = .eof
    · simp only [ht, beq_self_eq_true, ↓reduceIte, pure_eq] at h
      cases h
      exact ⟨[], #[], rfl, by simp, .none⟩
    · simp only [beq_eq_false_iff_ne.mpr ht, Bool.false_eq_true, ↓reduceIte, bind_eq] at h
      have hrec := recovering_sound (statementsSound fuel) hs hnext ht
      cases hdecl : recovering (declaration fuel) s with
      | error stop s₁ =>
        rw [hdecl] at h
        cases h
      | ok o s₁ =>
        rw [hdecl] at h
        obtain ⟨hr, hfind⟩ := hrec.ok hdecl
        have hle := hr.size_le
        have hreads : ∀ {found}, program fuel found s₁ = .ok all s' → s₁.problems.size ≤ s'.problems.size := fun {found} hp => by
          rcases program_cases fuel found (hr.closed hs) with ⟨found', s₂, heq, hr', -⟩ | ⟨-, s₂, heq⟩
          · rw [heq] at hp
            cases hp
            exact hr'.size_le
          · rw [heq] at hp
            cases hp
        cases o with
        | none =>
          have := hreads h
          obtain ⟨a, ha, -⟩ := hfind (by omega)
          cases ha
        | some a =>
          have := hreads h
          obtain ⟨a', ha, hd⟩ := hfind (by omega)
          cases ha
          obtain ⟨ts, hts, hd⟩ := hd (by omega)
          obtain ⟨us, more, hus, rfl, hmore⟩ := ih (hr.closed hs) h (by omega)
          refine ⟨ts ++ us, #[a] ++ more, by rw [hts, hus, List.append_assoc], by simp, ?_⟩
          simpa using Declarations.more hd hmore

end LoxLanguage.Grammar
