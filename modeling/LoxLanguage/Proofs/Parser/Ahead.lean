import LoxLanguage.Proofs.Parser.Makeup

/-! Parsers look ahead only. What a parser gives depends on the tokens that are left, and not on those that were read or on
the problems that were reported before it began, unless it asks for a token in front of the first one. -/

namespace LoxLanguage.Parser

open Token (Kind)

/-- The same place, with more tokens read and more problems reported before. -/
def State.behind (s : State) (before : List Token) (problems : Array Problem) : State :=
  { s with before := s.before ++ before, problems := problems ++ s.problems }

/-- The same result, with more tokens read and more problems reported before. -/
def resultBehind {α : Type} (before : List Token) (problems : Array Problem) :
    EStateM.Result Stop State α → EStateM.Result Stop State α
  | .ok a s => .ok a (s.behind before problems)
  | .error stop s => .error stop (s.behind before problems)

/-- The parser asks for a token outside of the row, or does the same behind other tokens and problems. -/
def LooksAhead {α : Type} (p : Parser α) : Prop :=
  ∀ s before problems, (∃ s', p s = .error .outside s') ∨
    p (s.behind before problems) = resultBehind before problems (p s)

namespace LooksAhead

variable {α β : Type} {p : Parser α} {f : α → Parser β}

theorem bind (hp : LooksAhead p) (hf : ∀ a, LooksAhead (f a)) : LooksAhead (p >>= f) := by
  intro s before problems
  rw [bind_eq, bind_eq]
  rcases hp s before problems with ⟨s', houtside⟩ | hsame
  · rw [houtside]
    exact .inl ⟨s', rfl⟩
  · rw [hsame]
    cases p s with
    | ok a s' => exact hf a s' before problems
    | error stop s' => exact .inr rfl

theorem peek : LooksAhead peek := by
  rintro ⟨earlier, rest, site, found⟩ before problems
  cases rest with
  | nil => exact .inl ⟨_, rfl⟩
  | cons t rest => exact .inr rfl

/-- The token read last is there if one has been read since the row began. -/
theorem previous : LooksAhead previous := by
  rintro ⟨earlier, rest, site, found⟩ before problems
  cases earlier with
  | nil => exact .inl ⟨_, rfl⟩
  | cons t earlier => exact .inr rfl

theorem move : LooksAhead move := by
  refine (peek.bind fun t => fun _ _ _ => .inr rfl).bind fun b => ?_
  cases b with
  | true => exact fun _ _ _ => .inr rfl
  | false =>
    rintro ⟨earlier, rest, site, found⟩ before problems
    cases rest <;> exact .inr rfl

theorem advance : LooksAhead advance :=
  move.bind fun _ => previous

theorem acceptIf (test : Kind → Bool) : LooksAhead (acceptIf test) := by
  refine (peek.bind fun t => fun _ _ _ => .inr rfl).bind fun b => ?_
  cases b with
  | true => exact fun _ _ _ => .inr rfl
  | false =>
    refine peek.bind fun t => ?_
    split
    · exact advance.bind fun t => fun _ _ _ => .inr rfl
    · exact fun _ _ _ => .inr rfl

theorem complain (t : Token) (complaint : Complaint) : LooksAhead (complain t complaint) := by
  intro s before problems
  refine .inr ?_
  simp only [complain_eq, resultBehind, State.report, State.behind, Array.append_push]

/-! ### Recovery -/

theorem skipFrom_append (before rest more : List Token) : skipFrom before rest = .error .outside ∨
    skipFrom (before ++ more) rest = (skipFrom before rest).map fun p => (p.1 ++ more, p.2) := by
  induction rest generalizing before with
  | nil => exact .inl rfl
  | cons t rest ih =>
    simp only [skipFrom]
    by_cases heof : t.kind = .eof
    · rw [if_pos heof, if_pos heof]
      exact .inr rfl
    · rw [if_neg heof, if_neg heof]
      cases before with
      | nil => exact .inl rfl
      | cons last earlier =>
        by_cases hstop : (last.kind = .semicolon || isBoundary t.kind) = true
        · exact .inr (by simp only [List.cons_append, hstop, ↓reduceIte]; rfl)
        · simp only [List.cons_append, hstop]
          exact ih (t :: last :: earlier)

theorem skip : LooksAhead skip := by
  intro s before problems
  unfold Parser.skip State.behind
  rcases skipFrom_append s.before s.rest before with houtside | hsame
  · exact .inl ⟨s, by rw [houtside]⟩
  · refine .inr ?_
    simp only [hsame]
    cases skipFrom s.before s.rest <;> rfl

theorem synchronize : LooksAhead synchronize := by
  refine LooksAhead.bind (peek.bind fun t => ?_) fun _ => skip
  split
  · exact fun _ _ _ => .inr rfl
  · exact advance.bind fun _ => fun _ _ _ => .inr rfl

theorem recovering (hp : LooksAhead p) : LooksAhead (recovering p) := by
  intro s before problems
  rcases hp s before problems with ⟨s', houtside⟩ | hsame
  · exact .inl ⟨s', by simp only [Parser.recovering, houtside]⟩
  · simp only [Parser.recovering, hsame]
    cases p s with
    | ok a s' => exact .inr rfl
    | error stop s' =>
      cases stop with
      | broken =>
        rcases synchronize s' before problems with ⟨s'', houtside⟩ | hsame
        · exact .inl ⟨s'', by simp only [houtside]⟩
        · refine .inr ?_
          simp only [resultBehind, hsame]
          cases Parser.synchronize s' <;> rfl
      | outside => exact .inl ⟨s', rfl⟩
      | exhausted => exact .inr rfl

end LooksAhead

/-- All parsers look ahead only. -/
theorem Made.looksAhead {takes : Kind → Prop} {α : Type} {p : Parser α} (h : Made takes p) : LooksAhead p := by
  induction h with
  | pure a => exact fun _ _ _ => .inr rfl
  | exhausted => exact fun _ _ _ => .inr rfl
  | broken => exact fun _ _ _ => .inr rfl
  | bind _ _ ih ihf => exact ih.bind ihf
  | peek => exact .peek
  | @acceptIf test htest => exact .acceptIf test
  | complain t complaint => exact .complain t complaint
  | freshSite => exact fun _ _ _ => .inr rfl
  | recovering _ _ ih => exact ih.recovering

/-! ### Programs -/

/-- The statements that were found before do not matter either. -/
theorem program_eq_append (fuel : Nat) (found : Array Stmt) (s : State) :
    program fuel found s = match program fuel #[] s with
      | .ok more s' => .ok (found ++ more) s'
      | .error stop s' => .error stop s' := by
  induction fuel generalizing found s with
  | zero => rfl
  | succ fuel ih =>
    rw [program.eq_2, program.eq_2, bind_eq, bind_eq]
    cases atEnd s with
    | error stop s' => rfl
    | ok b s' =>
      cases b with
      | true => simp [pure_eq]
      | false =>
        simp only [Bool.false_eq_true, ↓reduceIte, bind_eq]
        cases recovering (declaration fuel) s' with
        | error stop s'' => rfl
        | ok o s'' =>
          cases o with
          | none => exact ih found s''
          | some statement =>
            simp only
            rw [ih (found.push statement), ih (#[].push statement)]
            cases program fuel #[] s'' with
            | error stop s''' => rfl
            | ok more s''' => simp

end LoxLanguage.Parser
