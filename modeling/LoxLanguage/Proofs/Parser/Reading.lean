import LoxLanguage.Tree.Parser

/-! Reading tokens from a row that ends in its only end mark. A parser moves forward in the row, only adds
to the problems and never asks for a token outside of the row. `Proceeds` says this of one run of a
parser, together with what holds when it gives a tree; runs that follow each other are put together by
`Proceeds.bind`. The parsers of single tokens are described by what they answer at the next token. -/

namespace LoxLanguage.Parser

open Token (Kind)

/-! ### Rows -/

/-- A row of tokens whose last token, and no other, is an end mark. -/
inductive Closed : List Token → Prop where
  | last {t : Token} (h : t.kind = .eof) : Closed [t]
  | cons {t : Token} {rest : List Token} (h : t.kind ≠ .eof) (hr : Closed rest) : Closed (t :: rest)

theorem closed_append {body : List Token} {eof : Token} (hb : ∀ t ∈ body, t.kind ≠ .eof) (he : eof.kind = .eof) :
    Closed (body ++ [eof]) := by
  induction body with
  | nil => exact .last he
  | cons t rest ih => exact .cons (hb t (.head _)) (ih fun u hu => hb u (.tail _ hu))

theorem Closed.exists_cons {ts : List Token} (h : Closed ts) : ∃ t rest, ts = t :: rest := by
  cases h with
  | last => exact ⟨_, _, rfl⟩
  | cons => exact ⟨_, _, rfl⟩

theorem Closed.tail {t : Token} {rest : List Token} (h : Closed (t :: rest)) (ht : t.kind ≠ .eof) : Closed rest := by
  cases h with
  | last he => exact absurd he ht
  | cons _ hr => exact hr

theorem Closed.of_append {taken ts : List Token} (h : Closed (taken ++ ts)) (ht : ∀ t ∈ taken, t.kind ≠ .eof) :
    Closed ts := by
  induction taken with
  | nil => exact h
  | cons t rest ih =>
    exact ih (Closed.tail h (ht t (.head _))) fun u hu => ht u (.tail _ hu)

/-- How many tokens are left, the end mark among them. -/
def State.left (s : State) : Nat :=
  s.rest.length

/-- `s'` lies behind `s` in the row, and the problems of `s` are the first ones of `s'`. -/
structure Reads (s s' : State) : Prop where
  row : ∃ taken, s.rest = taken ++ s'.rest ∧ s'.before = taken.reverse ++ s.before ∧ ∀ t ∈ taken, t.kind ≠ .eof
  problems : s.problems.toList <+: s'.problems.toList

namespace Reads

variable {s s' u : State}

theorem refl (s : State) : Reads s s :=
  ⟨⟨[], rfl, rfl, by simp⟩, List.prefix_rfl⟩

theorem trans (h : Reads s u) (h' : Reads u s') : Reads s s' := by
  obtain ⟨⟨taken, hr, hb, ht⟩, hp⟩ := h
  obtain ⟨⟨taken', hr', hb', ht'⟩, hp'⟩ := h'
  refine ⟨⟨taken ++ taken', by rw [hr, hr', List.append_assoc], by rw [hb', hb, List.reverse_append,
    List.append_assoc], fun t hmem => ?_⟩, hp.trans hp'⟩
  rcases List.mem_append.mp hmem with hmem | hmem
  · exact ht t hmem
  · exact ht' t hmem

theorem closed (h : Reads s s') (hs : Closed s.rest) : Closed s'.rest := by
  obtain ⟨taken, hr, -, ht⟩ := h.row
  exact Closed.of_append (hr ▸ hs) ht

theorem left_le (h : Reads s s') : s'.left ≤ s.left := by
  obtain ⟨taken, hr, -, -⟩ := h.row
  simp only [State.left, hr, List.length_append]
  omega

theorem size_le (h : Reads s s') : s.problems.size ≤ s'.problems.size := by
  simpa using h.problems.length_le

end Reads

/-! ### Runs -/

/-- A run of `p` from `s` proceeds: it ends further on in the row with `post`, or breaks off with a problem
    reported; it asks for no token outside of the row, and its bound is reached only if not `enough`. -/
def Proceeds {α : Type} (enough : Prop) (p : Parser α) (s : State) (post : α → State → Prop) : Prop :=
  match p s with
  | .ok a s' => Reads s s' ∧ post a s'
  | .error .broken s' => Reads s s' ∧ s.problems.size < s'.problems.size
  | .error .outside _ => False
  | .error .exhausted _ => ¬enough

section Proceeds
variable {α β : Type} {enough enough' : Prop} {p : Parser α} {f : α → Parser β} {s : State}
  {post post' : α → State → Prop} {postB : β → State → Prop}

theorem bind_eq (p : Parser α) (f : α → Parser β) (s : State) :
    (p >>= f) s = match p s with
      | .ok a s' => f a s'
      | .error stop s' => .error stop s' := by
  show EStateM.bind p f s = _
  unfold EStateM.bind
  cases p s <;> rfl

theorem Proceeds.of_ok {a : α} {s' : State} (h : p s = .ok a s') (hr : Reads s s') (hpost : post a s') :
    Proceeds enough p s post := by
  unfold Proceeds
  rw [h]
  exact ⟨hr, hpost⟩

theorem Proceeds.of_broken {s' : State} (h : p s = .error .broken s') (hr : Reads s s')
    (hlt : s.problems.size < s'.problems.size) : Proceeds enough p s post := by
  unfold Proceeds
  rw [h]
  exact ⟨hr, hlt⟩

theorem Proceeds.pure {a : α} (h : post a s) : Proceeds enough (pure a) s post :=
  of_ok rfl (.refl s) h

theorem Proceeds.exhausted (h : ¬enough) : Proceeds enough (throw .exhausted : Parser α) s post := h

/-- What a run that gives a tree says. -/
theorem Proceeds.ok {a : α} {s' : State} (h : Proceeds enough p s post) (heq : p s = .ok a s') :
    Reads s s' ∧ post a s' := by
  unfold Proceeds at h
  rw [heq] at h
  exact h

theorem Proceeds.broken {s' : State} (h : Proceeds enough p s post) (heq : p s = .error .broken s') :
    Reads s s' ∧ s.problems.size < s'.problems.size := by
  unfold Proceeds at h
  rw [heq] at h
  exact h

theorem Proceeds.mono (h : Proceeds enough p s post) (he : enough' → enough)
    (hpost : ∀ a s', Reads s s' → post a s' → post' a s') : Proceeds enough' p s post' := by
  unfold Proceeds at h ⊢
  split at h
  · exact ⟨h.1, hpost _ _ h.1 h.2⟩
  · exact h
  · exact h
  · exact fun h' => h (he h')

/-- Two runs after each other. The bound of the first has to be enough whenever that of both is. -/
theorem Proceeds.bind (hp : Proceeds enough p s post) (he : enough' → enough)
    (hf : ∀ a s', Reads s s' → post a s' → Proceeds enough' (f a) s' postB) :
    Proceeds enough' (p >>= f) s postB := by
  unfold Proceeds at hp
  unfold Proceeds
  rw [bind_eq]
  split at hp
  · rename_i a s' heq
    obtain ⟨hr, hpost⟩ := hp
    have h' := hf a s' hr hpost
    unfold Proceeds at h'
    simp only [heq]
    split at h'
    · rename_i b s'' hfa
      simp only [hfa]
      exact ⟨hr.trans h'.1, h'.2⟩
    · rename_i s'' hfa
      simp only [hfa]
      exact ⟨hr.trans h'.1, Nat.lt_of_le_of_lt hr.size_le h'.2⟩
    · exact h'.elim
    · rename_i s'' hfa
      simp only [hfa]
      exact h'
  · rename_i s' heq
    simp only [heq]
    exact hp
  · exact hp.elim
  · rename_i s' heq
    simp only [heq]
    exact fun h' => hp (he h')

theorem Proceeds.map {g : α → β} (hp : Proceeds enough p s post)
    (hg : ∀ a s', Reads s s' → post a s' → postB (g a) s') : Proceeds enough (g <$> p) s postB :=
  hp.bind (f := fun a => Pure.pure (g a)) id fun a s' hr hpost => .pure (hg a s' hr hpost)

end Proceeds

/-! ### Single tokens -/

section Single
variable {s : State} {t : Token} {rest : List Token} {kind : Kind} {test : Kind → Bool} {complaint : Complaint}

theorem pure_eq {α : Type} (a : α) (s : State) : (pure a : Parser α) s = .ok a s := rfl

theorem peek_eq (h : s.rest = t :: rest) : peek s = .ok t s := by
  simp only [peek, h]

theorem atEnd_eq (h : s.rest = t :: rest) : atEnd s = .ok (t.kind == .eof) s := by
  simp only [atEnd, bind_eq, peek_eq h, pure_eq]

theorem check_eq (h : s.rest = t :: rest) : check kind s = .ok (t.kind != .eof && t.kind == kind) s := by
  simp only [check, bind_eq, atEnd_eq h]
  by_cases ht : t.kind = .eof
  · simp [ht, pure_eq]
  · simp [ht, bind_eq, peek_eq h, pure_eq]

theorem next_eq (h : s.rest = t :: rest) : s.next = { s with before := t :: s.before, rest } := by
  simp only [State.next, h]

theorem next_rest (h : s.rest = t :: rest) : s.next.rest = rest := by
  rw [next_eq h]

@[simp]
theorem next_problems (s : State) : s.next.problems = s.problems := by
  unfold State.next
  split <;> rfl

@[simp]
theorem next_nextSite (s : State) : s.next.nextSite = s.nextSite := by
  unfold State.next
  split <;> rfl

theorem left_next (h : s.rest = t :: rest) : s.next.left < s.left := by
  simp [State.left, next_rest h, h]

theorem reads_next (h : s.rest = t :: rest) (ht : t.kind ≠ .eof) : Reads s s.next := by
  refine ⟨⟨[t], by simp [next_rest h, h], by simp [next_eq h], ?_⟩, by simp⟩
  intro u hu
  rw [List.mem_singleton.mp hu]
  exact ht

theorem move_eq (h : s.rest = t :: rest) (ht : t.kind ≠ .eof) : move s = .ok () s.next := by
  simp only [move, bind_eq, atEnd_eq h, beq_eq_false_iff_ne.mpr ht]
  rfl

theorem advance_eq (h : s.rest = t :: rest) (ht : t.kind ≠ .eof) : advance s = .ok t s.next := by
  have hb : s.next.before = t :: s.before := by rw [next_eq h]
  simp only [advance, bind_eq, move_eq h ht, previous, hb]

theorem acceptIf_pos (h : s.rest = t :: rest) (ht : t.kind ≠ .eof) (hk : test t.kind = true) :
    acceptIf test s = .ok (some t) s.next := by
  simp only [acceptIf, bind_eq, atEnd_eq h, beq_eq_false_iff_ne.mpr ht, Bool.false_eq_true, ↓reduceIte, peek_eq h, hk,
    advance_eq h ht, pure_eq]

theorem acceptIf_neg (h : s.rest = t :: rest) (hk : t.kind = .eof ∨ test t.kind = false) :
    acceptIf test s = .ok none s := by
  simp only [acceptIf, bind_eq, atEnd_eq h]
  by_cases ht : t.kind = .eof
  · simp [ht, pure_eq]
  · simp [ht, bind_eq, peek_eq h, hk.resolve_left ht, pure_eq]

theorem accept_pos (h : s.rest = t :: rest) (hk : t.kind = kind) (ht : kind ≠ .eof) :
    accept kind s = .ok (some t) s.next :=
  acceptIf_pos h (hk ▸ ht) (by simp [hk])

theorem accept_neg (h : s.rest = t :: rest) (hk : t.kind ≠ kind) : accept kind s = .ok none s :=
  acceptIf_neg h (Or.inr (by simp [hk]))

/-- The state after a problem has been reported. -/
def State.report (s : State) (problem : Problem) : State :=
  { s with problems := s.problems.push problem }

theorem reads_report (s : State) (problem : Problem) : Reads s (s.report problem) :=
  ⟨⟨[], rfl, rfl, by simp⟩, by simp [State.report]⟩

theorem complain_eq (t : Token) (s : State) : complain t complaint s = .ok () (s.report (.atToken t complaint)) := rfl

theorem fail_eq {α : Type} (h : s.rest = t :: rest) :
    (fail complaint : Parser α) s = .error .broken (s.report (.atToken t complaint)) := by
  simp only [fail, bind_eq, peek_eq h, complain_eq]
  rfl

theorem expect_pos (h : s.rest = t :: rest) (hk : t.kind = kind) (ht : kind ≠ .eof) :
    expect kind complaint s = .ok t s.next := by
  simp only [expect, bind_eq, accept_pos h hk ht, pure_eq]

theorem expect_neg (h : s.rest = t :: rest) (hk : t.kind ≠ kind) :
    expect kind complaint s = .error .broken (s.report (.atToken t complaint)) := by
  simp only [expect, bind_eq, accept_neg h hk, fail_eq h]

theorem complainIfFull_eq_of_lt {count : Nat} (h : count < maxArguments) : complainIfFull count complaint s = .ok () s := by
  simp only [complainIfFull, Nat.not_le.mpr h, ↓reduceIte, pure_eq]

theorem complainIfFull_eq_of_le {count : Nat} (h : maxArguments ≤ count) (hs : s.rest = t :: rest) :
    complainIfFull count complaint s = .ok () (s.report (.atToken t complaint)) := by
  simp only [complainIfFull, h, ↓reduceIte, bind_eq, peek_eq hs, complain_eq]

end Single

/-! ### Runs of single tokens -/

section Runs
variable {s : State} {enough : Prop} {kind : Kind} {test : Kind → Bool} {complaint : Complaint}

theorem peek_proceeds (hs : Closed s.rest) :
    Proceeds enough peek s fun t s' => s' = s ∧ ∃ rest, s.rest = t :: rest := by
  obtain ⟨t, rest, h⟩ := hs.exists_cons
  exact .of_ok (peek_eq h) (.refl s) ⟨rfl, rest, h⟩

theorem atEnd_proceeds (hs : Closed s.rest) :
    Proceeds enough atEnd s fun b s' => s' = s ∧ ∃ t rest, s.rest = t :: rest ∧ (b = true ↔ t.kind = .eof) := by
  obtain ⟨t, rest, h⟩ := hs.exists_cons
  exact .of_ok (atEnd_eq h) (.refl s) ⟨rfl, t, rest, h, by simp⟩

theorem check_proceeds (hs : Closed s.rest) : Proceeds enough (check kind) s fun _ s' => s' = s := by
  obtain ⟨t, rest, h⟩ := hs.exists_cons
  exact .of_ok (check_eq h) (.refl s) rfl

/-- A token that is taken is taken off the row. -/
theorem acceptIf_proceeds (hs : Closed s.rest) :
    Proceeds enough (acceptIf test) s fun o s' => o.isSome = true → s'.left < s.left := by
  obtain ⟨t, rest, h⟩ := hs.exists_cons
  by_cases hk : t.kind = .eof ∨ test t.kind = false
  · exact .of_ok (acceptIf_neg h hk) (.refl s) (by simp)
  · simp only [not_or, Bool.not_eq_false] at hk
    exact .of_ok (acceptIf_pos h hk.1 hk.2) (reads_next h hk.1) fun _ => left_next h

theorem accept_proceeds (hs : Closed s.rest) :
    Proceeds enough (accept kind) s fun o s' => o.isSome = true → s'.left < s.left :=
  acceptIf_proceeds hs

/-- Taking a token that is known to be there. -/
theorem accept_proceeds_of_kind {t : Token} {rest : List Token} (h : s.rest = t :: rest) (hk : t.kind = kind)
    (ht : kind ≠ .eof) : Proceeds enough (accept kind) s fun _ s' => s'.left < s.left :=
  .of_ok (accept_pos h hk ht) (reads_next h (hk ▸ ht)) (left_next h)

theorem fail_proceeds {α : Type} {post : α → State → Prop} (hs : Closed s.rest) :
    Proceeds enough (fail complaint : Parser α) s post := by
  obtain ⟨t, rest, h⟩ := hs.exists_cons
  exact .of_broken (fail_eq h) (reads_report s _) (by simp [State.report])

theorem expect_proceeds (hs : Closed s.rest) (ht : kind ≠ .eof) :
    Proceeds enough (expect kind complaint) s fun _ s' => s'.left < s.left := by
  obtain ⟨t, rest, h⟩ := hs.exists_cons
  by_cases hk : t.kind = kind
  · exact .of_ok (expect_pos h hk ht) (reads_next h (hk ▸ ht)) (left_next h)
  · exact .of_broken (expect_neg h hk) (reads_report s _) (by simp [State.report])

theorem complain_proceeds (t : Token) (complaint : Complaint) (s : State) :
    Proceeds enough (complain t complaint) s fun _ _ => True :=
  .of_ok (complain_eq t s) (reads_report s _) trivial

theorem complainIfFull_proceeds {count : Nat} (hs : Closed s.rest) :
    Proceeds enough (complainIfFull count complaint) s fun _ _ => True := by
  obtain ⟨t, rest, h⟩ := hs.exists_cons
  by_cases hc : maxArguments ≤ count
  · exact .of_ok (complainIfFull_eq_of_le hc h) (reads_report s _) trivial
  · exact .of_ok (complainIfFull_eq_of_lt (Nat.not_le.mp hc)) (.refl s) trivial

theorem freshSite_proceeds (s : State) : Proceeds enough freshSite s fun _ _ => True :=
  .of_ok rfl ⟨⟨[], rfl, rfl, by simp⟩, List.prefix_rfl⟩ trivial

end Runs

end LoxLanguage.Parser
