import Mathlib
import LoxLanguage.Proofs.Parser.Recovery

/-! Where recovery stops. A broken statement is given up at the first place behind its offending token where another one is
likely to begin, or at the offending token if that one begins a statement. The loop of recovery looks at the token
behind it and at the one in front of it. `resumes_iff` reads both tests off the row, so the loop stops at the least
index at which one of them holds (`skipFrom_isLeast`). -/

namespace LoxLanguage.Parser

/-! ### Places of a row -/

/-- The same, at an index of a row. -/
def State.placedAt (s : State) (tokens : List Token) (i : Nat) : State :=
  { s with before := (tokens.take i).reverse, rest := tokens.drop i }

section Places
variable {s : State} {tokens : List Token} {i : Nat} {t : Token}

theorem State.on_placedAt (s : State) (tokens : List Token) (i : Nat) : (s.placedAt tokens i).On tokens := by
  rw [State.On, State.placedAt, List.reverse_reverse, List.take_append_drop]

theorem State.index_placedAt (hi : i ≤ tokens.length) : (s.placedAt tokens i).index = i := by
  rw [State.index, State.placedAt, List.length_reverse, List.length_take, Nat.min_eq_left hi]

theorem State.rest_placedAt (ht : tokens[i]? = some t) : (s.placedAt tokens i).rest = t :: tokens.drop (i + 1) := by
  obtain ⟨hlt, rfl⟩ := List.getElem?_eq_some_iff.mp ht
  exact List.drop_eq_getElem_cons hlt

theorem State.next_placedAt (ht : tokens[i]? = some t) : (s.placedAt tokens i).next = s.placedAt tokens (i + 1) := by
  rw [next_eq (rest_placedAt ht)]
  simp [placedAt, List.take_add_one, ht]

end Places

/-! ### The loop -/

/-- A statement is likely to begin at an index of a row: the token in front of it is a semicolon, or the token there
    begins a statement or is the end mark. -/
def Resumes (tokens : List Token) (j : Nat) : Prop :=
  (∃ t, tokens[j - 1]? = some t ∧ t.kind = .semicolon) ∨
    ∃ t, tokens[j]? = some t ∧ (isBoundary t.kind = true ∨ t.kind = .eof)

/-- Between two tokens, `last` and `t`, of a row. -/
theorem resumes_iff (earlier rest : List Token) (last t : Token) :
    Resumes ((last :: earlier).reverse ++ t :: rest) (last :: earlier).length ↔
      last.kind = .semicolon ∨ isBoundary t.kind = true ∨ t.kind = .eof := by
  have hlast : ((last :: earlier).reverse ++ t :: rest)[(last :: earlier).length - 1]? = some last := by simp
  have hnext : ((last :: earlier).reverse ++ t :: rest)[(last :: earlier).length]? = some t := by simp
  simp only [Resumes, hlast, hnext, Option.some.injEq, exists_eq_left']

/-- The loop stops at the first place, from where it starts, at which a statement is likely to begin. -/
theorem skipFrom_isLeast {before rest tokens : List Token} (hbefore : before ≠ []) (hrest : Closed rest)
    (htokens : before.reverse ++ rest = tokens) :
    ∃ before' rest', skipFrom before rest = .ok (before', rest') ∧ before'.reverse ++ rest' = tokens ∧
      IsLeast {j | before.length ≤ j ∧ Resumes tokens j} before'.length := by
  induction rest generalizing before with
  | nil => cases hrest
  | cons t rest ih =>
    obtain ⟨last, earlier, rfl⟩ := List.exists_cons_of_ne_nil hbefore
    have hresumes := htokens ▸ resumes_iff earlier rest last t
    have hstop : Resumes tokens (last :: earlier).length →
        IsLeast {j | (last :: earlier).length ≤ j ∧ Resumes tokens j} (last :: earlier).length :=
      fun h => ⟨⟨Nat.le_refl _, h⟩, fun j hj => hj.1⟩
    rw [skipFrom]
    by_cases heof : t.kind = .eof
    · rw [if_pos heof]
      exact ⟨_, _, rfl, htokens, hstop (hresumes.mpr (.inr (.inr heof)))⟩
    · rw [if_neg heof]
      by_cases hhere : last.kind = .semicolon ∨ isBoundary t.kind = true
      · simp only [hhere, Bool.or_eq_true, decide_eq_true_eq, ↓reduceIte]
        exact ⟨_, _, rfl, htokens, hstop (hresumes.mpr (or_assoc.mp (.inl hhere)))⟩
      · simp only [hhere, Bool.or_eq_true, decide_eq_true_eq, ↓reduceIte]
        have hmoved : (t :: last :: earlier).reverse ++ rest = tokens := by simpa using htokens
        obtain ⟨before', rest', hskip, hrow, hmem, hleast⟩ := ih (by simp) (hrest.tail heof) hmoved
        refine ⟨before', rest', hskip, hrow, ⟨Nat.le_of_succ_le hmem.1, hmem.2⟩, fun j hj => hleast ⟨?_, hj.2⟩⟩
        -- The place that is left is none to stop at, so the least one is behind it.
        refine Nat.lt_of_le_of_ne hj.1 fun heq => ?_
        rcases hresumes.mp (heq ▸ hj.2) with h | h | h
        · exact hhere (.inl h)
        · exact hhere (.inr h)
        · exact heof h

/-- From an index behind the first token, the loop comes to the next one at which a statement is likely to begin. -/
theorem skip_placedAt {tokens : List Token} {i : Nat} (s : State) (hpos : 1 ≤ i) (hi : i ≤ tokens.length)
    (hclosed : Closed (tokens.drop i)) :
    ∃ j, skip (s.placedAt tokens i) = .ok () (s.placedAt tokens j) ∧ IsLeast {j | i ≤ j ∧ Resumes tokens j} j := by
  have hindex : (tokens.take i).reverse.length = i := State.index_placedAt (s := s) hi
  have hbefore : (tokens.take i).reverse ≠ [] := List.ne_nil_of_length_pos (by omega)
  obtain ⟨before, rest, hskip, hrow, hleast⟩ := skipFrom_isLeast hbefore hclosed (s.on_placedAt tokens i)
  rw [hindex] at hleast
  refine ⟨before.length, ?_, hleast⟩
  have hplaced : s.placedAt tokens before.length = { s with before, rest } := by
    rw [← hrow, ← List.length_reverse, State.placedAt, List.take_left, List.drop_left, List.reverse_reverse]
  rw [hplaced]
  simp only [skip, State.placedAt, hskip]

/-! ### Recovery -/

section Recovery
variable {tokens : List Token} {i : Nat} {t : Token}

/-- A token that begins a statement, or the end mark, is kept. -/
theorem synchronize_stays (s : State) (ht : tokens[i]? = some t) (hstays : isBoundary t.kind = true ∨ t.kind = .eof)
    (hpos : 1 ≤ i) (hclosed : Closed (tokens.drop i)) :
    synchronize (s.placedAt tokens i) = .ok () (s.placedAt tokens i) := by
  have hi : i ≤ tokens.length := (List.getElem?_eq_some_iff.mp ht).1.le
  have hbefore : (s.placedAt tokens i).before ≠ [] :=
    List.ne_nil_of_length_pos (Nat.lt_of_lt_of_eq hpos (State.index_placedAt hi).symm)
  have hoffending : skipOffending (s.placedAt tokens i) = .ok () (s.placedAt tokens i) := by
    rcases hstays with h | h
    · exact skipOffending_boundary (State.rest_placedAt ht) h
    · exact skipOffending_end (State.rest_placedAt ht) h hbefore
  obtain ⟨j, hskip, hleast⟩ := skip_placedAt s hpos hi hclosed
  obtain rfl : j = i := Nat.le_antisymm (hleast.2 ⟨Nat.le_refl _, .inr ⟨t, ht, hstays⟩⟩) hleast.1.1
  simp only [synchronize, bind_eq, hoffending, hskip]

/-- Behind every other token recovery comes to the next place where a statement is likely to begin. -/
theorem synchronize_moves (s : State) (ht : tokens[i]? = some t) (hbound : isBoundary t.kind = false) (heof : t.kind ≠ .eof)
    (hclosed : Closed (tokens.drop i)) :
    ∃ j, synchronize (s.placedAt tokens i) = .ok () (s.placedAt tokens j) ∧ IsLeast {j | i < j ∧ Resumes tokens j} j := by
  have hrest : (s.placedAt tokens i).rest = t :: tokens.drop (i + 1) := State.rest_placedAt ht
  have hbehind : Closed (tokens.drop (i + 1)) := Closed.tail (hrest ▸ hclosed) heof
  have hoffending : skipOffending (s.placedAt tokens i) = .ok () (s.placedAt tokens (i + 1)) := by
    rw [skipOffending_next hrest hbound heof, State.next_placedAt ht]
  obtain ⟨j, hskip, hleast⟩ :=
    skip_placedAt s (Nat.le_add_left 1 i) (List.getElem?_eq_some_iff.mp ht).1 hbehind
  exact ⟨j, by simp only [synchronize, bind_eq, hoffending, hskip], hleast⟩

/-- What is discarded on the way from a token to the next place behind it where a statement is likely to begin. -/
theorem discarded_of_isLeast {j k : Nat} {u : Token} (hleast : IsLeast {j | i < j ∧ Resumes tokens j} j)
    (ht : tokens[i]? = some t) (hbound : isBoundary t.kind = false) (hi : i ≤ k) (hj : k < j) (hu : tokens[k]? = some u) :
    isBoundary u.kind = false ∧ (u.kind = .semicolon → k + 1 = j) := by
  constructor
  · rcases Nat.eq_or_lt_of_le hi with rfl | hlt
    · rw [ht] at hu
      cases hu
      exact hbound
    · refine Bool.eq_false_iff.mpr fun h => ?_
      exact Nat.not_le_of_lt hj (hleast.2 ⟨hlt, .inr ⟨u, hu, .inl h⟩⟩)
  · intro h
    exact Nat.le_antisymm hj (hleast.2 ⟨Nat.lt_succ_of_le hi, .inl ⟨u, hu, h⟩⟩)

end Recovery

/-- Recovery discards exactly the tokens up to the next place where a statement is likely to begin. From a token that
    begins a statement, and from the end mark, it does not move. From every other token it comes to the least index
    behind it that is right behind a semicolon, at a token that begins a statement or at the end mark. So no token that
    begins a statement is discarded, and no semicolon but one that is the last token discarded. At the first token of a
    row recovery starts only if that token neither begins a statement nor is the end mark. -/
theorem synchronize_isLeast {body : List Token} {eof : Token} (hb : ∀ t ∈ body, t.kind ≠ .eof) (he : eof.kind = .eof)
    {i : Nat} {t : Token} (ht : (body ++ [eof])[i]? = some t)
    (hstart : 1 ≤ i ∨ (t.kind ≠ .eof ∧ isBoundary t.kind = false)) (s : State) :
    ∃ j, synchronize (s.placedAt (body ++ [eof]) i) = .ok () (s.placedAt (body ++ [eof]) j) ∧
      (isBoundary t.kind = true ∨ t.kind = .eof → j = i) ∧
      (¬(isBoundary t.kind = true ∨ t.kind = .eof) → IsLeast {j | i < j ∧ Resumes (body ++ [eof]) j} j) ∧
      ∀ k u, i ≤ k → k < j → (body ++ [eof])[k]? = some u →
        isBoundary u.kind = false ∧ (u.kind = .semicolon → k + 1 = j) := by
  have hi : i < (body ++ [eof]).length := (List.getElem?_eq_some_iff.mp ht).1
  have hclosed : Closed ((body ++ [eof]).drop i) := by
    refine (s.on_placedAt (body ++ [eof]) i).closed hb he ?_
    rw [State.index_placedAt hi.le]
    simpa [Nat.lt_succ_iff] using hi
  by_cases hstays : isBoundary t.kind = true ∨ t.kind = .eof
  · have hpos : 1 ≤ i := hstart.resolve_right (by grind)
    refine ⟨i, synchronize_stays s ht hstays hpos hclosed, fun _ => rfl, fun h => absurd hstays h, fun k u hk hlt => ?_⟩
    exact absurd hlt (Nat.not_lt_of_le hk)
  · obtain ⟨hbound, heof⟩ := not_or.mp hstays
    have hbound : isBoundary t.kind = false := Bool.eq_false_iff.mpr hbound
    obtain ⟨j, hrun, hleast⟩ := synchronize_moves s ht hbound heof hclosed
    exact ⟨j, hrun, fun h => absurd h hstays, fun _ => hleast,
      fun k u hk hlt hu => discarded_of_isLeast hleast ht hbound hk hlt hu⟩

/-- A declaration without a name: the first of two semicolons is discarded with it and the second one is not. -/
theorem synchronize_isLeast_nameless :
    let body : List Token := [⟨.varWord, "var", .nil, 1⟩, ⟨.equal, "=", .nil, 1⟩, ⟨.identifier, "x", .nil, 1⟩,
      ⟨.semicolon, ";", .nil, 1⟩, ⟨.semicolon, ";", .nil, 1⟩]
    let tokens := body ++ [⟨.eof, "", .nil, 1⟩]
    let s : State := ⟨[], [], 0, #[]⟩
    (∀ t ∈ body, t.kind ≠ .eof) ∧ synchronize (s.placedAt tokens 1) = .ok () (s.placedAt tokens 4) ∧
      IsLeast {j | 1 < j ∧ Resumes tokens j} 4 := by
  intro body tokens s
  have hbody : ∀ t ∈ body, t.kind ≠ .eof := by simp [body]
  have hrun : synchronize (s.placedAt tokens 1) = .ok () (s.placedAt tokens 4) := rfl
  obtain ⟨j, heq, -, hleast, -⟩ := @synchronize_isLeast body ⟨.eof, "", .nil, 1⟩ hbody rfl 1 ⟨.equal, "=", .nil, 1⟩ rfl
    (.inl (Nat.le_refl 1)) s
  have hplaced : s.placedAt tokens 4 = s.placedAt tokens j := by injection hrun.symm.trans heq
  have hindex : 4 = min j 6 := by simpa [State.index, State.placedAt, tokens, body] using congrArg State.index hplaced
  obtain rfl : j = 4 := by omega
  exact ⟨hbody, hrun, hleast (by decide)⟩

end LoxLanguage.Parser
