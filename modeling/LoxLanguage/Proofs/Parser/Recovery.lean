import LoxLanguage.Proofs.Parser.Depth

/-! Parsing ends and recovers. Whatever the tokens before the end mark are, the parser of programs gives its
statements under the bound it is given and under every greater one, it never asks for a token outside of the
row, no complaint escapes it, and it stops at the end mark. -/

namespace LoxLanguage

namespace Parser

/-- The place is one of the row `tokens`. -/
def State.On (s : State) (tokens : List Token) : Prop :=
  s.before.reverse ++ s.rest = tokens

/-- The index of the next token in the row. -/
def State.index (s : State) : Nat :=
  s.before.length

theorem Reads.on {s s' : State} {tokens : List Token} (h : Reads s s') (hs : s.On tokens) : s'.On tokens := by
  obtain ⟨taken, hr, hb, -⟩ := h.row
  unfold State.On at hs ⊢
  rw [hb, ← hs, hr, List.reverse_append, List.reverse_reverse, List.append_assoc]

theorem State.On.index_add_left {s : State} {tokens : List Token} (h : s.On tokens) :
    s.index + s.left = tokens.length := by
  rw [← h]
  simp [State.index, State.left]

/-- The tokens that are left at a place of a closed row are closed, unless the place is behind the end mark. -/
theorem State.On.closed {s : State} {body : List Token} {eof : Token} (h : s.On (body ++ [eof]))
    (hb : ∀ t ∈ body, t.kind ≠ .eof) (he : eof.kind = .eof) (hi : s.index ≤ body.length) : Closed s.rest := by
  have hrest : s.rest = (body ++ [eof]).drop s.index := by
    rw [← h, State.index, ← List.length_reverse, List.drop_left]
  rw [hrest, List.drop_append_of_le_length hi]
  exact closed_append (fun t ht => hb t (List.mem_of_mem_drop ht)) he

/-- At the end mark nothing else is left. -/
theorem State.On.at_eof {s : State} {body : List Token} {eof : Token} (h : s.On (body ++ [eof])) (hl : s.left = 1) :
    s.before = body.reverse ∧ s.rest = [eof] := by
  obtain ⟨t, ht⟩ := List.length_eq_one_iff.mp hl
  rw [State.On, ht] at h
  obtain ⟨hbefore, hlast⟩ := List.append_inj' h rfl
  refine ⟨by rw [← hbefore, List.reverse_reverse], ht.trans hlast⟩

/-- Before the end mark, a declaration that recovers ends on the row and behind the place where it began, or has
    reached its bound. -/
theorem recovering_declaration_advances {fuel : Nat} {s : State} {body : List Token} {eof : Token}
    (hb : ∀ t ∈ body, t.kind ≠ .eof) (he : eof.kind = .eof) (hs : s.On (body ++ [eof])) (hi : s.index < body.length) :
    match recovering (declaration fuel) s with
    | .ok _ s' => s'.On (body ++ [eof]) ∧ s.index < s'.index ∧ s'.index ≤ body.length
    | .error stop _ => stop = .exhausted ∧ fuel < 24 * s.left + 12 := by
  have hclosed := hs.closed hb he (Nat.le_of_lt hi)
  obtain ⟨t, rest, h⟩ := hclosed.exists_cons
  have hcount := hs.index_add_left
  have ht : t.kind ≠ .eof := by
    intro heof
    rw [h] at hclosed
    cases hclosed with
    | last => simp [State.left, h] at hcount; omega
    | cons hne => exact hne heof
  rcases recovering_declaration_cases fuel hclosed h ht with ⟨o, s', heq, hr, hlt, -⟩ | ⟨hne, s', heq⟩
  · rw [heq]
    have hcount' := (hr.on hs).index_add_left
    obtain ⟨u, rest', hu⟩ := (hr.closed hclosed).exists_cons
    have hpos : 0 < s'.left := by simp [State.left, hu]
    simp only [List.length_append, List.length_cons, List.length_nil] at hcount hcount'
    exact ⟨hr.on hs, by omega, by omega⟩
  · rw [heq]
    exact ⟨rfl, by omega⟩

end Parser

/-- Parsing ends and recovers on every row of tokens with one end mark at its end. Under the bound that it is
    given, and under every greater one, the run gives statements: it asks for no token in front of the first or
    behind the last one, which would end it with `outside`, and no complaint escapes. It stops at the end mark.
    A declaration anywhere before the end mark takes a token at least, also when it is broken. -/
theorem parse_recovers {body : List Token} {eof : Token} (hb : ∀ t ∈ body, t.kind ≠ .eof) (he : eof.kind = .eof)
    (firstSite : Site) :
    (∃ found s',
      (∀ fuel, Parser.fuelFor (body ++ [eof]).length ≤ fuel →
        Parser.program fuel #[] ⟨[], body ++ [eof], firstSite, #[]⟩ = .ok found s') ∧
      parse firstSite (body ++ [eof]) = ⟨found.toList, s'.nextSite, s'.problems.toList⟩ ∧
      s'.On (body ++ [eof]) ∧ s'.index = body.length) ∧
    ∀ fuel s, s.On (body ++ [eof]) → s.index < body.length →
      match Parser.recovering (Parser.declaration fuel) s with
      | .ok _ s' => s'.On (body ++ [eof]) ∧ s.index < s'.index ∧ s'.index ≤ body.length
      | .error stop _ => stop = .exhausted ∧ fuel < 24 * s.left + 12 := by
  refine ⟨?_, fun fuel s hs hi => Parser.recovering_declaration_advances hb he hs hi⟩
  have hclosed := Parser.closed_append hb he
  have henough : 24 * (body ++ [eof]).length + 13 ≤ Parser.fuelFor (body ++ [eof]).length := by
    unfold Parser.fuelFor
    omega
  obtain ⟨found, s', heq, hr, hend⟩ := Parser.program_ok (s := ⟨[], body ++ [eof], firstSite, #[]⟩) #[] hclosed henough
  have hon : s'.On (body ++ [eof]) := hr.on rfl
  refine ⟨found, s', fun fuel hle => ?_, by unfold parse; rw [heq], hon, ?_⟩
  · rw [Parser.program_eq_of_le #[] hclosed henough hle, heq]
  · rw [Parser.State.index, (hon.at_eof hend).1, List.length_reverse]

/-- A closing brace without its opening one, a broken declaration and an unclosed call. -/
theorem parse_recovers_stray :
    ∃ found s', Parser.program (Parser.fuelFor 7) #[]
        ⟨[], [⟨.rightBrace, "\x7d", .nil, 1⟩, ⟨.varWord, "var", .nil, 1⟩, ⟨.semicolon, ";", .nil, 1⟩,
          ⟨.printWord, "print", .nil, 2⟩, ⟨.identifier, "f", .nil, 2⟩, ⟨.leftParen, "(", .nil, 2⟩,
          ⟨.eof, "", .nil, 2⟩], 0, #[]⟩ = .ok found s' ∧ s'.index = 6 := by
  obtain ⟨⟨found, s', hrun, -, -, hindex⟩, -⟩ := @parse_recovers
    [⟨.rightBrace, "\x7d", .nil, 1⟩, ⟨.varWord, "var", .nil, 1⟩, ⟨.semicolon, ";", .nil, 1⟩,
      ⟨.printWord, "print", .nil, 2⟩, ⟨.identifier, "f", .nil, 2⟩, ⟨.leftParen, "(", .nil, 2⟩]
    ⟨.eof, "", .nil, 2⟩ (by simp) rfl 0
  exact ⟨found, s', hrun _ (Nat.le_refl _), hindex⟩

end LoxLanguage
