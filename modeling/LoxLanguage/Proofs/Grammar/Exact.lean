import Mathlib
import LoxLanguage.Proofs.Grammar.Complete
import LoxLanguage.Proofs.Grammar.Sound

/-! Parsing accepts exactly the programs of the grammar, and gives their trees. -/

namespace LoxLanguage

open LoxLanguage.Parser Grammar

variable {first next : Site} {body : List Token} {eof : Token} {ss : List Stmt}

/-- What parsing accepts is a program. -/
theorem program_of_parse (hb : ∀ t ∈ body, t.kind ≠ .eof) (he : eof.kind = .eof)
    (h : parse first (body ++ [eof]) = ⟨ss, next, []⟩) : Program first body ss next := by
  have hclosed := closed_append hb he
  obtain ⟨found, s', heq, hr, hend⟩ := @program_ok _ ⟨[], body ++ [eof], first, #[]⟩ #[] hclosed (le_fuelFor (body ++ [eof]).length)
  unfold parse at h
  rw [heq] at h
  obtain ⟨rfl, rfl, hproblems⟩ := Parsed.mk.inj h
  have hclean : s'.problems.size ≤ 0 := by rw [← Array.length_toList, hproblems]; exact Nat.le_refl 0
  obtain ⟨ts, more, hts, rfl, hprogram⟩ := program_sound hclosed heq hclean
  -- One token is left, and it is the last one.
  obtain ⟨t, hrest⟩ := List.length_eq_one_iff.mp hend
  rw [hrest] at hts
  obtain ⟨rfl, -⟩ := List.append_inj' hts rfl
  simpa using hprogram

/-- A program is accepted, and parsing gives its tree. -/
theorem parse_of_program (hb : ∀ t ∈ body, t.kind ≠ .eof) (he : eof.kind = .eof) (h : Program first body ss next) :
    parse first (body ++ [eof]) = ⟨ss, next, []⟩ := by
  have hrun := (program_parses h #[] he [] #[]).program_eq (closed_append hb he) (le_fuelFor (body ++ [eof]).length)
  unfold parse
  rw [hrun]
  simp

/-- Parsing reports nothing and gives a list of statements exactly if the tokens in front of the end mark are derived
    as a program and the statements are its tree. -/
theorem parse_eq_iff_program (hb : ∀ t ∈ body, t.kind ≠ .eof) (he : eof.kind = .eof) :
    parse first (body ++ [eof]) = ⟨ss, next, []⟩ ↔ Program first body ss next :=
  ⟨program_of_parse hb he, parse_of_program hb he⟩

/-- `if (a) while (b) if (c) d.e = f = g; else -h or i;` is a program, and its `else` belongs to the second `if`. -/
theorem parse_eq_iff_program_else :
    Program 0
      [⟨.ifWord, "if", .nil, 1⟩, ⟨.leftParen, "(", .nil, 1⟩, ⟨.identifier, "a", .nil, 1⟩, ⟨.rightParen, ")", .nil, 1⟩,
        ⟨.whileWord, "while", .nil, 1⟩, ⟨.leftParen, "(", .nil, 1⟩, ⟨.identifier, "b", .nil, 1⟩,
        ⟨.rightParen, ")", .nil, 1⟩, ⟨.ifWord, "if", .nil, 1⟩, ⟨.leftParen, "(", .nil, 1⟩, ⟨.identifier, "c", .nil, 1⟩,
        ⟨.rightParen, ")", .nil, 1⟩, ⟨.identifier, "d", .nil, 1⟩, ⟨.dot, ".", .nil, 1⟩, ⟨.identifier, "e", .nil, 1⟩,
        ⟨.equal, "=", .nil, 1⟩, ⟨.identifier, "f", .nil, 1⟩, ⟨.equal, "=", .nil, 1⟩, ⟨.identifier, "g", .nil, 1⟩,
        ⟨.semicolon, ";", .nil, 1⟩, ⟨.elseWord, "else", .nil, 2⟩, ⟨.minus, "-", .nil, 2⟩, ⟨.identifier, "h", .nil, 2⟩,
        ⟨.orWord, "or", .nil, 2⟩, ⟨.identifier, "i", .nil, 2⟩, ⟨.semicolon, ";", .nil, 2⟩]
      [.branch (.use 0 ⟨.identifier, "a", .nil, 1⟩)
        (.loop (.use 1 ⟨.identifier, "b", .nil, 1⟩)
          (.branch (.use 2 ⟨.identifier, "c", .nil, 1⟩)
            (.expression (.set (.use 3 ⟨.identifier, "d", .nil, 1⟩) ⟨.identifier, "e", .nil, 1⟩
              (.assign 4 ⟨.identifier, "f", .nil, 1⟩ (.use 5 ⟨.identifier, "g", .nil, 1⟩))))
            (some (.expression (.logical (.unary ⟨.minus, "-", .nil, 2⟩ (.use 6 ⟨.identifier, "h", .nil, 2⟩))
              ⟨.orWord, "or", .nil, 2⟩ (.use 7 ⟨.identifier, "i", .nil, 2⟩))))))
        none] 8 :=
  (@parse_eq_iff_program 0 8 _ ⟨.eof, "", .nil, 2⟩ _ (by simp) rfl).mp (by cbv)

end LoxLanguage
