import Mathlib
import LoxLanguage.Proofs.Grammar.Braces
import LoxLanguage.Proofs.Session.Acceptance
import LoxLanguage.Proofs.Session.Continuation

/-! Counting braces is enough to know that a text goes on. The shell counts the braces of the tokens and never parses the
text that it holds back; still, no text that it holds back is a whole program. -/

namespace LoxLanguage

/-- Neither scanning nor parsing complains about a text. -/
def Parsable (source : String) : Prop :=
  (scan source).2 = [] ∧ ∃ first, (parse first (scan source).1).problems = []

theorem Parsable.balanced {source : String} (h : Parsable source) : Balanced (scan source).1 := by
  obtain ⟨-, first, hparsed⟩ := h
  obtain ⟨body, eof, htokens, heof, -, hprogram⟩ := program_of_parsed hparsed
  rw [htokens]
  exact hprogram.balanced.concat heof rfl

namespace Shell

/-- The depth that the braces leave is what has been opened without what has been closed. -/
theorem braceDepth_eq (ts : List Token) :
    braceDepth ts = (Token.count .leftBrace ts : Int) - Token.count .rightBrace ts := by
  have hfrom : ∀ depth : Int,
      ts.foldl (fun depth t =>
        if t.kind = .leftBrace then depth + 1 else if t.kind = .rightBrace then depth - 1 else depth) depth =
        depth + Token.count .leftBrace ts - Token.count .rightBrace ts := by
    induction ts with
    | nil => simp [Token.count]
    | cons t rest ih =>
      intro depth
      rw [List.foldl_cons, ih]
      by_cases hleft : t.kind = .leftBrace
      · rw [if_pos hleft, Token.count_cons_self hleft, Token.count_cons_of_ne (by simp [hleft])]
        push_cast
        ring
      · rw [if_neg hleft, Token.count_cons_of_ne hleft]
        by_cases hright : t.kind = .rightBrace
        · rw [if_pos hright, Token.count_cons_self hright]
          push_cast
          ring
        · rw [if_neg hright, Token.count_cons_of_ne hright]
  rw [braceDepth, hfrom, zero_add]

theorem needsContinuation_of_balanced {source : String} (h : Balanced (scan source).1) : needsContinuation source = false := by
  rw [needsContinuation, braceDepth_eq, h.closed, sub_self]
  rfl

/-- The shell asks for another line only if it holds back a text whose braces are not all closed. -/
theorem needsContinuation_of_prompt (session : Session) (lines : List (Nat × String))
    (h : ((Shell.start session).readAll lines).1.prompt = ". ") :
    needsContinuation ((Shell.start session).readAll lines).1.pending = true := by
  have hheld := ((inStep_start session).readAll lines).prompt_iff.1.mp h
  exact (readAll_divides session lines).2.needsContinuation hheld

/-- A text about which neither scanning nor parsing complains has as many closing braces as opening ones, and no more of
    them up to any token; so the shell does not go on asking for it. Whatever lines a shell has been given, when it asks
    for another one the text that it holds back is not a whole program. -/
theorem complete_needs_no_continuation :
    (∀ source, Parsable source →
      Token.count .leftBrace (scan source).1 = Token.count .rightBrace (scan source).1 ∧
        (∀ front, front <+: (scan source).1 → Token.count .rightBrace front ≤ Token.count .leftBrace front) ∧
        needsContinuation source = false) ∧
      ∀ session lines, ((Shell.start session).readAll lines).1.prompt = ". " →
        ¬ Parsable ((Shell.start session).readAll lines).1.pending := by
  refine ⟨fun source hcomplete => ?_, fun session lines hasks hcomplete => ?_⟩
  · have hbalanced := hcomplete.balanced
    exact ⟨hbalanced.closed, hbalanced.opened, needsContinuation_of_balanced hbalanced⟩
  · have hopen := needsContinuation_of_prompt session lines hasks
    rw [needsContinuation_of_balanced hcomplete.balanced] at hopen
    cases hopen

/-- A class with a method, a block in it, and braces in a string and in a comment. -/
def bracesText : String :=
  "class A \x7b m() \x7b \x7b print \"\x7d\"; \x7d \x7d // \x7b\n\x7d"

/-- The text is whole and its three pairs of braces are counted; after its first line the shell asks for another one. -/
theorem complete_needs_no_continuation_method :
    Parsable bracesText ∧ Token.count .leftBrace (scan bracesText).1 = 3 ∧ needsContinuation bracesText = false ∧
      ((Shell.start (.start ⟨3, fun _ => 0⟩ (.new false false) "")).readAll [(0, "class A \x7b")]).1.prompt = ". " ∧
      ¬ Parsable ((Shell.start (.start ⟨3, fun _ => 0⟩ (.new false false) "")).readAll [(0, "class A \x7b")]).1.pending := by
  have hcomplete : Parsable bracesText := ⟨by cbv, 0, by cbv⟩
  have hasks : ((Shell.start (.start ⟨3, fun _ => 0⟩ (.new false false) "")).readAll [(0, "class A \x7b")]).1.prompt = ". " := by
    cbv
  obtain ⟨htexts, hshells⟩ := complete_needs_no_continuation
  exact ⟨hcomplete, by cbv, (htexts _ hcomplete).2.2, hasks, hshells _ _ hasks⟩

end Shell

end LoxLanguage
