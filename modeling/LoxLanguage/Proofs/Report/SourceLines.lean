import Mathlib
import LoxLanguage.Text.Lines

/-! Lines of a text. They are made of its characters (`Text.mem_of_mem_linesFrom`). The lines that are quoted end with other
characters too, those that tokens have are counted by newlines. The two agree in a text with no other line ends
(`lines_prefix`). -/

namespace LoxLanguage

/-- The characters of the lines are characters of the text. -/
theorem Text.mem_of_mem_linesFrom {text : String} {rest line : List Char} {before : List String}
    (h : text ∈ Text.linesFrom rest line before) : text ∈ before ∨ ∀ c ∈ text.toList, c ∈ line ∨ c ∈ rest := by
  fun_induction Text.linesFrom rest line before with
  | case1 before => exact .inl (List.mem_reverse.mp h)
  | case2 line before hline =>
    rcases List.mem_cons.mp (List.mem_reverse.mp h) with rfl | hbefore
    · exact .inr fun c hc => .inl (by simpa using hc)
    · exact .inl hbefore
  | case3 rest line before ih =>
    rcases ih h with hmem | hchars
    · rcases List.mem_cons.mp hmem with rfl | hbefore
      · exact .inr fun c hc => .inl (by simpa using hc)
      · exact .inl hbefore
    · exact .inr fun c hc => .inr (by simpa using .inr (.inr ((hchars c hc).resolve_left List.not_mem_nil)))
  | case4 c rest line before _ hend ih =>
    rcases ih h with hmem | hchars
    · rcases List.mem_cons.mp hmem with rfl | hbefore
      · exact .inr fun c hc => .inl (by simpa using hc)
      · exact .inl hbefore
    · exact .inr fun c hc => .inr (List.mem_cons_of_mem _ ((hchars c hc).resolve_left List.not_mem_nil))
  | case5 c rest line before _ hend ih =>
    refine (ih h).imp_right fun hchars d hd => ?_
    rcases hchars d hd with hline | hrest
    · rcases List.mem_cons.mp hline with rfl | hline
      · exact .inr List.mem_cons_self
      · exact .inl hline
    · exact .inr (List.mem_cons_of_mem _ hrest)

/-- The lines of a text as they are counted for tokens. -/
def newlineLines (text : String) : List String :=
  (text.toList.splitOn '\n').map String.ofList

/-- No character but the newline ends a line. -/
def NewlinesOnly (text : String) : Prop :=
  ∀ c ∈ text.toList, Text.isLineEnd c = true → c = '\n'

theorem modifyHead_nil_append (lines : List (List Char)) : lines.modifyHead (([] : List Char).reverse ++ ·) = lines := by
  cases lines <;> rfl

theorem linesFrom_prefix {rest : List Char} (h : ∀ c ∈ rest, Text.isLineEnd c = true → c = '\n') (line : List Char)
    (before : List String) :
    Text.linesFrom rest line before <+:
      before.reverse ++ ((rest.splitOn '\n').modifyHead (line.reverse ++ ·)).map String.ofList := by
  fun_induction Text.linesFrom rest line before with
  | case1 before => exact List.prefix_append _ _
  | case2 line before => simp
  | case3 rest line before ih =>
    have hreturn := h '\r' (by simp) (by decide)
    cases hreturn
  | case4 c rest line before _ hend ih =>
    obtain ⟨hc, hrest⟩ := List.forall_mem_cons.mp h
    obtain rfl := hc hend
    have hnext := ih hrest
    rw [List.splitOn, List.splitOnP_cons_eq_if_modifyHead, if_pos (by simp)]
    rw [modifyHead_nil_append] at hnext
    simpa [List.splitOn] using hnext
  | case5 c rest line before _ hend ih =>
    obtain ⟨-, hrest⟩ := List.forall_mem_cons.mp h
    have hc : c ≠ '\n' := by
      rintro rfl
      exact hend (by decide)
    have hnext := ih hrest
    rw [List.splitOn, List.splitOnP_cons_eq_if_modifyHead, if_neg (by simpa using hc), List.modifyHead_modifyHead]
    simpa [List.splitOn, Function.comp_def] using hnext

/-- The lines that are quoted, apart from an empty one at the end. -/
theorem lines_prefix {text : String} (h : NewlinesOnly text) : Text.lines text <+: newlineLines text := by
  have hprefix := linesFrom_prefix h [] []
  rw [modifyHead_nil_append] at hprefix
  exact hprefix

end LoxLanguage
