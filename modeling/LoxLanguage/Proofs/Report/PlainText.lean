import Mathlib
import LoxLanguage.Proofs.Report.Notices

/-! What is written for a row of operations on a reporter. Some of them give a notice, and without colour what is written
is the plain text of the notices, each with the line that it quotes (`PlainText`). The quoted line is the one of the
source, and the mark under it stands below the first occurrence of the lexeme (`Quotation`). -/

namespace LoxLanguage

/-! ### Operations -/

/-- What can be done with a reporter. Leaving guarded work normally is an operation too. -/
inductive Operation where
  | register (path source : String)
  | errorOnLine (line : Int) (message : String)
  | errorAtToken (token : Token) (message : String)
  | runtimeError (message : String) (token : Option Token)
  | announce (message : String) (isInternal : Bool)
  | reset
  | leave (escape : Option Escape)

namespace Operation

/-- The notice that an operation gives. -/
def notice? : Operation → Option Notice
  | .errorOnLine line message => some (.static line "" message none)
  | .errorAtToken token message => some (.atToken token message)
  | .runtimeError message token => some (.runtime message token)
  | .announce message isInternal => some (.general message isInternal)
  | .leave (some escape) => escape.notice?
  | .register _ _ | .reset | .leave none => none

/-- The path and the lines from which is quoted after an operation. -/
def source (before : String × List String) : Operation → String × List String
  | .register path source => (path, Text.lines source)
  | _ => before

/-- What an operation writes. -/
def written (colour : Bool) (path : String) (lines : List String) (operation : Operation) : List String :=
  (operation.notice?.map (Notice.written colour path lines)).getD []

theorem source_of_notice {operation : Operation} {notice : Notice} (h : operation.notice? = some notice)
    (before : String × List String) : operation.source before = before := by
  cases operation with
  | register path source => cases h
  | _ => rfl

theorem silent_cases {operation : Operation} (h : operation.notice? = none) :
    (∃ path source, operation = .register path source) ∨ operation = .reset ∨ operation = .leave none ∨
      ∃ status, operation = .leave (some (.exit status)) := by
  cases operation with
  | register path source => exact .inl ⟨path, source, rfl⟩
  | reset => exact .inr (.inl rfl)
  | leave escape =>
    cases escape with
    | none => exact .inr (.inr (.inl rfl))
    | some escape =>
      cases escape with
      | exit status => exact .inr (.inr (.inr ⟨status, rfl⟩))
      | _ => cases h
  | _ => cases h

end Operation

namespace Reporter

variable (r : Reporter)

/-- Does an operation. -/
def perform (r : Reporter) : Operation → Reporter × Departure
  | .register path source => (r.register path source, .stays)
  | .errorOnLine line message => (r.errorOnLine line message, .stays)
  | .errorAtToken token message => (r.errorAtToken token message, .stays)
  | .runtimeError message token => (r.runtimeError message token, .stays)
  | .announce message isInternal => (r.announce message isInternal, .stays)
  | .reset => (r.reset, .stays)
  | .leave escape => r.leave escape

/-- Does operations one after the other. -/
def performAll (r : Reporter) : List Operation → Reporter × List Departure
  | [] => (r, [])
  | operation :: rest =>
    let (next, departure) := r.perform operation
    let (last, departures) := next.performAll rest
    (last, departure :: departures)

theorem perform_of_notice {operation : Operation} {notice : Notice} (h : operation.notice? = some notice) :
    (r.perform operation).1 = r.notify notice := by
  cases operation with
  | register path source => cases h
  | reset => cases h
  | errorAtToken token message =>
    cases h
    exact r.errorAtToken_eq token message
  | leave escape =>
    cases escape with
    | none => cases h
    | some escape =>
      have hnotice : escape.notice? = some notice := h
      rw [perform, leave, absorb_eq, hnotice]
  | _ =>
    cases h
    rfl

theorem source_perform (operation : Operation) :
    ((r.perform operation).1.path, (r.perform operation).1.lines) = operation.source (r.path, r.lines) := by
  cases hnotice : operation.notice? with
  | some notice =>
    rw [r.perform_of_notice hnotice, notify_eq, operation.source_of_notice hnotice]
  | none => obtain ⟨path, source, rfl⟩ | rfl | rfl | ⟨status, rfl⟩ := Operation.silent_cases hnotice <;> rfl

/-- The reporter with another setting for colour, and with other texts written. -/
def recolour (r : Reporter) (colour : Bool) (written : Array String) : Reporter :=
  { r with colour, written }

/-- An operation writes behind what has been written. All else that it does, and how it is left, depends neither on colour
    nor on what has been written. -/
theorem perform_recolour (colour : Bool) (written : Array String) (operation : Operation) :
    (r.recolour colour written).perform operation =
      ((r.perform operation).1.recolour colour (written ++ operation.written colour r.path r.lines),
        (r.perform operation).2) := by
  refine Prod.ext ?_ ?_
  · unfold Operation.written
    cases hnotice : operation.notice? with
    | some notice =>
      rw [perform_of_notice _ hnotice, perform_of_notice _ hnotice, notify_eq, notify_eq]
      rfl
    | none =>
      have hnothing : written ++ ([] : List String) = written := Array.ext' (by simp)
      rw [Option.map_none, Option.getD_none, hnothing]
      obtain ⟨path, source, rfl⟩ | rfl | rfl | ⟨status, rfl⟩ := Operation.silent_cases hnotice <;> rfl
  · cases operation with
    | leave escape =>
      cases escape with
      | none => rfl
      | some escape => cases escape <;> rfl
    | _ => rfl

theorem colour_perform (operation : Operation) : (r.perform operation).1.colour = r.colour :=
  congrArg (·.1.colour) (r.perform_recolour r.colour r.written operation)

theorem stream_perform (operation : Operation) :
    (r.perform operation).1.stream 0 = r.stream 0 ++ String.join (operation.written r.colour r.path r.lines) := by
  have hwritten : (r.perform operation).1.written = r.written ++ operation.written r.colour r.path r.lines :=
    congrArg (·.1.written) (r.perform_recolour r.colour r.written operation)
  rw [stream, hwritten]
  simp [stream, String.join_append]

end Reporter

/-! ### First occurrences -/

namespace Quote

/-- The place that is found is that of the first occurrence. -/
theorem find?_eq_some {lexeme line : List Char} {start place : Nat} (h : find? lexeme line start = some place) :
    ∃ front back, line = front ++ lexeme ++ back ∧ place = start + front.length ∧
      ∀ front' back', line = front' ++ lexeme ++ back' → front.length ≤ front'.length := by
  fun_induction find? lexeme line start with
  | case1 start hempty =>
    cases h
    obtain rfl := List.isEmpty_iff.mp hempty
    exact ⟨[], [], rfl, rfl, fun _ _ _ => Nat.zero_le _⟩
  | case2 => cases h
  | case3 c rest start hprefix =>
    cases h
    obtain ⟨back, hback⟩ := List.isPrefixOf_iff_prefix.mp hprefix
    exact ⟨[], back, hback.symm, rfl, fun _ _ _ => Nat.zero_le _⟩
  | case4 c rest start hprefix ih =>
    obtain ⟨front, back, rfl, rfl, hfirst⟩ := ih h
    refine ⟨c :: front, back, rfl, by rw [List.length_cons]; omega, fun front' back' hsplit => ?_⟩
    cases front' with
    | nil => exact absurd (List.isPrefixOf_iff_prefix.mpr ⟨back', hsplit.symm⟩) hprefix
    | cons c' front' =>
      obtain ⟨-, hsplit⟩ := List.cons.inj hsplit
      exact Nat.succ_le_succ (hfirst front' back' hsplit)

theorem find?_eq_none {lexeme line : List Char} {start : Nat} (h : find? lexeme line start = none) :
    ¬ lexeme <:+: line := by
  fun_induction find? lexeme line start with
  | case1 => cases h
  | case2 start hempty =>
    intro hinfix
    exact hempty (List.isEmpty_iff.mpr (List.infix_nil.mp hinfix))
  | case3 => cases h
  | case4 c rest start hprefix ih =>
    intro hinfix
    rcases List.infix_cons_iff.mp hinfix with hstart | hrest
    · exact hprefix (List.isPrefixOf_iff_prefix.mpr hstart)
    · exact ih h hrest

/-- A lexeme that is quoted divides its line at its first occurrence. -/
theorem quote?_eq_some {colour : Bool} {line lexeme quoted : String} (hlexeme : lexeme ≠ "")
    (h : quote? colour line lexeme = some quoted) :
    ∃ front back, line = front ++ lexeme ++ back ∧
      (∀ front' back', line = front' ++ lexeme ++ back' → front.length ≤ front'.length) ∧
      quoted = margin ++ front ++ alert colour lexeme ++ back ++ "\n" ++
        margin ++ String.ofList (List.replicate front.length ' ') ++ alert colour (marker lexeme.length) := by
  obtain ⟨place, hplace, rfl⟩ := Option.map_eq_some_iff.mp h
  obtain ⟨front, back, hline, rfl, hfirst⟩ := find?_eq_some hplace
  have hwidth : max lexeme.length 1 = lexeme.toList.length := by
    rw [String.length_toList]
    exact Nat.max_eq_left (Nat.one_le_iff_ne_zero.mpr (String.length_eq_zero_iff.not.mpr hlexeme))
  refine ⟨String.ofList front, String.ofList back, ?_, fun front' back' hsplit => ?_, ?_⟩
  · rw [← String.toList_inj, hline]
    simp
  · rw [String.length_ofList, ← String.length_toList]
    refine hfirst front'.toList back'.toList ?_
    rw [hsplit, String.toList_append, String.toList_append]
  · rw [hline, hwidth, Nat.zero_add]
    simp [String.length_toList]

theorem length_marker {width : Nat} (h : 0 < width) : (marker width).length = width := by
  rw [marker, String.length_ofList, List.length_cons, List.length_replicate]
  omega

end Quote

/-! ### The plain text -/

/-- The plain text of a notice, without its quotation. -/
def Notice.text : Notice → String
  | .static line place message _ => "[line " ++ toString line ++ "] Error" ++ place ++ ": " ++ message ++ "\n"
  | .runtime message token => message ++ "\n[line " ++ Reporter.lineText token ++ "]\n"
  | .general message isInternal => (if isInternal then "[internal] " else "") ++ "error: " ++ message ++ "\n"

theorem Notice.head_plain (notice : Notice) : notice.head false = notice.text := by
  cases notice with
  | static line place message token => simp [head, text, alert]
  | runtime message token => simp [head, text, alert, String.append_assoc]
  | general message isInternal => cases isInternal <;> simp [head, text, alert]

/-- What stands in plain text under a notice: nothing, or the line of its token. That line is unchanged behind four blanks,
    and under it there is a mark that begins below the first occurrence of the lexeme and is as long as it. -/
inductive Quotation (path : String) (lines : List String) : Option Token → String → Prop where
  | untied : Quotation path lines none ""
  | missing {token : Token}
      (h : ∀ line, Text.lineAt? lines token.line = some line → token.lexeme = "" ∨ ¬ token.lexeme.toList <:+: line.toList) :
      Quotation path lines (some token) ""
  | quoted {token : Token} {front back mark : String} (hlexeme : token.lexeme ≠ "")
      (hline : Text.lineAt? lines token.line = some (front ++ token.lexeme ++ back))
      (hfirst : ∀ front' back', front ++ token.lexeme ++ back = front' ++ token.lexeme ++ back' → front.length ≤ front'.length)
      (hmark : mark = Quote.marker token.lexeme.length) (hlength : mark.length = token.lexeme.length) :
      Quotation path lines (some token)
        ("  File '" ++ path ++ "', line " ++ toString token.line ++ ":\n" ++
          "    " ++ (front ++ token.lexeme ++ back) ++ "\n" ++
          "    " ++ String.ofList (List.replicate front.length ' ') ++ mark ++ "\n")

/-- The plain text of a row of operations: that of their notices, each with its quotation. -/
inductive PlainText : String × List String → List Operation → String → Prop where
  | nil {source : String × List String} : PlainText source [] ""
  | silent {source : String × List String} {operation : Operation} {rest : List Operation} {text : String}
      (h : operation.notice? = none) (hrest : PlainText (operation.source source) rest text) :
      PlainText source (operation :: rest) text
  | notice {source : String × List String} {operation : Operation} {notice : Notice} {rest : List Operation}
      {quoted text : String} (h : operation.notice? = some notice)
      (hquoted : Quotation source.1 source.2 notice.token? quoted) (hrest : PlainText source rest text) :
      PlainText source (operation :: rest) (notice.text ++ quoted ++ text)

theorem quotation_plain (path : String) (lines : List String) (token : Option Token) :
    Quotation path lines token (String.join ((token.map (quotation false path lines)).getD [])) := by
  cases token with
  | none => exact .untied
  | some token =>
    rw [Option.map_some, Option.getD_some, quotation]
    cases hline : Reporter.quotedLine? lines token with
    | none =>
      refine .missing fun line hfound => ?_
      rw [Reporter.quotedLine?, hfound, Option.filter_some] at hline
      by_cases hlexeme : token.lexeme = ""
      · exact .inl hlexeme
      · have hnone : Quote.find? token.lexeme.toList line.toList 0 = none := by simpa [hlexeme, Quote.occurs] using hline
        exact .inr (Quote.find?_eq_none hnone)
    | some line =>
      rw [Reporter.quotedLine?, Option.filter_eq_some_iff, Bool.and_eq_true] at hline
      obtain ⟨hfound, hlexeme, hoccurs⟩ := hline
      have hlexeme : token.lexeme ≠ "" := by simpa using hlexeme
      obtain ⟨quoted, hquote⟩ : ∃ quoted, Quote.quote? false line token.lexeme = some quoted :=
        Option.isSome_iff_exists.mp ((Option.isSome_map ..).trans hoccurs)
      obtain ⟨front, back, rfl, hfirst, rfl⟩ := Quote.quote?_eq_some hlexeme hquote
      have hpositive : 0 < token.lexeme.length := Nat.pos_of_ne_zero (String.length_eq_zero_iff.not.mpr hlexeme)
      have hquotation : Quotation path lines (some token) _ :=
        .quoted hlexeme hfound hfirst rfl (Quote.length_marker hpositive)
      rw [Option.toList_some, List.map_singleton, hquote]
      simpa [alert, Quote.margin, String.append_assoc, -String.reduceAppend] using hquotation

/-- Without colour, a row of operations writes its plain text. -/
theorem Reporter.plainText {r : Reporter} (hplain : r.colour = false) (operations : List Operation) :
    ∃ text, PlainText (r.path, r.lines) operations text ∧ (r.performAll operations).1.stream 0 = r.stream 0 ++ text := by
  induction operations generalizing r with
  | nil => exact ⟨"", .nil, (String.append_empty).symm⟩
  | cons operation rest ih =>
    obtain ⟨text, htext, hstream⟩ := ih ((r.colour_perform operation).trans hplain)
    rw [source_perform] at htext
    rw [stream_perform, hplain, Operation.written] at hstream
    cases hnotice : operation.notice? with
    | none =>
      rw [hnotice, Option.map_none, Option.getD_none, String.join_nil, String.append_empty] at hstream
      exact ⟨text, .silent hnotice htext, hstream⟩
    | some notice =>
      rw [operation.source_of_notice hnotice] at htext
      refine ⟨_, .notice hnotice (quotation_plain r.path r.lines notice.token?) htext, hstream.trans ?_⟩
      rw [hnotice, Option.map_some, Option.getD_some, Notice.written, String.join_cons, Notice.head_plain]
      simp only [String.append_assoc]

end LoxLanguage
