import LoxLanguage.Report.Escape

/-! Notices. Whatever a reporter is asked to report comes down to a notice: at a place of the text, for an error of the
program, or for neither. A notice adds one diagnostic, sets a flag and writes to the error stream, and it changes nothing
else (`Reporter.notify_eq`). -/

namespace LoxLanguage

/-- What is reported at once: at a place of the text, for an error of the program, or for neither. -/
inductive Notice where
  | static (line : Int) (place message : String) (token : Option Token)
  | runtime (message : String) (token : Option Token)
  | general (message : String) (isInternal : Bool)
  deriving DecidableEq

/-- What is written for a token: where its line is from, and the line with the token underlined. -/
def quotation (colour : Bool) (path : String) (lines : List String) (token : Token) : List String :=
  (Reporter.quotedLine? lines token).toList.map fun line =>
    "  File '" ++ path ++ "', line " ++ toString token.line ++ ":\n" ++ (Quote.quote? colour line token.lexeme).getD "" ++ "\n"

namespace Notice

/-- The notice at a token. The end mark has no text to quote. -/
def atToken (token : Token) (message : String) : Notice :=
  if token.kind = .eof then .static token.line " at end" message none
  else .static token.line (" at '" ++ token.lexeme ++ "'") message (some token)

/-- The plain text that is kept of a notice. -/
def diagnostic : Notice → String
  | .static line place message _ => "[line " ++ toString line ++ "] Error" ++ place ++ ": " ++ message
  | .runtime message token => message ++ ("\n[line " ++ Reporter.lineText token ++ "]")
  | .general message _ => "error: " ++ message

/-- What is written for a notice, without its quotation. -/
def head (colour : Bool) : Notice → String
  | .static line place message _ =>
    alert colour ("[line " ++ toString line ++ "] Error" ++ place ++ ": " ++ message) ++ "\n"
  | .runtime message token => alert colour message ++ ("\n[line " ++ Reporter.lineText token ++ "]") ++ "\n"
  | .general message isInternal =>
    (if isInternal then alert colour "[internal] " else "") ++ alert colour "error: " ++ message ++ "\n"

/-- The token whose line may be quoted. -/
def token? : Notice → Option Token
  | .static _ _ _ token => token
  | .runtime _ token => token
  | .general _ _ => none

/-- All that is written for a notice. -/
def written (colour : Bool) (path : String) (lines : List String) (notice : Notice) : List String :=
  notice.head colour :: (notice.token?.map (quotation colour path lines)).getD []

/-- Whether the flag for static errors is set. -/
def isStatic : Notice → Bool
  | .static _ _ _ _ => true
  | _ => false

/-- Whether the flag for errors of the program is set. -/
def isRuntime : Notice → Bool
  | .runtime _ _ => true
  | _ => false

theorem isStatic_atToken (token : Token) (message : String) : (atToken token message).isStatic = true := by
  unfold atToken
  split <;> rfl

end Notice

/-- The notice of a static problem. -/
def Problem.notice : Problem → Notice
  | .onLine line complaint => .static line "" complaint.message none
  | .atToken token complaint => .atToken token complaint.message

theorem Problem.isStatic_notice (p : Problem) : p.notice.isStatic = true := by
  cases p with
  | onLine line complaint => rfl
  | atToken token complaint => exact Notice.isStatic_atToken token complaint.message

/-- What can be quoted for a static problem is the token it is at. -/
theorem Problem.eq_of_token?_notice {p : Problem} {token : Token} (h : p.notice.token? = some token) :
    ∃ complaint, p = .atToken token complaint := by
  cases p with
  | onLine line complaint => cases h
  | atToken t complaint =>
    rw [notice, Notice.atToken] at h
    by_cases heof : t.kind = .eof
    · rw [if_pos heof] at h
      cases h
    · rw [if_neg heof] at h
      cases h
      exact ⟨complaint, rfl⟩

/-- The notice of an error of the program. -/
def RuntimeError.notice (error : RuntimeError) : Notice :=
  .runtime error.cause.message (some error.token)

/-- The notice that an escape gives on its way. -/
def Escape.notice? : Escape → Option Notice
  | .interrupted => some (.general "keyboard interrupt" false)
  | .exit _ => none
  | .tooDeep => some (.general "maximum recursion depth exceeded" false)
  | .runtime message token => some (.runtime message token)
  | .general message isInternal => some (.general message isInternal)
  | .foreign kind message => some (.general ("unknown error: '" ++ kind ++ ": " ++ message ++ "'") true)

namespace Reporter

theorem quotedLine?_eq_some {lines : List String} {token : Token} {line : String} (h : quotedLine? lines token = some line) :
    1 ≤ token.line ∧ lines[(token.line - 1).toNat]? = some line := by
  obtain ⟨hline, -⟩ := Option.filter_eq_some_iff.mp h
  unfold Text.lineAt? at hline
  split at hline
  · rename_i hpositive
    exact ⟨hpositive, hline⟩
  · cases hline

variable (r : Reporter)

/-- Gives a notice. -/
def notify (r : Reporter) : Notice → Reporter
  | .static line place message token =>
    match token with
    | some token => (r.report line place message).quote token
    | none => r.report line place message
  | .runtime message token => r.runtimeError message token
  | .general message isInternal => r.announce message isInternal

/-- Quoting a line writes it and does nothing else. -/
theorem quote_eq (token : Token) :
    r.quote token = { r with written := r.written ++ quotation r.colour r.path r.lines token } := by
  unfold quote quotation
  cases quotedLine? r.lines token with
  | none => simp
  | some line => simp [write]

/-- A notice adds a diagnostic, sets the flag of its kind and is written behind the others. -/
theorem notify_eq (notice : Notice) :
    r.notify notice =
      { r with
        diagnostics := r.diagnostics.push notice.diagnostic
        hadError := r.hadError || notice.isStatic
        hadRuntimeError := r.hadRuntimeError || notice.isRuntime
        written := r.written ++ notice.written r.colour r.path r.lines } := by
  cases notice with
  | static line place message token =>
    cases token with
    | none =>
      simp [notify, report, write, record, Notice.diagnostic, Notice.head, Notice.token?, Notice.written, Notice.isStatic,
        Notice.isRuntime]
    | some token =>
      rw [notify, quote_eq]
      simp [report, write, record, Notice.diagnostic, Notice.head, Notice.token?, Notice.written, Notice.isStatic,
        Notice.isRuntime]
  | runtime message token =>
    cases token with
    | none =>
      simp [notify, runtimeError, write, record, Notice.diagnostic, Notice.head, Notice.token?, Notice.written,
        Notice.isStatic, Notice.isRuntime]
    | some token =>
      rw [notify, runtimeError, quote_eq]
      simp [write, record, Notice.diagnostic, Notice.head, Notice.token?, Notice.written, Notice.isStatic, Notice.isRuntime]
  | general message isInternal =>
    simp [notify, announce, write, record, Notice.diagnostic, Notice.head, Notice.token?, Notice.written, Notice.isStatic,
      Notice.isRuntime]

/-- Notices in a row are written in order, each with the lines of the same text. -/
theorem written_foldl_notify (notices : List Notice) :
    (notices.foldl notify r).written.toList = r.written.toList ++ notices.flatMap (Notice.written r.colour r.path r.lines) := by
  induction notices generalizing r with
  | nil => simp
  | cons notice rest ih =>
    rw [List.foldl_cons, ih, notify_eq]
    simp

theorem errorAtToken_eq (token : Token) (message : String) :
    r.errorAtToken token message = r.notify (.atToken token message) := by
  unfold errorAtToken Notice.atToken
  split <;> rfl

theorem problem_eq (p : Problem) : r.problem p = r.notify p.notice := by
  cases p with
  | onLine line complaint => rfl
  | atToken token complaint => exact r.errorAtToken_eq token complaint.message

/-- Static problems are notices in a row. -/
theorem problems_eq (found : List Problem) : r.problems found = (found.map Problem.notice).foldl notify r := by
  unfold problems
  induction found generalizing r with
  | nil => rfl
  | cons p rest ih => rw [List.foldl_cons, problem_eq, ih, List.map_cons, List.foldl_cons]

/-- Guarded work is left with the notice of what escapes. -/
theorem absorb_eq (escape : Escape) :
    (r.absorb escape).1 = (match escape.notice? with
      | some notice => r.notify notice
      | none => r) := by
  cases escape <;> rfl

end Reporter

end LoxLanguage
