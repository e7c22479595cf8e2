import Mathlib
import LoxLanguage.Proofs.Report.PlainText
import LoxLanguage.Proofs.Report.SourceLines

/-! Reports with and without colour. A reporter in colour is run beside one without (`Reporter.Recoloured`). No text that an
operation brings along has an escape code in it, so the codes around what stands out are the only ones that are written.
Each operation keeps the two reporters the same apart from them, and without them what is written is the plain text
(`colour_erased`). -/

namespace LoxLanguage

/-! ### Escape codes -/

/-- The codes that are written around a text that stands out. -/
def alertCodes : List (List Char) :=
  ["\x1b[1m", "\x1b[31m", "\x1b[0m"].map String.toList

/-- Deletes every occurrence of the words behind some characters that are skipped. -/
def deleteAll (words : List (List Char)) : Nat → List Char → List Char
  | _, [] => []
  | skipped + 1, _ :: rest => deleteAll words skipped rest
  | 0, c :: rest =>
    match words.find? (·.isPrefixOf (c :: rest)) with
    | some word => deleteAll words (word.length - 1) rest
    | none => c :: deleteAll words 0 rest

/-- A text without escape codes. -/
def eraseCodes (text : String) : String :=
  String.ofList (deleteAll alertCodes 0 text.toList)

/-- A text in which no escape code begins. -/
def Uncoded (text : String) : Prop :=
  '\x1b' ∉ text.toList

instance (text : String) : Decidable (Uncoded text) :=
  inferInstanceAs (Decidable ('\x1b' ∉ text.toList))

@[simp] theorem uncoded_append {a b : String} : Uncoded (a ++ b) ↔ Uncoded a ∧ Uncoded b := by
  simp [Uncoded]

@[simp] theorem uncoded_ofList {text : List Char} : Uncoded (String.ofList text) ↔ '\x1b' ∉ text := by
  rw [Uncoded, String.toList_ofList]

theorem uncoded_of_subset {a b : String} (h : Uncoded b) (hsub : a.toList ⊆ b.toList) : Uncoded a :=
  fun hmem => h (hsub hmem)

theorem uncoded_repr (n : Int) : Uncoded n.repr := by
  have hdigits : ∀ k : Nat, Uncoded k.repr := by
    intro k hmem
    rw [Nat.toList_repr] at hmem
    exact absurd (Nat.isDigit_of_mem_toDigits (by decide) (by decide) hmem) (by decide)
  cases n with
  | ofNat k => exact hdigits k
  | negSucc k => exact uncoded_append.mpr ⟨by decide, hdigits _⟩

theorem deleteAll_code {code : List Char} (h : code ∈ alertCodes) (rest : List Char) :
    deleteAll alertCodes 0 (code ++ rest) = deleteAll alertCodes 0 rest := by
  simp only [alertCodes, List.map_cons, List.map_nil, List.mem_cons, List.not_mem_nil, or_false] at h
  rcases h with rfl | rfl | rfl <;> simp [alertCodes, deleteAll]

theorem deleteAll_uncoded {text : List Char} (h : '\x1b' ∉ text) (rest : List Char) :
    deleteAll alertCodes 0 (text ++ rest) = text ++ deleteAll alertCodes 0 rest := by
  induction text with
  | nil => rfl
  | cons c text ih =>
    obtain ⟨hc, htext⟩ := List.mem_cons.not.trans not_or |>.mp h
    have hnone : alertCodes.find? (·.isPrefixOf (c :: (text ++ rest))) = none := by
      simp [alertCodes, hc]
    rw [List.cons_append, deleteAll, hnone, ih htext]
    rfl

/-- Without the codes in it the first text is the second, whatever follows. -/
def Erases (coloured plain : String) : Prop :=
  ∀ rest, deleteAll alertCodes 0 (coloured.toList ++ rest) = plain.toList ++ deleteAll alertCodes 0 rest

theorem Erases.refl {text : String} (h : Uncoded text) : Erases text text :=
  deleteAll_uncoded h

theorem Erases.empty : Erases "" "" :=
  fun _ => rfl

theorem Erases.append {a b c d : String} (hfirst : Erases a b) (hsecond : Erases c d) : Erases (a ++ c) (b ++ d) := by
  intro rest
  rw [String.toList_append, String.toList_append, List.append_assoc, hfirst, hsecond, List.append_assoc]

theorem Erases.alert {text : String} (h : Uncoded text) : Erases (alert true text) (alert false text) := by
  intro rest
  have halert : (LoxLanguage.alert true text).toList ++ rest =
      "\x1b[1m".toList ++ ("\x1b[31m".toList ++ (text.toList ++ ("\x1b[0m".toList ++ rest))) := by
    simp [LoxLanguage.alert, alertOn, alertOff]
  rw [halert, deleteAll_code (by decide), deleteAll_code (by decide), Erases.refl h, deleteAll_code (by decide)]
  rfl

theorem Erases.eraseCodes {coloured plain : String} (h : Erases coloured plain) : eraseCodes coloured = plain := by
  have hcoloured := h []
  rw [List.append_nil, deleteAll, List.append_nil] at hcoloured
  rw [LoxLanguage.eraseCodes, hcoloured, String.ofList_toList]

/-! ### Texts without codes -/

/-- The texts that an escape brings along. -/
def Escape.texts : Escape → List String
  | .runtime message token => message :: (token.map Token.lexeme).toList
  | .general message _ => [message]
  | .foreign kind message => [kind, message]
  | .interrupted | .exit _ | .tooDeep => []

/-- The texts that an operation brings along. -/
def Operation.texts : Operation → List String
  | .register path source => [path, source]
  | .errorOnLine _ message => [message]
  | .errorAtToken token message => [token.lexeme, message]
  | .runtimeError message token => message :: (token.map Token.lexeme).toList
  | .announce message _ => [message]
  | .leave (some escape) => escape.texts
  | .reset | .leave none => []

theorem uncoded_lines {source : String} (h : Uncoded source) : ∀ line ∈ Text.lines source, Uncoded line := by
  intro line hline
  rcases Text.mem_of_mem_linesFrom hline with hmem | hchars
  · cases hmem
  · exact uncoded_of_subset h fun c hc => (hchars c hc).resolve_left List.not_mem_nil

/-- The texts of a notice that are not fixed. -/
def Notice.texts : Notice → List String
  | .static _ place message _ => [place, message]
  | .runtime message _ => [message]
  | .general message _ => [message]

theorem uncoded_lineText (token : Option Token) : Uncoded (Reporter.lineText token) := by
  cases token with
  | none => decide
  | some token => exact uncoded_repr token.line

theorem Notice.erases_head {notice : Notice} (h : ∀ text ∈ notice.texts, Uncoded text) :
    Erases (notice.head true) (notice.head false) := by
  have hnewline : Uncoded "\n" := by decide
  cases notice with
  | static line place message token =>
    obtain ⟨hplace, hmessage⟩ : Uncoded place ∧ Uncoded message := by simpa [Notice.texts] using h
    have hline : Uncoded ("[line " ++ toString line ++ "] Error" ++ place ++ ": " ++ message) := by
      simp +decide [uncoded_repr, hplace, hmessage]
    exact (Erases.alert hline).append (.refl hnewline)
  | runtime message token =>
    have hmessage : Uncoded message := by simpa [Notice.texts] using h
    have hplace : Uncoded ("\n[line " ++ Reporter.lineText token ++ "]") := by simp +decide [uncoded_lineText]
    exact ((Erases.alert hmessage).append (.refl hplace)).append (.refl hnewline)
  | general message isInternal =>
    have hmessage : Uncoded message := by simpa [Notice.texts] using h
    have hmark : Erases (if isInternal then alert true "[internal] " else "")
        (if isInternal then alert false "[internal] " else "") := by
      cases isInternal with
      | true => exact .alert (by decide)
      | false => exact .empty
    exact ((hmark.append (.alert (by decide))).append (.refl hmessage)).append (.refl hnewline)

theorem Escape.uncoded_notice {escape : Escape} {notice : Notice} (h : ∀ text ∈ escape.texts, Uncoded text)
    (hnotice : escape.notice? = some notice) : ∀ text ∈ notice.texts, Uncoded text := by
  cases escape with
  | exit status => cases hnotice
  | interrupted =>
    cases hnotice
    exact List.forall_mem_singleton.mpr (by decide)
  | tooDeep =>
    cases hnotice
    exact List.forall_mem_singleton.mpr (by decide)
  | runtime message token =>
    cases hnotice
    exact List.forall_mem_singleton.mpr (h message List.mem_cons_self)
  | general message isInternal =>
    cases hnotice
    exact h
  | foreign kind message =>
    obtain ⟨hkind, hmessage⟩ : Uncoded kind ∧ Uncoded message := by simpa [texts] using h
    cases hnotice
    simp +decide [Notice.texts, hkind, hmessage]

theorem Operation.uncoded_notice {operation : Operation} {notice : Notice} (h : ∀ text ∈ operation.texts, Uncoded text)
    (hnotice : operation.notice? = some notice) : ∀ text ∈ notice.texts, Uncoded text := by
  cases operation with
  | register path source => cases hnotice
  | reset => cases hnotice
  | errorOnLine line message =>
    cases hnotice
    exact List.forall_mem_cons.mpr ⟨by decide, h⟩
  | errorAtToken token message =>
    obtain ⟨hlexeme, hmessage⟩ : Uncoded token.lexeme ∧ Uncoded message := by simpa [texts] using h
    cases hnotice
    unfold Notice.atToken
    split <;> simp +decide [Notice.texts, hlexeme, hmessage]
  | runtimeError message token =>
    cases hnotice
    exact List.forall_mem_singleton.mpr (h message List.mem_cons_self)
  | announce message isInternal =>
    cases hnotice
    exact h
  | leave escape =>
    cases escape with
    | none => cases hnotice
    | some escape => exact escape.uncoded_notice h hnotice

/-- A line is quoted in parts of its own, with blanks and a mark. -/
theorem erases_quote {line : String} (h : Uncoded line) (lexeme : String) :
    Erases ((Quote.quote? true line lexeme).getD "") ((Quote.quote? false line lexeme).getD "") := by
  simp only [Quote.quote?]
  cases Quote.find? lexeme.toList line.toList 0 with
  | none => exact .empty
  | some place =>
    have htake (n : Nat) : '\x1b' ∉ line.toList.take n := fun hmem => h (List.mem_of_mem_take hmem)
    have hdrop (n : Nat) : '\x1b' ∉ line.toList.drop n := fun hmem => h (List.mem_of_mem_drop hmem)
    have hmiddle (n k : Nat) : '\x1b' ∉ (line.toList.drop n).take k := fun hmem => hdrop n (List.mem_of_mem_take hmem)
    have hmargin : Uncoded Quote.margin := by decide
    have hfront := Erases.refl (uncoded_append.mpr ⟨hmargin, uncoded_ofList.mpr (htake place)⟩)
    have hlexeme := Erases.alert (uncoded_ofList.mpr (hmiddle place (max lexeme.length 1)))
    have hback := Erases.refl (uncoded_ofList.mpr (hdrop (place + max lexeme.length 1)))
    have hblanks : Uncoded (String.ofList (List.replicate place ' ')) := by simp
    have hmark : Uncoded (Quote.marker (max lexeme.length 1)) := by simp +decide [Quote.marker]
    have hnewline : Uncoded "\n" := by decide
    exact (((((hfront.append hlexeme).append hback).append (.refl hnewline)).append (.refl hmargin)).append
      (.refl hblanks)).append (.alert hmark)

theorem erases_quotation {path : String} {lines : List String} (hpath : Uncoded path) (hlines : ∀ line ∈ lines, Uncoded line)
    (token : Token) :
    Erases (String.join (quotation true path lines token)) (String.join (quotation false path lines token)) := by
  unfold quotation
  cases hquoted : Reporter.quotedLine? lines token with
  | none => exact .empty
  | some line =>
    have hline : Uncoded line := hlines line (List.mem_of_getElem? (Reporter.quotedLine?_eq_some hquoted).2)
    have hplace : Uncoded ("  File '" ++ path ++ "', line " ++ toString token.line ++ ":\n") := by
      simp +decide [uncoded_repr, hpath]
    simp only [Option.toList_some, List.map_singleton, String.join_cons, String.join_nil, String.append_empty]
    have hnewline : Uncoded "\n" := by decide
    exact ((Erases.refl hplace).append (erases_quote hline token.lexeme)).append (.refl hnewline)

/-- In colour an operation writes the same texts with codes in them. -/
theorem Operation.erases_written {path : String} {lines : List String} (hpath : Uncoded path)
    (hlines : ∀ line ∈ lines, Uncoded line) {operation : Operation} (h : ∀ text ∈ operation.texts, Uncoded text) :
    Erases (String.join (operation.written true path lines)) (String.join (operation.written false path lines)) := by
  unfold Operation.written
  cases hnotice : operation.notice? with
  | none => exact .empty
  | some notice =>
    simp only [Option.map_some, Option.getD_some, Notice.written, String.join_cons]
    refine (Notice.erases_head (operation.uncoded_notice h hnotice)).append ?_
    cases notice.token? with
    | none => exact .empty
    | some token => exact erases_quotation hpath hlines token

theorem Operation.uncoded_source {path : String} {lines : List String} (hpath : Uncoded path)
    (hlines : ∀ line ∈ lines, Uncoded line) {operation : Operation} (h : ∀ text ∈ operation.texts, Uncoded text) :
    Uncoded (operation.source (path, lines)).1 ∧ ∀ line ∈ (operation.source (path, lines)).2, Uncoded line := by
  cases operation with
  | register path source =>
    obtain ⟨hpath, hsource⟩ : Uncoded path ∧ Uncoded source := by simpa [Operation.texts] using h
    exact ⟨hpath, uncoded_lines hsource⟩
  | _ => exact ⟨hpath, hlines⟩

/-! ### Two reporters -/

namespace Reporter

/-- A reporter in colour beside one without. They differ in the codes that they have written, and in nothing else. -/
structure Recoloured (coloured plain : Reporter) : Prop where
  same : coloured = plain.recolour true coloured.written
  colour : plain.colour = false
  path : Uncoded plain.path
  lines : ∀ line ∈ plain.lines, Uncoded line
  erases : Erases (coloured.stream 0) (plain.stream 0)

variable {coloured plain : Reporter}

theorem Recoloured.new (fatal : Bool) : Recoloured (.new fatal true) (.new fatal false) :=
  ⟨rfl, rfl, show Uncoded "" by decide, List.forall_mem_nil _, .empty⟩

/-- An operation keeps the two reporters beside each other, and both are left in the same way. -/
theorem Recoloured.perform (h : Recoloured coloured plain) {operation : Operation}
    (htexts : ∀ text ∈ operation.texts, Uncoded text) :
    Recoloured (coloured.perform operation).1 (plain.perform operation).1 ∧
      (coloured.perform operation).2 = (plain.perform operation).2 := by
  have hperform := plain.perform_recolour true coloured.written operation
  rw [← h.same] at hperform
  have hclean := operation.uncoded_source h.path h.lines htexts
  rw [← source_perform] at hclean
  refine ⟨⟨?_, (plain.colour_perform operation).trans h.colour, hclean.1, hclean.2, ?_⟩, by rw [hperform]⟩
  · rw [hperform]
    rfl
  · have hsame : coloured.colour = true ∧ coloured.path = plain.path ∧ coloured.lines = plain.lines := by
      rw [h.same]
      exact ⟨rfl, rfl, rfl⟩
    rw [stream_perform, stream_perform, hsame.1, hsame.2.1, hsame.2.2, h.colour]
    exact h.erases.append (operation.erases_written h.path h.lines htexts)

theorem Recoloured.performAll (h : Recoloured coloured plain) {operations : List Operation}
    (htexts : ∀ operation ∈ operations, ∀ text ∈ operation.texts, Uncoded text) :
    Recoloured (coloured.performAll operations).1 (plain.performAll operations).1 ∧
      (coloured.performAll operations).2 = (plain.performAll operations).2 := by
  induction operations generalizing coloured plain with
  | nil => exact ⟨h, rfl⟩
  | cons operation rest ih =>
    obtain ⟨hfirst, hrest⟩ := List.forall_mem_cons.mp htexts
    obtain ⟨hnext, hdeparture⟩ := h.perform hfirst
    obtain ⟨hlast, hdepartures⟩ := ih hnext hrest
    exact ⟨hlast, congrArg₂ List.cons hdeparture hdepartures⟩

end Reporter

/-! ### Colour -/

/-- What can be seen of a row of operations: how each of them was left, and what the reporter shows in the end. -/
structure Observation where
  diagnostics : Array String
  hadError : Bool
  hadRuntimeError : Bool
  exitStatus : Int
  departures : List Departure
  text : String
  deriving DecidableEq

/-- What is seen with colours on or off, when errors are fatal or not. -/
def observe (colour fatal : Bool) (operations : List Operation) : Observation :=
  let (r, departures) := (Reporter.new fatal colour).performAll operations
  { diagnostics := r.diagnostics, hadError := r.hadError, hadRuntimeError := r.hadRuntimeError, exitStatus := r.exitStatus,
    departures, text := r.stream 0 }

/-- Colour changes only the escape codes. If no code stands in the texts of the operations, all that is seen is the same
    with and without colour, apart from codes in the text on the error stream. Without them that text is the plain text,
    in which lines are quoted as they stand in the source. -/
theorem colour_erased (fatal : Bool) {operations : List Operation}
    (h : ∀ operation ∈ operations, ∀ text ∈ operation.texts, Uncoded text) :
    let coloured := observe true fatal operations
    let plain := observe false fatal operations
    coloured = { plain with text := coloured.text } ∧ eraseCodes coloured.text = plain.text ∧
      PlainText ("", []) operations plain.text := by
  intro coloured plain
  obtain ⟨hlast, hdepartures⟩ := (Reporter.Recoloured.new fatal).performAll h
  obtain ⟨text, htext, hstream⟩ := Reporter.plainText (r := .new fatal false) rfl operations
  have hplain : plain.text = text := hstream.trans String.empty_append
  refine ⟨?_, hlast.erases.eraseCodes, hplain ▸ htext⟩
  have hrun : (Reporter.new fatal true).performAll operations =
      (((Reporter.new fatal false).performAll operations).1.recolour true
        ((Reporter.new fatal true).performAll operations).1.written, ((Reporter.new fatal false).performAll operations).2) :=
    Prod.ext hlast.same hdepartures
  show observe true fatal operations = { observe false fatal operations with text := (observe true fatal operations).text }
  unfold observe
  rw [hrun]
  rfl

/-- The second semicolon of a line is complained about, and then an error that nobody knows passes through. -/
def semicolonOperations : List Operation :=
  [.register "a.lox" "var a;\nprint a;;", .errorAtToken ⟨.semicolon, ";", .nil, 2⟩ "Expect expression.",
    .leave (some (.foreign "ValueError" "[0m"))]

/-- Colour makes a difference here, and the mark is under the first semicolon. -/
theorem colour_erased_semicolon :
    (∀ operation ∈ semicolonOperations, ∀ text ∈ operation.texts, Uncoded text) ∧
      (observe true true semicolonOperations).text ≠ (observe false true semicolonOperations).text ∧
      eraseCodes (observe true true semicolonOperations).text =
        "[line 2] Error at ';': Expect expression.\n  File 'a.lox', line 2:\n    print a;;\n           ^\n" ++
          "[internal] error: unknown error: 'ValueError: [0m'\n" := by
  have htexts : ∀ operation ∈ semicolonOperations, ∀ text ∈ operation.texts, Uncoded text := by decide +kernel
  refine ⟨htexts, by decide +kernel, (colour_erased true htexts).2.1.trans ?_⟩
  decide +kernel

end LoxLanguage
