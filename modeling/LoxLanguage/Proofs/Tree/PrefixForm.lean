import Mathlib
import LoxLanguage.Tree.PrefixForm
import LoxLanguage.Proofs.Number.Display
import LoxLanguage.Proofs.Parser.Trees
import LoxLanguage.Proofs.Scanner.Contents
import LoxLanguage.Proofs.Tree.Forms
import LoxLanguage.Proofs.Tree.Relabel

/-! The prefix form of an expression tells which expression it is. A prefix form is the text of a form, a head with its
parts; forms can be read off their texts, and which kind of expression a form stands for can be read off its head or its
word (`shape_form`). What a token says apart from its line is told by its lexeme. -/

namespace LoxLanguage

open Token (Kind)

/-! ### Forms of expressions -/

mutual

/-- The form whose text is the prefix form. -/
def Expr.form : Expr → Form
  | .literal value => .word (Expr.literalForm value).toList
  | .unary operator operand => .row operator.lexeme.toList [operand.form]
  | .binary left operator right => .row operator.lexeme.toList [left.form, right.form]
  | .logical left operator right => .row operator.lexeme.toList [left.form, right.form]
  | .grouping inner => .row "group".toList [inner.form]
  | .use _ name => .word name.lexeme.toList
  | .assign _ name value => .row ['='] [.word name.lexeme.toList, value.form]
  | .call callee _ arguments => .row "call".toList (callee.form :: Expr.forms arguments)
  | .get object name => .row ('.' :: name.lexeme.toList) [object.form]
  | .set object name value => .row ('=' :: name.lexeme.toList) [object.form, value.form]
  | .this _ _ => .word "this".toList

/-- The forms of arguments. -/
def Expr.forms : List Expr → List Form
  | [] => []
  | e :: rest => e.form :: Expr.forms rest

end

mutual

theorem Expr.toList_prefixForm : ∀ e : Expr, e.prefixForm.toList = e.form.text
  | .literal value => by rw [Expr.prefixForm, Expr.form, Form.text]
  | .unary operator operand => by
    simp [Expr.prefixForm, Expr.form, Form.text, Form.textAll, operand.toList_prefixForm]
  | .binary left operator right => by
    simp [Expr.prefixForm, Expr.form, Form.text, Form.textAll, left.toList_prefixForm, right.toList_prefixForm]
  | .logical left operator right => by
    simp [Expr.prefixForm, Expr.form, Form.text, Form.textAll, left.toList_prefixForm, right.toList_prefixForm]
  | .grouping inner => by
    simp [Expr.prefixForm, Expr.form, Form.text, Form.textAll, inner.toList_prefixForm]
  | .use site name => by rw [Expr.prefixForm, Expr.form, Form.text]
  | .assign site name value => by
    simp [Expr.prefixForm, Expr.form, Form.text, Form.textAll, value.toList_prefixForm]
  | .call callee paren arguments => by
    simp [Expr.prefixForm, Expr.form, Form.text, Form.textAll, callee.toList_prefixForm, Expr.toList_prefixForms arguments]
  | .get object name => by
    simp [Expr.prefixForm, Expr.form, Form.text, Form.textAll, object.toList_prefixForm]
  | .set object name value => by
    simp [Expr.prefixForm, Expr.form, Form.text, Form.textAll, object.toList_prefixForm, value.toList_prefixForm]
  | .this site keyword => by rw [Expr.prefixForm, Expr.form, Form.text]

theorem Expr.toList_prefixForms : ∀ es : List Expr, (Expr.prefixForms es).toList = Form.textAll (Expr.forms es)
  | [] => rfl
  | e :: rest => by
    simp [Expr.prefixForms, Expr.forms, Form.textAll, e.toList_prefixForm, Expr.toList_prefixForms rest]

end

/-! ### Lines and sites left out -/

/-- All lines and all sites alike. -/
def Relabelling.blank : Relabelling :=
  ⟨fun _ => 0, fun _ => 0⟩

theorem Token.Scanned.blank_eq {t t' : Token} (h : t.Scanned) (h' : t'.Scanned) (hlexeme : t.lexeme = t'.lexeme) :
    Relabelling.blank.token t = Relabelling.blank.token t' := by
  have hcontent := h.content_eq h' hlexeme
  simp only [Token.content, Prod.mk.injEq] at hcontent
  simp [Relabelling.token, Relabelling.blank, hcontent]

/-! ### What the parser builds -/

/-- An expression with tokens and a value that it can have in a scanned text, of kinds that fit their places. -/
def Expr.Tidy : Expr → Prop
  | .literal (.number x) => x.IsFinite
  | .literal (.text s) => '"' ∉ s.toList
  | .unary operator _ => operator.Scanned ∧ Parser.isUnary operator.kind = true
  | .binary _ operator _ => operator.Scanned ∧ Operators.isBinary operator.kind = true
  | .logical _ operator _ => operator.Scanned ∧ (operator.kind = .andWord ∨ operator.kind = .orWord)
  | .use _ name | .assign _ name _ | .get _ name | .set _ name _ => name.Scanned ∧ name.kind = .identifier
  | .call _ paren _ => paren.Scanned ∧ paren.kind = .rightParen
  | .this _ keyword => keyword.Scanned ∧ keyword.kind = .thisWord
  | _ => True

theorem Expr.tidy_of_proper {source : String} {e : Expr} (h : (Node.expr e).Proper (scan source).1)
    (hfinite : ∀ x, e = .literal (.number x) → x.IsFinite) : e.Tidy := by
  have hscanned {t : Token} (fits : Kind → Prop) (ht : t ∈ (scan source).1 ∧ fits t.kind) (heof : ¬ fits .eof) :
      t.Scanned ∧ fits t.kind :=
    ⟨scanned_of_mem ht.1 fun hkind => heof (hkind ▸ ht.2), ht.2⟩
  cases e with
  | literal value =>
    cases value with
    | number x => exact hfinite x rfl
    | text s =>
      rcases h with ⟨t, ht, hkind, hvalue⟩ | h | ⟨b, h⟩
      · have hdenotes := (scanned_of_mem ht fun heof => by simp [heof] at hkind).2
        rw [hvalue] at hdenotes
        generalize t.lexeme.toList = text, t.kind = kind at hdenotes
        cases hdenotes with
        | string hbody =>
          rw [Expr.Tidy, String.toList_ofList]
          exact hbody
      · cases h
      · cases h
    | nil => trivial
    | bool b => trivial
  | unary operator operand => exact hscanned (Parser.isUnary · = true) h nofun
  | binary left operator right => exact hscanned (Operators.isBinary · = true) h nofun
  | logical left operator right => exact hscanned (fun kind => kind = .andWord ∨ kind = .orWord) h (by decide)
  | grouping inner => trivial
  | use site name => exact hscanned (· = .identifier) h nofun
  | assign site name value => exact hscanned (· = .identifier) h nofun
  | call callee paren arguments => exact hscanned (· = .rightParen) h nofun
  | get object name => exact hscanned (· = .identifier) h nofun
  | set object name value => exact hscanned (· = .identifier) h nofun
  | this site keyword => exact hscanned (· = .thisWord) h nofun

/-- An expression all of whose parts are tidy. -/
def Expr.AllTidy (e : Expr) : Prop :=
  ∀ part ∈ e.parts, part.Tidy

/-! ### Words and heads -/

/-- Characters that pass a test which no blank, parenthesis or quote passes. -/
theorem Form.isPlain_of_test {test : Char → Bool} {c : Char} (h : test c = true)
    (hspecial : [' ', '(', ')', '"'].all (fun d => !test d) = true) : Form.isPlain c := by
  by_contra hnot
  simp only [Form.isPlain, Bool.not_eq_true, Bool.and_eq_false_iff, bne_eq_false_iff_eq] at hnot
  rcases hnot with ((rfl | rfl) | rfl) | rfl <;> simp [h] at hspecial

theorem Form.isPlain_of_wordPart {c : Char} (h : Lexeme.isWordPart c) : Form.isPlain c :=
  isPlain_of_test h (by decide)

theorem Form.isPlain_of_numeral {c : Char} (h : Number.isNumeral c) : Form.isPlain c :=
  isPlain_of_test h (by decide)

theorem Token.Scanned.name {t : Token} (h : t.Scanned ∧ t.kind = .identifier) :
    ∃ c rest, t.lexeme.toList = c :: rest ∧ Lexeme.isLetter c ∧ (∀ d ∈ c :: rest, Form.isPlain d) ∧
      t.lexeme ∉ Lexeme.keywords.map Prod.fst := by
  obtain ⟨c, rest, htext, hc, hrest, hnot⟩ := (h.2 ▸ h.1.1 : Lexeme.Valid .identifier t.lexeme.toList).name
  rw [String.ofList_toList] at hnot
  have hword : Lexeme.isWordPart c := by simp [Lexeme.isWordPart, hc]
  exact ⟨c, rest, htext, hc, List.forall_mem_cons.mpr ⟨Form.isPlain_of_wordPart hword,
    fun d hd => Form.isPlain_of_wordPart (hrest d hd)⟩, hnot⟩

/-- The operators in front of one operand and between two. -/
theorem Lexeme.plain_of_operator : ∀ p ∈ Lexeme.symbols, (Parser.isUnary p.2 || Operators.isBinary p.2) = true →
    p.1.all Form.isPlain = true := by
  decide

theorem Token.Scanned.plain_operator {t : Token} (h : t.Scanned)
    (hkind : (Parser.isUnary t.kind || Operators.isBinary t.kind) = true) : ∀ d ∈ t.lexeme.toList, Form.isPlain d :=
  List.all_eq_true.mp (Lexeme.plain_of_operator _ (h.operator hkind) hkind)

section Parts
variable {left right operand inner callee object value : Expr} {operator name paren keyword : Token} {site : Site}
  {arguments : List Expr}

theorem Expr.AllTidy.self {e : Expr} (h : e.AllTidy) : e.Tidy := by
  refine h e ?_
  cases e <;> simp [Expr.parts]

theorem Expr.AllTidy.unary (h : (Expr.unary operator operand).AllTidy) : operand.AllTidy :=
  fun part hpart => h part (by simp [Expr.parts, hpart])

theorem Expr.AllTidy.binary (h : (Expr.binary left operator right).AllTidy) : left.AllTidy ∧ right.AllTidy :=
  ⟨fun part hpart => h part (by simp [Expr.parts, hpart]), fun part hpart => h part (by simp [Expr.parts, hpart])⟩

theorem Expr.AllTidy.logical (h : (Expr.logical left operator right).AllTidy) : left.AllTidy ∧ right.AllTidy :=
  ⟨fun part hpart => h part (by simp [Expr.parts, hpart]), fun part hpart => h part (by simp [Expr.parts, hpart])⟩

theorem Expr.AllTidy.grouping (h : (Expr.grouping inner).AllTidy) : inner.AllTidy :=
  fun part hpart => h part (by simp [Expr.parts, hpart])

theorem Expr.AllTidy.assign (h : (Expr.assign site name value).AllTidy) : value.AllTidy :=
  fun part hpart => h part (by simp [Expr.parts, hpart])

theorem Expr.AllTidy.call (h : (Expr.call callee paren arguments).AllTidy) :
    callee.AllTidy ∧ ∀ part ∈ Expr.partsAll arguments, part.Tidy :=
  ⟨fun part hpart => h part (by simp [Expr.parts, hpart]), fun part hpart => h part (by simp [Expr.parts, hpart])⟩

theorem Expr.AllTidy.get (h : (Expr.get object name).AllTidy) : object.AllTidy :=
  fun part hpart => h part (by simp [Expr.parts, hpart])

theorem Expr.AllTidy.set (h : (Expr.set object name value).AllTidy) : object.AllTidy ∧ value.AllTidy :=
  ⟨fun part hpart => h part (by simp [Expr.parts, hpart]), fun part hpart => h part (by simp [Expr.parts, hpart])⟩

end Parts

/-! ### Well-formed forms -/

theorem Expr.toList_literalForm_text (s : String) : (Expr.literalForm (.text s)).toList = '"' :: (s.toList ++ ['"']) := by
  simp [Expr.literalForm]

theorem Form.word_of_text {s : String} (h : '"' ∉ s.toList) : Form.Word (Expr.literalForm (.text s)).toList := by
  rw [Expr.toList_literalForm_text]
  exact .quoted h

theorem Form.word_of_number {x : Number} (h : x.IsFinite) : Form.Word (Expr.literalForm (.number x)).toList := by
  obtain ⟨c, rest, htext, -, hnumeral⟩ := Number.displayText_numeral h
  have hplain : ∀ d ∈ c :: rest, Form.isPlain d := fun d hd => Form.isPlain_of_numeral (hnumeral d hd)
  rw [show (Expr.literalForm (.number x)).toList = c :: rest from htext]
  exact .plain (List.forall_mem_cons.mp hplain).1 (List.forall_mem_cons.mp hplain).2

theorem Form.word_of_name {t : Token} (h : t.Scanned ∧ t.kind = .identifier) : Form.Word t.lexeme.toList := by
  obtain ⟨c, rest, htext, -, hplain, -⟩ := Token.Scanned.name h
  rw [htext]
  exact .plain (List.forall_mem_cons.mp hplain).1 (List.forall_mem_cons.mp hplain).2

theorem Token.Scanned.plain_name {t : Token} (h : t.Scanned ∧ t.kind = .identifier) :
    ∀ d ∈ t.lexeme.toList, Form.isPlain d := by
  obtain ⟨c, rest, htext, -, hplain, -⟩ := Token.Scanned.name h
  rw [htext]
  exact hplain

theorem Form.word_of_letters {text : List Char} (hne : text ≠ []) (h : text.all Form.isPlain = true) : Form.Word text := by
  obtain ⟨c, rest, rfl⟩ := List.exists_cons_of_ne_nil hne
  have hplain := List.all_eq_true.mp h
  exact .plain (List.forall_mem_cons.mp hplain).1 (List.forall_mem_cons.mp hplain).2

mutual

theorem Expr.AllTidy.formed : ∀ {e : Expr}, e.AllTidy → e.form.Formed
  | .literal .nil, _ => Form.word_of_letters (by decide) (by decide)
  | .literal (.bool true), _ => Form.word_of_letters (by decide) (by decide)
  | .literal (.bool false), _ => Form.word_of_letters (by decide) (by decide)
  | .literal (.number x), h => Form.word_of_number h.self
  | .literal (.text s), h => Form.word_of_text h.self
  | .unary operator operand, h =>
    have hself := h.self
    ⟨hself.1.plain_operator (by rw [hself.2]; rfl), h.unary.formed, trivial⟩
  | .binary left operator right, h =>
    have hself := h.self
    ⟨hself.1.plain_operator (by rw [hself.2, Bool.or_true]), h.binary.1.formed, h.binary.2.formed, trivial⟩
  | .logical left operator right, h => by
    refine ⟨List.all_eq_true.mp ?_, h.logical.1.formed, h.logical.2.formed, trivial⟩
    rcases h.self.1.connective h.self.2 with hlexeme | hlexeme <;> rw [hlexeme] <;> decide
  | .grouping inner, h => ⟨List.all_eq_true.mp (by decide), h.grouping.formed, trivial⟩
  | .use site name, h => Form.word_of_name h.self
  | .assign site name value, h =>
    ⟨List.all_eq_true.mp (by decide), Form.word_of_name h.self, h.assign.formed, trivial⟩
  | .call callee paren arguments, h =>
    ⟨List.all_eq_true.mp (by decide), h.call.1.formed, Expr.formedAll h.call.2⟩
  | .get object name, h =>
    ⟨List.forall_mem_cons.mpr ⟨by decide, Token.Scanned.plain_name h.self⟩, h.get.formed, trivial⟩
  | .set object name value, h =>
    ⟨List.forall_mem_cons.mpr ⟨by decide, Token.Scanned.plain_name h.self⟩, h.set.1.formed, h.set.2.formed, trivial⟩
  | .this site keyword, _ => Form.word_of_letters (by decide) (by decide)

theorem Expr.formedAll : ∀ {es : List Expr}, (∀ part ∈ Expr.partsAll es, part.Tidy) → Form.FormedAll (Expr.forms es)
  | [], _ => trivial
  | e :: rest, h => by
    have hboth := List.forall_mem_append.mp h
    exact ⟨Expr.AllTidy.formed hboth.1, Expr.formedAll hboth.2⟩

end

/-! ### Which expression a form stands for -/

/-- The kinds of literal. -/
inductive Literal.Tag where
  | nil
  | bool
  | number
  | text
  deriving DecidableEq

/-- The kind of a literal. -/
def Literal.tag : Literal → Literal.Tag
  | .nil => .nil
  | .bool _ => .bool
  | .number _ => .number
  | .text _ => .text

/-- The kinds of expression. -/
inductive Expr.Shape where
  | literal (tag : Literal.Tag)
  | unary
  | binary
  | logical
  | grouping
  | use
  | assign
  | call
  | get
  | set
  | this
  deriving DecidableEq

/-- The kind of an expression. -/
def Expr.shape : Expr → Expr.Shape
  | .literal value => .literal value.tag
  | .unary _ _ => .unary
  | .binary _ _ _ => .binary
  | .logical _ _ _ => .logical
  | .grouping _ => .grouping
  | .use _ _ => .use
  | .assign _ _ _ => .assign
  | .call _ _ _ => .call
  | .get _ _ => .get
  | .set _ _ _ => .set
  | .this _ _ => .this

/-- What a word stands for. Keywords are no names, and a number begins with no letter. -/
def Form.wordShape (word : List Char) : Expr.Shape :=
  if word = "nil".toList then .literal .nil
  else if word = "true".toList ∨ word = "false".toList then .literal .bool
  else if word = "this".toList then .this
  else if word.head? = some '"' then .literal .text
  else if word.head?.any Lexeme.isLetter then .use
  else .literal .number

/-- What a head stands for. Behind the sign of an access or an assignment comes the first letter of a name. -/
def Form.headShape (head : List Char) (count : Nat) : Expr.Shape :=
  if head = "group".toList then .grouping
  else if head = "call".toList then .call
  else if head = ['='] then .assign
  else if head = "and".toList ∨ head = "or".toList then .logical
  else if head.head? = some '.' then .get
  else if head.head? = some '=' ∧ head.tail.head?.any Lexeme.isLetter then .set
  else if count = 1 then .unary
  else .binary

/-- The kind of expression that a form is written for. -/
def Form.shape : Form → Expr.Shape
  | .word text => wordShape text
  | .row head parts => headShape head parts.length

theorem Form.wordShape_name {t : Token} (h : t.Scanned ∧ t.kind = .identifier) : wordShape t.lexeme.toList = .use := by
  obtain ⟨c, rest, htext, hc, hplain, hnot⟩ := Token.Scanned.name h
  have hne {word : String} (hword : word ∈ Lexeme.keywords.map Prod.fst) : t.lexeme.toList ≠ word.toList :=
    fun heq => hnot (String.toList_injective heq ▸ hword)
  have hquote : t.lexeme.toList.head? ≠ some '"' := by
    rw [htext, List.head?_cons]
    rintro ⟨⟩
    cases hc
  have hletter : t.lexeme.toList.head?.any Lexeme.isLetter = true := by
    rw [htext]
    exact hc
  rw [wordShape, if_neg (hne (by decide)), if_neg (not_or.mpr ⟨hne (by decide), hne (by decide)⟩), if_neg (hne (by decide)),
    if_neg hquote, if_pos hletter]

theorem Form.wordShape_number {x : Number} (h : x.IsFinite) :
    wordShape (Expr.literalForm (.number x)).toList = .literal .number := by
  obtain ⟨c, rest, htext, hc, hnumeral⟩ := Number.displayText_numeral h
  have hletter : Lexeme.isLetter c = false := by
    rcases hc with hdigit | rfl
    · exact Bool.eq_false_iff.mpr (Lexeme.not_isLetter_of_isDigit hdigit)
    · rfl
  have hne {word : String} (hword : word.toList.head?.any Lexeme.isLetter = true) : c :: rest ≠ word.toList := by
    intro heq
    rw [← heq] at hword
    exact Bool.noConfusion (hletter.symm.trans hword)
  have hquote : (c :: rest).head? ≠ some '"' := by
    rw [List.head?_cons]
    rintro ⟨⟩
    cases hnumeral '"' List.mem_cons_self
  rw [show (Expr.literalForm (.number x)).toList = c :: rest from htext, wordShape, if_neg (hne (by decide)),
    if_neg (not_or.mpr ⟨hne (by decide), hne (by decide)⟩), if_neg (hne (by decide)), if_neg hquote, if_neg]
  rw [List.head?_cons, Option.any_some, hletter]
  exact Bool.false_ne_true

theorem Form.wordShape_text (s : String) : wordShape (Expr.literalForm (.text s)).toList = .literal .text := by
  rw [Expr.toList_literalForm_text]
  simp [wordShape]

theorem Form.headShape_operator : ∀ p ∈ Lexeme.symbols, (Parser.isUnary p.2 = true → headShape p.1 1 = .unary) ∧
    (Operators.isBinary p.2 = true → headShape p.1 2 = .binary) := by
  decide

theorem Form.headShape_set {t : Token} (h : t.Scanned ∧ t.kind = .identifier) (count : Nat) :
    headShape ('=' :: t.lexeme.toList) count = .set := by
  obtain ⟨c, rest, htext, hc, -, -⟩ := Token.Scanned.name h
  simp [headShape, htext, hc]

/-- The kind of a tidy expression can be read off its form. -/
theorem Expr.Tidy.shape_form {e : Expr} (h : e.Tidy) : e.form.shape = e.shape := by
  cases e with
  | literal value =>
    cases value with
    | nil => rfl
    | bool b => cases b <;> rfl
    | number x => exact Form.wordShape_number h
    | text s => exact Form.wordShape_text s
  | unary operator operand =>
    have hmem := h.1.operator (by rw [h.2]; rfl)
    exact (Form.headShape_operator _ hmem).1 h.2
  | binary left operator right =>
    have hmem := h.1.operator (by rw [h.2, Bool.or_true])
    exact (Form.headShape_operator _ hmem).2 h.2
  | logical left operator right =>
    show Form.headShape operator.lexeme.toList 2 = .logical
    rcases h.1.connective h.2 with hlexeme | hlexeme <;> rw [hlexeme] <;> rfl
  | grouping inner => rfl
  | use site name => exact Form.wordShape_name h
  | assign site name value => rfl
  | call callee paren arguments => rfl
  | get object name => simp [Expr.form, Form.shape, Form.headShape, Expr.shape]
  | set object name value => exact Form.headShape_set h 2
  | this site keyword => rfl

/-- Literals with the same form are the same. -/
theorem Literal.eq_of_literalForm {value value' : Literal} (htag : value.tag = value'.tag)
    (h : Expr.literalForm value = Expr.literalForm value') : value = value' := by
  cases value with
  | nil => cases value' <;> first | rfl | cases htag
  | bool b =>
    cases value' with
    | bool b' => cases b <;> cases b' <;> first | rfl | exact absurd h (by decide)
    | _ => cases htag
  | number x =>
    cases value' with
    | number x' => exact congrArg Literal.number (Number.displayText_injective h)
    | _ => cases htag
  | text s =>
    cases value' with
    | text s' =>
      have hlist := congrArg String.toList h
      simp only [Expr.literalForm, String.toList_append] at hlist
      exact congrArg Literal.text (String.toList_injective (List.append_cancel_left (List.append_cancel_right hlist)))
    | _ => cases htag

theorem Expr.shape_eq_of_form {e e' : Expr} (he : e.AllTidy) (he' : e'.AllTidy) (h : e.form = e'.form) : e.shape = e'.shape := by
  rw [← he.self.shape_form, ← he'.self.shape_form, h]

mutual

/-- Expressions with the same form differ in lines and sites only. -/
theorem Expr.AllTidy.blank_eq : ∀ {e e' : Expr}, e.AllTidy → e'.AllTidy → e.form = e'.form →
    e.relabel .blank = e'.relabel .blank
  | .literal value, e', he, he', h => by
    have hshape := Expr.shape_eq_of_form he he' h
    cases e' with
    | literal value' =>
      have htext := String.toList_injective (Form.word.inj h)
      rw [Literal.eq_of_literalForm (Expr.Shape.literal.inj hshape) htext]
    | _ => cases hshape
  | .unary operator operand, e', he, he', h => by
    have hshape := Expr.shape_eq_of_form he he' h
    cases e' with
    | unary operator' operand' =>
      simp only [Expr.form, Form.row.injEq, List.cons.injEq, and_true] at h
      obtain ⟨hlexeme, hoperand⟩ := h
      rw [Expr.relabel, Expr.relabel, he.self.1.blank_eq he'.self.1 (String.toList_injective hlexeme),
        he.unary.blank_eq he'.unary hoperand]
    | _ => cases hshape
  | .binary left operator right, e', he, he', h => by
    have hshape := Expr.shape_eq_of_form he he' h
    cases e' with
    | binary left' operator' right' =>
      simp only [Expr.form, Form.row.injEq, List.cons.injEq, and_true] at h
      obtain ⟨hlexeme, hleft, hright⟩ := h
      rw [Expr.relabel, Expr.relabel, he.self.1.blank_eq he'.self.1 (String.toList_injective hlexeme),
        he.binary.1.blank_eq he'.binary.1 hleft, he.binary.2.blank_eq he'.binary.2 hright]
    | _ => cases hshape
  | .logical left operator right, e', he, he', h => by
    have hshape := Expr.shape_eq_of_form he he' h
    cases e' with
    | logical left' operator' right' =>
      simp only [Expr.form, Form.row.injEq, List.cons.injEq, and_true] at h
      obtain ⟨hlexeme, hleft, hright⟩ := h
      rw [Expr.relabel, Expr.relabel, he.self.1.blank_eq he'.self.1 (String.toList_injective hlexeme),
        he.logical.1.blank_eq he'.logical.1 hleft, he.logical.2.blank_eq he'.logical.2 hright]
    | _ => cases hshape
  | .grouping inner, e', he, he', h => by
    have hshape := Expr.shape_eq_of_form he he' h
    cases e' with
    | grouping inner' =>
      simp only [Expr.form, Form.row.injEq, List.cons.injEq, and_true] at h
      obtain ⟨-, hinner⟩ := h
      rw [Expr.relabel, Expr.relabel, he.grouping.blank_eq he'.grouping hinner]
    | _ => cases hshape
  | .use site name, e', he, he', h => by
    have hshape := Expr.shape_eq_of_form he he' h
    cases e' with
    | use site' name' =>
      simp only [Expr.form, Form.word.injEq] at h
      rw [Expr.relabel, Expr.relabel, he.self.1.blank_eq he'.self.1 (String.toList_injective h)]
      rfl
    | _ => cases hshape
  | .assign site name value, e', he, he', h => by
    have hshape := Expr.shape_eq_of_form he he' h
    cases e' with
    | assign site' name' value' =>
      simp only [Expr.form, Form.row.injEq, Form.word.injEq, List.cons.injEq, and_true] at h
      obtain ⟨-, hlexeme, hvalue⟩ := h
      rw [Expr.relabel, Expr.relabel, he.self.1.blank_eq he'.self.1 (String.toList_injective hlexeme),
        he.assign.blank_eq he'.assign hvalue]
      rfl
    | _ => cases hshape
  | .call callee paren arguments, e', he, he', h => by
    have hshape := Expr.shape_eq_of_form he he' h
    cases e' with
    | call callee' paren' arguments' =>
      simp only [Expr.form, Form.row.injEq, List.cons.injEq] at h
      obtain ⟨-, hcallee, harguments⟩ := h
      have hlexeme : paren.lexeme = paren'.lexeme := by
        rw [Token.Scanned.closing he.self, Token.Scanned.closing he'.self]
      rw [Expr.relabel, Expr.relabel, he.self.1.blank_eq he'.self.1 hlexeme, he.call.1.blank_eq he'.call.1 hcallee,
        Expr.blankAll_eq he.call.2 he'.call.2 harguments]
    | _ => cases hshape
  | .get object name, e', he, he', h => by
    have hshape := Expr.shape_eq_of_form he he' h
    cases e' with
    | get object' name' =>
      simp only [Expr.form, Form.row.injEq, List.cons.injEq, and_true] at h
      obtain ⟨⟨-, hlexeme⟩, hobject⟩ := h
      rw [Expr.relabel, Expr.relabel, he.self.1.blank_eq he'.self.1 (String.toList_injective hlexeme),
        he.get.blank_eq he'.get hobject]
    | _ => cases hshape
  | .set object name value, e', he, he', h => by
    have hshape := Expr.shape_eq_of_form he he' h
    cases e' with
    | set object' name' value' =>
      simp only [Expr.form, Form.row.injEq, List.cons.injEq, and_true] at h
      obtain ⟨⟨-, hlexeme⟩, hobject, hvalue⟩ := h
      rw [Expr.relabel, Expr.relabel, he.self.1.blank_eq he'.self.1 (String.toList_injective hlexeme),
        he.set.1.blank_eq he'.set.1 hobject, he.set.2.blank_eq he'.set.2 hvalue]
    | _ => cases hshape
  | .this site keyword, e', he, he', h => by
    have hshape := Expr.shape_eq_of_form he he' h
    cases e' with
    | this site' keyword' =>
      have hlexeme : keyword.lexeme = keyword'.lexeme := by
        rw [Token.Scanned.this he.self, Token.Scanned.this he'.self]
      rw [Expr.relabel, Expr.relabel, he.self.1.blank_eq he'.self.1 hlexeme]
      rfl
    | _ => cases hshape

theorem Expr.blankAll_eq : ∀ {es es' : List Expr}, (∀ part ∈ Expr.partsAll es, part.Tidy) →
    (∀ part ∈ Expr.partsAll es', part.Tidy) → Expr.forms es = Expr.forms es' →
      Expr.relabelAll .blank es = Expr.relabelAll .blank es'
  | [], [], _, _, _ => rfl
  | [], _ :: _, _, _, h => nomatch h
  | _ :: _, [], _, _, h => nomatch h
  | e :: rest, e' :: rest', he, he', h => by
    have hboth := List.forall_mem_append.mp he
    have hboth' := List.forall_mem_append.mp he'
    obtain ⟨hfirst, hrest⟩ := List.cons.inj h
    rw [Expr.relabelAll, Expr.relabelAll, Expr.AllTidy.blank_eq hboth.1 hboth'.1 hfirst,
      Expr.blankAll_eq hboth.2 hboth'.2 hrest]

end

/-! ### Expressions of a program -/

mutual

theorem Expr.mem_parts_trans : ∀ {whole e part : Expr}, e ∈ whole.parts → part ∈ e.parts → part ∈ whole.parts
  | .literal _, e, part, he, hpart | .use _ _, e, part, he, hpart | .this _ _, e, part, he, hpart => by
    rw [Expr.parts, List.mem_singleton] at he
    exact he ▸ hpart
  | .unary _ inner, e, part, he, hpart | .grouping inner, e, part, he, hpart | .get inner _, e, part, he, hpart => by
    rcases List.mem_cons.mp he with rfl | he
    · exact hpart
    · exact List.mem_cons_of_mem _ (Expr.mem_parts_trans he hpart)
  | .binary left _ right, e, part, he, hpart | .logical left _ right, e, part, he, hpart
  | .set right _ left, e, part, he, hpart => by
    rcases List.mem_cons.mp he with rfl | he
    · exact hpart
    · refine List.mem_cons_of_mem _ (List.mem_append.mpr ?_)
      exact (List.mem_append.mp he).imp (Expr.mem_parts_trans · hpart) (Expr.mem_parts_trans · hpart)
  | .assign site name value, e, part, he, hpart => by
    rcases List.mem_append.mp he with he | he
    · exact List.mem_append_left _ (Expr.mem_parts_trans he hpart)
    · exact List.mem_singleton.mp he ▸ hpart
  | .call callee paren arguments, e, part, he, hpart => by
    rcases List.mem_cons.mp he with rfl | he
    · exact hpart
    · refine List.mem_cons_of_mem _ (List.mem_append.mpr ?_)
      exact (List.mem_append.mp he).imp (Expr.mem_parts_trans · hpart) (Expr.mem_partsAll_trans · hpart)

theorem Expr.mem_partsAll_trans : ∀ {es : List Expr} {e part : Expr}, e ∈ Expr.partsAll es → part ∈ e.parts →
    part ∈ Expr.partsAll es
  | e' :: rest, e, part, he, hpart => by
    rw [Expr.partsAll, List.mem_append] at he ⊢
    exact he.imp (Expr.mem_parts_trans · hpart) (Expr.mem_partsAll_trans · hpart)

end

/-- With an expression, all its parts are among the points. -/
def Whole (ps : List Point) : Prop :=
  ∀ p ∈ ps, ∀ e, p.node = .expr e → ∀ part ∈ e.parts, ∃ p' ∈ ps, p'.node = .expr part

theorem Whole.nil : Whole [] :=
  nofun

theorem Whole.append {ps qs : List Point} (h : Whole ps) (h' : Whole qs) : Whole (ps ++ qs) := by
  intro p hp e he part hpart
  rcases List.mem_append.mp hp with hp | hp
  · obtain ⟨p', hp', hnode⟩ := h p hp e he part hpart
    exact ⟨p', List.mem_append_left _ hp', hnode⟩
  · obtain ⟨p', hp', hnode⟩ := h' p hp e he part hpart
    exact ⟨p', List.mem_append_right _ hp', hnode⟩

theorem Whole.cons {p : Point} {ps : List Point} (hp : ∀ e, p.node ≠ .expr e) (h : Whole ps) : Whole (p :: ps) := by
  intro p' hp' e he part hpart
  rcases List.mem_cons.mp hp' with rfl | hp'
  · exact absurd he (hp e)
  · obtain ⟨p'', hp'', hnode⟩ := h p' hp' e he part hpart
    exact ⟨p'', List.mem_cons_of_mem _ hp'', hnode⟩

theorem Expr.points_whole (e : Expr) (c : Context) : Whole (e.points c) := by
  intro p hp e' he' part hpart
  obtain ⟨e'', he'', rfl⟩ := List.mem_map.mp hp
  cases he'
  exact ⟨_, List.mem_map.mpr ⟨part, Expr.mem_parts_trans he'' hpart, rfl⟩, rfl⟩

theorem Expr.pointsOption_whole (e : Option Expr) (c : Context) : Whole (Expr.pointsOption e c) := by
  cases e with
  | none => exact .nil
  | some e => exact e.points_whole c

mutual

theorem Stmt.points_whole : ∀ (s : Stmt) (c : Context), Whole (s.points c)
  | .expression e, c | .print e, c => .cons nofun (e.points_whole c)
  | .declareVariable _ initializer, _ => .cons nofun (Expr.pointsOption_whole initializer _)
  | .block body, _ => .cons nofun (Stmt.pointsAll_whole body _)
  | .branch condition whenTrue whenFalse, c =>
    .cons nofun ((condition.points_whole c).append ((whenTrue.points_whole c).append (Stmt.pointsOption_whole whenFalse _)))
  | .loop condition body, c => .cons nofun ((condition.points_whole c).append (body.points_whole c))
  | .declareFunction f, _ => .cons nofun (f.points_whole _ _)
  | .returnValue _ value, c => .cons nofun (Expr.pointsOption_whole value c)
  | .declareClass _ methods, _ => .cons nofun (Function.pointsAll_whole methods _)

theorem Stmt.pointsAll_whole : ∀ (body : List Stmt) (c : Context), Whole (Stmt.pointsAll body c)
  | [], _ => .nil
  | s :: rest, c => (s.points_whole c).append (Stmt.pointsAll_whole rest _)

theorem Stmt.pointsOption_whole : ∀ (s : Option Stmt) (c : Context), Whole (Stmt.pointsOption s c)
  | none, _ => .nil
  | some s, c => s.points_whole c

theorem Function.points_whole : ∀ (f : Function) (enclosing : Enclosing) (c : Context), Whole (f.points enclosing c)
  | .mk _ _ body, _, _ => .cons nofun (Stmt.pointsAll_whole body _)

theorem Function.pointsAll_whole : ∀ (methods : List Function) (c : Context), Whole (Function.pointsAll methods c)
  | [], _ => .nil
  | f :: rest, c => (f.points_whole _ c).append (Function.pointsAll_whole rest c)

end

/-- An expression at any place of the program that a text is parsed to, whether or not all of it can be parsed. -/
def Expr.IsIn (source : String) (e : Expr) : Prop :=
  ∃ first, ∃ p ∈ LoxLanguage.points (parse first (scan source).1).statements, p.node = .expr e

/-- An expression in which no number is too large. -/
def Expr.IsFinite (e : Expr) : Prop :=
  ∀ x, .literal (.number x) ∈ e.parts → x.IsFinite

theorem Expr.IsIn.allTidy {source : String} {e : Expr} (h : e.IsIn source) (hfinite : e.IsFinite) : e.AllTidy := by
  obtain ⟨first, p, hp, hnode⟩ := h
  intro part hpart
  obtain ⟨p', hp', hnode'⟩ := Stmt.pointsAll_whole _ _ p hp e hnode part hpart
  have hproper := (parse_laid first (scan source).1).proper p' hp'
  rw [hnode'] at hproper
  exact Expr.tidy_of_proper hproper fun x hx => hfinite x (hx ▸ hpart)

mutual

/-- Lines and sites are not written. -/
theorem Expr.prefixForm_relabel (ρ : Relabelling) : ∀ e : Expr, (e.relabel ρ).prefixForm = e.prefixForm
  | .literal value => rfl
  | .unary operator operand => by
    simp only [Expr.relabel, Expr.prefixForm, Relabelling.token_lexeme, operand.prefixForm_relabel ρ]
  | .binary left operator right | .logical left operator right => by
    simp only [Expr.relabel, Expr.prefixForm, Relabelling.token_lexeme, left.prefixForm_relabel ρ, right.prefixForm_relabel ρ]
  | .grouping inner => by
    simp only [Expr.relabel, Expr.prefixForm, inner.prefixForm_relabel ρ]
  | .use site name => rfl
  | .assign site name value => by
    simp only [Expr.relabel, Expr.prefixForm, Relabelling.token_lexeme, value.prefixForm_relabel ρ]
  | .call callee paren arguments => by
    simp only [Expr.relabel, Expr.prefixForm, callee.prefixForm_relabel ρ, Expr.prefixForms_relabel ρ arguments]
  | .get object name => by
    simp only [Expr.relabel, Expr.prefixForm, Relabelling.token_lexeme, object.prefixForm_relabel ρ]
  | .set object name value => by
    simp only [Expr.relabel, Expr.prefixForm, Relabelling.token_lexeme, object.prefixForm_relabel ρ,
      value.prefixForm_relabel ρ]
  | .this site keyword => rfl

theorem Expr.prefixForms_relabel (ρ : Relabelling) : ∀ es : List Expr,
    Expr.prefixForms (Expr.relabelAll ρ es) = Expr.prefixForms es
  | [] => rfl
  | e :: rest => by
    simp only [Expr.relabelAll, Expr.prefixForms, e.prefixForm_relabel ρ, Expr.prefixForms_relabel ρ rest]

end

/-- The prefix forms of two expressions that were parsed, from the same text or from two, are the same just when the
    expressions are the same up to the lines of their tokens and the sites of their uses. -/
theorem Expr.prefixForm_eq_iff_same {source source' : String} {e e' : Expr} (he : e.IsIn source) (he' : e'.IsIn source')
    (hfinite : e.IsFinite) (hfinite' : e'.IsFinite) :
    e.prefixForm = e'.prefixForm ↔ e.relabel .blank = e'.relabel .blank := by
  constructor
  · intro h
    have htext : e.form.text = e'.form.text := by
      rw [← e.toList_prefixForm, ← e'.toList_prefixForm, h]
    have htidy := he.allTidy hfinite
    have htidy' := he'.allTidy hfinite'
    exact htidy.blank_eq htidy' (htidy.formed.text_injective htidy'.formed htext)
  · intro h
    rw [← e.prefixForm_relabel .blank, h, e'.prefixForm_relabel .blank]

def seven : Number := Number.ofDecimal ['7'] []

/-- `f(7, "a (b").g`, where all behind the comma is on some line. -/
def brokenAccess (line : Int) : Expr :=
  .get (.call (.use 0 ⟨.identifier, "f", .nil, 1⟩) ⟨.rightParen, ")", .nil, line⟩
    [.literal (.number seven), .literal (.text "a (b")]) ⟨.identifier, "g", .nil, line⟩

/-- A call that is written on one line and on two has one prefix form, from which the call can be told up to its lines. -/
theorem Expr.prefixForm_eq_iff_same_access :
    (brokenAccess 1).IsIn "f(7, \"a (b\").g;" ∧ (brokenAccess 2).IsIn "f(7,\n\"a (b\").g;" ∧
      (brokenAccess 1).prefixForm = "(.g (call f 7 \"a (b\"))" ∧ (brokenAccess 1).prefixForm = (brokenAccess 2).prefixForm ∧
      (brokenAccess 1).relabel .blank = (brokenAccess 2).relabel .blank := by
  have hfirst : (brokenAccess 1).IsIn "f(7, \"a (b\").g;" := by
    have hparse : (parse 0 (scan "f(7, \"a (b\").g;").1).statements = [.expression (brokenAccess 1)] := rfl
    refine ⟨0, ⟨.expr (brokenAccess 1), .top⟩, ?_, rfl⟩
    rw [hparse]
    exact List.mem_cons_of_mem _ List.mem_cons_self
  have hsecond : (brokenAccess 2).IsIn "f(7,\n\"a (b\").g;" := by
    have hparse : (parse 0 (scan "f(7,\n\"a (b\").g;").1).statements = [.expression (brokenAccess 2)] := rfl
    refine ⟨0, ⟨.expr (brokenAccess 2), .top⟩, ?_, rfl⟩
    rw [hparse]
    exact List.mem_cons_of_mem _ List.mem_cons_self
  have hfinite (line : Int) : (brokenAccess line).IsFinite := by
    intro x hx
    have hseven : x = seven := by
      simpa [brokenAccess, Expr.parts, Expr.partsAll] using hx
    exact ⟨false, 7 * 2 ^ 50, -50, by rw [hseven]; decide⟩
  have hsame : (brokenAccess 1).prefixForm = (brokenAccess 2).prefixForm := rfl
  exact ⟨hfirst, hsecond, by decide, hsame,
    (Expr.prefixForm_eq_iff_same hfirst hsecond (hfinite 1) (hfinite 2)).mp hsame⟩

end LoxLanguage
