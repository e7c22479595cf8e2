import Mathlib

/-! Forms in parentheses. A form is a word, or a head with the forms behind it. Written one after the other, with a blank
in front of each part, they can be told apart again: the text of a form ends where it ends, whatever follows
(`Formed.text_append_injective`). Blanks and parentheses occur in a word only between quotes. -/

namespace LoxLanguage

/-- A word, or a head with its parts. -/
inductive Form where
  | word (text : List Char)
  | row (head : List Char) (parts : List Form)

namespace Form

mutual

/-- How a form is written. -/
def text : Form → List Char
  | .word text => text
  | .row head parts => '(' :: (head ++ textAll parts ++ [')'])

/-- How parts are written, each behind a blank. -/
def textAll : List Form → List Char
  | [] => []
  | f :: rest => ' ' :: (f.text ++ textAll rest)

end

/-- A character that has no meaning between forms. -/
def isPlain (c : Char) : Bool :=
  c != ' ' && c != '(' && c != ')' && c != '"'

/-- A word: plain characters, or anything but quotes between quotes. -/
inductive Word : List Char → Prop where
  | plain {c : Char} {rest : List Char} (hc : isPlain c) (h : ∀ d ∈ rest, isPlain d) : Word (c :: rest)
  | quoted {body : List Char} (h : '"' ∉ body) : Word ('"' :: (body ++ ['"']))

mutual

/-- All words of a form are words, and all heads plain. -/
def Formed : Form → Prop
  | .word text => Word text
  | .row head parts => (∀ d ∈ head, isPlain d) ∧ FormedAll parts

@[inherit_doc Formed]
def FormedAll : List Form → Prop
  | [] => True
  | f :: rest => f.Formed ∧ FormedAll rest

end

/-- What can stand behind a form: nothing, a blank or a closing parenthesis. -/
inductive Ends : List Char → Prop where
  | nil : Ends []
  | blank {rest : List Char} : Ends (' ' :: rest)
  | closing {rest : List Char} : Ends (')' :: rest)

variable {head head' rest rest' body body' : List Char} {parts parts' : List Form} {f g : Form}

theorem Ends.not_plain {c : Char} (h : Ends (c :: rest)) : isPlain c = false := by
  cases h <;> rfl

theorem ends_textAll (parts : List Form) (rest : List Char) : Ends (textAll parts ++ ')' :: rest) := by
  cases parts with
  | nil => exact .closing
  | cons f parts => exact .blank

/-- Plain characters end where what stands behind them begins. -/
theorem plain_append_injective (hhead : ∀ d ∈ head, isPlain d) (hhead' : ∀ d ∈ head', isPlain d) (hrest : Ends rest)
    (hrest' : Ends rest') (h : head ++ rest = head' ++ rest') : head = head' ∧ rest = rest' := by
  induction head generalizing head' with
  | nil =>
    cases head' with
    | nil => exact ⟨rfl, h⟩
    | cons c head' =>
      rw [List.nil_append] at h
      rw [h] at hrest
      exact Bool.noConfusion (hrest.not_plain.symm.trans (hhead' c List.mem_cons_self))
  | cons c head ih =>
    cases head' with
    | nil =>
      rw [List.nil_append] at h
      rw [← h] at hrest'
      exact Bool.noConfusion (hrest'.not_plain.symm.trans (hhead c List.mem_cons_self))
    | cons c' head' =>
      obtain ⟨rfl, htail⟩ := List.cons.inj h
      obtain ⟨rfl, hsame⟩ := ih (List.forall_mem_cons.mp hhead).2 (List.forall_mem_cons.mp hhead').2 htail
      exact ⟨rfl, hsame⟩

/-- A quoted text ends at the first quote. -/
theorem quoted_append_injective (hbody : '"' ∉ body) (hbody' : '"' ∉ body') (h : body ++ '"' :: rest = body' ++ '"' :: rest') :
    body = body' ∧ rest = rest' := by
  induction body generalizing body' with
  | nil =>
    cases body' with
    | nil => exact ⟨rfl, (List.cons.inj h).2⟩
    | cons c body' => exact absurd ((List.cons.inj h).1 ▸ List.mem_cons_self) hbody'
  | cons c body ih =>
    cases body' with
    | nil => exact absurd ((List.cons.inj h).1 ▸ List.mem_cons_self) hbody
    | cons c' body' =>
      obtain ⟨rfl, htail⟩ := List.cons.inj h
      obtain ⟨rfl, hsame⟩ := ih (fun hmem => hbody (List.mem_cons_of_mem _ hmem))
        (fun hmem => hbody' (List.mem_cons_of_mem _ hmem)) htail
      exact ⟨rfl, hsame⟩

/-- Two words in front of what can stand there. -/
theorem Word.append_injective (hword : Word head) (hword' : Word head') (hrest : Ends rest) (hrest' : Ends rest')
    (h : head ++ rest = head' ++ rest') : head = head' ∧ rest = rest' := by
  cases hword with
  | plain hc hplain =>
    cases hword' with
    | plain hc' hplain' =>
      exact plain_append_injective (List.forall_mem_cons.mpr ⟨hc, hplain⟩) (List.forall_mem_cons.mpr ⟨hc', hplain'⟩)
        hrest hrest' h
    | quoted _ =>
      rw [(List.cons.inj h).1] at hc
      cases hc
  | @quoted body hbody =>
    cases hword' with
    | plain hc' _ =>
      rw [← (List.cons.inj h).1] at hc'
      cases hc'
    | @quoted body' hbody' =>
      have htail : body ++ '"' :: rest = body' ++ '"' :: rest' := by
        simpa using h
      obtain ⟨rfl, hsame⟩ := quoted_append_injective hbody hbody' htail
      exact ⟨rfl, hsame⟩

/-- No word begins like a row. -/
theorem Word.ne_row (hword : Word head) : head ++ rest ≠ '(' :: rest' := by
  cases hword with
  | plain hc _ =>
    intro h
    rw [(List.cons.inj h).1] at hc
    cases hc
  | quoted _ => exact fun h => absurd (List.cons.inj h).1 (by decide)

mutual

/-- A form can be told from a text that begins with it. -/
theorem Formed.text_append_injective : ∀ {f g : Form} {rest rest' : List Char}, f.Formed → g.Formed → Ends rest → Ends rest' →
    f.text ++ rest = g.text ++ rest' → f = g ∧ rest = rest'
  | .word text, .word text', rest, rest', hf, hg, hrest, hrest', h => by
    obtain ⟨rfl, hsame⟩ := Word.append_injective hf hg hrest hrest' h
    exact ⟨rfl, hsame⟩
  | .word text, .row head parts, rest, rest', hf, _, _, _, h => absurd h (Word.ne_row hf)
  | .row head parts, .word text, rest, rest', _, hg, _, _, h => absurd h.symm (Word.ne_row hg)
  | .row head parts, .row head' parts', rest, rest', hf, hg, _, _, h => by
    have hinner : head ++ (textAll parts ++ ')' :: rest) = head' ++ (textAll parts' ++ ')' :: rest') := by
      simpa [text] using h
    obtain ⟨rfl, hparts⟩ := plain_append_injective hf.1 hg.1 (ends_textAll parts rest) (ends_textAll parts' rest') hinner
    obtain ⟨rfl, hsame⟩ := FormedAll.textAll_append_injective hf.2 hg.2 hparts
    exact ⟨rfl, hsame⟩

/-- The parts of a row can be told from the text up to its end. -/
theorem FormedAll.textAll_append_injective : ∀ {parts parts' : List Form} {rest rest' : List Char}, FormedAll parts →
    FormedAll parts' → textAll parts ++ ')' :: rest = textAll parts' ++ ')' :: rest' → parts = parts' ∧ rest = rest'
  | [], [], _, _, _, _, h => ⟨rfl, (List.cons.inj h).2⟩
  | [], _ :: _, _, _, _, _, h => absurd (List.cons.inj h).1 (by decide)
  | _ :: _, [], _, _, _, _, h => absurd (List.cons.inj h).1 (by decide)
  | f :: parts, g :: parts', rest, rest', hf, hg, h => by
    have htail : f.text ++ (textAll parts ++ ')' :: rest) = g.text ++ (textAll parts' ++ ')' :: rest') := by
      simpa [textAll] using h
    obtain ⟨rfl, hparts⟩ :=
      Formed.text_append_injective hf.1 hg.1 (ends_textAll parts rest) (ends_textAll parts' rest') htail
    obtain ⟨rfl, hsame⟩ := FormedAll.textAll_append_injective hf.2 hg.2 hparts
    exact ⟨rfl, hsame⟩

end

/-- Different forms are written differently. -/
theorem Formed.text_injective (hf : f.Formed) (hg : g.Formed) (h : f.text = g.text) : f = g := by
  have happend : f.text ++ [] = g.text ++ [] := congrArg (· ++ []) h
  exact (text_append_injective hf hg .nil .nil happend).1

end Form

end LoxLanguage
