import Mathlib
import LoxLanguage.Proofs.Grammar.Exact
import LoxLanguage.Proofs.Parser.Ahead
import LoxLanguage.Proofs.Parser.Confined

/-! Errors stay local. Tokens that are accepted on their own, and a broken statement that ends at its only semicolon, are
read on their own also in front of other tokens: they give the same statements and problems, and what follows is read
as if it stood alone. -/

namespace LoxLanguage

namespace Parser

open Grammar

/-- Wherever no `else` follows, a program that begins with the tokens `ts` goes on behind them, with the statements `ss`
    found and the problems `found` reported. -/
def Heads (n : Site) (ts : List Token) (ss : List Stmt) (m : Site) (found : Array Problem) : Prop :=
  ∀ (given : Array Stmt) before rest problems r, NoElse rest →
    Settles (program · (given ++ ss.toArray)) ⟨ts.reverse ++ before, rest, m, problems ++ found⟩ r →
    Settles (program · given) ⟨before, ts ++ rest, n, problems⟩ r

namespace Heads

variable {n k m : Site} {ts us : List Token} {ss : List Stmt} {found : Array Problem}

theorem nil (n : Site) : Heads n [] [] n #[] := by
  intro given before rest problems r _ h
  simpa using h

theorem append {more : List Stmt} {found' : Array Problem} (h : Heads n ts ss k found) (hmore : Heads k us more m found')
    (hus : ∀ rest, NoElse rest → NoElse (us ++ rest)) : Heads n (ts ++ us) (ss ++ more) m (found ++ found') := by
  intro given before rest problems r hrest hr
  rw [List.append_assoc]
  refine h given before (us ++ rest) problems r (hus rest hrest) ?_
  refine hmore _ _ rest _ r hrest ?_
  simpa [Array.append_assoc] using hr

/-- One declaration, read whole or with recovery. -/
theorem of_recovering {t : Token} {o : Option Stmt} (ht : t.kind ≠ .eof)
    (h : ∀ before rest problems, NoElse rest → Settles (fun fuel => recovering (declaration fuel))
      ⟨before, t :: ts ++ rest, n, problems⟩ (.ok o ⟨(t :: ts).reverse ++ before, rest, m, problems ++ found⟩)) :
    Heads n (t :: ts) o.toList m found := by
  intro given before rest problems r hrest hr
  have hread : Settles (fun fuel => recovering (declaration fuel) >>= fun o => program fuel (given ++ o.toList.toArray))
      ⟨before, t :: ts ++ rest, n, problems⟩ r := (h before rest problems hrest).bind hr
  refine hread.of_succ fun fuel => ?_
  rw [program.eq_2, bind_eq, atEnd_eq rfl]
  simp only [beq_eq_false_iff_ne.mpr ht, Bool.false_eq_true, ↓reduceIte]
  refine congrFun (congrArg _ (funext fun o => ?_)) _
  cases o <;> simp

end Heads

/-! ### Tokens that are accepted -/

/-- A program of the grammar is read on its own. -/
theorem heads_of_program {n m : Site} {ts : List Token} {body : List Stmt} (h : Program n ts body m) : Heads n ts body m #[] := by
  induction h using @Declarations.rec (fun _ _ _ _ _ => True) (fun _ _ _ _ _ => True) (fun _ _ _ _ _ => True) _
    (fun _ _ _ _ _ _ => True) with
  | none => exact .nil _
  | @more n k m ts us a body h hmore _ ih =>
    have hone : Heads n ts [a] k #[] := by
      have hfollows := h.follows
      obtain ⟨t, vs, rfl, ht⟩ := h.begun
      have heof : t.kind ≠ .eof := by
        intro he
        rw [he] at ht
        cases ht
      refine Heads.of_recovering (o := some a) heof ?_
      intro before rest problems hrest
      simpa using (hfollows rest hrest).recovering before problems
    exact hone.append ih fun rest hrest => hmore.noElse hrest
  | _ => trivial

/-! ### Broken statements -/

/-- Where a run does not depend on what is around, it settles in the same way everywhere. -/
theorem Reaches.settles {α : Type} {p : Nat → Parser α} (hp : ∀ fuel, Within (p fuel) (p (fuel + 1))) {fuel : Nat} {n m : Site}
    {ts : List Token} {a : α} {found : Array Problem} (h : Reaches (p fuel) n ts (.ok a) [] m found)
    (before rest : List Token) (problems : Array Problem) (hrest : NoElse rest) :
    Settles p ⟨before, ts ++ rest, n, problems⟩ (.ok a ⟨ts.reverse ++ before, rest, m, problems ++ found⟩) := by
  obtain ⟨taken, hts, h⟩ := h
  have hrun := h before rest problems hrest
  rw [List.append_nil] at hts
  refine ⟨fuel, fun more hle => ?_⟩
  rw [eq_of_within hp hle fun s' hexhausted => ?_, hrun, hts]
  · rfl
  · cases hrun.symm.trans hexhausted

/-- A statement that ends at its only semicolon is read on its own, broken or not. -/
theorem SimpleRow.heads {ts : List Token} (h : SimpleRow ts) (hts : ∀ t ∈ ts, t.kind ≠ .eof) (n : Site) :
    ∃ ss m found, Heads n ts ss m found := by
  obtain ⟨t, us, rfl⟩ : ∃ t us, ts = t :: us := by
    cases h with
    | plain h =>
      obtain ⟨t, us, heq, -⟩ := h.exists_cons
      exact ⟨t, us, heq⟩
    | keyword => exact ⟨_, _, rfl⟩
  have ht : t.kind ≠ .eof := hts t (.head _)
  -- In front of an end mark the bound is not reached, so it is not reached in front of anything.
  let eof : Token := ⟨.eof, "", .nil, 0⟩
  have hclosed : Closed (t :: us ++ [eof]) := closed_append hts rfl
  rcases recovering_reaches (24 * (t :: us ++ [eof]).length + 12) h n with
    ⟨o, m, found, hreach⟩ | ⟨left, m, found, taken, -, hreach⟩
  · refine ⟨o.toList, m, found, .of_recovering ht ?_⟩
    exact hreach.settles fun fuel => (statementsWithin fuel).declaration.recovering
  · have hstop := hreach [] [eof] #[] ⟨eof, [], rfl, nofun⟩
    rcases recovering_declaration_cases _ (s := ⟨[], t :: us ++ [eof], n, #[]⟩) hclosed rfl ht with
      ⟨o, s', hok, -⟩ | ⟨hne, -⟩
    · cases hok.symm.trans hstop
    · exact absurd (Nat.le_refl _) hne

end Parser

open LoxLanguage.Parser Grammar

/-- A list of tokens that ends at its only semicolon, without braces, and with no token that begins a statement but possibly
    the first, which is no `for`. It may be broken in any other way. -/
structure SimpleStatement (ts : List Token) : Prop where
  semicolon : ∃ inner last, ts = inner ++ [last] ∧ last.kind = .semicolon ∧ ∀ t ∈ inner, t.kind ≠ .semicolon
  braces : ∀ t ∈ ts, t.kind ≠ .leftBrace ∧ t.kind ≠ .rightBrace
  boundaries : ∀ t ∈ ts.tail, isBoundary t.kind = false
  first : ∀ t, ts.head? = some t → t.kind ≠ .forWord

theorem remains_append {inner : List Token} {last : Token} (hlast : last.kind = .semicolon)
    (hinner : ∀ t ∈ inner, isInner t.kind = true) : Remains (inner ++ [last]) := by
  induction inner with
  | nil => exact .last hlast
  | cons t inner ih => exact .cons (hinner t (.head _)) (ih fun u hu => hinner u (.tail _ hu))

theorem SimpleStatement.row {ts : List Token} (h : SimpleStatement ts) (heof : ∀ t ∈ ts, t.kind ≠ .eof) : SimpleRow ts := by
  obtain ⟨inner, last, rfl, hlast, hsemicolon⟩ := h.semicolon
  have hkind : ∀ t ∈ inner, isBoundary t.kind = false → isInner t.kind = true := by
    intro t ht hbound
    have hmem : t ∈ inner ++ [last] := List.mem_append_left _ ht
    simp [isInner, hbound, hsemicolon t ht, h.braces t hmem, heof t hmem]
  cases inner with
  | nil => exact .plain (.last hlast)
  | cons t inner =>
    have hinner : ∀ u ∈ inner, isInner u.kind = true := by
      intro u hu
      exact hkind u (.tail _ hu) (h.boundaries u (List.mem_append_left _ hu))
    cases hbound : isBoundary t.kind with
    | true => exact .keyword hbound (h.first t rfl) (remains_append hlast hinner)
    | false => exact .plain (.cons (hkind t (.head _) hbound) (remains_append hlast hinner))

/-! ### What follows -/

section Following
variable {first n m : Site} {ts us : List Token} {eof : Token} {ss : List Stmt} {found : Array Problem}

/-- What follows is read as if it stood alone. -/
theorem parse_append_of_heads (h : Heads n ts ss m found) (hts : ∀ t ∈ ts, t.kind ≠ .eof) (hus : ∀ t ∈ us, t.kind ≠ .eof)
    (heof : eof.kind = .eof) (helse : NoElse (us ++ [eof])) :
    parse n (ts ++ us ++ [eof]) = ⟨ss ++ (parse m (us ++ [eof])).statements, (parse m (us ++ [eof])).nextSite,
      found.toList ++ (parse m (us ++ [eof])).problems⟩ := by
  have hclosed : Closed (us ++ [eof]) := closed_append hus heof
  have hwhole : Closed (ts ++ us ++ [eof]) := by
    refine closed_append (fun t ht => ?_) heof
    rcases List.mem_append.mp ht with ht | ht
    · exact hts t ht
    · exact hus t ht
  have henough (row : List Token) : 24 * row.length + 13 ≤ fuelFor row.length := le_fuelFor row.length
  let alone : Parser.State := ⟨[], us ++ [eof], m, #[]⟩
  obtain ⟨more, s', hrun, -⟩ := program_ok (s := alone) #[] hclosed (henough _)
  have hbehind : program (fuelFor (us ++ [eof]).length) ss.toArray (alone.behind ts.reverse found) =
      .ok (ss.toArray ++ more) (s'.behind ts.reverse found) := by
    rw [program_eq_append]
    rcases (program_made (fuelFor (us ++ [eof]).length) #[]).looksAhead alone ts.reverse found with ⟨s'', hout⟩ | hsame
    · cases hrun.symm.trans hout
    · rw [hsame, hrun]
      rfl
  have hsettles : Settles (program · (#[] ++ ss.toArray)) ⟨ts.reverse ++ [], us ++ [eof], m, #[] ++ found⟩
      (.ok (ss.toArray ++ more) (s'.behind ts.reverse found)) := by
    refine ⟨fuelFor (us ++ [eof]).length, fun fuel hle => ?_⟩
    have hplace : (⟨ts.reverse ++ [], us ++ [eof], m, #[] ++ found⟩ : Parser.State) = alone.behind ts.reverse found := by
      simp [alone, State.behind]
    rw [hplace, Array.empty_append, ← hbehind]
    exact program_eq_of_le _ hclosed (henough _) hle
  have hall := (h #[] [] (us ++ [eof]) #[] _ helse hsettles).program_eq (by rw [← List.append_assoc]; exact hwhole)
    (henough _)
  unfold parse
  rw [List.append_assoc, hall, hrun]
  simp [State.behind]

theorem parse_end (heof : eof.kind = .eof) : parse first [eof] = ⟨[], first, []⟩ := by
  have hb : ∀ t ∈ ([] : List Token), t.kind ≠ .eof := by simp
  have hparse := @parse_of_program first first [] eof [] hb heof .none
  rwa [List.nil_append] at hparse

/-- Tokens that are accepted, or make up one simple statement, are read on their own in front of other tokens. -/
theorem exists_heads {other : Token} (hts : ∀ t ∈ ts, t.kind ≠ .eof) (hother : other.kind = .eof)
    (h : (parse first (ts ++ [other])).problems = [] ∨ SimpleStatement ts) :
    ∃ ss m found, Heads first ts ss m found := by
  rcases h with h | h
  · have hprogram : Program first ts (parse first (ts ++ [other])).statements (parse first (ts ++ [other])).nextSite := by
      refine program_of_parse hts hother ?_
      rw [← h]
    exact ⟨_, _, _, heads_of_program hprogram⟩
  · exact (h.row hts).heads hts first

end Following

/-- Parsing goes on behind an accepted row of tokens, or behind a simple statement however broken, as if what follows stood
    alone: the statements of the two parts follow each other, and so do their problems. Which end mark the first part has
    when it stands alone does not matter. -/
theorem parse_local {first : Site} {ts us : List Token} {other eof : Token} (hts : ∀ t ∈ ts, t.kind ≠ .eof)
    (hus : ∀ t ∈ us, t.kind ≠ .eof) (hother : other.kind = .eof) (heof : eof.kind = .eof)
    (h : (parse first (ts ++ [other])).problems = [] ∨ SimpleStatement ts)
    (helse : ∀ t, us.head? = some t → t.kind ≠ .elseWord) :
    parse first (ts ++ us ++ [eof]) =
      ⟨(parse first (ts ++ [other])).statements ++
          (parse (parse first (ts ++ [other])).nextSite (us ++ [eof])).statements,
        (parse (parse first (ts ++ [other])).nextSite (us ++ [eof])).nextSite,
        (parse first (ts ++ [other])).problems ++
          (parse (parse first (ts ++ [other])).nextSite (us ++ [eof])).problems⟩ := by
  obtain ⟨ss, m, found, hheads⟩ := exists_heads hts hother h
  have hfirst : parse first (ts ++ [] ++ [other]) = _ :=
    parse_append_of_heads hheads hts (by simp) hother ⟨other, [], rfl, by rw [hother]; nofun⟩
  have hnoElse : NoElse (us ++ [eof]) := by
    cases us with
    | nil => exact ⟨eof, [], rfl, by rw [heof]; nofun⟩
    | cons t us => exact ⟨t, us ++ [eof], rfl, helse t rfl⟩
  have hall := parse_append_of_heads hheads hts hus heof hnoElse
  simp only [List.append_nil, List.nil_append, parse_end hother] at hfirst
  rw [hall, hfirst]

/-- Behind the broken `if (a b;`, which takes up a site, `print c; d` is read with its own statement and its own problem. -/
theorem parse_local_broken :
    SimpleStatement [⟨.ifWord, "if", .nil, 1⟩, ⟨.leftParen, "(", .nil, 1⟩, ⟨.identifier, "a", .nil, 1⟩,
      ⟨.identifier, "b", .nil, 1⟩, ⟨.semicolon, ";", .nil, 1⟩] ∧
    parse 0 ([⟨.ifWord, "if", .nil, 1⟩, ⟨.leftParen, "(", .nil, 1⟩, ⟨.identifier, "a", .nil, 1⟩,
        ⟨.identifier, "b", .nil, 1⟩, ⟨.semicolon, ";", .nil, 1⟩] ++
      [⟨.printWord, "print", .nil, 2⟩, ⟨.identifier, "c", .nil, 2⟩, ⟨.semicolon, ";", .nil, 2⟩,
        ⟨.identifier, "d", .nil, 2⟩] ++ [⟨.eof, "", .nil, 2⟩]) =
      ⟨[.print (.use 1 ⟨.identifier, "c", .nil, 2⟩)], 3,
        [.atToken ⟨.identifier, "b", .nil, 1⟩ .expectIfClose, .atToken ⟨.eof, "", .nil, 2⟩ .expectExpressionEnd]⟩ := by
  have hsimple : SimpleStatement [⟨.ifWord, "if", .nil, 1⟩, ⟨.leftParen, "(", .nil, 1⟩, ⟨.identifier, "a", .nil, 1⟩,
      ⟨.identifier, "b", .nil, 1⟩, ⟨.semicolon, ";", .nil, 1⟩] := by
    constructor
    case semicolon =>
      refine ⟨[⟨.ifWord, "if", .nil, 1⟩, ⟨.leftParen, "(", .nil, 1⟩, ⟨.identifier, "a", .nil, 1⟩,
        ⟨.identifier, "b", .nil, 1⟩], _, rfl, rfl, ?_⟩
      simp
    all_goals simp [isBoundary]
  refine ⟨hsimple, ?_⟩
  rw [@parse_local 0 _ _ ⟨.eof, "", .nil, 1⟩ _ (by simp) (by simp) rfl rfl (.inr hsimple) (by simp)]
  cbv

end LoxLanguage
