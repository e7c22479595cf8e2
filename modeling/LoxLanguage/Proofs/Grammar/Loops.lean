import Mathlib
import LoxLanguage.Proofs.Grammar.Exact
import LoxLanguage.Proofs.Parser.Trees
import LoxLanguage.Proofs.Tree.Renumbering

/-! A `for` and the loop that it abbreviates. Both rows of tokens are derived, and their trees are the same but for the
labels of the uses: the increment is written in front of the body in the one and behind it in the other, so their rows of
sites change places (`ForLoop.Readable.programs`). -/

namespace LoxLanguage

open Token (Kind)
open Grammar Relabelling

/-! ### Rows of tokens -/

/-- A segment of a row of tokens: any token of a kind, or some tokens. -/
inductive Segment where
  | mark (kind : Kind)
  | row (ts : List Token)

/-- The row is made of the segments, one behind the other. -/
def MadeOf : List Segment → List Token → Prop
  | [], ts => ts = []
  | .mark kind :: rest, ts => ∃ t us, ts = t :: us ∧ t.kind = kind ∧ MadeOf rest us
  | .row row :: rest, ts => ∃ us, ts = row ++ us ∧ MadeOf rest us

theorem madeOf_append {segments more : List Segment} {ts : List Token} (h : MadeOf (segments ++ more) ts) :
    ∃ us vs, ts = us ++ vs ∧ MadeOf segments us ∧ MadeOf more vs := by
  induction segments generalizing ts with
  | nil => exact ⟨[], ts, rfl, rfl, h⟩
  | cons segment rest ih =>
    cases segment with
    | mark kind =>
      obtain ⟨t, _, rfl, ht, hrest⟩ := h
      obtain ⟨us, vs, rfl, hus, hvs⟩ := ih hrest
      exact ⟨t :: us, vs, rfl, ⟨t, us, rfl, ht, hus⟩, hvs⟩
    | row row =>
      obtain ⟨_, rfl, hrest⟩ := h
      obtain ⟨us, vs, rfl, hus, hvs⟩ := ih hrest
      exact ⟨row ++ us, vs, (List.append_assoc _ _ _).symm, ⟨us, rfl, hus⟩, hvs⟩

/-- A segment without end marks. -/
def Segment.Open : Segment → Prop
  | .mark kind => kind ≠ .eof
  | .row ts => ∀ t ∈ ts, t.kind ≠ .eof

theorem MadeOf.ne_eof {segments : List Segment} {ts : List Token} (h : MadeOf segments ts)
    (hopen : ∀ segment ∈ segments, segment.Open) : ∀ t ∈ ts, t.kind ≠ .eof := by
  induction segments generalizing ts with
  | nil =>
    cases h
    exact List.forall_mem_nil _
  | cons segment rest ih =>
    obtain ⟨hsegment, hrest⟩ := List.forall_mem_cons.mp hopen
    cases segment with
    | mark kind =>
      obtain ⟨t, us, rfl, rfl, hus⟩ := h
      exact List.forall_mem_cons.mpr ⟨hsegment, ih hus hrest⟩
    | row row =>
      obtain ⟨us, rfl, hus⟩ := h
      exact List.forall_mem_append.mpr ⟨hsegment, ih hus hrest⟩

/-- The clauses of a `for`, the first one with its semicolon, and the body. -/
structure ForLoop where
  initializer : Option (List Token)
  condition : Option (List Token)
  increment : Option (List Token)
  body : List Token

namespace ForLoop

open Segment

variable (l : ForLoop)

def first : List Segment :=
  match l.initializer with
  | some ts => [row ts]
  | none => [mark .semicolon]

/-- `for ( initializer condition ; increment ) body`. -/
def short : List Segment :=
  [mark .forWord, mark .leftParen] ++ l.first ++
    [row (l.condition.getD []), mark .semicolon, row (l.increment.getD []), mark .rightParen, row l.body]

def test : Segment :=
  match l.condition with
  | some ts => row ts
  | none => mark .trueWord

/-- The body with the increment behind it, if there is one: `{ body increment ; }`. -/
def inner : List Segment :=
  match l.increment with
  | some ts => [mark .leftBrace, row l.body, row ts, mark .semicolon, mark .rightBrace]
  | none => [row l.body]

/-- `while ( condition ) inner`. -/
def loop : List Segment :=
  [mark .whileWord, mark .leftParen, l.test, mark .rightParen] ++ l.inner

/-- `{ initializer loop }`, or the loop alone. -/
def long : List Segment :=
  match l.initializer with
  | some ts => [mark .leftBrace, row ts] ++ l.loop ++ [mark .rightBrace]
  | none => l.loop

end ForLoop

/-- Without an end mark in it, the row is parsed as one statement and nothing is reported. -/
def ReadAlone (ts : List Token) (s : Stmt) : Prop :=
  (∀ t ∈ ts, t.kind ≠ .eof) ∧ ∃ (eof : Token) (next : Site), eof.kind = .eof ∧ parse 0 (ts ++ [eof]) = ⟨[s], next, []⟩

/-- The row is parsed as an expression in front of a semicolon. -/
def IsExpression (ts : List Token) : Prop :=
  ∃ (semicolon : Token) (e : Expr), semicolon.kind = .semicolon ∧ ReadAlone (ts ++ [semicolon]) (.expression e)

/-- Each clause and the body is parsed in its role. -/
structure ForLoop.Readable (l : ForLoop) : Prop where
  initializer : ∀ ts, l.initializer = some ts →
    ∃ s, ReadAlone ts s ∧ ((∃ name value, s = .declareVariable name value) ∨ ∃ e, s = .expression e)
  condition : ∀ ts, l.condition = some ts → IsExpression ts
  increment : ∀ ts, l.increment = some ts → IsExpression ts
  body : ∃ s, ReadAlone l.body s ∧ s.declared? = none

/-! ### Derivations -/

namespace Grammar

/-- An expression that may be left out. -/
inductive Clause (n : Site) : Option (List Token) → Option Expr → Site → Prop where
  | none : Clause n none none n
  | some {m : Site} {ts : List Token} {e : Expr} (h : Expression n ts e m) : Clause n (some ts) (some e) m

/-- The first clause, which may be left out. -/
inductive FirstClause (n : Site) : Option (List Token) → Option Stmt → Site → Prop where
  | none : FirstClause n none none n
  | declaration {m : Site} {ts : List Token} {s : Stmt} (h : Variable n ts s m) : FirstClause n (some ts) (some s) m
  | expression {m : Site} {ts : List Token} {e : Expr} {semicolon : Token} (h : Expression n ts e m)
      (hsemicolon : semicolon.kind = .semicolon) : FirstClause n (some (ts ++ [semicolon])) (some (.expression e)) m

section Shifted
variable {m : Site} {ts : List Token} {row : Option (List Token)}

theorem site_startingAt_zero (n : Site) : (startingAt 0 n).site 0 = n :=
  Nat.zero_add n

theorem Derives.shift {e : Expr} (h : Expression 0 ts e m) (n : Site) :
    Expression n ts (e.relabel (startingAt 0 n)) (m + n) := by
  have hshifted := (h.relabel (startingAt_runsFrom 0 n)).2
  rwa [map_startingAt, site_startingAt_zero] at hshifted

theorem Clause.shift {e : Option Expr} (h : Clause 0 row e m) (n : Site) :
    Clause n row (e.map (Expr.relabel (startingAt 0 n))) (m + n) := by
  cases h with
  | none =>
    rw [Nat.zero_add]
    exact .none
  | some h => exact .some (h.shift n)

theorem Declaration.shift {s : Stmt} (h : Declaration 0 ts s m) (n : Site) :
    Declaration n ts (s.relabel (startingAt 0 n)) (m + n) := by
  have hshifted := (h.relabel (startingAt_runsFrom 0 n)).2
  rwa [map_startingAt, site_startingAt_zero] at hshifted

theorem FirstClause.shift {s : Option Stmt} (h : FirstClause 0 row s m) (n : Site) :
    FirstClause n row (s.map (Stmt.relabel (startingAt 0 n))) (m + n) := by
  cases h with
  | none =>
    rw [Nat.zero_add]
    exact .none
  | declaration h =>
    have hshifted := (h.relabel (startingAt_runsFrom 0 n)).2
    rw [map_startingAt, site_startingAt_zero] at hshifted
    exact .declaration hshifted
  | expression h hsemicolon => exact .expression (h.shift n) hsemicolon

end Shifted

section Built
variable {l : ForLoop} {dangles : Bool} {n k m : Site} {ts : List Token}

theorem Clause.optional {row : Option (List Token)} {e : Option Expr} (h : Clause n row e m) :
    OptionalExpression n (row.getD []) e m := by
  cases h with
  | none => exact .none
  | some h => exact .some h

theorem FirstClause.declared {s : Stmt} (h : FirstClause n (some ts) (some s) m) : Declaration n ts s m := by
  cases h with
  | declaration h => exact .binding h
  | expression h hsemicolon => exact .statement (.expression h hsemicolon)

theorem FirstClause.initializer {a : Option Stmt} (h : FirstClause n l.initializer a m) (hts : MadeOf l.first ts) :
    Initializer n ts a m := by
  unfold ForLoop.first at hts
  cases hrow : l.initializer with
  | none =>
    rw [hrow] at h hts
    obtain ⟨semicolon, _, rfl, hsemicolon, rfl⟩ := hts
    cases h
    exact .none hsemicolon
  | some row =>
    rw [hrow] at h hts
    obtain ⟨_, rfl, rfl⟩ := hts
    rw [List.append_nil]
    cases h with
    | declaration h => exact .declaration h
    | expression h hsemicolon => exact .expression h hsemicolon

/-- The tokens of a `for` are derived from its clauses and its body, in the order in which they are written. -/
theorem statement_short {j p : Site} {a : Option Stmt} {c e : Option Expr} {b : Stmt}
    (ha : FirstClause n l.initializer a k) (hc : Clause k l.condition c p) (he : Clause p l.increment e j)
    (hb : Statement dangles j l.body b m) (hts : MadeOf l.short ts) : Statement dangles n ts (forTree a c e b) m := by
  obtain ⟨_, rest, rfl, hfront, hrest⟩ := madeOf_append hts
  obtain ⟨marks, first, rfl, hmarks, hfirst⟩ := madeOf_append hfront
  obtain ⟨keyword, _, rfl, hkeyword, opening, _, rfl, hopening, rfl⟩ := hmarks
  obtain ⟨_, rfl, semicolon, _, rfl, hsemicolon, _, rfl, closing, _, rfl, hclosing, _, rfl, rfl⟩ := hrest
  have hloop := Statement.loopFor hkeyword hopening (ha.initializer hfirst) hc.optional hsemicolon he.optional hclosing hb
  simpa using hloop

/-- The body of the loop that a `for` stands for. -/
def bodyTree : Option Expr → Stmt → Stmt
  | some increment, body => .block [body, .expression increment]
  | none, body => body

theorem forTree_eq (a : Option Stmt) (c e : Option Expr) (b : Stmt) :
    forTree a c e b =
      match a with
      | some s => .block [s, .loop (c.getD (.literal (.bool true))) (bodyTree e b)]
      | none => .loop (c.getD (.literal (.bool true))) (bodyTree e b) := by
  cases a <;> cases c <;> cases e <;> rfl

theorem statement_inner {e : Option Expr} {b : Stmt} (hb : Statement dangles n l.body b k) (he : Clause k l.increment e m)
    (hts : MadeOf l.inner ts) : ∃ dangles, Statement dangles n ts (bodyTree e b) m := by
  unfold ForLoop.inner at hts
  cases hrow : l.increment with
  | none =>
    rw [hrow] at he hts
    obtain ⟨_, rfl, rfl⟩ := hts
    cases he
    rw [List.append_nil]
    exact ⟨dangles, hb⟩
  | some row =>
    rw [hrow] at he hts
    obtain ⟨opening, _, rfl, hopening, _, rfl, _, rfl, semicolon, _, rfl, hsemicolon, closing, _, rfl, hclosing, rfl⟩ := hts
    cases he with
    | some he =>
      have hblock := Statement.block hopening (.more (.statement hb) (.more (.statement (.expression he hsemicolon)) .none))
        hclosing
      exact ⟨false, by simpa [bodyTree] using hblock⟩

/-- A keyword is an expression on every level. -/
theorem expression_trueWord {t : Token} (h : t.kind = .trueWord) (n : Site) :
    Expression n [t] (.literal (.bool true)) n := by
  have hunary : Derives .unary n [t] (.literal (.bool true)) n := .plain (.atom (.trueWord h))
  exact .value (.operand rfl (.operand rfl (.operand rfl (.operand rfl (.operand rfl (.operand rfl hunary))))))

theorem statement_loop {c : Option Expr} {inner : Stmt} (hc : Clause n l.condition c k)
    (hinner : ∀ us, MadeOf l.inner us → ∃ dangles, Statement dangles k us inner m) (hts : MadeOf l.loop ts) :
    ∃ dangles, Statement dangles n ts (.loop (c.getD (.literal (.bool true))) inner) m := by
  obtain ⟨head, us, rfl, hhead, hus⟩ := madeOf_append hts
  obtain ⟨dangles, hinner⟩ := hinner us hus
  obtain ⟨keyword, _, rfl, hkeyword, opening, _, rfl, hopening, hhead⟩ := hhead
  unfold ForLoop.test at hhead
  cases hrow : l.condition with
  | none =>
    rw [hrow] at hc hhead
    obtain ⟨truth, _, rfl, htruth, closing, _, rfl, hclosing, rfl⟩ := hhead
    cases hc
    exact ⟨dangles, .loop hkeyword hopening (expression_trueWord htruth n) hclosing hinner⟩
  | some row =>
    rw [hrow] at hc hhead
    obtain ⟨_, rfl, closing, _, rfl, hclosing, rfl⟩ := hhead
    cases hc with
    | some hc =>
      have hloop := Statement.loop hkeyword hopening hc hclosing hinner
      exact ⟨dangles, by simpa using hloop⟩

/-- The tokens of the loop that a `for` stands for are derived from the same parts, the increment behind the body. -/
theorem statement_long {j p : Site} {a : Option Stmt} {c e : Option Expr} {b : Stmt}
    (ha : FirstClause n l.initializer a k) (hc : Clause k l.condition c p) (hb : Statement dangles p l.body b j)
    (he : Clause j l.increment e m) (hts : MadeOf l.long ts) : ∃ dangles, Statement dangles n ts (forTree a c e b) m := by
  have hloop : ∀ us, MadeOf l.loop us → ∃ dangles, Statement dangles k us _ m := fun us hus =>
    statement_loop hc (fun _ => statement_inner hb he) hus
  rw [forTree_eq]
  unfold ForLoop.long at hts
  cases hrow : l.initializer with
  | none =>
    rw [hrow] at ha hts
    cases ha
    exact hloop ts hts
  | some row =>
    rw [hrow] at ha hts
    obtain ⟨_, rest, rfl, hfront, hrest⟩ := madeOf_append hts
    obtain ⟨head, us, rfl, hhead, hus⟩ := madeOf_append hfront
    obtain ⟨opening, _, rfl, hopening, _, rfl, rfl⟩ := hhead
    obtain ⟨closing, _, rfl, hclosing, rfl⟩ := hrest
    obtain ⟨_, hloop⟩ := hloop us hus
    cases a with
    | none => cases ha
    | some s =>
      have hblock := Statement.block hopening (.more ha.declared (.more (.statement hloop) .none)) hclosing
      exact ⟨false, by simpa using hblock⟩

end Built

/-! ### What is read alone -/

section Alone
variable {n m : Site} {ts : List Token} {s : Stmt}

theorem declaration_of_program (h : Program n ts [s] m) : Declaration n ts s m := by
  cases h with
  | more h hbody =>
    cases hbody
    rwa [List.append_nil]

theorem program_of_statement {dangles : Bool} (h : Statement dangles n ts s m) : Program n ts [s] m := by
  have hprogram := Declarations.more (.statement h) .none
  rwa [List.append_nil] at hprogram

theorem statement_of_declaration (h : Declaration n ts s m) (hs : s.declared? = none) :
    ∃ dangles, Statement dangles n ts s m := by
  cases h with
  | classes => cases hs
  | function => cases hs
  | binding h => cases h <;> cases hs
  | statement h => exact ⟨_, h⟩

theorem Statement.declared_eq_none {dangles : Bool} (h : Statement dangles n ts s m) : s.declared? = none := by
  cases h with
  | loopFor => exact declared_forTree _ _ _ _
  | _ => rfl

theorem expression_of_declaration {e : Expr} (h : Declaration n ts (.expression e) m) :
    ∃ us semicolon, ts = us ++ [semicolon] ∧ semicolon.kind = .semicolon ∧ Expression n us e m := by
  obtain ⟨dangles, h⟩ := statement_of_declaration h rfl
  generalize hs : Stmt.expression e = s at h
  cases h with
  | expression h hsemicolon =>
    cases hs
    exact ⟨_, _, rfl, hsemicolon, h⟩
  | @loopFor _ _ _ _ _ _ _ _ _ _ _ _ _ _ a c e' b =>
    rw [forTree_eq] at hs
    cases a <;> cases hs
  | _ => cases hs

theorem variable_of_declaration {name : Token} {value : Option Expr} (h : Declaration n ts (.declareVariable name value) m) :
    Variable n ts (.declareVariable name value) m := by
  cases h with
  | binding h => exact h
  | statement h => cases h.declared_eq_none

end Alone

end Grammar

theorem Spread.bounds_uses {Proper : Point → Prop} {n m : Site} {program : List Stmt}
    (h : Spread Point.site? Proper n m (points program)) : ∀ u ∈ Stmt.usesOfAll program, n ≤ u.site ∧ u.site < m := by
  intro u hu
  obtain ⟨point, hpoint, huse⟩ := List.mem_filterMap.mp ((Stmt.pointsAll_uses program .top).mem_iff.mpr hu)
  have hsite : point.site? = some u.site := by rw [Point.site?, huse, Option.map_some]
  exact h.bounds u.site (List.mem_filterMap.mpr ⟨point, hpoint, hsite⟩)

/-- The tokens of a statement that is read alone are derived, and its uses are labelled from the first site on. -/
theorem ReadAlone.derived {ts : List Token} {s : Stmt} (h : ReadAlone ts s) :
    ∃ m, Declaration 0 ts s m ∧ ∀ u ∈ s.uses, u.site < m := by
  obtain ⟨hts, eof, m, heof, hparse⟩ := h
  have hlaid := parse_laid 0 (ts ++ [eof])
  rw [hparse] at hlaid
  refine ⟨m, declaration_of_program (program_of_parse hts heof hparse), fun u hu => ?_⟩
  exact (hlaid.bounds_uses u (List.mem_append_left _ hu)).2

theorem IsExpression.derived {ts : List Token} (h : IsExpression ts) :
    ∃ e m, Expression 0 ts e m ∧ ∀ u ∈ e.uses, u.site < m := by
  obtain ⟨semicolon, e, -, halone⟩ := h
  obtain ⟨m, hdeclaration, huses⟩ := halone.derived
  obtain ⟨us, _, heq, -, he⟩ := expression_of_declaration hdeclaration
  obtain ⟨rfl, -⟩ := List.append_inj' heq rfl
  exact ⟨e, m, he, huses⟩

theorem clause_derived {row : Option (List Token)} (h : ∀ ts, row = some ts → IsExpression ts) :
    ∃ e m, Clause 0 row e m ∧ ∀ u ∈ Expr.usesOfOption e, u.site < m := by
  cases row with
  | none => exact ⟨none, 0, .none, List.forall_mem_nil _⟩
  | some ts =>
    obtain ⟨e, m, he, huses⟩ := (h ts rfl).derived
    exact ⟨some e, m, .some he, huses⟩

namespace ForLoop.Readable

variable {l : ForLoop} (h : l.Readable)
include h

theorem firstClause : ∃ a m, FirstClause 0 l.initializer a m ∧ ∀ u ∈ Stmt.usesOfOption a, u.site < m := by
  cases hrow : l.initializer with
  | none => exact ⟨none, 0, .none, List.forall_mem_nil _⟩
  | some ts =>
    obtain ⟨s, halone, hs⟩ := h.initializer ts hrow
    obtain ⟨m, hdeclaration, huses⟩ := halone.derived
    refine ⟨some s, m, ?_, huses⟩
    rcases hs with ⟨name, value, rfl⟩ | ⟨e, rfl⟩
    · exact .declaration (variable_of_declaration hdeclaration)
    · obtain ⟨us, semicolon, rfl, hsemicolon, he⟩ := expression_of_declaration hdeclaration
      exact .expression he hsemicolon

/-- Both rows of tokens are derived, and their trees are the same but for two rows of sites that change places. -/
theorem programs (n : Site) : ∃ tree p c d m, n ≤ p ∧ (∀ ts, MadeOf l.short ts → Program n ts [tree] m) ∧
    ∀ ts, MadeOf l.long ts → Program n ts [tree.relabel (ofSites (exchange p c d))] m := by
  obtain ⟨a, x, ha, hax⟩ := h.firstClause
  obtain ⟨c, y, hc, hcy⟩ := clause_derived h.condition
  obtain ⟨e, z, he, hez⟩ := clause_derived h.increment
  obtain ⟨b, halone, hdeclared⟩ := h.body
  obtain ⟨w, hb, hbw⟩ := halone.derived
  have hbody : ∀ i, ∃ dangles, Statement dangles i l.body (b.relabel (startingAt 0 i)) (w + i) := fun i =>
    statement_of_declaration (hb.shift i) (by cases b <;> first | rfl | cases hdeclared)
  have ha := ha.shift n
  have hc := hc.shift (x + n)
  -- From here on, the increment and the body are labelled in different orders.
  obtain ⟨p, hp⟩ : ∃ p, p = y + (x + n) := ⟨_, rfl⟩
  rw [← hp] at hc
  refine ⟨forTree (a.map (Stmt.relabel (startingAt 0 n))) (c.map (Expr.relabel (startingAt 0 (x + n))))
      (e.map (Expr.relabel (startingAt 0 p))) (b.relabel (startingAt 0 (z + p))), p, z, w, w + (z + p), ?_,
    fun ts hts => ?_, fun ts hts => ?_⟩
  · rw [hp]
    exact Nat.le_add_left_of_le (Nat.le_add_left n x)
  · obtain ⟨_, hbody⟩ := hbody (z + p)
    exact program_of_statement (statement_short ha hc (he.shift p) hbody hts)
  · have hfirst : (a.map (Stmt.relabel (startingAt 0 n))).map (Stmt.relabel (ofSites (exchange p z w))) =
        a.map (Stmt.relabel (startingAt 0 n)) := by
      cases a with
      | none => rfl
      | some s => exact congrArg some (s.relabel_ofSites fun u hu => exchange_before (hax u hu) (hp ▸ Nat.le_add_left _ y))
    have hcondition : (c.map (Expr.relabel (startingAt 0 (x + n)))).map (Expr.relabel (ofSites (exchange p z w))) =
        c.map (Expr.relabel (startingAt 0 (x + n))) :=
      Expr.relabelOption_ofSites c fun u hu => exchange_before (hcy u hu) hp.ge
    have hincrement : (e.map (Expr.relabel (startingAt 0 p))).map (Expr.relabel (ofSites (exchange p z w))) =
        e.map (Expr.relabel (startingAt 0 (w + p))) :=
      Expr.relabelOption_ofSites e fun u hu => exchange_first (hez u hu)
    have hinner : (b.relabel (startingAt 0 (z + p))).relabel (ofSites (exchange p z w)) = b.relabel (startingAt 0 p) :=
      b.relabel_ofSites fun u hu => exchange_second (hbw u hu)
    obtain ⟨_, hbody⟩ := hbody p
    obtain ⟨_, hlong⟩ := statement_long ha hc hbody (he.shift (w + p)) hts
    rw [relabel_forTree, hfirst, hcondition, hincrement, hinner, Nat.add_left_comm w z]
    exact program_of_statement hlong

/-- There is no end mark in the clauses and the body. -/
theorem open_segments : (∀ segment ∈ l.short, segment.Open) ∧ ∀ segment ∈ l.long, segment.Open := by
  have hclause : ∀ {row : Option (List Token)}, (∀ ts, row = some ts → IsExpression ts) →
      (Segment.row (row.getD [])).Open := by
    intro row hexpression
    cases row with
    | none => exact List.forall_mem_nil _
    | some ts =>
      obtain ⟨semicolon, e, -, halone⟩ := hexpression ts rfl
      exact (List.forall_mem_append.mp halone.1).1
  have hinitializer : ∀ ts, l.initializer = some ts → (Segment.row ts).Open := by
    intro ts hts
    obtain ⟨s, halone, -⟩ := h.initializer ts hts
    exact halone.1
  have hbody : (Segment.row l.body).Open := by
    obtain ⟨s, halone, -⟩ := h.body
    exact halone.1
  have hmark : ∀ {kind : Kind}, kind ≠ .eof → (Segment.mark kind).Open := id
  have hcondition := hclause h.condition
  have hincrement := hclause h.increment
  have hfirst : ∀ segment ∈ l.first, segment.Open := by
    unfold first
    split
    · rename_i ts hrow
      exact List.forall_mem_singleton.mpr (hinitializer ts hrow)
    · exact List.forall_mem_singleton.mpr (hmark (by decide))
  have htest : l.test.Open := by
    unfold test
    split
    · rename_i ts hrow
      rwa [hrow] at hcondition
    · exact hmark (by decide)
  have hinner : ∀ segment ∈ l.inner, segment.Open := by
    unfold inner
    split
    · rename_i ts hrow
      rw [hrow] at hincrement
      simpa [hmark, hbody] using hincrement
    · exact List.forall_mem_singleton.mpr hbody
  have hloop : ∀ segment ∈ l.loop, segment.Open := by
    unfold loop
    simpa [hmark, htest, List.forall_mem_append] using hinner
  constructor
  · unfold short
    simp only [List.forall_mem_append]
    refine ⟨⟨by simp [hmark], hfirst⟩, by simp [hmark, hcondition, hincrement, hbody]⟩
  · unfold long
    split
    · rename_i ts hrow
      simp only [List.forall_mem_append]
      exact ⟨⟨by simp [hmark, hinitializer ts hrow], hloop⟩, by simp [hmark]⟩
    · exact hloop

end ForLoop.Readable

end LoxLanguage
