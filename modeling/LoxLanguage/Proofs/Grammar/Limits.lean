import Mathlib
import LoxLanguage.Proofs.Parser.Locality

/-! The limit on arguments and parameters. Both loops complain at the first token of what is one too many and read it all
the same (`loop_reports`), so nothing but the reports tells a call or a routine beyond the limit from another one: what
comes behind is read from the same place, with a tree that holds everything. -/

namespace LoxLanguage.Grammar

open LoxLanguage.Parser
open Token (Kind)

/-! ### Rows that are read with reports -/

/-- Under all bounds that are great enough, a parser takes the tokens `ts` in front of `rest`, gives a result and reports
    `found`. -/
def Reports {α : Type} (p : Nat → Parser α) (n : Site) (ts rest : List Token) (a : α) (m : Site) (found : Array Problem) : Prop :=
  ∀ before problems,
    Settles p ⟨before, ts ++ rest, n, problems⟩ (.ok a ⟨ts.reverse ++ before, rest, m, problems ++ found⟩)

section Reports
variable {α β : Type} {p q : Nat → Parser α} {f : Nat → α → Parser β} {n k m : Site} {ts us rest : List Token} {a : α} {b : β}
  {found found' : Array Problem}

theorem Parses.reports (h : Parses p n ts rest a m) : Reports p n ts rest a m #[] := fun before problems => by
  simpa using h before problems

namespace Reports

theorem bind (hp : Reports p n ts (us ++ rest) a k found) (hf : Reports (f · a) k us rest b m found') :
    Reports (fun fuel => p fuel >>= f fuel) n (ts ++ us) rest b m (found ++ found') := fun before problems => by
  have hp := hp before problems
  have hf := hf (ts.reverse ++ before) (problems ++ found)
  rw [← List.append_assoc, ← List.reverse_append, Array.append_assoc] at hf
  rw [← List.append_assoc] at hp
  exact hp.bind hf

/-- What is read behind the reports is read without any. -/
theorem parses (hp : Reports p n ts (us ++ rest) a k found) (hf : Parses (f · a) k us rest b m) :
    Reports (fun fuel => p fuel >>= f fuel) n (ts ++ us) rest b m found := by
  simpa using hp.bind hf.reports

theorem of_succ (h : ∀ fuel, p (fuel + 1) = q fuel) (hq : Reports q n ts rest a m found) : Reports p n ts rest a m found :=
  fun before problems => (hq before problems).of_succ fun fuel => by rw [h]

theorem of_eq_at (h : ∀ fuel s, s.rest = ts ++ rest → p (fuel + 1) s = q fuel s) (hq : Reports q n ts rest a m found) :
    Reports p n ts rest a m found :=
  fun before problems => (hq before problems).of_succ fun fuel => h fuel _ rfl

theorem of_next {t : Token} (h : ∀ fuel s, s.rest = t :: (ts ++ rest) → p (fuel + 1) s = q fuel s.next)
    (hq : Reports q n ts rest a m found) : Reports p n (t :: ts) rest a m found :=
  fun before problems => by
    have hq := hq (t :: before) problems
    rw [List.reverse_cons, List.append_assoc]
    exact hq.of_succ fun fuel => h fuel _ rfl

end Reports

theorem Parses.bind_reports (hp : Parses p n ts (us ++ rest) a k) (hf : Reports (f · a) k us rest b m found) :
    Reports (fun fuel => p fuel >>= f fuel) n (ts ++ us) rest b m found := by
  simpa using hp.reports.bind hf

theorem Parses.bind_nil_reports (hp : Parses p n [] (ts ++ rest) a k) (hf : Reports (f · a) k ts rest b m found) :
    Reports (fun fuel => p fuel >>= f fuel) n ts rest b m found :=
  hp.bind_reports hf

theorem Parses.bind_cons_reports {t : Token} (hp : Parses p n [t] (ts ++ rest) a k) (hf : Reports (f · a) k ts rest b m found) :
    Reports (fun fuel => p fuel >>= f fuel) n (t :: ts) rest b m found :=
  hp.bind_reports hf

end Reports

/-- A declaration that is read with reports is read on its own. -/
theorem heads_of_declaration {n m : Site} {t : Token} {ts : List Token} {a : Stmt} {found : Array Problem} (ht : t.kind ≠ .eof)
    (h : ∀ rest, NoElse rest → Reports declaration n (t :: ts) rest a m found) : Heads n (t :: ts) [a] m found := by
  refine Heads.of_recovering (o := some a) ht fun before rest problems hrest => ?_
  obtain ⟨least, h⟩ := h rest hrest before problems
  exact ⟨least, fun fuel hle => by simp only [Parser.recovering, h fuel hle]⟩

/-! ### Lists between commas -/

/-- Items with commas between them, and the first token of each. -/
inductive Listed {α : Type} (item : Site → List Token → α → Site → Prop) :
    Site → List Token → List Token → List α → Site → Prop where
  | last {n m : Site} {first : Token} {ts : List Token} {a : α} (h : item n (first :: ts) a m) :
      Listed item n (first :: ts) [first] [a] m
  | more {n k m : Site} {first comma : Token} {ts us firsts : List Token} {a : α} {as : List α}
      (h : item n (first :: ts) a k) (hcomma : comma.kind = .comma) (hmore : Listed item k us firsts as m) :
      Listed item n (first :: ts ++ comma :: us) (first :: firsts) (a :: as) m

/-- Items with commas between them; there may be none. -/
inductive ListedIfAny {α : Type} (item : Site → List Token → α → Site → Prop) :
    Site → List Token → List Token → List α → Site → Prop where
  | none {n : Site} : ListedIfAny item n [] [] [] n
  | some {n m : Site} {ts firsts : List Token} {as : List α} (h : Listed item n ts firsts as m) :
      ListedIfAny item n ts firsts as m

/-- The reports about items that find no room: one for each, at its first token. -/
def excess (complaint : Complaint) (room : Nat) (firsts : List Token) : List Problem :=
  (firsts.drop room).map (.atToken · complaint)

section Lists
variable {α : Type} {item item' : Site → List Token → α → Site → Prop} {n m : Site} {ts firsts : List Token} {as : List α}
  {complaint : Complaint}

theorem Listed.length_eq (h : Listed item n ts firsts as m) : firsts.length = as.length := by
  induction h with
  | last => rfl
  | more _ _ _ ih => rw [List.length_cons, List.length_cons, ih]

theorem ListedIfAny.length_eq (h : ListedIfAny item n ts firsts as m) : firsts.length = as.length := by
  cases h with
  | none => rfl
  | some h => exact h.length_eq

theorem Listed.mono (h : Listed item n ts firsts as m) (hitem : ∀ {n ts a m}, item n ts a m → item' n ts a m) :
    Listed item' n ts firsts as m := by
  induction h with
  | last h => exact .last (hitem h)
  | more h hcomma _ ih => exact .more (hitem h) hcomma ih

theorem ListedIfAny.mono (h : ListedIfAny item n ts firsts as m) (hitem : ∀ {n ts a m}, item n ts a m → item' n ts a m) :
    ListedIfAny item' n ts firsts as m := by
  cases h with
  | none => exact .none
  | some h => exact .some (h.mono hitem)

theorem Listed.ne_eof (h : Listed item n ts firsts as m) (hitem : ∀ {n ts a m}, item n ts a m → ∀ t ∈ ts, t.kind ≠ .eof) :
    ∀ t ∈ ts, t.kind ≠ .eof := by
  induction h with
  | last h => exact hitem h
  | more h hcomma _ ih =>
    refine List.forall_mem_append.mpr ⟨hitem h, List.forall_mem_cons.mpr ⟨?_, ih⟩⟩
    rw [hcomma]
    decide

theorem ListedIfAny.ne_eof (h : ListedIfAny item n ts firsts as m)
    (hitem : ∀ {n ts a m}, item n ts a m → ∀ t ∈ ts, t.kind ≠ .eof) : ∀ t ∈ ts, t.kind ≠ .eof := by
  cases h with
  | none => exact fun t ht => absurd ht List.not_mem_nil
  | some h => exact h.ne_eof hitem

theorem excess_cons (room : Nat) (first : Token) (firsts : List Token) :
    excess complaint room (first :: firsts) = excess complaint room [first] ++ excess complaint (room - 1) firsts := by
  cases room with
  | zero => simp [excess]
  | succ room => simp [excess]

theorem length_excess (room : Nat) (firsts : List Token) : (excess complaint room firsts).length = firsts.length - room := by
  rw [excess, List.length_map, List.length_drop]

theorem excess_eq_nil {room : Nat} (h : firsts.length ≤ room) : excess complaint room firsts = [] := by
  rw [excess, List.drop_eq_nil_of_le h, List.map_nil]

theorem complainIfFull_reports {t : Token} {rest : List Token} (count : Nat) :
    Reports (fun _ => complainIfFull count complaint) n [] (t :: rest) () n (excess complaint (maxArguments - count) [t]).toArray := by
  by_cases hfull : maxArguments ≤ count
  · rw [Nat.sub_eq_zero_of_le hfull]
    exact fun _ _ => .of_eq fun _ => by rw [complainIfFull_eq_of_le hfull rfl]; simp [Parser.State.report, excess]
  · rw [excess_eq_nil (by rw [List.length_singleton]; omega)]
    exact (parses_complainIfFull (Nat.not_le.mp hfull)).reports

end Lists

/-! ### The loops -/

/-- A loop that complains where it finds no room, reads an item and goes on behind a comma. -/
theorem loop_reports {α : Type} {item : Site → List Token → α → Site → Prop} {loop : Nat → Array α → Parser (Array α)}
    {read : Nat → Parser α} {complaint : Complaint}
    (hloop : ∀ fuel given, loop (fuel + 1) given = (do
      complainIfFull given.size complaint
      let a ← read fuel
      match ← accept .comma with
      | some _ => loop fuel (given.push a)
      | none => return given.push a))
    (hread : ∀ {n m ts a t rest}, item n ts a m → t.kind = .comma ∨ t.kind = .rightParen → Parses read n ts (t :: rest) a m)
    {n m : Site} {ts firsts : List Token} {as : List α} (h : Listed item n ts firsts as m) {closing : Token}
    (hclosing : closing.kind = .rightParen) (rest : List Token) (done : Array α) :
    Reports (loop · done) n ts (closing :: rest) (done ++ as.toArray) m
      (excess complaint (maxArguments - done.size) firsts).toArray := by
  induction h generalizing done with
  | @last n m first ts a h =>
    refine .of_succ (hloop · done) ?_
    rw [← List.nil_append (first :: ts)]
    refine (complainIfFull_reports done.size).parses ?_
    rw [← List.append_nil (first :: ts)]
    refine (hread h (.inr hclosing)).bind ((parses_accept_none (by rw [hclosing]; decide)).bind_nil ?_)
    simpa using Parses.pure
  | @more n k m first comma ts us firsts a as h hcomma _ ih =>
    refine .of_succ (hloop · done) ?_
    rw [← List.nil_append (first :: ts ++ comma :: us), excess_cons _ first firsts, ← List.append_toArray]
    refine (complainIfFull_reports done.size).bind ?_
    refine (hread h (.inl hcomma)).bind_reports ((parses_accept hcomma (by decide)).bind_cons_reports ?_)
    simpa [Nat.sub_sub] using ih (done.push a)

/-- Nothing between parentheses, or something that does not begin with the closing one. -/
theorem loopIfAny_reports {α : Type} {item : Site → List Token → α → Site → Prop} {loop : Nat → Array α → Parser (Array α)}
    {complaint : Complaint} {n m : Site} {ts firsts rest : List Token} {as : List α} {closing : Token}
    (h : ListedIfAny item n ts firsts as m) (hclosing : closing.kind = .rightParen)
    (hbegun : ∀ {n first ts a m}, item n (first :: ts) a m → first.kind ≠ .rightParen)
    (hloop : Listed item n ts firsts as m →
      Reports (loop · #[]) n ts (closing :: rest) as.toArray m (excess complaint maxArguments firsts).toArray) :
    Reports (fun fuel => do if ← check .rightParen then return #[] else loop fuel #[]) n ts (closing :: rest) as.toArray m
      (excess complaint maxArguments firsts).toArray := by
  cases h with
  | none =>
    refine Parses.reports (parses_check.bind_nil ?_)
    simp only [hclosing]
    exact .pure
  | some h =>
    have hlooped := hloop h
    obtain ⟨first, us, rfl, hfirst⟩ : ∃ first us, ts = first :: us ∧ first.kind ≠ .rightParen := by
      cases h with
      | last h => exact ⟨_, _, rfl, hbegun h⟩
      | more h => exact ⟨_, _, rfl, hbegun h⟩
    refine parses_check.bind_nil_reports ?_
    simpa only [beq_eq_false_iff_ne.mpr hfirst, Bool.and_false, Bool.false_eq_true, ↓reduceIte] using hlooped

/-- A row of one name. -/
def Name (n : Site) (ts : List Token) (name : Token) (m : Site) : Prop :=
  ts = [name] ∧ name.kind = .identifier ∧ m = n

theorem Name.ne_eof {n m : Site} {ts : List Token} {name : Token} (h : Name n ts name m) : ∀ t ∈ ts, t.kind ≠ .eof := by
  obtain ⟨rfl, hname, -⟩ := h
  simp [hname]

theorem Parameters.listed {ts names : List Token} (h : Parameters ts names) (n : Site) : ListedIfAny Name n ts names names n := by
  cases h with
  | none => exact .none
  | some h =>
    refine .some ?_
    induction h with
    | last hname => exact .last ⟨rfl, hname, rfl⟩
    | more hname hcomma _ ih => exact @Listed.more _ Name _ _ _ _ _ [] _ _ _ _ ⟨rfl, hname, rfl⟩ hcomma ih

section Loops
variable {n m : Site} {ts firsts rest : List Token} {closing : Token}

theorem argumentsIfAny_reports {given : List Expr} (h : ListedIfAny Expression n ts firsts given m)
    (hclosing : closing.kind = .rightParen) :
    Reports argumentsIfAny n ts (closing :: rest) given.toArray m (excess .tooManyArguments maxArguments firsts).toArray := by
  have hread {n m ts e t rest} (h : Expression n ts e m) (ht : t.kind = .comma ∨ t.kind = .rightParen) :
      Parses expression n ts (t :: rest) e m := by
    rcases ht with ht | ht
    · exact expression_parses h (ends_cons ht rfl rest)
    · exact expression_parses h (ends_cons ht rfl rest)
  refine .of_succ argumentsIfAny.eq_2 (loopIfAny_reports h hclosing (fun h heq => ?_) fun h => ?_)
  · obtain ⟨t, us, ht, hkind⟩ := h.begun
    cases ht
    rw [heq] at hkind
    cases hkind
  · simpa using loop_reports (fun fuel given => arguments.eq_2 given fuel) hread h hclosing rest #[]

theorem parametersIfAny_reports {names : List Token} (h : Parameters ts names) (hclosing : closing.kind = .rightParen) :
    Reports parametersIfAny n ts (closing :: rest) names.toArray n (excess .tooManyParameters maxArguments names).toArray := by
  have hread {n m ts name t rest} (h : Name n ts name m) (_ : t.kind = .comma ∨ t.kind = .rightParen) :
      Parses (fun _ => expect .identifier .expectParameterName) n ts (t :: rest) name m := by
    obtain ⟨rfl, hname, rfl⟩ := h
    exact parses_expect hname (by decide)
  refine loopIfAny_reports (h.listed n) hclosing (fun h heq => ?_) fun h => ?_
  · obtain ⟨ht, hname, -⟩ := h
    rw [(List.cons.inj ht).1, hname] at heq
    cases heq
  · simpa using loop_reports (fun fuel given => parameters.eq_2 given fuel) hread h hclosing rest #[]

end Loops

/-! ### Calls -/

/-- Arguments that are derived are listed. -/
theorem SomeArguments.listed {n m : Site} {us : List Token} {given : List Expr} (h : SomeArguments n us given m) :
    ∃ firsts, Listed Expression n us firsts given m := by
  induction given generalizing n us with
  | nil => cases h
  | cons e given ih =>
    cases h with
    | last h =>
      obtain ⟨first, ts, rfl, -⟩ := h.begun
      exact ⟨_, .last h⟩
    | more h hcomma hmore =>
      obtain ⟨firsts, hlisted⟩ := ih hmore
      obtain ⟨first, ts, rfl, -⟩ := h.begun
      exact ⟨_, .more h hcomma hlisted⟩

theorem Arguments.listed {n m : Site} {us : List Token} {given : List Expr} (h : Arguments n us given m) :
    ∃ firsts, ListedIfAny Expression n us firsts given m := by
  cases h with
  | none => exact ⟨[], .none⟩
  | some h =>
    obtain ⟨firsts, hlisted⟩ := h.listed
    exact ⟨firsts, .some hlisted⟩

section Calls
variable {n k m : Site} {ts us firsts before rest : List Token} {opening closing : Token} {callee : Expr} {given : List Expr}
  {problems : Array Problem} {r : EStateM.Result Stop Parser.State Expr}

/-- Behind its callee, a call with any number of arguments is made, and the parser goes on behind it. -/
theorem suffixes_settles (hopening : opening.kind = .leftParen) (hgiven : ListedIfAny Expression k us firsts given m)
    (hclosing : closing.kind = .rightParen)
    (hr : Settles (suffixes · (.call callee closing given)) ⟨closing :: (us.reverse ++ opening :: before), rest, m,
      problems ++ (excess .tooManyArguments maxArguments firsts).toArray⟩ r) :
    Settles (suffixes · callee) ⟨before, opening :: (us ++ closing :: rest), k, problems⟩ r := by
  refine Settles.of_succ ?_ fun fuel => by rw [suffixes]
  refine Settles.bind (.of_eq fun _ => accept_pos rfl hopening (by decide)) ?_
  refine Settles.bind (argumentsIfAny_reports hgiven hclosing (opening :: before) problems) ?_
  exact Settles.bind (.of_eq fun _ => expect_pos rfl hclosing (by decide)) hr

/-- Whatever the parser makes of what comes behind a callee, it makes of it when it has read the callee. -/
theorem Derives.call_settles {e : Expr} (h : Derives .call n ts e m) (hrest : Symbol.primary.Ends rest)
    (hr : Settles (suffixes · e) ⟨ts.reverse ++ before, rest, m, problems⟩ r) :
    Settles Symbol.call.parser ⟨before, ts ++ rest, n, problems⟩ r := by
  -- Calls and properties group to the left, so the last suffix is peeled off, and what it makes is what comes behind the rest.
  generalize hX : Symbol.call = X at h
  induction h using @Derives.rec _ (fun _ _ _ _ _ => True) (fun _ _ _ _ _ => True) generalizing rest before with
  | atom h => exact Settles.bind (h.follows.closed hrest before problems) hr
  | call _ hopening hgiven hlength hclosing ih =>
    -- A call inside of the callee keeps to the limit, for nothing was reported about it.
    obtain ⟨firsts, hlisted⟩ := hgiven.listed
    have hroom : firsts.length ≤ maxArguments := hlisted.length_eq.trans_le hlength
    rw [List.append_assoc, List.cons_append, List.append_assoc]
    refine ih (ends_cons hopening rfl _) (suffixes_settles hopening hlisted hclosing ?_) rfl
    rw [excess_eq_nil hroom]
    simpa using hr
  | property _ hdot hname ih =>
    rw [List.append_assoc]
    refine ih (ends_cons hdot rfl _) (Settles.of_succ ?_ fun fuel => by rw [suffixes]) rfl
    refine Settles.bind (.of_eq fun _ => accept_neg rfl (by rw [hdot]; decide)) ?_
    refine Settles.bind (.of_eq fun _ => accept_pos rfl hdot (by decide)) ?_
    refine Settles.bind (.of_eq fun _ => expect_pos rfl hname (by decide)) ?_
    simpa [Parser.State.next] using hr
  | operand hrule => subst hX; cases hrule
  | operator hrule => subst hX; cases hrule
  | none => trivial
  | some => trivial
  | last => trivial
  | more => trivial
  | _ => cases hX

/-- A call with any number of arguments, and what comes behind it. -/
theorem call_settles (hcallee : Derives .call n ts callee k) (hopening : opening.kind = .leftParen)
    (hgiven : ListedIfAny Expression k us firsts given m) (hclosing : closing.kind = .rightParen)
    (hr : Settles (suffixes · (.call callee closing given)) ⟨(ts ++ opening :: (us ++ [closing])).reverse ++ before, rest, m,
      problems ++ (excess .tooManyArguments maxArguments firsts).toArray⟩ r) :
    Settles Symbol.call.parser ⟨before, ts ++ opening :: (us ++ [closing]) ++ rest, n, problems⟩ r := by
  rw [List.append_assoc, List.cons_append, List.append_assoc]
  refine hcallee.call_settles (ends_cons hopening rfl _) (suffixes_settles hopening hgiven hclosing ?_)
  simpa using hr

end Calls

/-! #### Statements of calls -/

section CallStatements
variable {n m : Site} {ts rest : List Token} {e : Expr} {t : Token} {found : Array Problem}

/-- A token that begins a call begins nothing else. -/
theorem only_call {kind : Kind} (h : Symbol.call.begins kind = true) :
    isUnary kind = false ∧ opensStatement kind = false ∧ opensDeclaration kind = false ∧ kind ≠ .eof := by
  cases kind <;> first | exact ⟨rfl, rfl, rfl, by decide⟩ | cases h

/-- What is read as a call is read as operators, if there are none behind it. -/
theorem operation_reports (h : Reports Symbol.call.parser n ts (t :: rest) e m found) (hbegun : Symbol.call.Begun ts)
    (levels : List Level) (hlevels : ∀ level ∈ levels, level.has t.kind = false) :
    Reports (operation · levels) n ts (t :: rest) e m found := by
  induction levels with
  | nil =>
    obtain ⟨first, us, rfl, hfirst⟩ := hbegun
    refine .of_succ operation.eq_2 (.of_succ unary.eq_2 ?_)
    refine (parses_acceptIf_none (only_call hfirst).1).bind_nil_reports ?_
    exact h
  | cons level tighter ih =>
    refine .of_succ (operation.eq_3 · level tighter) ?_
    rw [← List.append_nil ts]
    refine (ih fun level hlevel => hlevels level (.tail _ hlevel)).parses ?_
    refine .of_succ (chain.eq_2 level tighter e) ?_
    exact (parses_acceptIf_none (hlevels level (.head _))).bind_nil .pure

/-- A call with a semicolon behind it is read on its own, with its reports. -/
theorem heads_of_call (h : ∀ rest, Reports Symbol.call.parser n ts (t :: rest) e m found) (hbegun : Symbol.call.Begun ts)
    (ht : t.kind = .semicolon) : Heads n (ts ++ [t]) [.expression e] m found := by
  have hexpression rest : Reports expression n ts (t :: rest) e m found := by
    refine .of_succ expression.eq_2 ?_
    rw [← List.append_nil ts]
    refine (operation_reports (h rest) hbegun _ fun level _ => ?_).parses ?_
    · rw [ht]
      cases level <;> rfl
    · exact (parses_accept_none (by rw [ht]; decide)).bind_nil .pure
  have hstatement rest : Reports expressionStatement n (ts ++ [t]) rest (.expression e) m found :=
    (hexpression rest).parses ((parses_expect ht (by decide)).bind_cons .pure)
  obtain ⟨first, us, rfl, hfirst⟩ := hbegun
  obtain ⟨-, hopenStatement, hopenDeclaration, heof⟩ := only_call hfirst
  refine heads_of_declaration heof fun rest _ => ?_
  refine .of_eq_at (fun _ _ hs => declaration_eq_statement hs hopenDeclaration) ?_
  exact .of_eq_at (fun _ _ hs => statement_eq_expression hs hopenStatement) (hstatement rest)

end CallStatements

/-! ### Routines -/

theorem Declarations.follows {n m : Site} {ts : List Token} {body : List Stmt} (h : Declarations n ts body m) :
    ItemsFollow n ts body m := by
  induction h using @Declarations.rec (fun _ _ _ _ _ => True) (fun _ _ _ _ _ => True) (fun _ _ _ _ _ => True) _
    (fun _ _ _ _ _ _ => True) with
  | none => exact itemsFollow_none
  | more h hmore _ ih => exact itemsFollow_more h.begun hmore h.follows ih
  | _ => trivial

/-- A routine with any number of parameters, and what comes behind them. -/
theorem routine_settles {n : Site} {kind : LoxLanguage.Routine} {name opening closing : Token} {ts names before rest : List Token}
    {problems : Array Problem} {r : EStateM.Result Stop Parser.State Function} (hname : name.kind = .identifier)
    (hopening : opening.kind = .leftParen) (hnames : Parameters ts names) (hclosing : closing.kind = .rightParen)
    (hr : Settles (fun fuel => do
        let _ ← expect .leftBrace (.expectBodyOpen kind)
        let body ← block fuel
        return .mk name names body)
      ⟨(name :: opening :: (ts ++ [closing])).reverse ++ before, rest, n,
        problems ++ (excess .tooManyParameters maxArguments names).toArray⟩ r) :
    Settles (routine · kind) ⟨before, name :: opening :: (ts ++ [closing]) ++ rest, n, problems⟩ r := by
  simp only [List.reverse_cons, List.reverse_append, List.reverse_nil, List.nil_append, List.cons_append,
    List.append_assoc] at hr ⊢
  refine Settles.of_succ ?_ fun fuel => by rw [routine]
  refine Settles.bind (.of_eq fun _ => expect_pos rfl hname (by decide)) ?_
  refine Settles.bind (.of_eq fun _ => expect_pos rfl hopening (by decide)) ?_
  refine Settles.bind (parametersIfAny_reports hnames hclosing (opening :: name :: before) problems) ?_
  exact Settles.bind (.of_eq fun _ => expect_pos rfl hclosing (by decide)) hr

/-- A routine with any number of parameters, from its name on, whose body is accepted on its own. -/
inductive WideRoutine : Site → List Token → Function → Site → Prop where
  | mk {n m : Site} {name opening closing brace endBrace eof : Token} {ts us names : List Token} {body : List Stmt}
      (hname : name.kind = .identifier) (hopening : opening.kind = .leftParen) (hnames : Parameters ts names)
      (hclosing : closing.kind = .rightParen) (hbrace : brace.kind = .leftBrace) (hus : ∀ t ∈ us, t.kind ≠ .eof)
      (heof : eof.kind = .eof) (hbody : parse n (us ++ [eof]) = ⟨body, m, []⟩) (hendBrace : endBrace.kind = .rightBrace) :
      WideRoutine n (name :: opening :: (ts ++ [closing]) ++ brace :: (us ++ [endBrace])) (.mk name names body) m

/-- Methods with any number of parameters each. -/
inductive WideMethods : Site → List Token → List Function → Site → Prop where
  | nil {n : Site} : WideMethods n [] [] n
  | cons {n k m : Site} {ts us : List Token} {f : Function} {methods : List Function} (h : WideRoutine n ts f k)
      (hmore : WideMethods k us methods m) : WideMethods n (ts ++ us) (f :: methods) m

/-- The reports about the parameters of a function. -/
def parameterReports (f : Function) : List Problem :=
  excess .tooManyParameters maxArguments f.parameters

section Routines
variable {n m : Site} {ts : List Token} {f : Function} {all : List Function}

theorem WideRoutine.reports (h : WideRoutine n ts f m) (kind : LoxLanguage.Routine) (rest : List Token) :
    Reports (routine · kind) n ts rest f m (parameterReports f).toArray := by
  cases h with
  | @mk _ name opening closing brace endBrace _ ts us names body hname hopening hnames hclosing hbrace hus heof hbody
      hendBrace =>
    have hbehind : Parses (fun fuel => do
        let _ ← expect .leftBrace (.expectBodyOpen kind)
        let body ← block fuel
        return Function.mk name names body) n (brace :: (us ++ [endBrace])) rest (.mk name names body) m := by
      refine (parses_expect hbrace (by decide)).bind_cons ?_
      rw [← List.append_nil (us ++ [endBrace])]
      exact (block_parses (program_of_parse hus heof hbody).follows hendBrace ([] ++ rest)).bind .pure
    intro before problems
    rw [List.append_assoc, List.reverse_append, List.append_assoc]
    exact routine_settles hname hopening hnames hclosing (hbehind _ _)

theorem WideMethods.reports (h : WideMethods n ts all m) (found : Array Function) {closing : Token}
    (hclosing : closing.kind = .rightBrace) (rest : List Token) :
    Reports (methods · found) n ts (closing :: rest) (found ++ all.toArray) m (all.flatMap parameterReports).toArray := by
  induction h generalizing found with
  | nil => exact (methodsFollow_nil found closing rest hclosing).reports
  | @cons n k m ts us f all h _ ih =>
    have hread : Reports (fun fuel => routine fuel .method >>= fun f => methods fuel (found.push f)) n (ts ++ us)
        (closing :: rest) ((found.push f) ++ all.toArray) m ((f :: all).flatMap parameterReports).toArray := by
      rw [List.flatMap_cons, ← List.append_toArray]
      exact (h.reports .method _).bind (ih (found.push f))
    obtain ⟨t, vs, rfl, ht⟩ : ∃ t vs, ts = t :: vs ∧ t.kind = .identifier := by
      cases h with
      | mk hname => exact ⟨_, _, rfl, hname⟩
    refine .of_succ (methods.eq_2 found) (parses_check.bind_nil_reports (parses_atEnd.bind_nil_reports ?_))
    simp only [ht]
    simpa using hread

theorem WideRoutine.ne_eof (h : WideRoutine n ts f m) : ∀ t ∈ ts, t.kind ≠ .eof := by
  cases h with
  | mk hname hopening hnames hclosing hbrace hus _ _ hendBrace =>
    have hparameters := (hnames.listed n).ne_eof Name.ne_eof
    simp only [List.cons_append, List.forall_mem_cons, List.forall_mem_append, hname, hopening, hclosing, hbrace, hendBrace]
    exact ⟨by decide, by decide, ⟨hparameters, by simp⟩, by decide, hus, by simp⟩

theorem WideMethods.ne_eof (h : WideMethods n ts all m) : ∀ t ∈ ts, t.kind ≠ .eof := by
  induction h with
  | nil => exact fun t ht => absurd ht List.not_mem_nil
  | cons h _ ih => exact List.forall_mem_append.mpr ⟨h.ne_eof, ih⟩

/-- A declaration of a function is read on its own, with its reports. -/
theorem heads_of_function {keyword : Token} (hkeyword : keyword.kind = .funWord) (h : WideRoutine n ts f m) :
    Heads n (keyword :: ts) [.declareFunction f] m (parameterReports f).toArray := by
  refine heads_of_declaration (by rw [hkeyword]; decide) fun rest _ => ?_
  refine .of_next (fun _ _ hs => declaration_eq_function hs hkeyword) ?_
  rw [← List.append_nil ts]
  exact (h.reports .function ([] ++ rest)).parses .pure

/-- A declaration of a class is read on its own, with the reports about its methods. -/
theorem heads_of_class {keyword name opening closing : Token} (hkeyword : keyword.kind = .classWord)
    (hname : name.kind = .identifier) (hopening : opening.kind = .leftBrace) (h : WideMethods n ts all m)
    (hclosing : closing.kind = .rightBrace) :
    Heads n (keyword :: name :: opening :: (ts ++ [closing])) [.declareClass name all] m
      (all.flatMap parameterReports).toArray := by
  refine heads_of_declaration (by rw [hkeyword]; decide) fun rest _ => ?_
  refine .of_next (fun _ _ hs => declaration_eq_class hs hkeyword) (.of_succ classDeclaration.eq_2 ?_)
  refine (parses_expect hname (by decide)).bind_cons_reports ((parses_expect hopening (by decide)).bind_cons_reports ?_)
  refine (h.reports #[] hclosing rest).parses ((parses_expect hclosing (by decide)).bind_cons ?_)
  simpa using Parses.pure

end Routines

/-! ### The limit -/

/-- A parser takes all tokens in front of an end mark, gives a result and reports nothing. -/
def ReadsWhole {α : Type} (p : Nat → Parser α) (n : Site) (ts : List Token) (a : α) (m : Site) : Prop :=
  (∀ t ∈ ts, t.kind ≠ .eof) ∧ ∃ fuel eof, eof.kind = .eof ∧
    p fuel ⟨[], ts ++ [eof], n, #[]⟩ = .ok a ⟨ts.reverse, [eof], m, #[]⟩

theorem ReadsWhole.derives {α : Type} {D : Site → List Token → α → Site → Prop} {p : Nat → Parser α} {n m : Site}
    {ts : List Token} {a : α} (hp : ∀ fuel s, Closed s.rest → Sound D (p fuel) s) (h : ReadsWhole p n ts a m) : D n ts a m := by
  obtain ⟨hts, fuel, eof, heof, hrun⟩ := h
  obtain ⟨-, hfinds⟩ := (hp fuel _ (closed_append hts heof)).ok hrun
  obtain ⟨us, hus, hd⟩ := hfinds (Nat.le_refl _)
  rwa [List.append_cancel_right hus]

/-- In front of any tokens, a row gives these statements and problems, and what follows is parsed as if it stood alone. -/
def ParsesInFront (n : Site) (ts : List Token) (ss : List Stmt) (m : Site) (found : List Problem) : Prop :=
  ∀ us eof, (∀ t ∈ us, t.kind ≠ .eof) → eof.kind = .eof → NoElse (us ++ [eof]) →
    parse n (ts ++ us ++ [eof]) = ⟨ss ++ (parse m (us ++ [eof])).statements, (parse m (us ++ [eof])).nextSite,
      found ++ (parse m (us ++ [eof])).problems⟩

theorem parsesInFront_of_heads {n m : Site} {ts : List Token} {ss : List Stmt} {found : List Problem}
    (h : Heads n ts ss m found.toArray) (hts : ∀ t ∈ ts, t.kind ≠ .eof) : ParsesInFront n ts ss m found :=
  fun _ _ hus heof helse => parse_append_of_heads h hts hus heof helse

/-- A call with any number of arguments is read as a statement. -/
theorem parsesInFront_call {n k m : Site} {ts us firsts : List Token} {opening closing semicolon : Token} {callee : Expr}
    {given : List Expr} (hcallee : Derives .call n ts callee k) (hopening : opening.kind = .leftParen)
    (hgiven : ListedIfAny Expression k us firsts given m) (hclosing : closing.kind = .rightParen)
    (hsemicolon : semicolon.kind = .semicolon) (hts : ∀ t ∈ ts, t.kind ≠ .eof) (hus : ∀ t ∈ us, t.kind ≠ .eof) :
    ParsesInFront n (ts ++ opening :: (us ++ [closing]) ++ [semicolon]) [.expression (.call callee closing given)] m
      (excess .tooManyArguments maxArguments firsts) := by
  have hread rest : Reports Symbol.call.parser n (ts ++ opening :: (us ++ [closing])) (semicolon :: rest)
      (.call callee closing given) m (excess .tooManyArguments maxArguments firsts).toArray := by
    intro before problems
    refine call_settles hcallee hopening hgiven hclosing ?_
    exact parses_loop (X := .call) _ (ends_cons hsemicolon rfl rest) _ _
  refine parsesInFront_of_heads (heads_of_call hread (hcallee.begun.append _) hsemicolon) ?_
  simp only [List.forall_mem_append, List.forall_mem_cons, hopening, hclosing, hsemicolon]
  exact ⟨⟨hts, by decide, hus, by decide, by simp⟩, by decide, by simp⟩

/-- The limit is reported exactly and does no harm. A call whose callee and arguments are read without reports, of
    whatever number, is reported once for each argument beyond the limit, at its first token; its node holds all
    arguments, and whatever the parser makes of what comes behind the closing parenthesis, it makes of it here. Parameters
    of functions and methods are treated alike. -/
theorem limit_reported_exactly :
    (Complaint.tooManyArguments.message = "Can't have more than 255 arguments." ∧
      Complaint.tooManyParameters.message = "Can't have more than 255 parameters.") ∧
    (∀ {n k m : Site} {ts us firsts : List Token} {opening closing : Token} {callee : Expr} {given : List Expr},
      ReadsWhole Symbol.call.parser n ts callee k → opening.kind = .leftParen →
      ListedIfAny (ReadsWhole expression) k us firsts given m → closing.kind = .rightParen →
        (excess .tooManyArguments 255 firsts).length = given.length - 255 ∧
        (∀ before rest problems r,
          Settles (suffixes · (.call callee closing given)) ⟨(ts ++ opening :: (us ++ [closing])).reverse ++ before, rest, m,
            problems ++ (excess .tooManyArguments 255 firsts).toArray⟩ r →
          Settles Symbol.call.parser ⟨before, ts ++ opening :: (us ++ [closing]) ++ rest, n, problems⟩ r) ∧
        ∀ semicolon : Token, semicolon.kind = .semicolon →
          ParsesInFront n (ts ++ opening :: (us ++ [closing]) ++ [semicolon]) [.expression (.call callee closing given)] m
            (excess .tooManyArguments 255 firsts)) ∧
    (∀ {n : Site} {ts names : List Token} {name opening closing : Token} (kind : LoxLanguage.Routine),
      name.kind = .identifier → opening.kind = .leftParen → Parameters ts names → closing.kind = .rightParen →
        (excess .tooManyParameters 255 names).length = names.length - 255 ∧
        ∀ before rest problems r,
          Settles (fun fuel => do
              let _ ← expect .leftBrace (.expectBodyOpen kind)
              let body ← block fuel
              return .mk name names body)
            ⟨(name :: opening :: (ts ++ [closing])).reverse ++ before, rest, n,
              problems ++ (excess .tooManyParameters 255 names).toArray⟩ r →
          Settles (routine · kind) ⟨before, name :: opening :: (ts ++ [closing]) ++ rest, n, problems⟩ r) ∧
    (∀ {n m : Site} {ts : List Token} {f : Function} {keyword : Token}, keyword.kind = .funWord → WideRoutine n ts f m →
      ParsesInFront n (keyword :: ts) [.declareFunction f] m (excess .tooManyParameters 255 f.parameters)) ∧
    ∀ {n m : Site} {ts : List Token} {methods : List Function} {keyword name opening closing : Token},
      keyword.kind = .classWord → name.kind = .identifier → opening.kind = .leftBrace → WideMethods n ts methods m →
      closing.kind = .rightBrace →
        ParsesInFront n (keyword :: name :: opening :: (ts ++ [closing])) [.declareClass name methods] m
          (methods.flatMap fun f => excess .tooManyParameters 255 f.parameters) := by
  refine ⟨⟨rfl, rfl⟩, ?_, ?_, ?_, ?_⟩
  · intro n k m ts us firsts opening closing callee given hcallee hopening hgiven hclosing
    have hcalleeDerived : Derives .call n ts callee k :=
      hcallee.derives fun fuel _ hs => primary_suffixes_sound (expressionsSound fuel) hs
    have hlisted : ListedIfAny Expression k us firsts given m := hgiven.mono fun h => h.derives fun _ _ hs => expression_sound hs
    refine ⟨?_, ?_, ?_⟩
    · rw [length_excess, hgiven.length_eq]
    · intro before rest problems r hr
      exact call_settles hcalleeDerived hopening hlisted hclosing hr
    · intro semicolon hsemicolon
      exact parsesInFront_call hcalleeDerived hopening hlisted hclosing hsemicolon hcallee.1 (hgiven.ne_eof fun h => h.1)
  · intro n ts names name opening closing kind hname hopening hnames hclosing
    exact ⟨length_excess 255 names, fun before rest problems r hr => routine_settles hname hopening hnames hclosing hr⟩
  · intro n m ts f keyword hkeyword h
    refine parsesInFront_of_heads (heads_of_function hkeyword h) (List.forall_mem_cons.mpr ⟨?_, h.ne_eof⟩)
    rw [hkeyword]
    decide
  · intro n m ts methods keyword name opening closing hkeyword hname hopening h hclosing
    refine parsesInFront_of_heads (heads_of_class hkeyword hname hopening h hclosing) ?_
    simp only [List.forall_mem_append, List.forall_mem_cons, hkeyword, hname, hopening, hclosing]
    exact ⟨by decide, by decide, by decide, h.ne_eof, by decide, by simp⟩

def nilAt (line : Nat) : Token :=
  ⟨.nilWord, "nil", .nil, line⟩

def nameAt (line : Nat) : Token :=
  ⟨.identifier, "a", .nil, line⟩

/-- A token on each line from one on, with commas between them. -/
def spaced (token : Nat → Token) (line : Nat) : Nat → List Token
  | 0 => [token line]
  | more + 1 => token line :: ⟨.comma, ",", .nil, line⟩ :: spaced token (line + 1) more

theorem readsWhole_nilAt (n : Site) (line : Nat) : ReadsWhole expression n [nilAt line] (.literal .nil) n :=
  ⟨by simp [nilAt], 12, ⟨.eof, "", .nil, line⟩, rfl, rfl⟩

theorem listed_nilAt (n : Site) (line more : Nat) : Listed (ReadsWhole expression) n (spaced nilAt line more)
    ((List.range' line (more + 1)).map nilAt) (List.replicate (more + 1) (.literal .nil)) n := by
  induction more generalizing line with
  | zero => exact .last (readsWhole_nilAt n line)
  | succ more ih =>
    exact @Listed.more _ (ReadsWhole expression) _ _ _ _ _ [] _ _ _ _ (readsWhole_nilAt n line) rfl (ih (line + 1))

theorem someParameters_nameAt (line more : Nat) :
    SomeParameters (spaced nameAt line more) ((List.range' line (more + 1)).map nameAt) := by
  induction more generalizing line with
  | zero => exact .last rfl
  | succ more ih => exact .more rfl rfl (ih (line + 1))

/-- Of 257 arguments on a line each, the last two are reported, and of 257 parameters as well. -/
theorem limit_reported_exactly_257 :
    parse 0 ([nameAt 0] ++ ⟨.leftParen, "(", .nil, 0⟩ :: (spaced nilAt 1 256 ++ [⟨.rightParen, ")", .nil, 257⟩]) ++
        [⟨.semicolon, ";", .nil, 257⟩] ++ [nilAt 258] ++ [⟨.eof, "", .nil, 258⟩]) =
      ⟨[.expression (.call (.use 0 (nameAt 0)) ⟨.rightParen, ")", .nil, 257⟩ (List.replicate 257 (.literal .nil)))], 1,
        [.atToken (nilAt 256) .tooManyArguments, .atToken (nilAt 257) .tooManyArguments,
          .atToken ⟨.eof, "", .nil, 258⟩ .expectExpressionEnd]⟩ ∧
    parse 0 (⟨.funWord, "fun", .nil, 0⟩ :: (nameAt 0 :: ⟨.leftParen, "(", .nil, 0⟩ ::
        (spaced nameAt 1 256 ++ [⟨.rightParen, ")", .nil, 257⟩]) ++
          ⟨.leftBrace, "\x7b", .nil, 257⟩ :: ([] ++ [⟨.rightBrace, "\x7d", .nil, 257⟩])) ++ [nilAt 258] ++
            [⟨.eof, "", .nil, 258⟩]) =
      ⟨[.declareFunction (.mk (nameAt 0) ((List.range' 1 257).map nameAt) [])], 0,
        [.atToken (nameAt 256) .tooManyParameters, .atToken (nameAt 257) .tooManyParameters,
          .atToken ⟨.eof, "", .nil, 258⟩ .expectExpressionEnd]⟩ := by
  obtain ⟨-, hcalls, -, hfunctions, -⟩ := limit_reported_exactly
  have hcallee : ReadsWhole Symbol.call.parser 0 [nameAt 0] (.use 0 (nameAt 0)) 1 :=
    ⟨by simp [nameAt], 9, ⟨.eof, "", .nil, 0⟩, rfl, rfl⟩
  have hbody : parse 0 ([] ++ [⟨.eof, "", .nil, 257⟩]) = ⟨[], 0, []⟩ := parse_end rfl
  have hbehind (n : Site) : parse n ([nilAt 258] ++ [⟨.eof, "", .nil, 258⟩]) =
      ⟨[], n, [.atToken ⟨.eof, "", .nil, 258⟩ .expectExpressionEnd]⟩ := rfl
  have hnext : NoElse ([nilAt 258] ++ [⟨.eof, "", .nil, 258⟩]) := ⟨_, _, rfl, by decide⟩
  constructor
  · refine Eq.trans ((hcalls hcallee rfl (.some (listed_nilAt 1 1 256)) rfl).2.2 _ rfl _ _ (by simp [nilAt]) rfl hnext) ?_
    rw [hbehind]
    rfl
  · refine Eq.trans (hfunctions rfl (.mk rfl rfl (.some (someParameters_nameAt 1 256)) rfl rfl (by simp) rfl hbody rfl) _ _
      (by simp [nilAt]) rfl hnext) ?_
    rw [hbehind]
    rfl

end LoxLanguage.Grammar
