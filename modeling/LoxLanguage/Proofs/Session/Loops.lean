import Mathlib
import LoxLanguage.Proofs.Grammar.Loops
import LoxLanguage.Proofs.Machine.Relabel
import LoxLanguage.Proofs.Session.Append
import LoxLanguage.Proofs.Session.Trees

/-! A `for` runs as the loop that it abbreviates. The labels of a program that has not run yet may be permuted: what ran
before has none of them, so the state of the session stays as it is (`Session.Reached.relabel_state`), and the distances
that are added move along with the labels. -/

namespace LoxLanguage

open Grammar Relabelling

variable {σ : Site → Site}

/-! ### Programs and tables -/

/-- A program whose sites keep their labels stays as it is. -/
theorem Spells.relabel_ofSites {ts : List Token} {program : List Stmt} (h : Spells ts program)
    (hsites : ∀ u ∈ Stmt.usesOfAll program, σ u.site = u.site) : program.map (Stmt.relabel (ofSites σ)) = program := by
  have hsame : program.map (Stmt.relabel (ofSites id)) = program := h.relabel_eq fun _ _ => rfl
  have htwice := Stmt.relabelAll_ofSites (f := id) (g := σ) (k := id) program hsites
  simp only [Stmt.relabelAll_eq] at htwice
  rwa [hsame] at htwice

/-- Distances that are added at other labels are found there. -/
theorem Distances.get?_insertAll_map (hσ : Function.Injective σ) {t t' : Distances} (h : ∀ i, t'.get? (σ i) = t.get? i)
    (entries : List (Site × Nat)) (i : Site) :
    (t'.insertAll (entries.map fun e => (σ e.1, e.2))).get? (σ i) = (t.insertAll entries).get? i := by
  induction entries generalizing t t' with
  | nil => exact h i
  | cons entry rest ih =>
    obtain ⟨site, distance⟩ := entry
    refine ih fun j => ?_
    by_cases hj : j = site
    · rw [hj, get?_insert_self, get?_insert_self]
    · rw [get?_insert_of_ne _ _ (hσ.ne hj), get?_insert_of_ne _ _ hj, h j]

/-! ### Sessions -/

/-- The sites that have been used in a session keep their labels, and no other site gets one of these. -/
structure Session.Keeps (s : Session) (σ : Site → Site) : Prop where
  used : ∀ i, i < s.nextSite → σ i = i
  free : ∀ i, s.nextSite ≤ i → s.nextSite ≤ σ i

namespace Session

variable {history : History} {s : Session}

theorem Keeps.mono {s' : Session} (h : s'.Keeps σ) (hle : s.nextSite ≤ s'.nextSite) : s.Keeps σ := by
  refine ⟨fun i hi => h.used i (Nat.lt_of_lt_of_le hi hle), fun i hi => ?_⟩
  rcases Nat.lt_or_ge i s'.nextSite with hlt | hge
  · rwa [h.used i hlt]
  · exact Nat.le_trans hle (h.free i hge)

/-- There are no distances at the sites that are still free, so none gets lost. -/
theorem Keeps.get? (h : s.Keeps σ) {programs : List (List Stmt)} (htabled : Tabled programs s.distances s.nextSite)
    (i : Site) : s.distances.get? (σ i) = s.distances.get? i := by
  rcases Nat.lt_or_ge i s.nextSite with hlt | hge
  · rw [h.used i hlt]
  · rw [htabled.free i hge, htabled.free _ (h.free i hge)]

/-- The functions in the state of a session have used sites only. -/
theorem Reached.relabel_state (h : s.Reached history) (hkeeps : s.Keeps σ) : s.state.relabel (ofSites σ) = s.state := by
  induction h with
  | start => simp [Session.start, State.initial, State.relabel, Store.initial, Store.relabel]
  | @ran _ s _ fuel source _ h hrun ih =>
    obtain ⟨ts, hspells⟩ := (h.ran hrun).spelt _ List.mem_cons_self
    obtain ⟨loaded, m, hload, rfl, -⟩ := load_of_run hrun
    have hloads := loads_of_load hload
    have htabled := h.together.tabled.load hloads
    have hprogram : (s.program source).map (Stmt.relabel (ofSites σ)) = s.program source :=
      hspells.relabel_ofSites fun u hu =>
        hkeeps.used _ ((orderly_iff_ranged.mp hloads.orderly).bounds_uses u hu).2
    have hsetting : loaded.setting.Relabels (ofSites σ) loaded.setting :=
      ⟨hkeeps.get? htabled, rfl, rfl⟩
    have hrun := Machine.relabel_run hsetting fuel m
    rw [hloads.machine, Machine.relabel_ofProgram, hprogram, ih (hkeeps.mono hloads.orderly.le), ← hloads.machine] at hrun
    rw [← Machine.relabel_rest, ← hrun]
  | rejected _ hrun ih =>
    rw [eq_of_rejected hrun] at hkeeps ⊢
    exact ih ⟨hkeeps.used, hkeeps.free⟩
  | reported _ _ ih => exact ih ⟨hkeeps.used, hkeeps.free⟩

/-- A program with other labels runs as it does with its own. -/
theorem Reached.runTree_relabel (h : s.Reached history) (hσ : Function.Injective σ) (hkeeps : s.Keeps σ)
    (program : List Stmt) (fuel : Nat) :
    s.runTree (program.map (Stmt.relabel (ofSites σ))) fuel = (s.runTree program fuel).relabel (ofSites σ) := by
  have hsetting : Setting.Relabels (ofSites σ)
      ⟨s.distances.insertAll (resolve program).distances.toList, s.host.callLimit, s.host.clock⟩
      ⟨s.distances.insertAll ((resolve program).distances.toList.map fun e => (σ e.1, e.2)), s.host.callLimit, s.host.clock⟩ :=
    ⟨Distances.get?_insertAll_map hσ (hkeeps.get? h.together.tabled) _, rfl, rfl⟩
  have hrun := Machine.relabel_run hsetting fuel (.ofProgram program s.state)
  rw [Machine.relabel_ofProgram, h.relabel_state hkeeps] at hrun
  rw [runTree, distances_relabel, Array.toList_map]
  exact hrun

end Session

theorem Machine.EndsAlike.relabel (m : Machine) : m.EndsAlike (m.relabel (ofSites σ)) := by
  refine ⟨?_, rfl, State.relabel_globalTexts _ _⟩
  rw [relabel_outcome]
  rcases m.outcome with v | - | (error | -) | - <;> rfl

theorem problems_ofSites (program : List Stmt) :
    (resolve (program.map (Stmt.relabel (ofSites σ)))).problems = (resolve program).problems := by
  have hsame : (ofSites σ).problem = id := by
    funext problem
    cases problem <;> rfl
  rw [problems_relabel, hsame, Array.map_id]

/-! ### Loops -/

/-- The tokens of a `for` and those of the loop that it abbreviates are parsed without a problem, as trees that differ in the
    labels of their uses only. So resolving reports the same and finds the same distances, and in every session each number
    of steps leads to the same state, up to these labels, with the same lines printed, the same texts of the globals and
    the same outcome. -/
theorem for_abbreviates_while {l : ForLoop} (h : l.Readable) {ts us : List Token} (hts : MadeOf l.short ts)
    (hus : MadeOf l.long us) (first : Site) :
    ∃ (tree : Stmt) (next : Site) (σ : Equiv.Perm Site),
      (∀ eof : Token, eof.kind = .eof → parse first (ts ++ [eof]) = ⟨[tree], next, []⟩ ∧
        parse first (us ++ [eof]) = ⟨[tree.relabel (ofSites σ)], next, []⟩) ∧
      (resolve [tree.relabel (ofSites σ)]).problems = (resolve [tree]).problems ∧
      (resolve [tree.relabel (ofSites σ)]).distances = (resolve [tree]).distances.map (fun e => (σ e.1, e.2)) ∧
      ∀ (history : History) (s : Session), s.Reached history → s.nextSite = first → ∀ fuel,
        s.runTree [tree.relabel (ofSites σ)] fuel = (s.runTree [tree] fuel).relabel (ofSites σ) ∧
          (s.runTree [tree] fuel).EndsAlike (s.runTree [tree.relabel (ofSites σ)] fuel) := by
  obtain ⟨tree, p, c, d, next, hle, hshort, hlong⟩ := h.programs first
  obtain ⟨hopen, hopen'⟩ := h.open_segments
  refine ⟨tree, next, exchange p c d, fun eof heof => ⟨?_, ?_⟩, problems_ofSites [tree], distances_relabel [tree],
    fun history s hreached hfirst fuel => ?_⟩
  · exact parse_of_program (hts.ne_eof hopen) heof (hshort ts hts)
  · exact parse_of_program (hus.ne_eof hopen') heof (hlong us hus)
  · subst hfirst
    have hkeeps : s.Keeps (exchange p c d) :=
      ⟨fun i hi => exchange_of_lt (Nat.lt_of_lt_of_le hi hle), fun i hi => exchange_le hle hi⟩
    have hrun := hreached.runTree_relabel (exchange p c d).injective hkeeps [tree] fuel
    rw [List.map_singleton] at hrun
    rw [hrun]
    exact ⟨rfl, .relabel _⟩

/-- `for (var a = "x"; a != "xyy"; a = a + "y") if (a == "xy") print a;` -/
def addingLoop : ForLoop where
  initializer := some [⟨.varWord, "var", .nil, 1⟩, ⟨.identifier, "a", .nil, 1⟩, ⟨.equal, "=", .nil, 1⟩,
    ⟨.string, "\"x\"", .text "x", 1⟩, ⟨.semicolon, ";", .nil, 1⟩]
  condition := some [⟨.identifier, "a", .nil, 1⟩, ⟨.bangEqual, "!=", .nil, 1⟩, ⟨.string, "\"xyy\"", .text "xyy", 1⟩]
  increment := some [⟨.identifier, "a", .nil, 1⟩, ⟨.equal, "=", .nil, 1⟩, ⟨.identifier, "a", .nil, 1⟩,
    ⟨.plus, "+", .nil, 1⟩, ⟨.string, "\"y\"", .text "y", 1⟩]
  body := [⟨.ifWord, "if", .nil, 1⟩, ⟨.leftParen, "(", .nil, 1⟩, ⟨.identifier, "a", .nil, 1⟩,
    ⟨.equalEqual, "==", .nil, 1⟩, ⟨.string, "\"xy\"", .text "xy", 1⟩, ⟨.rightParen, ")", .nil, 1⟩,
    ⟨.printWord, "print", .nil, 1⟩, ⟨.identifier, "a", .nil, 1⟩, ⟨.semicolon, ";", .nil, 1⟩]

theorem addingLoop_readable : addingLoop.Readable := by
  have hexpression : ∀ {ts : List Token} (e : Expr) (next : Site), (∀ t ∈ ts, t.kind ≠ .eof) →
      parse 0 (ts ++ [⟨.semicolon, ";", .nil, 1⟩] ++ [⟨.eof, "", .nil, 1⟩]) = ⟨[.expression e], next, []⟩ →
        IsExpression ts := fun e next hts hparse =>
    ⟨_, e, rfl, List.forall_mem_append.mpr ⟨hts, by simp⟩, ⟨.eof, "", .nil, 1⟩, next, rfl, hparse⟩
  refine ⟨?_, ?_, ?_, ?_⟩
  · rintro _ ⟨⟩
    refine ⟨.declareVariable ⟨.identifier, "a", .nil, 1⟩ (some (.literal (.text "x"))), ⟨by simp, ?_⟩, .inl ⟨_, _, rfl⟩⟩
    exact ⟨⟨.eof, "", .nil, 1⟩, 0, rfl, by cbv⟩
  · rintro _ ⟨⟩
    exact hexpression (.binary (.use 0 ⟨.identifier, "a", .nil, 1⟩) ⟨.bangEqual, "!=", .nil, 1⟩ (.literal (.text "xyy"))) 1
      (by simp) (by cbv)
  · rintro _ ⟨⟩
    exact hexpression (.assign 0 ⟨.identifier, "a", .nil, 1⟩
      (.binary (.use 1 ⟨.identifier, "a", .nil, 1⟩) ⟨.plus, "+", .nil, 1⟩ (.literal (.text "y")))) 2 (by simp) (by cbv)
  · refine ⟨.branch (.binary (.use 0 ⟨.identifier, "a", .nil, 1⟩) ⟨.equalEqual, "==", .nil, 1⟩ (.literal (.text "xy")))
      (.print (.use 1 ⟨.identifier, "a", .nil, 1⟩)) none, ⟨by simp [addingLoop], ?_⟩, rfl⟩
    exact ⟨⟨.eof, "", .nil, 1⟩, 2, rfl, by cbv⟩

def addingFor : List Token :=
  ⟨.forWord, "for", .nil, 1⟩ :: ⟨.leftParen, "(", .nil, 1⟩ :: (addingLoop.initializer.getD [] ++
    (addingLoop.condition.getD [] ++ ⟨.semicolon, ";", .nil, 1⟩ :: (addingLoop.increment.getD [] ++
      ⟨.rightParen, ")", .nil, 1⟩ :: (addingLoop.body ++ []))))

def addingWhile : List Token :=
  ⟨.leftBrace, "\x7b", .nil, 1⟩ :: (addingLoop.initializer.getD [] ++ ⟨.whileWord, "while", .nil, 2⟩ ::
    ⟨.leftParen, "(", .nil, 2⟩ :: (addingLoop.condition.getD [] ++ ⟨.rightParen, ")", .nil, 2⟩ ::
      ⟨.leftBrace, "\x7b", .nil, 2⟩ :: (addingLoop.body ++ (addingLoop.increment.getD [] ++ ⟨.semicolon, ";", .nil, 2⟩ ::
        ⟨.rightBrace, "\x7d", .nil, 2⟩ :: [⟨.rightBrace, "\x7d", .nil, 3⟩]))))

/-- Both rows are parsed as the same loop, and running the longer one prints the one text that the shorter one prints. -/
theorem for_abbreviates_while_adding :
    (∃ σ : Equiv.Perm Site, (parse 0 (addingWhile ++ [⟨.eof, "", .nil, 3⟩])).statements =
      (parse 0 (addingFor ++ [⟨.eof, "", .nil, 3⟩])).statements.map (Stmt.relabel (ofSites σ))) ∧
    ((Session.start ⟨3, fun _ => 0⟩ (.new false false) "").runTree
      (parse 0 (addingWhile ++ [⟨.eof, "", .nil, 3⟩])).statements 120).state.printed = #["xy"] := by
  have hfor : MadeOf addingLoop.short addingFor :=
    ⟨_, _, rfl, rfl, _, _, rfl, rfl, _, rfl, _, rfl, _, _, rfl, rfl, _, rfl, _, _, rfl, rfl, _, rfl, rfl⟩
  have hwhile : MadeOf addingLoop.long addingWhile :=
    ⟨_, _, rfl, rfl, _, rfl, _, _, rfl, rfl, _, _, rfl, rfl, _, rfl, _, _, rfl, rfl, _, _, rfl, rfl, _, rfl, _, rfl, _, _, rfl,
      rfl, _, _, rfl, rfl, _, _, rfl, rfl, rfl⟩
  have hprinted : ((Session.start ⟨3, fun _ => 0⟩ (.new false false) "").runTree
      (parse 0 (addingFor ++ [⟨.eof, "", .nil, 3⟩])).statements 120).state.printed = #["xy"] := by cbv
  obtain ⟨tree, next, σ, hparse, -, -, hruns⟩ := for_abbreviates_while addingLoop_readable hfor hwhile 0
  obtain ⟨hshort, hlong⟩ := hparse ⟨.eof, "", .nil, 3⟩ rfl
  obtain ⟨-, halike⟩ := hruns [] _ (.start ⟨3, fun _ => 0⟩ (.new false false) "") rfl 120
  rw [hshort] at hprinted ⊢
  rw [hlong]
  exact ⟨⟨σ, rfl⟩, halike.printed.trans hprinted⟩

end LoxLanguage
