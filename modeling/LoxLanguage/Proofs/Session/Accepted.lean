import LoxLanguage.Proofs.Grammar.Exact
import LoxLanguage.Proofs.Lexical.Simulation
import LoxLanguage.Proofs.Report.Notices
import LoxLanguage.Proofs.Scanner.Words

/-! Entries that run. An entry runs only if nothing is reported on the way: then its tokens are a program of the
grammar, its resolution finds no problem, and the table of distances that it adds to leaves the uses of earlier
entries as they are. So every visit of every program that has run in a session is fine in the session's table,
and the state of the session matches that of the reference machine after the same programs. -/

namespace LoxLanguage

open Lexical (Environment)

/-! ### Reports -/

namespace Reporter

theorem hadError_problem (r : Reporter) (p : Problem) : (r.problem p).hadError = true := by
  have hstatic := p.isStatic_notice
  rw [problem_eq, notify_eq]
  dsimp only
  rw [hstatic, Bool.or_true]

/-- The flag for static errors is clear only if it was and nothing has been reported. -/
theorem hadError_problems {r : Reporter} {found : List Problem} (h : (r.problems found).hadError = false) :
    r.hadError = false ∧ found = [] := by
  induction found generalizing r with
  | nil => exact ⟨h, rfl⟩
  | cons p rest ih =>
    have hp := (ih h).1
    rw [hadError_problem] at hp
    cases hp

end Reporter

/-! ### Loading -/

namespace Session

variable {s s' : Session} {source : String} {m : Machine}

/-- The program of an entry. -/
def program (s : Session) (source : String) : List Stmt :=
  (LoxLanguage.parse s.nextSite (scan source).1).statements

/-- What an entry that runs is like, and what it leaves in its session. -/
structure Loads (s : Session) (source : String) (s' : Session) (m : Machine) : Prop where
  machine : m = Machine.ofProgram (s.program source) s.state
  orderly : Visit.Orderly s.nextSite s'.nextSite (Stmt.visitsAll (s.program source) .start)
  quiet : (resolve (s.program source)).problems = #[]
  distances : s'.distances = s.distances.insertAll (resolve (s.program source)).distances.toList
  host : s'.host = s.host

/-- Reading an entry changes nothing but the reports. -/
theorem eq_of_parse {result : Option Parsed} (h : s.parse source = (s', result)) : s' = { s with reporter := s'.reporter } := by
  cases h
  rfl

theorem parsed_of_parse {parsed : Parsed} (h : s.parse source = (s', some parsed)) :
    parsed = LoxLanguage.parse s.nextSite (scan source).1 ∧ parsed.problems = [] := by
  unfold parse at h
  obtain ⟨-, hresult⟩ := Prod.mk.inj h
  split at hresult
  · cases hresult
  · rename_i hclear
    cases hresult
    exact ⟨rfl, (Reporter.hadError_problems (Bool.of_not_eq_true hclear)).2⟩

theorem loads_of_load (h : s.load source = (s', some m)) : s.Loads source s' m := by
  obtain ⟨body, eof, htokens, heof, hbody⟩ := scan_tokens source
  unfold load at h
  rcases hread : s.parse source with ⟨read, result⟩
  rw [hread] at h
  cases result with
  | none => cases h
  | some parsed =>
    dsimp only at h
    split at h
    · cases h
    · rename_i hclear
      have hresolved := (Reporter.hadError_problems (Bool.of_not_eq_true hclear)).2
      obtain ⟨hparsed, hproblems⟩ := parsed_of_parse hread
      have htree : s.program source = parsed.statements := by rw [program, hparsed]
      have hprogram : Grammar.Program s.nextSite body parsed.statements parsed.nextSite := by
        refine program_of_parse (fun t ht => (hbody t ht).1) heof ?_
        rw [← htokens, ← hparsed, ← hproblems]
      have hsame := eq_of_parse hread
      cases h
      rw [hsame]
      refine ⟨?_, ?_, ?_, ?_, rfl⟩
      · rw [htree]
      · rw [htree]
        exact hprogram.orderly (fun t ht => (hbody t ht).2) .start
      · rw [htree]
        exact Array.toList_eq_nil_iff.mp hresolved
      · rw [htree]

/-- Nothing is reported for an entry, and nothing has been reported before. -/
structure Accepts (s : Session) (source : String) : Prop where
  clear : s.reporter.hadError = false
  scanned : (scan source).2 = []
  parsed : (LoxLanguage.parse s.nextSite (scan source).1).problems = []
  resolved : (resolve (s.program source)).problems = #[]

/-- What loading an accepted entry leaves in the session. -/
theorem load_eq_of_accepts (h : s.Accepts source) :
    s.load source =
      ({ s with
          reporter := s.reporter.register s.path source
          distances := s.distances.insertAll (resolve (s.program source)).distances.toList
          nextSite := (LoxLanguage.parse s.nextSite (scan source).1).nextSite },
        some (Machine.ofProgram (s.program source) s.state)) := by
  obtain ⟨hclear, hscanned, hparsed, hresolved⟩ := h
  have hflag : (s.reporter.register s.path source).hadError = false := hclear
  have hparse : s.parse source = ({ s with reporter := s.reporter.register s.path source },
      some (LoxLanguage.parse s.nextSite (scan source).1)) := by
    simp [parse, hscanned, hparsed, Reporter.problems, hflag]
  unfold program at hresolved
  rw [load, hparse]
  simp [hresolved, Reporter.problems, hflag, program]

theorem load_of_accepts (h : s.Accepts source) : ∃ s' m, s.load source = (s', some m) :=
  ⟨_, _, load_eq_of_accepts h⟩

theorem run_of_load (h : s.load source = (s', some m)) (fuel : Nat) :
    s.run fuel source = s'.finish (m.run s'.setting fuel) := by
  rw [run, h]

theorem load_of_run {fuel : Nat} {outcome : Machine.Outcome} (h : s.run fuel source = (s', .ran outcome)) :
    ∃ loaded m, s.load source = (loaded, some m) ∧ s' = { loaded with state := (m.run loaded.setting fuel).rest } ∧
      outcome = (m.run loaded.setting fuel).outcome := by
  unfold run at h
  split at h
  · cases h
  · rename_i loaded m hload
    cases h
    exact ⟨loaded, m, hload, rfl, rfl⟩

/-- An entry that is rejected leaves nothing behind but its reports. -/
theorem eq_of_rejected {fuel : Nat} (h : s.run fuel source = (s', .rejected)) : s' = { s with reporter := s'.reporter } := by
  unfold run at h
  split at h
  · rename_i hload
    cases h
    unfold load at hload
    rcases hread : s.parse source with ⟨read, result⟩
    have hsame := eq_of_parse hread
    rw [hread] at hload
    cases result with
    | none =>
      cases hload
      exact hsame
    | some parsed =>
      dsimp only at hload
      split at hload
      · cases hload
        rw [hsame]
      · cases hload
  · cases h

/-- A session that comes from another one by running texts, the first one first and each for its number of steps. In
    between only the reports change. -/
inductive Runs (first : Session) : List (Nat × String) → Session → Prop where
  | none : Runs first [] first
  | run {texts : List (Nat × String)} {s : Session} (h : Runs first texts s) (fuel : Nat) (text : String) :
      Runs first (texts ++ [(fuel, text)]) (s.run fuel text).1
  | reported {texts : List (Nat × String)} {s : Session} (h : Runs first texts s) (reporter : Reporter) :
      Runs first texts { s with reporter }

end Session

/-! ### The programs of a session -/

/-- The resolver has made this visit in one of the programs. -/
def Visited (programs : List (List Stmt)) (v : Visit) : Prop :=
  ∃ program ∈ programs, v ∈ Stmt.visitsAll program .start

/-- A table of distances for some programs, with the sites from `next` on still to be used. -/
structure Tabled (programs : List (List Stmt)) (distances : Distances) (next : Site) : Prop where
  fine : ∀ v, Visited programs v → v.Fine distances
  below : ∀ v, Visited programs v → ∀ site, v.site? = some site → site < next
  free : ∀ site, next ≤ site → distances.get? site = none

theorem Tabled.empty : Tabled [] .empty 0 :=
  ⟨fun _ ⟨_, h, _⟩ => absurd h List.not_mem_nil, fun _ ⟨_, h, _⟩ => absurd h List.not_mem_nil,
    fun site _ => Distances.get?_empty site⟩

/-- One more program leaves the uses of the others as they are. -/
theorem Tabled.add {programs : List (List Stmt)} {distances : Distances} {first next : Site} {program : List Stmt}
    (h : Tabled programs distances first) (horderly : Visit.Orderly first next (Stmt.visitsAll program .start))
    (hquiet : (resolve program).problems = #[]) :
    Tabled (program :: programs) (distances.insertAll (resolve program).distances.toList) next := by
  -- The new distances are at sites that no earlier program has.
  have hkeys : ∀ site ∈ (resolve program).distances.toList.map Prod.fst, first ≤ site ∧ site < next := by
    intro site hsite
    obtain ⟨v, hv, hsite, -⟩ := Visit.exists_use hquiet hsite
    exact horderly.bounds site (List.mem_filterMap.mpr ⟨v, hv, hsite⟩)
  refine ⟨?_, ?_, ?_⟩
  · rintro v ⟨other, hmem, hv⟩
    rcases List.mem_cons.mp hmem with rfl | hmem
    · exact Visit.fine_of_accepted horderly hquiet h.free v hv
    · obtain ⟨hproper, hcomplaints, hsteady, hdistance⟩ := h.fine v ⟨other, hmem, hv⟩
      refine ⟨hproper, hcomplaints, hsteady, fun site hsite => ?_⟩
      rw [Distances.get?_insertAll_of_not_mem, hdistance site hsite]
      intro hkey
      exact Nat.not_lt_of_le (hkeys site hkey).1 (h.below v ⟨other, hmem, hv⟩ site hsite)
  · rintro v ⟨other, hmem, hv⟩ site hsite
    rcases List.mem_cons.mp hmem with rfl | hmem
    · exact (horderly.bounds site (List.mem_filterMap.mpr ⟨v, hv, hsite⟩)).2
    · exact Nat.lt_of_lt_of_le (h.below v ⟨other, hmem, hv⟩ site hsite) horderly.le
  · intro site hsite
    rw [Distances.get?_insertAll_of_not_mem, h.free site (Nat.le_trans horderly.le hsite)]
    intro hkey
    exact Nat.not_lt_of_le hsite (hkeys site hkey).2

theorem Tabled.load {programs : List (List Stmt)} {s s' : Session} {source : String} {m : Machine}
    (h : Tabled programs s.distances s.nextSite) (hload : s.Loads source s' m) :
    Tabled (s.program source :: programs) s'.distances s'.nextSite := by
  rw [hload.distances]
  exact h.add hload.orderly hload.quiet

/-! ### Sessions against reference states -/

section Mono
variable {P Q : Visit → Prop} {store : Store} {homes : Homes}

theorem Function.Occurs.mono {f : Function} {scopes : List Scope} (h : f.Occurs P scopes) (hPQ : ∀ v, P v → Q v) :
    f.Occurs Q scopes := by
  obtain ⟨enclosing, r, hscopes, hvisits⟩ := h
  exact ⟨enclosing, r, hscopes, fun v hv => hPQ v (hvisits v hv)⟩

/-- Function values and classes of earlier programs stay what they are. -/
theorem Matches.mono {s : State} {t : Lexical.State} (h : Matches P homes s t) (hPQ : ∀ v, P v → Q v) :
    Matches Q homes s t := by
  refine ⟨h.heap, h.closures.imp fun c c' hc => ?_, h.classes.imp fun c c' hc => ?_, h.instances, h.depth, h.printed, h.ticks⟩
  · obtain ⟨hdeclaration, hinitializer, scopes, hoccurs, hsees, hthis⟩ := hc
    exact ⟨hdeclaration, hinitializer, scopes, hoccurs.mono hPQ, hsees, hthis⟩
  · refine ⟨hc.name, fun x => rel_imp (hc.methods x) fun m m' hm => ?_⟩
    obtain ⟨hdeclaration, hinitializer, outer, hoccurs, hsees⟩ := hm
    exact ⟨hdeclaration, hinitializer, outer, hoccurs.mono hPQ, hsees⟩

end Mono

theorem Simulates.matching {P : Visit → Prop} {m : Machine} {m' : Lexical.Machine} (h : Simulates P m m') :
    ∃ homes, Matches P homes m.state m'.state := by
  cases h with
  | active h => exact ⟨_, h.matching⟩
  | failing h => exact ⟨_, h⟩

/-- A session that has run these programs, and the state of the reference machine after the same. -/
structure Together (programs : List (List Stmt)) (s : Session) (t : Lexical.State) : Prop where
  tabled : Tabled programs s.distances s.nextSite
  matching : ∃ homes, Matches (Visited programs) homes s.state t
  current : s.state.current = Store.globals
  environment : t.environment = .top

namespace Together

variable {programs : List (List Stmt)} {s s' : Session} {t : Lexical.State} {source : String} {m : Machine}

theorem start (host : Host) (reporter : Reporter) (path : String) :
    Together [] (.start host reporter path) .initial := by
  have hheap : Heap (fun _ _ => none) Store.initial #[] [("clock", .clock)] := by
    refine ⟨Nat.zero_lt_one, rfl, rfl, fun _ => rfl, fun _ _ _ => rfl, nofun, fun f x hf _ => ?_, nofun⟩
    exact Store.localValue?_of_le (Nat.pos_of_ne_zero hf)
  have halike : ∀ {α β : Type} {R : α → β → Prop}, Alike R #[] #[] := ⟨rfl, fun _ => .none⟩
  exact ⟨.empty, ⟨_, hheap, halike, halike, rfl, rfl, rfl, rfl⟩, rfl, rfl⟩

theorem reported (h : Together programs s t) (reporter : Reporter) : Together programs { s with reporter } t :=
  ⟨h.tabled, h.matching, h.current, h.environment⟩

/-- A program is begun on both machines. -/
theorem begins (h : Together programs s t) (program : List Stmt) :
    Simulates (Visited (program :: programs)) (Machine.ofProgram program s.state) (Lexical.Machine.ofProgram program t) := by
  obtain ⟨homes, hmatch⟩ := h.matching
  have hmatch := hmatch.mono (Q := Visited (program :: programs)) fun v ⟨earlier, hmem, hv⟩ =>
    ⟨earlier, List.mem_cons_of_mem _ hmem, hv⟩
  have hagrees : Agrees (Visited (program :: programs)) homes [] [] s.state t := by
    refine ⟨hmatch, ⟨?_, nofun⟩, .nil⟩
    rw [h.current, h.environment]
    exact .top
  exact .active hagrees (.ended (.program ⟨.start, rfl, fun v hv => ⟨_, List.mem_cons_self, hv⟩⟩))

theorem simulates (h : Together programs s t) (hload : s.Loads source s' m) :
    Simulates (Visited (s.program source :: programs)) m (Lexical.Machine.ofProgram (s.program source) t) := by
  rw [hload.machine]
  exact h.begins _

/-- The two machines stay together for as long as a program runs. -/
theorem runs (h : Together programs s t) (hload : s.Loads source s' m) (fuel : Nat) :
    Simulates (Visited (s.program source :: programs)) (m.run s'.setting fuel)
      ((Lexical.Machine.ofProgram (s.program source) t).run s.host fuel) := by
  rw [← hload.host]
  exact (h.simulates hload).run (h.tabled.load hload).fine fuel

theorem ran (h : Together programs s t) (hload : s.Loads source s' m) (fuel : Nat) :
    Together (s.program source :: programs) { s' with state := (m.run s'.setting fuel).rest }
      ((Lexical.Machine.ofProgram (s.program source) t).run s.host fuel).rest := by
  obtain ⟨homes, hmatch⟩ := (h.runs hload fuel).matching
  have htabled := h.tabled.load hload
  exact ⟨htabled, ⟨homes, hmatch.moved _ _ rfl⟩, rfl, rfl⟩

end Together

/-! ### Histories -/

/-- The programs that have run in a session, the latest first, each with the bound on its steps. -/
abbrev History := List (Nat × List Stmt)

/-- The state of the reference machine after a history. -/
def Lexical.State.after (host : Host) : History → Lexical.State
  | [] => .initial
  | (fuel, program) :: earlier => ((Lexical.Machine.ofProgram program (after host earlier)).run host fuel).rest

/-- The sessions that can come about. An entry that is rejected, and whatever happens to the reports, is not part of the
    history. -/
inductive Session.Reached : History → Session → Prop where
  | start (host : Host) (reporter : Reporter) (path : String) : Reached [] (.start host reporter path)
  | ran {history : History} {s s' : Session} {fuel : Nat} {source : String} {outcome : Machine.Outcome}
      (h : Reached history s) (hrun : s.run fuel source = (s', .ran outcome)) :
      Reached ((fuel, s.program source) :: history) s'
  | rejected {history : History} {s s' : Session} {fuel : Nat} {source : String} (h : Reached history s)
      (hrun : s.run fuel source = (s', .rejected)) : Reached history s'
  | reported {history : History} {s : Session} (h : Reached history s) (reporter : Reporter) :
      Reached history { s with reporter }

theorem Session.Reached.together {history : History} {s : Session} (h : s.Reached history) :
    Together (history.map Prod.snd) s (.after s.host history) := by
  induction h with
  | start host reporter path => exact .start host reporter path
  | @ran _ _ _ fuel _ _ _ hrun ih =>
    obtain ⟨loaded, m, hload, rfl, -⟩ := Session.load_of_run hrun
    have hloads := Session.loads_of_load hload
    have hran := ih.ran hloads fuel
    rw [← hloads.host] at hran
    exact hran
  | rejected _ hrun ih =>
    rw [Session.eq_of_rejected hrun]
    exact ih.reported _
  | reported _ reporter ih => exact ih.reported reporter

end LoxLanguage
