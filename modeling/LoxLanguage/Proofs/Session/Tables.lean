import Mathlib
import LoxLanguage.Proofs.Grammar.Loops
import LoxLanguage.Proofs.Machine.Calls
import LoxLanguage.Proofs.Scope.Nodes
import LoxLanguage.Proofs.Scope.Table
import LoxLanguage.Proofs.Session.Accepted

/-! The table of distances over a whole session. The sites of a text that is read are different from each other and from
those of all programs that have run, so a table that is added leaves the entries of the others alone
(`Session.Extends`), and a function value finds each of its variables where it always has (`table_undisturbed`). -/

namespace LoxLanguage

open Relation (ReflTransGen)

/-! ### Uses in visited functions -/

/-- The use of a variable at a node. -/
def Node.use? : Node → Option Use
  | .expr e => e.use?
  | _ => none

theorem Stmt.visitsAll_uses (body : List Stmt) (r : Resolution) :
    (((Stmt.visitsAll body r).map Visit.node).filterMap Node.use?).Perm (Stmt.usesOfAll body) := by
  rw [Stmt.pointsAll_nodes body r .top, List.filterMap_map]
  exact Stmt.pointsAll_uses body .top

theorem Function.visits_uses (f : Function) (enclosing : Enclosing) (r : Resolution) :
    (((f.visits enclosing r).map Visit.node).filterMap Node.use?).Perm f.uses := by
  rw [f.points_nodes enclosing r .top, List.filterMap_map]
  exact f.points_uses enclosing .top

/-- The uses in a function that has been visited are among those of the programs. -/
theorem Function.Occurs.mem_uses {programs : List (List Stmt)} {f : Function} {scopes : List Scope}
    (h : f.Occurs (Visited programs) scopes) : ∀ u ∈ f.uses, ∃ program ∈ programs, u ∈ Stmt.usesOfAll program := by
  obtain ⟨enclosing, r, -, hvisits⟩ := h
  intro u hu
  obtain ⟨node, hnode, huse⟩ := List.mem_filterMap.mp ((f.visits_uses enclosing r).mem_iff.mpr hu)
  obtain ⟨v, hv, rfl⟩ := List.mem_map.mp hnode
  obtain ⟨program, hprogram, hmem⟩ := hvisits v hv
  refine ⟨program, hprogram, (Stmt.visitsAll_uses program .start).mem_iff.mp ?_⟩
  exact List.mem_filterMap.mpr ⟨v.node, List.mem_map_of_mem hmem, huse⟩

/-! ### Sites of a text -/

/-- No two uses in the statements of a text have the same site. -/
theorem nodup_sites (first : Site) (tokens : List Token) :
    ((Stmt.usesOfAll (parse first tokens).statements).map Use.site).Nodup := by
  have huses := (Stmt.pointsAll_uses (parse first tokens).statements .top).map Use.site
  rw [List.map_filterMap] at huses
  exact huses.nodup_iff.mp (parse_laid first tokens).nodup

/-! ### Tables that are added -/

theorem Distances.get?_insertAll_congr {t t' : Distances} {site : Site} (h : t.get? site = t'.get? site)
    (entries : List (Site × Nat)) : (t.insertAll entries).get? site = (t'.insertAll entries).get? site := by
  induction entries generalizing t t' with
  | nil => exact h
  | cons entry rest ih =>
    obtain ⟨key, distance⟩ := entry
    refine ih ?_
    by_cases hkey : site = key
    · rw [hkey, get?_insert_self, get?_insert_self]
    · rw [get?_insert_of_ne _ _ hkey, get?_insert_of_ne _ _ hkey, h]

namespace Session

variable {s s' s'' : Session} {source : String} {m : Machine} {history : History}

theorem Loads.bounds (h : s.Loads source s' m) :
    ∀ u ∈ Stmt.usesOfAll (s.program source), s.nextSite ≤ u.site ∧ u.site < s'.nextSite :=
  (orderly_iff_ranged.mp h.orderly).bounds_uses

/-- An entry that runs leaves the table as it is at the sites that are in use. -/
theorem Loads.get?_of_lt (h : s.Loads source s' m) {site : Site} (hsite : site < s.nextSite) :
    s'.distances.get? site = s.distances.get? site := by
  rw [h.distances, Distances.get?_insertAll_of_not_mem]
  intro hkey
  obtain ⟨v, hv, hvisit, -⟩ := Visit.exists_use h.quiet hkey
  have hbounds := h.orderly.bounds site (List.mem_filterMap.mpr ⟨v, hv, hvisit⟩)
  exact Nat.not_lt_of_le hbounds.1 hsite

/-- At the sites of its own uses, an entry that runs adds its own table. -/
theorem Loads.get?_own (h : s.Loads source s' m) {programs : List (List Stmt)}
    (htabled : Tabled programs s.distances s.nextSite) {u : Use} (hu : u ∈ Stmt.usesOfAll (s.program source)) :
    s'.distances.get? u.site = (distanceTable (s.program source)).get? u.site := by
  rw [h.distances, distanceTable]
  refine Distances.get?_insertAll_congr ?_ _
  rw [htabled.free u.site (h.bounds u hu).1, Distances.get?_empty]

/-! ### What a session keeps -/

/-- What can happen to a session: an entry is run, for any number of steps, or something is reported. -/
inductive Next (s : Session) : Session → Prop where
  | run (fuel : Nat) (source : String) : Next s (s.run fuel source).1
  | reported (reporter : Reporter) : Next s { s with reporter }

/-- What can happen to a session sooner or later. -/
def Later : Session → Session → Prop :=
  ReflTransGen Next

/-- A session that goes on from another keeps what that one holds. -/
structure Extends (s s' : Session) : Prop where
  le : s.nextSite ≤ s'.nextSite
  get? : ∀ site, site < s.nextSite → s'.distances.get? site = s.distances.get? site
  kept : s.state.store.Kept s'.state.store

theorem Extends.refl (s : Session) : s.Extends s :=
  ⟨Nat.le_refl _, fun _ _ => rfl, .refl _⟩

theorem Extends.trans (h : s.Extends s') (h' : s'.Extends s'') : s.Extends s'' where
  le := Nat.le_trans h.le h'.le
  get? site hsite := (h'.get? site (Nat.lt_of_lt_of_le hsite h.le)).trans (h.get? site hsite)
  kept := h.kept.trans h'.kept

theorem Loads.extends (h : s.Loads source s' m) (fuel : Nat) :
    s.Extends { s' with state := (m.run s'.setting fuel).rest } where
  le := h.orderly.le
  get? _ hsite := h.get?_of_lt hsite
  kept := by
    have hkept : m.state.store.Kept (m.run s'.setting fuel).state.store := m.kept_run fuel
    rw [h.machine] at hkept ⊢
    exact hkept

theorem Extends.reported (s : Session) (reporter : Reporter) : s.Extends { s with reporter } :=
  ⟨Nat.le_refl _, fun _ _ => rfl, .refl _⟩

theorem Next.extends (h : s.Next s') : s.Extends s' := by
  cases h with
  | run fuel source =>
    rcases hrun : s.run fuel source with ⟨ran, result⟩
    cases result with
    | rejected =>
      rw [eq_of_rejected hrun]
      exact .reported s _
    | ran outcome =>
      obtain ⟨loaded, m, hload, rfl, -⟩ := load_of_run hrun
      exact (loads_of_load hload).extends fuel
  | reported reporter => exact .reported s reporter

theorem Later.extends (h : s.Later s') : s.Extends s' := by
  induction h with
  | refl => exact .refl s
  | tail _ hnext ih => exact ih.trans hnext.extends

/-- The programs of a session have the distances of their own tables. -/
theorem Reached.get?_own (h : s.Reached history) : ∀ program ∈ history.map Prod.snd, ∀ u ∈ Stmt.usesOfAll program,
    u.site < s.nextSite ∧ s.distances.get? u.site = (distanceTable program).get? u.site := by
  induction h with
  | start => exact List.forall_mem_nil _
  | @ran history s s' fuel source outcome h hrun ih =>
    obtain ⟨loaded, m, hload, rfl, -⟩ := load_of_run hrun
    have hloads := loads_of_load hload
    rw [List.map_cons, List.forall_mem_cons]
    refine ⟨fun u hu => ⟨(hloads.bounds u hu).2, hloads.get?_own h.together.tabled hu⟩, fun program hprogram u hu => ?_⟩
    obtain ⟨hlt, hsame⟩ := ih program hprogram u hu
    exact ⟨Nat.lt_of_lt_of_le hlt hloads.orderly.le, (hloads.get?_of_lt hlt).trans hsame⟩
  | rejected _ hrun ih =>
    rw [eq_of_rejected hrun]
    exact ih
  | reported _ _ ih => exact ih

/-! ### Function values -/

/-- The function values of a session have been visited in its programs. -/
theorem Reached.closure_occurs (h : s.Reached history) {f : ClosureId} {c : Closure}
    (hc : s.state.store.closures[f]? = some c) :
    ∃ scopes, c.declaration.Occurs (Visited (history.map Prod.snd)) scopes := by
  obtain ⟨homes, hmatch⟩ := h.together.matching
  have hrel := hmatch.closures.2 f
  rw [hc] at hrel
  generalize (Lexical.State.after s.host history).closures[f]? = other at hrel
  cases hrel with
  | some hclosure =>
    obtain ⟨scopes, hoccurs, -⟩ := hclosure.place
    exact ⟨scopes, hoccurs⟩

/-- So have the methods of its classes. -/
theorem Reached.method_occurs (h : s.Reached history) {k : ClassId} {c : Class} {x : String} {method : Closure}
    (hc : s.state.store.classes[k]? = some c) (hx : c.methods.get? x = some method) :
    ∃ scopes, method.declaration.Occurs (Visited (history.map Prod.snd)) scopes := by
  obtain ⟨homes, hmatch⟩ := h.together.matching
  have hrel := hmatch.classes.2 k
  rw [hc] at hrel
  generalize (Lexical.State.after s.host history).classes[k]? = other at hrel
  cases hrel with
  | @some _ c' hclass =>
    have hmethod := hclass.methods x
    rw [hx] at hmethod
    generalize c'.methods.get? x = other at hmethod
    cases hmethod with
    | some hmethod =>
      obtain ⟨outer, hoccurs, -⟩ := hmethod.place
      exact ⟨_, hoccurs⟩

/-- A function that has been visited in the programs of a session keeps the distances of its uses. -/
theorem Reached.get?_of_occurs (h : s.Reached history) (hlater : s.Later s') {f : Function}
    (hoccurs : ∃ scopes, f.Occurs (Visited (history.map Prod.snd)) scopes) :
    ∀ u ∈ f.uses, s'.distances.get? u.site = s.distances.get? u.site := by
  intro u hu
  obtain ⟨scopes, hoccurs⟩ := hoccurs
  obtain ⟨program, hprogram, hmem⟩ := hoccurs.mem_uses u hu
  exact hlater.extends.get? u.site (h.get?_own program hprogram u hmem).1

/-! ### The table of a session -/

/-- How the table of distances goes on in a session with this history. Of a text that is rejected nothing is left, its
    sites included. -/
structure Undisturbed (history : History) (s : Session) : Prop where
  /-- No use occurs twice in what is read next. -/
  once : ∀ source, ((Stmt.usesOfAll (s.program source)).map Use.site).Nodup
  /-- What is read next has no use in common with a program that has run. -/
  apart : ∀ source, ∀ u ∈ Stmt.usesOfAll (s.program source), ∀ program ∈ history.map Prod.snd,
    ∀ u' ∈ Stmt.usesOfAll program, u.site ≠ u'.site
  /-- An entry that is rejected changes nothing but the reports. -/
  rejected : ∀ fuel source s', s.run fuel source = (s', .rejected) → s' = { s with reporter := s'.reporter }
  /-- No entry of the table is changed or removed. -/
  entries : ∀ s', s.Later s' → ∀ site d, s.distances.get? site = some d → s'.distances.get? site = some d
  /-- The uses in the programs that have run have the distances of their own tables, and no others. -/
  programs : ∀ s', s.Later s' → ∀ program ∈ history.map Prod.snd, ∀ u ∈ Stmt.usesOfAll program,
    s'.distances.get? u.site = (distanceTable program).get? u.site
  /-- A function value stays what it is and where it is, and each of its uses keeps its distance or has none. -/
  closures : ∀ s', s.Later s' → ∀ (f : ClosureId) c, s.state.store.closures[f]? = some c →
    s'.state.store.closures[f]? = some c ∧ ∀ u ∈ c.declaration.uses, s'.distances.get? u.site = s.distances.get? u.site
  /-- So do the methods of a class, from which function values are made when they are fetched. -/
  methods : ∀ s', s.Later s' → ∀ (k : ClassId) c, s.state.store.classes[k]? = some c →
    s'.state.store.classes[k]? = some c ∧ ∀ x method, c.methods.get? x = some method →
      ∀ u ∈ method.declaration.uses, s'.distances.get? u.site = s.distances.get? u.site

end Session

/-- The table of distances is never disturbed, whatever is run later in the session and for however long. -/
theorem table_undisturbed {history : History} {s : Session} (h : s.Reached history) : s.Undisturbed history where
  once source := nodup_sites s.nextSite (scan source).1
  apart source u hu program hprogram u' hu' := by
    have hle := ((parse_laid s.nextSite (scan source).1).bounds_uses u hu).1
    have hlt := (h.get?_own program hprogram u' hu').1
    exact Nat.ne_of_gt (Nat.lt_of_lt_of_le hlt hle)
  rejected fuel source s' hrun := Session.eq_of_rejected hrun
  entries s' hlater site d hd := by
    have hlt : site < s.nextSite := by
      by_contra hge
      rw [h.together.tabled.free site (Nat.le_of_not_lt hge)] at hd
      cases hd
    rw [hlater.extends.get? site hlt, hd]
  programs s' hlater program hprogram u hu := by
    obtain ⟨hlt, hown⟩ := h.get?_own program hprogram u hu
    rw [hlater.extends.get? u.site hlt, hown]
  closures s' hlater f c hc :=
    ⟨hlater.extends.kept.closures f c hc, h.get?_of_occurs hlater (h.closure_occurs hc)⟩
  methods s' hlater k c hc :=
    ⟨hlater.extends.kept.classes k c hc, fun _ _ hx => h.get?_of_occurs hlater (h.method_occurs hc hx)⟩

/-- Leaves a function value with a local variable and a global one. -/
def counterEntry : String :=
  "var step = 2; fun make() \x7b var n = 0; fun count() \x7b n = n + step; return n; \x7d return count; \x7d var c = make();"

def counterRun : Session × RunResult :=
  (Session.start ⟨3, fun _ => 0⟩ (.new false false) "").run 100 counterEntry

/-- The uses in a function value, with their distances. -/
def Session.distancesAt (s : Session) (f : ClosureId) : Option (List (String × Option Nat)) :=
  s.state.store.closures[f]?.map fun c => c.declaration.uses.map fun u => (u.name.lexeme, s.distances.get? u.site)

/-- The variable of the counter stays one scope away and the step global, whatever is entered later. -/
theorem table_undisturbed_counter :
    ∃ (history : History) (s : Session), s.Reached history ∧
      s.distancesAt 1 = some [("n", some 1), ("n", some 1), ("step", none), ("n", some 1)] ∧
      ∀ s', s.Later s' → s'.distancesAt 1 = s.distancesAt 1 := by
  have hvalues : counterRun.1.distancesAt 1 = some [("n", some 1), ("n", some 1), ("step", none), ("n", some 1)] ∧
      counterRun.2 ≠ .rejected := by decide +kernel
  have hrun : (Session.start ⟨3, fun _ => 0⟩ (.new false false) "").run 100 counterEntry = counterRun := by rw [counterRun]
  generalize counterRun = result at hvalues hrun
  obtain ⟨s, ran⟩ := result
  obtain ⟨hdistances, hran⟩ := hvalues
  cases ran with
  | rejected => exact absurd rfl hran
  | ran outcome =>
    have hreached := Session.Reached.ran (.start _ _ _) hrun
    refine ⟨_, s, hreached, hdistances, fun s' hlater => ?_⟩
    obtain ⟨c, hc, -⟩ := Option.map_eq_some_iff.mp hdistances
    obtain ⟨hsame, huses⟩ := (table_undisturbed hreached).closures s' hlater 1 c hc
    rw [Session.distancesAt, Session.distancesAt, hsame, hc]
    refine congrArg some (List.map_congr_left fun u hu => ?_)
    rw [huses u hu]

end LoxLanguage
