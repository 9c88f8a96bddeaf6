import TraversalSql.Proofs.FusedRuns
import TraversalSql.Proofs.PlainRuns
import TraversalSql.Proofs.Stacks

/-!
# What a traversal can be refused for

Planning has many ways to fail, and most of them are there for plans that do not hang together: a
path without nodes, a table without a join key, a node that no segment reads, a search that the
dialect lacks. A traversal that goes through fusion meets none of these. What is left is what its
author can get wrong, and `Run.Mistake` lists it: a move from the wrong kind of element, a sort key
that selects a label, and a full-text search for no word.
-/

set_option autoImplicit false

namespace TraversalSql

open QueryTree

/-! ## 1. Conditions -/

theorem map_error {ε α β : Type} {x : Except ε α} {f : α → β} {e : ε} (h : x.map f = .error e) :
    x = .error e := by
  cases x with
  | error e' =>
    cases h
    rfl
  | ok a => cases h

theorem Dialect.fullTextCondition_error {d : Dialect} {column query : String} {e : SqlError}
    (hd : d.supportsFullText = true)
    (h : d.fullTextCondition column query = .error e) :
    Text.words query = [] ∧ e = .untranslatable (.emptySearch query) := by
  simp only [Dialect.fullTextCondition, hd, if_true] at h
  split at h
  · rename_i hwords
    cases h
    exact ⟨hwords, rfl⟩
  · cases h

namespace Predicate

variable {d : Dialect} {column : String} {e : SqlError}

/-- A full-text search for the query is part of the predicate. -/
inductive Searches (query : String) : Predicate → Prop
  | here (configuration : Option String) : Searches query (.fullText query configuration)
  | and {p : Predicate} {ps : List Predicate} : p ∈ ps → Searches query p → Searches query (.and ps)
  | or {p : Predicate} {ps : List Predicate} : p ∈ ps → Searches query p → Searches query (.or ps)

mutual

/-- A comparison with ids always has a condition. -/
theorem condition_of_testsIds (p : Predicate) (hp : p.testsIds = true) :
    ∃ f, p.condition d column = .ok f := by
  match p with
  | .compare op v => cases op <;> cases v <;> exact ⟨_, rfl⟩
  | .within _ | .without _ | .between _ _ | .inside _ _ | .outside _ _ => exact ⟨_, rfl⟩
  | .and ps | .or ps =>
    obtain ⟨fs, hfs⟩ := conditions_of_allTestIds ps hp
    simp only [condition, hfs]
    exact ⟨_, rfl⟩
  | .present | .absent | .text _ _ | .fullText _ _ | .lambda _ => cases hp

theorem conditions_of_allTestIds (ps : List Predicate) (hps : allTestIds ps = true) :
    ∃ fs, conditions d column ps = .ok fs := by
  match ps with
  | [] => exact ⟨_, rfl⟩
  | p :: ps =>
    obtain ⟨hfirst, hrest⟩ := Bool.and_eq_true_iff.mp hps
    obtain ⟨f, hf⟩ := condition_of_testsIds p hfirst
    obtain ⟨fs, hfs⟩ := conditions_of_allTestIds ps hrest
    simp only [conditions, hf, hfs, bind, Except.bind]
    exact ⟨_, rfl⟩

end

mutual

/-- A translatable predicate has a condition, unless it searches for no word. -/
theorem condition_error (p : Predicate) (hp : p.isTranslatable d.supportsFullText = true)
    (h : p.condition d column = .error e) : ∃ query, p.Searches query ∧
      d.supportsFullText = true ∧ Text.words query = [] ∧
      e = .untranslatable (.emptySearch query) := by
  match p with
  | .compare op v => cases op <;> cases v <;> cases h
  | .present | .absent | .within _ | .without _ | .between _ _ | .inside _ _ | .outside _ _
  | .text _ _ => cases h
  | .fullText query configuration =>
    obtain ⟨hwords, he⟩ := Dialect.fullTextCondition_error hp h
    exact ⟨query, .here configuration, hp, hwords, he⟩
  | .lambda _ => cases hp
  | .and ps =>
    have hps := map_error h
    obtain ⟨q, hq, query, hs, hcause⟩ := conditions_error ps (Bool.and_eq_true_iff.mp hp).2 hps
    exact ⟨query, .and hq hs, hcause⟩
  | .or ps =>
    have hps := map_error h
    obtain ⟨q, hq, query, hs, hcause⟩ := conditions_error ps (Bool.and_eq_true_iff.mp hp).2 hps
    exact ⟨query, .or hq hs, hcause⟩

theorem conditions_error (ps : List Predicate)
    (hps : allTranslatable d.supportsFullText ps = true)
    (h : conditions d column ps = .error e) : ∃ p ∈ ps, ∃ query, p.Searches query ∧
      d.supportsFullText = true ∧ Text.words query = [] ∧
      e = .untranslatable (.emptySearch query) := by
  match ps with
  | [] => cases h
  | p :: ps =>
    obtain ⟨hfirst, hrest⟩ := Bool.and_eq_true_iff.mp hps
    simp only [conditions, bind, Except.bind] at h
    cases hf : p.condition d column with
    | error e' =>
      rw [hf] at h
      cases h
      exact ⟨p, List.mem_cons_self, condition_error p hfirst hf⟩
    | ok f =>
      rw [hf] at h
      cases hfs : conditions d column ps with
      | error e' =>
        rw [hfs] at h
        cases h
        obtain ⟨q, hq, hcause⟩ := conditions_error ps hrest hfs
        exact ⟨q, List.mem_cons_of_mem _ hq, hcause⟩
      | ok fs =>
        rw [hfs] at h
        cases h

end

end Predicate

/-! ## 2. Runs -/

namespace Run

variable {T : Topology} {settings : Settings} {run : Run} {n : Numbering} {e : SqlError}

/-- What the author of a run can have got wrong, with the error it gives. -/
inductive Mistake (run : Run) (d : Dialect) : SqlError → Prop
  | kinds {k : Nat} {prev next : Hop} {m : Move} (parent child : String) :
      run.hops[k]? = some prev → run.hops[k + 1]? = some next → next.kind = .move m →
      m.source ≠ prev.kind.target → Mistake run d (.tree (.kindAlternation parent child))
  | label {h : Hop} {s : SortSpec} {name : String} {property : Option String} :
      h ∈ run.hops → s ∈ h.order → s.key = .select name property →
      Mistake run d (.unknownLabel name)
  | search {h : Hop} {f : Filter} {query : String} :
      h ∈ run.hops → f ∈ h.filters → f.predicate.Searches query → d.supportsFullText = true →
      Text.words query = [] → Mistake run d (.untranslatable (.emptySearch query))

/-- A well-read run starts at a root, and has its hops at their places. -/
theorem placed_of_wellRead {fullText : Bool} (hw : WellRead fullText run.hops) :
    ∃ hop rest, run.Placed hop rest := by
  obtain ⟨hop, rest, hhops⟩ := List.exists_cons_of_ne_nil hw.nonempty
  refine ⟨hop, rest, hhops, ?_, fun hi => (hw.hop hi).depth⟩
  have hfirst : run.hops[0]? = some hop := by rw [hhops]; rfl
  exact (hw.hop hfirst).kind

/-- A run has its trees, unless it moves from the wrong kind of element. -/
theorem trees_mistake (hc : T.Consistent) {fullText : Bool} (hw : WellRead fullText run.hops)
    {e : TreeError} (h : run.trees settings T = .error e) :
    run.Mistake settings.dialect (.tree e) := by
  obtain ⟨hop, rest, hr⟩ := placed_of_wellRead hw
  obtain ⟨k, next, prev, source, hnext, hprev, hkind, hknown, herror⟩ := hr.trees_error hc h
  have hnext' : run.hops[k + 1]? = some next := by rw [hr.hops]; exact hnext
  rw [← hr.hops] at hprev
  -- behind the root there are moves only, and a move is refused for the kind alone
  have hmove := (hw.hop hnext').kind
  cases hm : next.kind with
  | graphRoot k => simp [hm, HopKind.isRoot] at hmove
  | incomingRoot k => simp [hm, HopKind.isRoot] at hmove
  | move m =>
    obtain ⟨hsame, hother⟩ := Hop.arrivals_of_move hc hm hknown
    by_cases hs : m.source = source.kind
    · obtain ⟨as, hok⟩ := hsame hs
      rw [hok] at herror
      cases herror
    · obtain ⟨parent, child, hrefused⟩ := hother hs
      rw [hrefused] at herror
      cases herror
      rw [hkind] at hs
      exact .kinds parent child hprev hnext' hm hs

/-- A statement is refused for what a hop of its run asks for. -/
theorem mistake_of_refuses {t : QueryTree}
    (hw : WellRead settings.dialect.supportsFullText run.hops)
    (hs : (⟨t, settings⟩ : Composer).Sound T run.hops)
    (h : (⟨t, settings⟩ : Composer).Refuses e) : run.Mistake settings.dialect e := by
  cases h with
  | label hid hmem hkey =>
    obtain ⟨h, hh, hmem⟩ := (hs.fits.node hid.node).order _ hmem
    exact .label hh hmem hkey
  | sortKey hid hmem hkey =>
    obtain ⟨h, hh, hmem⟩ := (hs.fits.node hid.node).order _ hmem
    obtain ⟨i, hi⟩ := List.getElem?_of_mem hh
    rw [(hw.hop hi).order _ hmem] at hkey
    cases hkey
  | filter hid hmem herror =>
    have hfits := hs.fits.node hid.node
    rcases List.mem_append.mp hmem with hmem | hmem
    · obtain ⟨p, hp, rfl⟩ := List.mem_map.mp hmem
      obtain ⟨h, hh, q, hq, hresolved⟩ := hfits.ids p hp
      obtain ⟨i, hi⟩ := List.getElem?_of_mem hh
      obtain ⟨f, hok⟩ := Predicate.condition_of_testsIds p ((hw.hop hi).ids q hq _ p hresolved)
      rw [hok] at herror
      cases herror
    · obtain ⟨f, hf, rfl⟩ := List.mem_map.mp hmem
      obtain ⟨_, h, hh, hf⟩ := hfits.filters f hf
      obtain ⟨i, hi⟩ := List.getElem?_of_mem hh
      obtain ⟨query, hsearch, hd, hwords, rfl⟩ :=
        Predicate.condition_error f.predicate ((hw.hop hi).filters f hf) herror
      exact .search hh hf hsearch hd hwords

theorem plan_mistake (hc : T.Consistent)
    (hw : WellRead settings.dialect.supportsFullText run.hops)
    (h : run.plan settings T n = .error e) : run.Mistake settings.dialect e := by
  rcases plan_error hc h with
    ⟨e, htrees, rfl⟩ | ⟨trees, queue, htrees, hqueue, x, hx, b, strip, herror⟩
  · exact trees_mistake hc hw htrees
  · obtain ⟨ht, phase, id, hid, hstack⟩ := mem_stacksOf hqueue hx
    have hsound := sound_of_trees hc htrees ht
    have hspec := statement_spec hsound
      (hsound.wellFormed.isStack settings phase (live_of_mem_ends hid)) b strip
    rw [← hstack, herror] at hspec
    exact mistake_of_refuses hw hsound hspec

end Run

/-! ## 3. Traversals -/

theorem planRuns_error {settings : Settings} {T : Topology} {e : SqlError} :
    ∀ {runs : List Run} {n : Numbering}, planRuns settings T n runs = .error e →
      ∃ run ∈ runs, ∃ n, run.plan settings T n = .error e := by
  intro runs
  induction runs with
  | nil =>
    intro n h
    cases h
  | cons run runs ih =>
    intro n h
    simp only [planRuns, bind, Except.bind] at h
    split at h
    · rename_i e' hplan
      cases h
      exact ⟨run, List.mem_cons_self, n, hplan⟩
    · split at h
      · rename_i e' hrest
        cases h
        obtain ⟨run', hmem, hcause⟩ := ih hrest
        exact ⟨run', List.mem_cons_of_mem _ hmem, hcause⟩
      · cases h

/-- **Planning fails only for a mistake.** Whatever the settings and however the topology was
built, a traversal that was fused has its plans, or one of its runs shows what is wrong. -/
theorem Traversal.plans_or_mistake (t : Traversal)
    (ht : ∀ n ∈ t.steps, ∀ run, n.step ≠ .fused run) {T : Topology} (hT : T.Built)
    (settings : Settings) :
    (∃ plans, (t.fuse settings.fusion).plans settings T = .ok plans) ∨
      ∃ e, (t.fuse settings.fusion).plans settings T = .error e ∧
        ∃ run ∈ (t.fuse settings.fusion).runs, run.Mistake settings.dialect e := by
  cases h : (t.fuse settings.fusion).plans settings T with
  | ok plans => exact Or.inl ⟨plans, rfl⟩
  | error e =>
    obtain ⟨run, hrun, n, hplan⟩ := planRuns_error h
    have hw : WellRead settings.dialect.supportsFullText run.hops :=
      t.fuse_wellRead ht settings.fusion run hrun
    exact Or.inr ⟨e, rfl, run, hrun, Run.plan_mistake hT.consistent hw hplan⟩

namespace People

/-- Whom everyone knows, sorted by a label that nothing has. -/
def sortedByStranger : Traversal where
  steps := [.plain (.graph .vertex []), .plain (.move (.follow .outgoing [] .vertex)),
    .plain (.order [⟨.select "stranger" none, .asc⟩])]

theorem stranger_is_mistake :
    (∀ n ∈ sortedByStranger.steps, ∀ run, n.step ≠ .fused run) ∧ topology.Built ∧
      (sortedByStranger.fuse ({} : Settings).fusion).plans {} topology
        = .error (.unknownLabel "stranger") ∧
      ∃ run ∈ (sortedByStranger.fuse ({} : Settings).fusion).runs,
        run.Mistake .sqlite (.unknownLabel "stranger") := by
  have hplain : ∀ n ∈ sortedByStranger.steps, ∀ run, n.step ≠ .fused run := by
    simp [sortedByStranger, StepNode.plain]
  have herror : (match (sortedByStranger.fuse ({} : Settings).fusion).plans {} topology with
      | .ok _ => none
      | .error e => some e) = some (.unknownLabel "stranger") := by
    decide +kernel
  refine ⟨hplain, built, ?_⟩
  rcases sortedByStranger.plans_or_mistake hplain built {} with ⟨plans, hok⟩ | ⟨e, he, hmistake⟩
  · rw [hok] at herror
    cases herror
  · rw [he] at herror
    cases herror
    exact ⟨he, hmistake⟩

end People

end TraversalSql
