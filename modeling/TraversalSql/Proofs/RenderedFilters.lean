import TraversalSql.Proofs.HiddenLiterals
import TraversalSql.Proofs.Refusals

/-!
# Filters that can be expressed

Whether a statement can express a filter is decided twice: when a hop takes the filter over, and
when its condition is written. The two agree, but for a full-text search without a word. A hop
takes it over where the dialect has full-text search, there is no condition for it, and with one
such filter a traversal has no plan at all, though an interpreter was there to be left with it.
-/

set_option autoImplicit false

namespace TraversalSql

/-! ## 1. Conditions -/

namespace Predicate

variable {d : Dialect} {column query : String} {p : Predicate} {ps : List Predicate} {c : Fragment}

/-- A full-text search without a word is part of the predicate. -/
def SearchesNothing (p : Predicate) : Prop := ∃ query, p.Searches query ∧ Text.words query = []

theorem exists_condition_of_mem {fs : List Fragment} (h : conditions d column ps = .ok fs)
    (hp : p ∈ ps) : ∃ f, p.condition d column = .ok f := by
  induction ps generalizing fs with
  | nil => cases hp
  | cons q ps ih =>
    obtain ⟨f, hf, h⟩ := bind_ok h
    obtain ⟨rest, hrest, _⟩ := bind_ok h
    rcases List.mem_cons.mp hp with rfl | hp
    · exact ⟨f, hf⟩
    · exact ih hrest hp

/-- A predicate with a condition searches for words only. -/
theorem words_of_condition (hs : p.Searches query) (h : p.condition d column = .ok c) :
    Text.words query ≠ [] := by
  induction hs generalizing c with
  | here configuration =>
    intro hwords
    simp only [condition, Dialect.fullTextCondition, hwords] at h
    split at h <;> cases h
  | and hp _ ih =>
    obtain ⟨fs, hfs, _⟩ := map_ok h
    obtain ⟨f, hf⟩ := exists_condition_of_mem hfs hp
    exact ih hf
  | or hp _ ih =>
    obtain ⟨fs, hfs, _⟩ := map_ok h
    obtain ⟨f, hf⟩ := exists_condition_of_mem hfs hp
    exact ih hf

end Predicate

theorem Dialect.eq_clickhouse {d : Dialect} (h : d.supportsFullText = true) : d = .clickhouse := by
  cases d with
  | sqlite => cases h
  | clickhouse => rfl

namespace Filter

variable {d : Dialect} {f : Filter} {b : Bucket} {column : String}

/-- A filter that a hop takes over, not for its label, lacks a condition only for a search. -/
theorem condition_error {e : SqlError} (hb : f.bucket? d.supportsFullText = some b)
    (hlabel : b ≠ .label) (h : f.predicate.condition d column = .error e) :
    ∃ query, f.predicate.Searches query ∧ d.supportsFullText = true ∧ Text.words query = [] ∧
      e = .untranslatable (.emptySearch query) := by
  by_cases hid : b = .id
  · subst hid
    obtain ⟨c, hc⟩ := Predicate.condition_of_testsIds f.predicate (Filter.testsIds_of_bucket hb)
    rw [hc] at h
    cases h
  · refine Predicate.condition_error f.predicate (Filter.isTranslatable_of_bucket ?_ ?_ ?_) h
    · rw [hb]
      rfl
    · rwa [hb, ne_eq, Option.some.injEq]
    · rwa [hb, ne_eq, Option.some.injEq]

/-- It has a condition if and only if it does not search for nothing. -/
theorem exists_condition_iff (hb : f.bucket? d.supportsFullText = some b) (hlabel : b ≠ .label) :
    (∃ c, f.predicate.condition d column = .ok c) ↔ ¬ f.predicate.SearchesNothing := by
  constructor
  · rintro ⟨c, hc⟩ ⟨query, hsearch, hwords⟩
    exact Predicate.words_of_condition hsearch hc hwords
  · intro hnothing
    cases h : f.predicate.condition d column with
    | ok c => exact ⟨c, rfl⟩
    | error e =>
      obtain ⟨query, hsearch, _, hwords, _⟩ := condition_error hb hlabel h
      exact absurd ⟨query, hsearch, hwords⟩ hnothing

end Filter

/-! ## 2. Plans -/

/-- The error says that there is no SQL for a predicate or a sort key. -/
def SqlError.IsInexpressible : SqlError → Prop
  | .untranslatable _ | .fullTextUnsupported _ => True
  | _ => False

/-- A mistake for which there is no SQL is a search for nothing. -/
theorem Run.Mistake.search_of_inexpressible {run : Run} {d : Dialect} {e : SqlError}
    (h : run.Mistake d e) (he : e.IsInexpressible) :
    ∃ hop ∈ run.hops, ∃ f ∈ hop.filters, ∃ query, f.predicate.Searches query ∧
      d.supportsFullText = true ∧ Text.words query = [] ∧
      e = .untranslatable (.emptySearch query) := by
  cases h with
  | kinds => cases he
  | label => cases he
  | search hhop hf hsearch hd hwords => exact ⟨_, hhop, _, hf, _, hsearch, hd, hwords, rfl⟩

/-- **Fused filters can be expressed, unless they search for nothing.** A filter that a hop takes
over, not for its label, has a condition on every column if and only if no full-text search without
a word is part of it. Planning a fused traversal fails for want of SQL only where a filter of one
of its runs has such a search, in the dialect that has full-text search. -/
theorem Filter.carried_rendered_iff (d : Dialect) :
    (∀ (f : Filter) (b : Bucket) (column : String),
      f.bucket? d.supportsFullText = some b → b ≠ .label →
        ((∃ c, f.predicate.condition d column = .ok c) ↔ ¬ f.predicate.SearchesNothing) ∧
        ∀ e, f.predicate.condition d column = .error e → d = .clickhouse ∧
          ∃ query, f.predicate.Searches query ∧ Text.words query = [] ∧
            e = .untranslatable (.emptySearch query)) ∧
    ∀ (t : Traversal) (T : Topology) (settings : Settings) (e : SqlError),
      (∀ n ∈ t.steps, ∀ run, n.step ≠ .fused run) → T.Built → settings.dialect = d →
      (t.fuse settings.fusion).plans settings T = .error e → e.IsInexpressible →
        d = .clickhouse ∧ ∃ run ∈ (t.fuse settings.fusion).runs, ∃ hop ∈ run.hops,
          ∃ f ∈ hop.filters, ∃ query, f.predicate.Searches query ∧ Text.words query = [] ∧
            e = .untranslatable (.emptySearch query) := by
  constructor
  · intro f b column hb hlabel
    refine ⟨exists_condition_iff hb hlabel, fun e he => ?_⟩
    obtain ⟨query, hsearch, hd, hwords, rfl⟩ := condition_error hb hlabel he
    exact ⟨Dialect.eq_clickhouse hd, query, hsearch, hwords, rfl⟩
  · rintro t T settings e ht hT rfl herror he
    obtain ⟨run, hrun, n, hplan⟩ := planRuns_error herror
    have hw : WellRead settings.dialect.supportsFullText run.hops :=
      t.fuse_wellRead ht settings.fusion run hrun
    obtain ⟨hop, hhop, f, hf, query, hsearch, hd, hwords, rfl⟩ :=
      (Run.plan_mistake hT.consistent hw hplan).search_of_inexpressible he
    exact ⟨Dialect.eq_clickhouse hd, run, hrun, hop, hhop, f, hf, query, hsearch, hwords, rfl⟩

/-! ## 3. Guests with a blank in their name -/

namespace Guests

theorem built : topology.Built := by
  have hguest : Topology.addVertexLabel {} "public" "Guest" (.ofList [("name", .string)])
      = .ok (guest, topology) := rfl
  exact .vertex .empty hguest

/-- The guests whose names have every word of a query. -/
def searched (query : String) : Filter := ⟨"name", .fullText query none⟩

def search (query : String) : Traversal where
  steps := [.plain (.graph .vertex []), .plain (.has [searched query])]

def clickhouse : Settings := { dialect := .clickhouse }

theorem plain_search (query : String) :
    ∀ n ∈ (search query).steps, ∀ run, n.step ≠ .fused run := by
  simp [search, StepNode.plain]

theorem words_blank : Text.words " " = [] := by decide +kernel

theorem condition_blank (column : String) :
    (searched " ").predicate.condition .clickhouse column
      = .error (.untranslatable (.emptySearch " ")) := by
  simp only [searched, Predicate.condition, Dialect.fullTextCondition, words_blank]
  rfl

theorem plans_blank : ((search " ").fuse clickhouse.fusion).plans clickhouse topology
    = .error (.untranslatable (.emptySearch " ")) := by
  have herror : (match ((search " ").fuse clickhouse.fusion).plans clickhouse topology with
      | .ok _ => none
      | .error e => some e) = some (.untranslatable (.emptySearch " ")) := by
    decide +kernel
  split at herror
  · cases herror
  · rename_i e he
    cases herror
    exact he

/-- A hop takes over the search for a blank, which has no condition, and there is no plan. All the
guests, with whom an interpreter could have begun, have one. -/
theorem blank_not_rendered :
    (searched " ").bucket? Dialect.clickhouse.supportsFullText = some .text ∧
    (¬ ∃ c, (searched " ").predicate.condition .clickhouse "name" = .ok c) ∧
    ((search " ").fuse clickhouse.fusion).plans clickhouse topology
      = .error (.untranslatable (.emptySearch " ")) ∧
    ∃ plans, (Traversal.fuse ⟨[.plain (.graph .vertex [])], false⟩ clickhouse.fusion).plans
      clickhouse topology = .ok plans := by
  refine ⟨rfl, ?_, plans_blank, ?_⟩
  · rintro ⟨c, hc⟩
    rw [condition_blank] at hc
    cases hc
  · have hok : ((Traversal.fuse ⟨[.plain (.graph .vertex [])], false⟩ clickhouse.fusion).plans
        clickhouse topology).toOption.isSome = true := by
      decide +kernel
    obtain ⟨plans, hplans⟩ := Option.isSome_iff_exists.mp hok
    exact ⟨plans, eq_ok_of_toOption hplans⟩

/-- A search for two words has a condition, and the search for a blank is what was wrong. -/
theorem words_rendered :
    (∃ c, (searched "Ann Lee").predicate.condition .clickhouse "name" = .ok c) ∧
    ∃ run ∈ ((search " ").fuse clickhouse.fusion).runs, ∃ hop ∈ run.hops, ∃ f ∈ hop.filters,
      f.predicate.Searches " " := by
  obtain ⟨hfilters, hplans⟩ := Filter.carried_rendered_iff .clickhouse
  constructor
  · obtain ⟨hiff, _⟩ := hfilters (searched "Ann Lee") .text "name" rfl nofun
    refine hiff.mpr ?_
    rintro ⟨query, hsearch, hwords⟩
    cases hsearch
    revert hwords
    decide +kernel
  · obtain ⟨_, run, hrun, hop, hhop, f, hf, query, hsearch, _, he⟩ :=
      hplans (search " ") topology clickhouse _ (plain_search " ") built rfl plans_blank trivial
    cases he
    exact ⟨run, hrun, hop, hhop, f, hf, hsearch⟩

end Guests

end TraversalSql
