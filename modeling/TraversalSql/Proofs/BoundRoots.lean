import TraversalSql.Proofs.BulkJoins
import TraversalSql.Proofs.Fitting
import TraversalSql.Proofs.IdLiterals
import TraversalSql.Rows.Assembler

/-!
# Roots that are bound to ids

The only filter on a root's id, if it lists ids, is used in one of two ways. As long as the list is
not longer than a threshold, the root is bound to the ids and the statement runs once for each.
Beyond it the filter stays where it is, and the statement runs once. So the length of a list
decides on the way, and the rows of the root should not depend on it.

They do in one respect. The list is not freed of repetitions before it is run through, whatever
way the literals spell the ids, while a filter keeps a row once however often its id is listed.
`Run.bound_selected` says exactly how often each row comes.
-/

set_option autoImplicit false

namespace TraversalSql

open QueryTree

/-! ## 1. The rows of a root -/

/-- The root ids that a statement with the binding is run for, one run for each. -/
def RootBinding.runs : RootBinding → List (Option Int64)
  | unconstrained => [none]
  | ids is => is.map some
  | incoming => []

/-- A statement that reads no earlier elements is scheduled once for each of these ids, in their
order. -/
theorem Assembler.runs_of_executionsOf {σ : Type} {a : Assembler σ} {index : Nat} {s : Statement}
    {es : List Execution} (h : a.executionsOf index s = .ok es) (hb : s.rootBinding ≠ .incoming) :
    es.map Execution.rootId = s.rootBinding.runs := by
  unfold executionsOf at h
  split at h
  · rename_i hs
    cases h
    rw [hs]
    rfl
  · rename_i is hs
    cases h
    rw [hs, RootBinding.runs, List.map_map]
    rfl
  · exact absurd ‹_› hb

/-- The verdict of a condition on an id column: an equality, or what a membership test says. -/
def Fragment.idVerdict? (column : String) (x : Value) : Fragment → Option Verdict
  | [.text s, .param (.value v)] =>
    if s = column ++ " " ++ Comparison.eq.sqlOperator ++ " " then some (x.equals v) else none
  | f => f.verdict? column x

namespace Composer

variable (c : Composer)

/-- How often a filter, as it is written, keeps a row whose column has the value: as a condition,
or through a temporary table. -/
def timesKept? (column : ColumnRef) (p : Predicate) (x : Value) : Option Nat :=
  match (c.addFilter ⟨[], column.table, [], [], []⟩ (column, p)).run ⟨[], 0, 0⟩ with
  | .ok (⟨_, _, _, [], [.filter _ f]⟩, _) =>
    (f.idVerdict? (column.sql c.settings.dialect) x).map fun verdict =>
      if verdict = some true then 1 else 0
  | .ok (⟨_, _, _, [j], conditions⟩, _) =>
    SqlWriter.kept? ⟨c.settings.dialect, ∅⟩ j x conditions
  | _ => none

/-- How often the filters on the id of a node keep a row. -/
def timesById? (n : QueryNode) (row : Row) : Option Nat :=
  (n.idPredicates.mapM fun p => c.timesKept? ⟨n.table, .id⟩ p (.int row.id)).map List.prod

variable {T : Topology} (g : StoredGraph T) (passes : Filter → Row → Bool)

/-- The rows of a node's table that pass the filters on properties; what these say of a row is left
open. -/
def passing (n : QueryNode) : List Row :=
  (g.rows n.table).filter fun row => n.filters.all (passes · row)

/-- The rows that the tree's root lets through when its statement runs for a root id, each as often
as it comes. -/
def rootRows? (rootId : Option Int64) : Option (List Row) := do
  let n ← c.tree.nodes[root]?
  let rows := (passing g passes n).filter fun row => rootId.all (· == row.id)
  (rows.mapM fun row => (c.timesById? n row).map (List.replicate · row)).map List.flatten

/-- The rows that the root lets through in all runs of the statement. -/
def selected? : Option (List Row) :=
  (c.tree.binding.runs.mapM (c.rootRows? g passes)).map List.flatten

end Composer

/-- The tree with the root hop's filters on the id in place of a list of ids to run for. -/
def QueryTree.unbound (t : QueryTree) (hop : Hop) : QueryTree :=
  { t.modify root fun n => { n with
      idPredicates := hop.idPredicates.filterMap (Predicate.resolveIds? n.table) } with
    binding := .unconstrained }

/-! ## 2. Filters that list ids -/

/-- No id comes twice if no two literals denote the same row. -/
theorem Value.nodup_filterMap_idIn_iff {table : Table} {vs : List Value} :
    (vs.filterMap (Value.idIn? table)).Nodup ↔
      vs.Pairwise fun v w => ∀ i, v.Denotes table i → ¬ w.Denotes table i := by
  rw [List.Nodup, List.pairwise_filterMap]
  refine List.Pairwise.iff fun v w => ?_
  simp only [Value.idIn?_eq_some_iff]
  constructor
  · intro h i hv hw
    exact h i hv i hw rfl
  · rintro h i hv j hw rfl
    exact h i hv hw

theorem Value.equals_int_iff {i k : Int64} :
    (Value.int k).equals (.int i) = some true ↔ k = i := by
  have horder : (Value.int k).order (.int i) = .eq ↔ Value.int k = .int i :=
    Value.order_eq_iff trivial trivial
  simpa [Value.equals, Value.isNull, Value.stored] using horder

theorem Fragment.idVerdict?_memberCondition {column : String} {x : Value} (vs : List Value) :
    (Predicate.memberCondition column false vs).idVerdict? column x = some (x.isIn vs) := by
  have hlast (p : Parameter) (s : String) :
      Predicate.memberCondition column false vs ≠ [.text s, .param p] := by
    intro h
    have hend := congrArg List.getLast? h
    unfold Predicate.memberCondition at hend
    split at hend
    · simp at hend
    · rw [List.getLast?_concat] at hend
      simp at hend
  unfold idVerdict?
  split
  · rename_i heq
    exact absurd heq (hlast _ _)
  · exact Fragment.verdict?_memberCondition false vs

namespace Composer

variable {c : Composer} {column : ColumnRef} {ids : List Int64} {k : Int64}

theorem timesKept?_one (i : Int64) :
    c.timesKept? column (.compare .eq (.int i)) (.int k) = some (if k ∈ [i] then 1 else 0) := by
  have hrun : (c.addFilter ⟨[], column.table, [], [], []⟩ (column, .compare .eq (.int i))).run
      ⟨[], 0, 0⟩ = .ok (⟨[], column.table, [], [], [.filter column
        [.text (column.sql c.settings.dialect ++ " " ++ Comparison.eq.sqlOperator ++ " "),
          .value (.int i)]]⟩, ⟨[], 0, 0⟩) := rfl
  simp only [timesKept?, hrun, Fragment.idVerdict?, Piece.value, if_true, Option.map_some,
    Value.equals_int_iff, List.mem_singleton]

theorem timesKept?_many :
    c.timesKept? column (.within (ids.map .int)) (.int k) = some (if k ∈ ids then 1 else 0) := by
  have hfree : ∀ v ∈ ids.map Value.int, v.isFloat = false := by
    intro v hv
    obtain ⟨i, -, rfl⟩ := List.mem_map.mp hv
    rfl
  have hlisted : (∃ v ∈ ids.map Value.int, (Value.int k).equals v = some true) ↔ k ∈ ids := by
    simp [Value.equals_int_iff]
  have hlong := Predicate.bulk?_eq (p := .within (ids.map .int)) rfl c.settings.bulkThreshold
  split at hlong
  · -- through a temporary table, which holds each id once
    obtain ⟨bulk, w', hkind, hvalues, hrun⟩ :=
      c.addFilter_bulk ⟨[], column.table, [], [], []⟩ column hlong ⟨[], 0, 0⟩
    let j : BulkJoin := ⟨bulk, column⟩
    have hclear : ¬ (Value.int k).Blurs (ids.map .int) := by
      rintro ⟨f, _, _, hf, _⟩
      cases hf
    simp only [timesKept?, hrun, List.nil_append]
    rw [SqlWriter.kept?_within hkind, Option.some.injEq]
    split
    · rename_i hmem
      exact j.length_matching_eq_one hfree hvalues (hlisted.mpr hmem) hclear
    · rename_i hmem
      rw [(j.matching_eq_nil_iff hfree hvalues).mpr (mt hlisted.mp hmem)]
      rfl
  · have hrun : (c.addFilter ⟨[], column.table, [], [], []⟩ (column, .within (ids.map .int))).run
        ⟨[], 0, 0⟩ = .ok (⟨[], column.table, [], [], [.filter column
          (Predicate.memberCondition (column.sql c.settings.dialect) false (ids.map .int))]⟩,
            ⟨[], 0, 0⟩) := by
      simp only [addFilter, hlong]
      rfl
    simp only [timesKept?, hrun, Fragment.idVerdict?_memberCondition, Option.map_some,
      Value.isIn_eq_true_iff, hlisted]

/-- A filter that lists ids keeps the rows with these ids, once, in whichever way it is written. -/
theorem timesKept?_lists {q : Predicate} (h : q.Lists ids) :
    c.timesKept? column q (.int k) = some (if k ∈ ids then 1 else 0) := by
  cases h with
  | one i => exact timesKept?_one i
  | many => exact timesKept?_many

end Composer

/-! ## 3. Lists of rows -/

/-- Copies of each row of a list, of which a row has one or none, are a part of the list. -/
theorem flatten_copies (keeps : Row → Prop) [DecidablePred keeps] (rows : List Row) :
    (rows.map fun row => List.replicate (if keeps row then 1 else 0) row).flatten
      = rows.filter keeps := by
  induction rows with
  | nil => rfl
  | cons row rows ih => by_cases h : keeps row <;> simp [h, ih]

section Lookups

variable (rows : List Row) (ids : List Int64)

/-- The rows with ids of a list, each as often as its id is listed. -/
def copied : List Row := rows.flatMap fun row => List.replicate (ids.count row.id) row

theorem flatMap_single (row : Row) :
    (ids.flatMap fun i => if i = row.id then [row] else [])
      = List.replicate (ids.count row.id) row := by
  induction ids with
  | nil => rfl
  | cons i ids ih =>
    rw [List.flatMap_cons, ih]
    by_cases h : i = row.id
    · rw [if_pos h, h, List.count_cons_self]
      rfl
    · rw [if_neg h, List.count_cons_of_ne (by simpa using h)]
      rfl

/-- Looking rows up for one id after the other finds a row as often as its id is listed. -/
theorem lookups_perm : (ids.flatMap fun i => rows.filter fun row => i == row.id).Perm
    (copied (rows.filter (·.id ∈ ids)) ids) := by
  induction rows with
  | nil => simp [copied]
  | cons row rows ih =>
    have hsplit : (ids.flatMap fun i => (row :: rows).filter fun row => i == row.id)
        = ids.flatMap fun i =>
          (if i = row.id then [row] else []) ++ rows.filter fun row => i == row.id := by
      refine List.flatMap_congr fun i _ => ?_
      by_cases h : i = row.id <;> simp [h]
    have hfront : copied ((row :: rows).filter (·.id ∈ ids)) ids
        = List.replicate (ids.count row.id) row ++ copied (rows.filter (·.id ∈ ids)) ids := by
      by_cases h : row.id ∈ ids
      · simp [h, copied]
      · simp [h, List.count_eq_zero_of_not_mem]
    rw [hsplit, hfront, ← flatMap_single]
    exact (List.flatMap_append_perm ids _ _).symm.trans (ih.append_left _)

theorem eq_one_of_sum {l : List Nat} (hpos : ∀ k ∈ l, 1 ≤ k) (hsum : l.sum ≤ l.length) :
    ∀ k ∈ l, k = 1 := by
  induction l with
  | nil => nofun
  | cons k l ih =>
    obtain ⟨hk, hl⟩ := List.forall_mem_cons.mp hpos
    have hle : l.length ≤ l.sum := by
      simpa using List.card_nsmul_le_sum l 1 hl
    rw [List.sum_cons, List.length_cons] at hsum
    exact List.forall_mem_cons.mpr ⟨by omega, ih hl (by omega)⟩

/-- Rows whose ids are all listed are as they were, if each is listed once. -/
theorem copied_perm_iff {rows : List Row} {ids : List Int64} (h : ∀ row ∈ rows, row.id ∈ ids) :
    (copied rows ids).Perm rows ↔ ∀ row ∈ rows, ids.count row.id = 1 := by
  constructor
  · intro hperm
    have hlen : (rows.map fun row => ids.count row.id).sum = rows.length := by
      simpa [copied, List.length_flatMap] using hperm.length_eq
    have hone := eq_one_of_sum (l := rows.map fun row => ids.count row.id) (by
      simpa [List.one_le_count_iff] using h) (by simp [hlen])
    simpa using hone
  · intro hone
    have hsame : copied rows ids = rows.flatMap fun row => [row] := by
      refine List.flatMap_congr fun row hrow => ?_
      rw [hone row hrow]
      rfl
    rw [hsame, List.flatMap_singleton']

end Lookups

/-! ## 4. Rows of both ways -/

namespace Composer

variable {T : Topology} {g : StoredGraph T} {passes : Filter → Row → Bool} {c : Composer}
  {n : QueryNode} {rootId : Option Int64} {ids : List Int64}

theorem rootRows?_eq (hn : c.tree.nodes[root]? = some n) (keeps : Row → Prop)
    [DecidablePred keeps] (htimes : ∀ row, c.timesById? n row = some (if keeps row then 1 else 0)) :
    c.rootRows? g passes rootId
      = some (((passing g passes n).filter fun row => rootId.all (· == row.id)).filter keeps) := by
  have hcopies (row : Row) : (c.timesById? n row).map (List.replicate · row)
      = some (List.replicate (if keeps row then 1 else 0) row) := by
    rw [htimes, Option.map_some]
  simp only [rootRows?, hn, Option.bind_eq_bind, Option.bind_some]
  rw [mapM_some fun row _ => hcopies row, Option.map_some, flatten_copies]

/-- A tree without filters on the root's id lets all passing rows through that a run asks for. -/
theorem selected?_bound (hn : c.tree.nodes[root]? = some n) (hids : n.idPredicates = [])
    (hb : c.tree.binding = .ids ids) :
    c.selected? g passes
      = some (ids.flatMap fun i => (passing g passes n).filter fun row => i == row.id) := by
  have hrun (i : Int64) : c.rootRows? g passes (some i)
      = some ((passing g passes n).filter fun row => i == row.id) := by
    rw [rootRows?_eq hn (fun _ => True) fun row => by simp [timesById?, hids]]
    simp
  have hruns : (ids.map some).mapM (c.rootRows? g passes)
      = some (ids.map fun i => (passing g passes n).filter fun row => i == row.id) := by
    rw [List.mapM_map]
    exact mapM_some fun i _ => hrun i
  rw [selected?, hb, RootBinding.runs, hruns, Option.map_some, List.flatMap_def]

/-- A tree whose root has one filter that lists ids selects the passing rows with these ids. -/
theorem selected?_unbound {q : Predicate} (hn : c.tree.nodes[root]? = some n)
    (hids : n.idPredicates = [q]) (hq : q.Lists ids) (hb : c.tree.binding = .unconstrained) :
    c.selected? g passes = some ((passing g passes n).filter (·.id ∈ ids)) := by
  have hrun : c.rootRows? g passes none = some ((passing g passes n).filter (·.id ∈ ids)) := by
    rw [rootRows?_eq hn (fun row => row.id ∈ ids) fun row => by
      simp [timesById?, hids, timesKept?_lists hq]]
    simp
  simp [selected?, hb, RootBinding.runs, hrun]

theorem passing_congr {m : QueryNode} (htable : m.table = n.table)
    (hfilters : m.filters = n.filters) : passing g passes m = passing g passes n := by
  rw [passing, passing, htable, hfilters]

end Composer

/-! ## 5. Runs -/

namespace Run

variable {T : Topology} {settings : Settings} {run : Run} {trees : List QueryTree} {t : QueryTree}
  {hop : Hop} {rest : List Hop} {table : Table} {binding : RootBinding} {ids : List Int64}

/-- A root is bound to the ids that its only filter lists, unless they are more than the threshold;
then it is bound to nothing. -/
theorem rootBinding_ids (h : rootBinding? settings hop table = some (.ids ids)) :
    ids ≠ [] ∧ (∃ p, hop.idPredicates = [p] ∧ p.boundIds? table = some ids) ∧
      ∀ settings' : Settings, settings'.bulkThreshold < ids.length →
        rootBinding? settings' hop table = some .unconstrained := by
  unfold rootBinding? at h
  split at h
  · cases h
  · rename_i hkind
    split at h
    · cases h
    · rename_i is hne hids
      obtain rfl : is = ids := by simpa using h
      unfold rootIds? at hids
      split at hids
      · rename_i p hp
        simp only [Option.bind_eq_bind, Option.bind_eq_some_iff] at hids
        obtain ⟨is', his, hids⟩ := hids
        obtain rfl : is' = is := by
          split at hids <;> cases hids
          rfl
        refine ⟨fun hnil => hne (by rw [hnil]), ⟨p, hp, his⟩, ?_⟩
        intro settings' hlt
        have hnone : rootIds? settings' hop table = none := by
          simp [rootIds?, hp, his, Nat.not_le.mpr hlt]
        unfold rootBinding?
        split
        · exact absurd ‹_› (hkind _)
        · rw [hnone]
      · cases hids
    · cases h

theorem trees_candidates (hhops : run.hops = hop :: rest)
    (htrees : run.trees settings T = .ok trees) :
    List.Forall₂ (fun candidate t => tree T hop rest candidate.1 candidate.2 = .ok t)
      (candidates settings T hop) trees := by
  rw [Run.trees, hhops] at htrees
  exact forall₂_of_mapM htrees

/-- Each tree of a run has one of the root hop's tables and what this is bound to. -/
theorem exists_rooted (hc : T.Consistent) (htrees : run.trees settings T = .ok trees)
    (ht : t ∈ trees) : ∃ hop rest table binding n, run.hops = hop :: rest ∧
      (table, binding) ∈ candidates settings T hop ∧ Rooted T hop table binding t n := by
  cases hhops : run.hops with
  | nil =>
    rw [Run.trees, hhops] at htrees
    cases htrees
    cases ht
  | cons hop rest =>
    obtain ⟨⟨table, binding⟩, hmem, htree⟩ :=
      exists_of_mem_right (trees_candidates hhops htrees) ht
    have hknown := ((mem_rootTables_iff hc).mp (mem_candidates_iff.mp hmem).1).2.1
    obtain ⟨n, hn⟩ := tree_rooted hc hknown htree
    exact ⟨hop, rest, table, binding, n, rfl, hmem, hn⟩

/-- Each table of the root hop that is bound to something has a tree. -/
theorem exists_tree_of_candidate (hc : T.Consistent) (hhops : run.hops = hop :: rest)
    (htrees : run.trees settings T = .ok trees)
    (hmem : (table, binding) ∈ candidates settings T hop) :
    ∃ t ∈ trees, ∃ n, Rooted T hop table binding t n := by
  obtain ⟨t, ht, htree⟩ := exists_of_mem_left (trees_candidates hhops htrees) hmem
  have hknown := ((mem_rootTables_iff hc).mp (mem_candidates_iff.mp hmem).1).2.1
  exact ⟨t, ht, tree_rooted hc hknown htree⟩

/-- **Rows of a root that is bound to ids.** The ids are those that the literals of the only filter
on the id denote, in their order, and no two are the same exactly if no two literals denote the same
row. All runs of the statement together select the rows that the filter selects where it stays a
filter, each as often as its id is listed: so they select the same rows exactly if none of these has
an id that is listed twice. A lower threshold makes the one from the other. -/
theorem bound_selected (hT : T.Built) (htrees : run.trees settings T = .ok trees) (ht : t ∈ trees)
    (hids : t.binding = .ids ids) :
    ∃ hop p vs n, run.hops.head? = some hop ∧ hop.idPredicates = [p] ∧ p.pinned? = some vs ∧
      t.nodes[root]? = some n ∧ ids = vs.filterMap (Value.idIn? n.table) ∧
      (ids.Nodup ↔ vs.Pairwise fun v w => ∀ i, v.Denotes n.table i → ¬ w.Denotes n.table i) ∧
      ∀ (g : StoredGraph T) (passes : Filter → Row → Bool) (settings' : Settings), ∃ each once,
        once = (Composer.passing g passes n).filter (·.id ∈ ids) ∧
        Composer.selected? ⟨t, settings⟩ g passes = some each ∧
        Composer.selected? ⟨t.unbound hop, settings'⟩ g passes = some once ∧
        each.Perm (copied once ids) ∧
        (each.Perm once ↔ ∀ row ∈ once, ids.count row.id = 1) ∧
        ∀ trees', run.trees settings' T = .ok trees' → settings'.bulkThreshold < ids.length →
          ∃ u ∈ trees', u.binding = .unconstrained ∧
            u.nodes[root]?.map QueryNode.table = some n.table ∧
            Composer.selected? ⟨u, settings'⟩ g passes = some once := by
  have hc := hT.consistent
  obtain ⟨hop, rest, table, binding, n, hhops, hmem, hn⟩ := exists_rooted hc htrees ht
  obtain rfl : binding = .ids ids := hn.bound.symm.trans hids
  obtain rfl := hn.place
  obtain ⟨htable, hbinding⟩ := mem_candidates_iff.mp hmem
  obtain ⟨hne, ⟨p, hp, hbound⟩, hlower⟩ := rootBinding_ids hbinding
  obtain ⟨q, hq, hlists, hpinned⟩ := Predicate.boundIds_spec hbound
  obtain ⟨vs, hvs, rfl⟩ := hpinned hne
  have hresolved : hop.idPredicates.filterMap (Predicate.resolveIds? n.table) = [q] := by
    simp [hp, hq]
  refine ⟨hop, p, vs, n, by rw [hhops]; rfl, hp, hvs, hn.node, rfl,
    Value.nodup_filterMap_idIn_iff, ?_⟩
  intro g passes settings'
  have hbare : n.idPredicates = [] := hn.ids
  have hunbound : (t.unbound hop).nodes[root]? = some { n with idPredicates := [q] } := by
    rw [QueryTree.unbound, getElem?_modify, if_pos rfl, hn.node, Option.map_some, hresolved]
  have hper : Composer.selected? ⟨t, settings⟩ g passes = some _ :=
    Composer.selected?_bound hn.node hbare hids
  have hfiltered : Composer.selected? ⟨t.unbound hop, settings'⟩ g passes
      = some ((Composer.passing g passes n).filter (·.id ∈ vs.filterMap (Value.idIn? n.table))) :=
    Composer.selected?_unbound (n := { n with idPredicates := [q] }) hunbound rfl hlists rfl
  have hlisted : ∀ row ∈ (Composer.passing g passes n).filter
      (·.id ∈ vs.filterMap (Value.idIn? n.table)), row.id ∈ vs.filterMap (Value.idIn? n.table) :=
    fun row hrow => by simpa using (List.mem_filter.mp hrow).2
  have hperm := lookups_perm (Composer.passing g passes n) (vs.filterMap (Value.idIn? n.table))
  refine ⟨_, _, rfl, hper, hfiltered, hperm, ?_, ?_⟩
  · rw [← copied_perm_iff hlisted]
    exact ⟨hperm.symm.trans, hperm.trans⟩
  · intro trees' htrees' hlt
    obtain ⟨u, hu, m, hm⟩ := exists_tree_of_candidate hc hhops htrees'
      (mem_candidates_iff.mpr ⟨htable, hlower settings' hlt⟩)
    have hmids : m.idPredicates = [q] := hm.ids.trans hresolved
    refine ⟨u, hu, hm.bound, by rw [hm.node, Option.map_some, hm.place], ?_⟩
    rw [Composer.selected?_unbound hm.node hmids hlists hm.bound,
      Composer.passing_congr hm.place (hm.filters.trans hn.filters.symm)]

end Run

namespace People

/-- The people with the ids. -/
def among (vs : List Value) : Hop := { everyone with idPredicates := [.within vs] }

/-- No filter on a property leaves a person out. -/
def anyone : Filter → Row → Bool := fun _ _ => true

/-- What the first tree of the run is bound to, and the ids of the rows that its root selects as it
is and with the filter in place of the binding. -/
def selections (vs : List Value) :
    Option (RootBinding × Option (List Int64) × Option (List Int64)) :=
  (Run.trees {} topology ⟨[among vs]⟩).toOption.bind fun trees => trees[0]?.map fun t =>
    (t.binding, (Composer.selected? ⟨t, {}⟩ graph anyone).map (·.map Row.id),
      (Composer.selected? ⟨t.unbound (among vs), {}⟩ graph anyone).map (·.map Row.id))

theorem exists_tree_among {vs : List Value} {x} (h : selections vs = some x) :
    ∃ trees t, Run.trees {} topology ⟨[among vs]⟩ = .ok trees ∧ t ∈ trees ∧ t.binding = x.1 ∧
      (Composer.selected? ⟨t, {}⟩ graph anyone).map (·.map Row.id) = x.2.1 ∧
      (Composer.selected? ⟨t.unbound (among vs), {}⟩ graph anyone).map (·.map Row.id)
        = x.2.2 := by
  unfold selections at h
  cases htrees : Run.trees {} topology ⟨[among vs]⟩ with
  | error e =>
    rw [htrees] at h
    cases h
  | ok trees =>
    rw [htrees] at h
    obtain ⟨t, ht, rfl⟩ := Option.map_eq_some_iff.mp h
    exact ⟨trees, t, rfl, List.mem_of_getElem? ht, rfl, rfl, rfl⟩

/-- Two people come once each, whichever way their ids are used. -/
theorem two_people_once : ∃ trees t each once,
    Run.trees {} topology ⟨[among [.int 1, .string "Person:2"]]⟩ = .ok trees ∧ t ∈ trees ∧
      t.binding = .ids [1, 2] ∧ Composer.selected? ⟨t, {}⟩ graph anyone = some each ∧
      Composer.selected? ⟨t.unbound (among [.int 1, .string "Person:2"]), {}⟩ graph anyone
        = some once ∧ each.Perm once := by
  have hselections : selections [.int 1, .string "Person:2"]
      = some (.ids [1, 2], some [1, 2], some [1, 2]) := by decide +kernel
  obtain ⟨trees, t, htrees, ht, hbound, _⟩ := exists_tree_among hselections
  obtain ⟨_, _, _, _, hhop, _, _, _, _, _, hselected⟩ :=
    Run.bound_selected built htrees ht hbound
  cases hhop
  obtain ⟨each, once, honce, heach, hfilter, _, hsame, _⟩ := hselected graph anyone {}
  refine ⟨trees, t, each, once, htrees, ht, hbound, heach, hfilter, hsame.mpr fun r hr => ?_⟩
  rw [honce] at hr
  exact List.count_eq_one_of_mem (by decide) (by simpa using (List.mem_filter.mp hr).2)

/-- A person whose id is listed twice comes twice, and once if the list is a filter. -/
theorem first_person_twice : ∃ trees t,
    Run.trees {} topology ⟨[among [.int 1, .int 1]]⟩ = .ok trees ∧ t ∈ trees ∧
      t.binding = .ids [1, 1] ∧ ¬ [(1 : Int64), 1].Nodup ∧
      (Composer.selected? ⟨t, {}⟩ graph anyone).map (·.map Row.id) = some [1, 1] ∧
      (Composer.selected? ⟨t.unbound (among [.int 1, .int 1]), {}⟩ graph anyone).map
        (·.map Row.id) = some [1] := by
  have hselections : selections [.int 1, .int 1] = some (.ids [1, 1], some [1, 1], some [1]) := by
    decide +kernel
  obtain ⟨trees, t, htrees, ht, hbound, heach, honce⟩ := exists_tree_among hselections
  exact ⟨trees, t, htrees, ht, hbound, by decide, heach, honce⟩

end People

end TraversalSql
