import TraversalSql.Proofs.Aliases
import TraversalSql.Proofs.Stacks

/-!
# Well-scoped statements

A database rejects a select that refers to a table it does not read, or to an alias that a
sub-select does not have. `Select.Scoped` says that a select has no such reference: columns of
tables are columns of tables in the same `FROM` clause, each of which is there once, and exported
columns are projected by the sub-select they name. Every statement of every plan is so.
-/

set_option autoImplicit false

namespace TraversalSql

open QueryTree

/-! ## 1. Scopes -/

/-- The tables of the `FROM` clause. -/
def FlatSelect.tables (s : FlatSelect) : List Table := s.source :: s.joins.map TableJoin.table

/-- The column of one of the tables, which the topology knows. -/
def ColumnRef.In (r : ColumnRef) (T : Topology) (tables : List Table) : Prop :=
  r.table ∈ tables ∧ T.HasColumn r.table r.column

/-- Each `ON` clause compares a column of a table before it with one of its own. -/
def JoinsScoped (T : Topology) (seen : List Table) : List TableJoin → Prop
  | [] => True
  | j :: js => j.left.In T seen ∧ j.right.In T [j.table] ∧ JoinsScoped T (seen ++ [j.table]) js

/-- A condition of a select is about a column of its tables, or about a temporary table that it
joins. A filter is the SQL of a predicate on that column. -/
def FlatSelect.Allows (s : FlatSelect) (T : Topology) (d : Dialect) : Condition → Prop
  | .rootId r => r.In T s.tables
  | .filter r sql => r.In T s.tables ∧ ∃ p : Predicate, p.condition d (r.sql d) = .ok sql
  | .unlisted bulk => bulk ∈ s.bulkTables

structure FlatSelect.Scoped (T : Topology) (d : Dialect) (s : FlatSelect) : Prop where
  known : ∀ t ∈ s.tables, ∃ ps, T.properties? t = some ps
  nodup : s.tables.Nodup
  columns : ∀ k ∈ s.columns, k.ref.In T s.tables
  joins : JoinsScoped T [s.source] s.joins
  bulkJoins : ∀ j ∈ s.bulkJoins, j.column.In T s.tables
  conditions : ∀ x ∈ s.conditions, s.Allows T d x

/-- Each sub-select is joined on a column that one before it projects and one that it projects
itself. -/
def LinksScoped (seen : List SubSelect) : List LinkedSelect → Prop
  | [] => True
  | l :: ls => l.left.From seen ∧ l.right.From [l.sub] ∧ LinksScoped (seen ++ [l.sub]) ls

structure ChainedSelect.Scoped (T : Topology) (d : Dialect) (s : ChainedSelect) : Prop where
  subs : ∀ sub ∈ s.subs, sub.body.Scoped T d
  links : LinksScoped [s.first] s.rest
  outputs : ∀ e ∈ s.outputs, e.From s.subs
  /-- No key is exported twice. -/
  nodup : (s.outputs.map ExportedColumn.key).Nodup

def PathSelect.Scoped (T : Topology) (d : Dialect) : PathSelect → Prop
  | flat s => s.Scoped T d
  | chained s => s.Scoped T d

/-- What the `SELECT` list of a path has aliases for. -/
def PathSelect.projects : PathSelect → List AliasKey
  | flat s => s.columns
  | chained s => s.outputs.map ExportedColumn.key

/-- A branch is joined on a column of a sub-select of the main path and one of its own, and the
column that is tested is its own, too. -/
structure AbsentBranch.Scoped (T : Topology) (d : Dialect) (main : List SubSelect)
    (b : AbsentBranch) : Prop where
  body : b.body.Scoped T d
  carried : b.carried.From main
  joined : b.joined ∈ b.body.projects
  terminal : b.terminal ∈ b.body.projects

structure Select.Scoped (T : Topology) (d : Dialect) (s : Select) : Prop where
  body : s.body.Scoped T d
  absences : ∀ b ∈ s.absences, b.Scoped T d s.body.subs
  orderBy : ∀ x ∈ s.orderBy, x.1 ∈ s.body.projects

/-- A statement whose references are all in scope, with names that tell sub-selects and columns
apart. -/
structure Statement.Scoped (T : Topology) (s : Statement) : Prop where
  select : s.select.Scoped T s.dialect
  subSelects : (s.select.numbers.map subSelectName).Nodup
  aliases : ∀ k ∈ s.select.requests, ∀ k' ∈ s.select.requests,
    s.aliases.name k = s.aliases.name k' → k = k'

/-! ## 2. Flat selects -/

namespace Composer

variable {c : Composer} {T : Topology} {hops : List Hop} {id : Nat} {nodes : List Nat}
  {columns outputs : List NodeColumn} {root : Option RootCondition} {wanted : List NodeColumn}
  {segments : List (List Nat)}

/-- The column of a filter is one of the node's table. -/
theorem Sound.filter_in (hs : c.Sound T hops) (hid : c.tree.Live id) {f : ColumnRef × Predicate}
    (hf : f ∈ c.filtersOf id) : f.1.table = c.tableAt id ∧ T.HasColumn f.1.table f.1.column := by
  have hfits := hs.fits.node hid.node
  rcases List.mem_append.mp hf with hf | hf
  · obtain ⟨p, _, rfl⟩ := List.mem_map.mp hf
    exact ⟨rfl, hs.known hid⟩
  · obtain ⟨g, hg, rfl⟩ := List.mem_map.mp hf
    exact ⟨rfl, _, hfits.properties, (hfits.filters g hg).1⟩

theorem Sound.filters_in (hs : c.Sound T hops) (hlive : ∀ id ∈ nodes, c.tree.Live id)
    {f : ColumnRef × Predicate} (hf : f ∈ nodes.flatMap c.filtersOf) :
    f.1.In T (nodes.map c.tableAt) := by
  obtain ⟨id, hid, hf⟩ := List.mem_flatMap.mp hf
  obtain ⟨htable, hcolumn⟩ := hs.filter_in (hlive id hid) hf
  exact ⟨htable ▸ List.mem_map_of_mem hid, hcolumn⟩

theorem Sound.joins_scoped (hs : c.Sound T hops) : ∀ {ids : List Nat} {a : Nat} {seen : List Table},
    c.tree.GoesDown (a :: ids) → c.tableAt a ∈ seen →
    JoinsScoped T seen (c.joinsAt (a :: ids)) := by
  intro ids
  induction ids with
  | nil =>
    intro a seen _ _
    exact trivial
  | cons b ids ih =>
    intro a seen hd ha
    have hb := hd.live b (List.mem_cons_of_mem _ List.mem_cons_self)
    obtain ⟨hl, hr⟩ := hs.has_joinAt hb (hd.parent_head rfl)
    rw [joinsAt]
    refine ⟨⟨ha, hl.2⟩, ⟨List.mem_singleton.mpr rfl, hr.2⟩, ?_⟩
    apply ih (hd.part (List.suffix_cons a _).isInfix)
    exact List.mem_append_right _ (List.mem_singleton.mpr rfl)

theorem IsFlat.scoped {s : FlatSelect} (h : c.IsFlat T root nodes columns s)
    (hs : c.Sound T hops) : s.Scoped T c.settings.dialect := by
  have htables : s.tables = nodes.map c.tableAt := h.tables
  have hlive := h.segment.down.live
  constructor
  · intro t ht
    rw [htables] at ht
    obtain ⟨id, hid, rfl⟩ := List.mem_map.mp ht
    exact hs.known (hlive id hid)
  · rw [htables]
    exact h.segment.nodup
  · intro k hk
    rw [h.columns] at hk
    obtain ⟨x, hx, rfl⟩ := List.mem_map.mp hk
    obtain ⟨hid, hhas⟩ := h.has x hx
    rw [htables]
    exact ⟨List.mem_map_of_mem hid, hhas.2⟩
  · obtain ⟨first, rest, rfl⟩ := List.exists_cons_of_ne_nil h.segment.ne_nil
    have hsource : s.source = c.tableAt first := (List.cons.inj h.tables).1
    rw [h.joins]
    exact hs.joins_scoped h.segment.down (hsource ▸ List.mem_singleton.mpr rfl)
  · intro j hj
    obtain ⟨f, hf, hcol⟩ := h.bulk j hj
    rw [htables, hcol]
    exact hs.filters_in hlive hf
  · intro x hx
    obtain ⟨more, hmore, hfilters⟩ := h.conditions
    rw [hmore] at hx
    rcases List.mem_append.mp hx with hx | hx
    · cases root with
      | none => cases hx
      | some r =>
        rw [rootAt] at hx
        split at hx
        · rename_i hr
          have hmem := List.contains_iff_mem.mp hr
          rw [List.mem_singleton.mp hx]
          refine ⟨?_, (h.segment.bound r rfl hmem).2⟩
          rw [htables]
          exact List.mem_map_of_mem hmem
        · cases hx
    · cases hfilters x hx with
      | inline hf hsql =>
        refine ⟨?_, _, hsql⟩
        rw [htables]
        exact hs.filters_in hlive hf
      | unlisted hj => exact List.mem_map_of_mem hj

/-! ## 3. Chains -/

theorem IsSub.scoped {segment : List Nat} {sub : SubSelect}
    (h : c.IsSub T root wanted segment sub) (hs : c.Sound T hops) :
    sub.body.Scoped T c.settings.dialect := by
  obtain ⟨columns, hflat, _⟩ := h
  exact hflat.scoped hs

/-- What stands before a link exports the column that it is joined on. -/
theorem Linked.scoped {left owner : Nat} {links : List LinkedSelect}
    (h : c.Linked T root wanted left owner segments links) : ∀ {seen : List SubSelect}
    {prev : SubSelect} {segment : List Nat}, prev ∈ seen → prev.number = owner →
    left ∈ segment → c.IsSub T root wanted segment prev → LinksScoped seen links := by
  induction h with
  | nil =>
    intro seen prev segment _ _ _ _
    exact trivial
  | @cons left owner first last segment segments sub links hfirst hlast hl hr hsub _ ih =>
    intro seen prev segment' hprev hnumber hleft hsub'
    refine ⟨⟨prev, hprev, hnumber, ?_⟩, ⟨sub, List.mem_singleton.mpr rfl, rfl, ?_⟩, ?_⟩
    · exact hsub'.projects hleft hl
    · exact hsub.projects (List.mem_of_mem_head? hfirst) hr
    · apply ih _ rfl (List.mem_of_getLast? hlast) hsub
      exact List.mem_append_right _ (List.mem_singleton.mpr rfl)

theorem IsChained.scoped {s : ChainedSelect} (h : c.IsChained T root wanted segments outputs s)
    (hs : c.Sound T hops) (houtputs : ∀ x ∈ outputs, x.1 ∈ segments.flatten ∧ x ∈ wanted) :
    s.Scoped T c.settings.dialect := by
  constructor
  · intro sub hsub
    obtain ⟨segment, _, hsub⟩ := exists_of_mem_right h.subs hsub
    exact hsub.scoped hs
  · obtain ⟨segment, rest, last, _, hlast, hfirst, hlinks⟩ := h.links
    exact hlinks.scoped (List.mem_singleton.mpr rfl) rfl (List.mem_of_getLast? hlast) hfirst
  · intro e he
    rw [h.outputs] at he
    obtain ⟨x, hx, rfl⟩ := List.mem_map.mp (mem_of_mem_distinctOn he)
    obtain ⟨hid, hwanted⟩ := houtputs x hx
    obtain ⟨segment, sub, hzip, _, howner, _, hkey⟩ := h.exported hid hwanted
    refine ⟨sub, (List.of_mem_zip hzip).2, ?_, hkey⟩
    rw [exportAt, howner, Option.getD_some]
  · rw [h.outputs]
    exact (nodup_distinctOn ExportedColumn.key [] _).1

theorem IsPath.scoped {p : PathSelect} (h : c.IsPath T root nodes outputs p)
    (hs : c.Sound T hops) : p.Scoped T c.settings.dialect := by
  cases h with
  | flat hflat => exact hflat.scoped hs
  | chained _ hcut houtputs hchained =>
    refine hchained.scoped hs ?_
    rw [hcut.flatten]
    exact houtputs

/-- A path projects its outputs. -/
theorem IsPath.projects {p : PathSelect} (h : c.IsPath T root nodes outputs p) {x : NodeColumn}
    (hx : x ∈ outputs) : c.keyAt x ∈ p.projects := by
  cases h with
  | flat hflat =>
    rw [PathSelect.projects, hflat.columns]
    exact List.mem_map_of_mem hx
  | @chained wanted segments s _ _ _ hchained =>
    have hmem : c.exportAt segments s.numbers x ∈ outputs.map (c.exportAt segments s.numbers) :=
      List.mem_map_of_mem hx
    obtain ⟨e, he, hkey⟩ := exists_mem_distinctOn ExportedColumn.key hmem List.not_mem_nil
    rw [PathSelect.projects, hchained.outputs]
    exact List.mem_map.mpr ⟨e, he, hkey⟩

theorem IsJoinedTo.scoped {body : PathSelect} {b : AbsentBranch} (h : c.IsJoinedTo T body b)
    (hs : c.Sound T hops) : b.Scoped T c.settings.dialect body.subs := by
  obtain ⟨frontier, wanted, l, _, habsent, hcarried⟩ := h
  refine ⟨habsent.body.scoped hs, hcarried, ?_, ?_⟩
  · rw [habsent.joined]
    exact habsent.body.projects List.mem_cons_self
  · rw [habsent.terminal]
    exact habsent.body.projects (List.mem_cons_of_mem _ List.mem_cons_self)

/-! ## 4. Statements -/

theorem IsStatement.scoped {stack : PathStack} {active : List Nat}
    {sort : List (NodeColumn × SortDirection)} {s : Statement}
    (h : c.IsStatement T stack root active outputs sort s) (hs : c.Sound T hops) :
    s.Scoped T := by
  refine ⟨⟨?_, ?_, ?_⟩, ?_, ?_⟩
  · rw [h.dialect]
    exact h.select.body.scoped hs
  · intro b hb
    rw [h.dialect]
    exact (h.select.absences b hb).scoped hs
  · intro x hx
    rw [h.select.orderBy] at hx
    obtain ⟨y, hy, rfl⟩ := List.mem_map.mp hx
    exact h.select.body.projects ((h.select.projects _).mpr (Or.inr (List.mem_map_of_mem hy)))
  · rw [h.select.numbers]
    exact List.Nodup.map subSelectName_injective List.nodup_range'
  · intro k hk k' _ hname
    exact AliasTable.name_inj ((AliasTable.ofList_spec _).1 k |>.mpr hk) hname

end Composer

/-- Every statement of a plan is well scoped. -/
theorem Run.scoped_of_plan {T : Topology} (hc : T.Consistent) {run : Run} {settings : Settings}
    {n : Numbering} {plan : Plan} (hok : run.plan settings T n = .ok plan) {s : Statement}
    (hs : s ∈ plan.statements) : s.Scoped T ∧ s.dialect = settings.dialect := by
  obtain ⟨i, hi, rfl⟩ := List.getElem_of_mem hs
  obtain ⟨_, _, t, phase, id, root, active, outputs, sort, _, _, _, _, _, hsound, hstatement⟩ :=
    Run.statement_of_plan hc hok (List.getElem?_eq_getElem hi)
  exact ⟨hstatement.scoped hsound, hstatement.dialect⟩

end TraversalSql
