import Mathlib.Data.List.Zip
import TraversalSql.Proofs.Layers
import TraversalSql.Proofs.Scopes

/-!
# What a select returns of the rows it reads

A select is evaluated here as far as its `SELECT` list goes: given the row at which each table of
each `FROM` clause is read, a column of a table is the cell of that row, and a column that a
sub-select exports is what stands under the alias in the row of that sub-select. The select of a
path then returns the cells of the path's nodes, wherever their tables are read: `IsPath.mem_row`.
-/

set_option autoImplicit false

namespace TraversalSql

open QueryTree

/-! ## 1. Evaluation -/

/-- What a column holds in a row. -/
def Row.cell (r : Row) : Column → Value
  | .id => .int r.id
  | .property p => r.value p
  | .foreignKey k => (r.key k).elim .null .int

/-- A column of a table, where each table of the `FROM` clause is read at one row. -/
def FlatSelect.value (s : FlatSelect) (rows : List Row) (c : ColumnRef) : Value :=
  ((s.tables.zip rows).lookup c.table).elim .null fun r => r.cell c.column

/-- The row of a select, with what the columns stand for. -/
def FlatSelect.row (s : FlatSelect) (rows : List Row) : List (AliasKey × Value) :=
  (distinctOn id [] s.columns).map fun k => (k, s.value rows k.ref)

/-- A column of the row of a sub-select. -/
def ChainedSelect.value (s : ChainedSelect) (rows : List (List Row)) (e : ExportedColumn) : Value :=
  (((s.subs.zip rows).find? fun x => x.1.number == e.owner).bind fun x =>
    (x.1.body.row x.2).lookup e.key).getD .null

def ChainedSelect.row (s : ChainedSelect) (rows : List (List Row)) : List (AliasKey × Value) :=
  s.outputs.map fun e => (e.key, s.value rows e)

/-- The row of a select over a path, where the tables of each of its `FROM` clauses are read at the
rows of one list. -/
def PathSelect.row : PathSelect → List (List Row) → List (AliasKey × Value)
  | flat s, rows => s.row rows.flatten
  | chained s, rows => s.row rows

/-- The tables of each `FROM` clause. -/
def PathSelect.scopes : PathSelect → List (List Table)
  | flat s => [s.tables]
  | chained s => s.subs.map fun sub => sub.body.tables

section Lookup

variable {α κ ν : Type} [DecidableEq κ] {key : α → κ} {l : List α} {a : α}

theorem lookup_map_of_nodup {value : α → ν} (hnodup : (l.map key).Nodup) (ha : a ∈ l) :
    (l.map fun a => (key a, value a)).lookup (key a) = some (value a) := by
  induction l with
  | nil => cases ha
  | cons b l ih =>
    obtain ⟨hb, hl⟩ := List.nodup_cons.mp hnodup
    rw [List.map_cons]
    rcases List.mem_cons.mp ha with rfl | ha
    · exact SortedMap.lookup_cons_self _ _ _
    · have hne : key a ≠ key b := fun heq => hb (heq ▸ List.mem_map_of_mem ha)
      rw [SortedMap.lookup_cons_of_ne hne]
      exact ih hl ha

theorem find?_of_nodup (hnodup : (l.map key).Nodup) (ha : a ∈ l) :
    l.find? (fun b => key b == key a) = some a := by
  cases hfind : l.find? fun b => key b == key a with
  | none => exact absurd (beq_self_eq_true (key a)) (List.find?_eq_none.mp hfind a ha)
  | some b =>
    have hfound := List.find?_some hfind
    have hkey : key b = key a := eq_of_beq hfound
    exact congrArg some (List.inj_on_of_nodup_map hnodup (List.mem_of_find?_eq_some hfind) ha hkey)

end Lookup

/-- Under an alias in a row stands the column that the alias is for. -/
theorem FlatSelect.lookup_row {s : FlatSelect} {k : AliasKey} (hk : k ∈ s.columns)
    (rows : List Row) : (s.row rows).lookup k = some (s.value rows k.ref) := by
  obtain ⟨k', hk', rfl⟩ := exists_mem_distinctOn id hk List.not_mem_nil
  have hnodup := (nodup_distinctOn id [] s.columns).1
  exact lookup_map_of_nodup hnodup hk'

/-! ## 2. The rows of a path -/

namespace Composer

variable {c : Composer} {T : Topology} {hops : List Hop} {nodes : List Nat}
  {columns outputs wanted : List NodeColumn} {root : Option RootCondition}
  {segments : List (List Nat)} {k : AliasKey} {v : Value}

/-- What a column of a node holds, where each node is at a row. -/
def cellAt (row : Nat → Row) (x : NodeColumn) : Value := (row x.1).cell x.2

theorem IsFlat.value_eq {s : FlatSelect} (h : c.IsFlat T root nodes columns s) (row : Nat → Row)
    {x : NodeColumn} (hx : x.1 ∈ nodes) :
    s.value (nodes.map row) (c.keyAt x).ref = cellAt row x := by
  have htables : s.tables = nodes.map c.tableAt := h.tables
  have hlookup : (nodes.map fun id => (c.tableAt id, row id)).lookup (c.tableAt x.1)
      = some (row x.1) := lookup_map_of_nodup h.segment.nodup hx
  rw [FlatSelect.value, htables, List.zip_map']
  exact congrArg (Option.elim · .null fun r => r.cell x.2) hlookup

theorem IsFlat.mem_row {s : FlatSelect} (h : c.IsFlat T root nodes columns s) (row : Nat → Row) :
    (k, v) ∈ s.row (nodes.map row) ↔ ∃ x ∈ columns, k = c.keyAt x ∧ v = cellAt row x := by
  constructor
  · intro hmem
    obtain ⟨k', hk', heq⟩ := List.mem_map.mp hmem
    obtain ⟨rfl, rfl⟩ := Prod.mk.inj heq
    have hcolumn := mem_of_mem_distinctOn hk'
    rw [h.columns] at hcolumn
    obtain ⟨x, hx, rfl⟩ := List.mem_map.mp hcolumn
    exact ⟨x, hx, rfl, h.value_eq row (h.has x hx).1⟩
  · rintro ⟨x, hx, rfl, rfl⟩
    have hcolumn : c.keyAt x ∈ s.columns := by
      rw [h.columns]
      exact List.mem_map_of_mem hx
    obtain ⟨k', hk', hkey⟩ := exists_mem_distinctOn id hcolumn List.not_mem_nil
    obtain rfl : k' = c.keyAt x := hkey
    refine List.mem_map.mpr ⟨_, hk', ?_⟩
    rw [h.value_eq row (h.has x hx).1]

/-- The sub-selects read the segments. -/
theorem tables_subs {subs : List SubSelect}
    (h : List.Forall₂ (c.IsSub T root wanted) segments subs) :
    subs.map (fun sub => sub.body.tables) = segments.map (List.map c.tableAt) := by
  induction h with
  | nil => rfl
  | cons hsub _ ih =>
    obtain ⟨_, hflat, _⟩ := hsub
    rw [List.map_cons, List.map_cons, ih]
    exact congrArg (· :: _) hflat.tables

/-- What a chain exports of a node is a cell of the node's row. -/
theorem IsChained.value_eq {s : ChainedSelect} (h : c.IsChained T root wanted segments outputs s)
    (hnumbers : s.numbers.Nodup) (row : Nat → Row) {x : NodeColumn}
    (hid : x.1 ∈ segments.flatten) (hx : x ∈ wanted) :
    s.value (segments.map (List.map row)) (c.exportAt segments s.numbers x) = cellAt row x := by
  obtain ⟨segment, sub, hzip, hmem, howner, ⟨columns, hflat, _⟩, hkey⟩ := h.exported hid hx
  have hlen := h.subs.length_eq
  -- the sub-select that owns the column, and the rows of its segment
  have hpair : (sub, segment.map row) ∈ s.subs.zip (segments.map (List.map row)) := by
    rw [List.zip_map_right]
    refine List.mem_map.mpr ⟨(sub, segment), ?_, rfl⟩
    rw [← List.zip_swap]
    exact List.mem_map.mpr ⟨(segment, sub), hzip, rfl⟩
  have hnodup : ((s.subs.zip (segments.map (List.map row))).map fun y => y.1.number).Nodup := by
    have hfst : (s.subs.zip (segments.map (List.map row))).map Prod.fst = s.subs := by
      refine List.map_fst_zip ?_
      rw [List.length_map]
      exact Nat.le_of_eq hlen.symm
    have hmap := congrArg (List.map SubSelect.number) hfst
    rw [List.map_map] at hmap
    rw [ChainedSelect.numbers, ← hmap] at hnumbers
    exact hnumbers
  have hfind := find?_of_nodup hnodup hpair
  rw [ChainedSelect.value, exportAt, howner, Option.getD_some, hfind, Option.bind_some,
    FlatSelect.lookup_row hkey, Option.getD_some]
  exact hflat.value_eq row hmem

/-- The outputs of a path are columns of its nodes. -/
theorem IsPath.has {p : PathSelect} (h : c.IsPath T root nodes outputs p) {x : NodeColumn}
    (hx : x ∈ outputs) : x.1 ∈ nodes ∧ c.Has T x := by
  cases h with
  | flat hflat => exact hflat.has x hx
  | chained _ hcut houtputs hchained =>
    obtain ⟨hid, hwanted⟩ := houtputs x hx
    obtain ⟨_, _, _, hmem, _, ⟨columns, hflat, hcolumns⟩, _⟩ :=
      hchained.exported (hcut.flatten ▸ hid) hwanted
    exact ⟨hid, (hflat.has x ((hcolumns x).mpr ⟨hmem, hwanted⟩)).2⟩

/-- **The row of a path.** It has the outputs of the path, and under each the cell of the node that
it belongs to. -/
theorem IsPath.mem_row {p : PathSelect} (h : c.IsPath T root nodes outputs p)
    (hs : c.Sound T hops) (hl : c.tree.Layered) (hnumbers : p.numbers.Nodup) :
    ∃ segments : List (List Nat), segments.flatten = nodes ∧
      p.scopes = segments.map (List.map c.tableAt) ∧
      ∀ (row : Nat → Row) (k : AliasKey) (v : Value),
        (k, v) ∈ p.row (segments.map (List.map row)) ↔
          ∃ x ∈ outputs, k = c.keyAt x ∧ v = cellAt row x := by
  cases h with
  | flat hflat =>
    refine ⟨[nodes], List.append_nil _, congrArg (fun l => [l]) hflat.tables, ?_⟩
    intro row k v
    rw [PathSelect.row, List.map_singleton, List.flatten_singleton]
    exact hflat.mem_row row
  | @chained wanted segments s hroute hcut houtputs hchained =>
    refine ⟨segments, hcut.flatten, tables_subs hchained.subs, ?_⟩
    intro row k v
    have hvalue : ∀ x ∈ outputs, s.value (segments.map (List.map row))
        (c.exportAt segments s.numbers x) = cellAt row x := by
      intro x hx
      obtain ⟨hid, hwanted⟩ := houtputs x hx
      exact hchained.value_eq hnumbers row (hcut.flatten ▸ hid) hwanted
    constructor
    · intro hmem
      obtain ⟨e, he, heq⟩ := List.mem_map.mp hmem
      obtain ⟨rfl, rfl⟩ := Prod.mk.inj heq
      rw [hchained.outputs] at he
      obtain ⟨x, hx, rfl⟩ := List.mem_map.mp (mem_of_mem_distinctOn he)
      exact ⟨x, hx, rfl, hvalue x hx⟩
    · rintro ⟨x, hx, rfl, rfl⟩
      have hexport : c.exportAt segments s.numbers x
          ∈ outputs.map (c.exportAt segments s.numbers) := List.mem_map_of_mem hx
      obtain ⟨e, he, hkey⟩ := exists_mem_distinctOn ExportedColumn.key hexport List.not_mem_nil
      obtain ⟨y, hy, rfl⟩ := List.mem_map.mp (mem_of_mem_distinctOn he)
      obtain rfl : y = x :=
        hs.keyAt_inj hl hroute.down (houtputs y hy).1 (houtputs x hx).1 hkey
      refine List.mem_map.mpr ⟨_, hchained.outputs ▸ he, ?_⟩
      rw [hvalue y hx]
      rfl

end Composer

end TraversalSql
