import TraversalSql.Proofs.ColumnNames
import TraversalSql.Proofs.Placeholders
import TraversalSql.Proofs.Registrations
import TraversalSql.Proofs.TemporaryNames

/-!
# What deletions remove

To delete vertices, the edges at them are deleted first, by one statement for each foreign key into
the vertex table, and then the vertices. A statement is a text, and is read here as the text it is,
with every word of it (`DropTarget.deleteText`): in a topology that was read from a description it
names one table, and one column of it that holds ids, and it removes the rows with a collected id in
that column (`DropTarget.Removes`). So a list of statements removes what any of them does, in
whatever order they run (`DropTarget.leaves_eq`). The order matters for what is left in between: as
the vertices go last, no foreign key points at a deleted row at any time
(`DropTarget.DropsVertices.intact`).
-/

set_option autoImplicit false

namespace TraversalSql

/-! ## 1. The table and the column in a text -/

theorem Dialect.unmarked_of_isIdentifier (d : Dialect) {s : String} (h : isIdentifier s = true) :
    d.Unmarked s :=
  notMem_of_isIdentifier h (by cases d <;> decide)

theorem Dialect.unmarked_append {d : Dialect} {s s' : String} (h : d.Unmarked s)
    (h' : d.Unmarked s') : d.Unmarked (s ++ s') := by
  rw [Unmarked, String.toList_append, List.mem_append, not_or]
  exact ⟨h, h'⟩

/-- Two physical names are equal only for one label and one kind. -/
theorem Table.tableName_inj {t t' : Table} (h : t.tableName = t'.tableName) :
    t.label = t'.label ∧ t.kind = t'.kind := by
  have htext := congrArg String.toList h
  simp only [tableName, String.toList_append] at htext
  have hlengths : t.kind.tablePrefix.toList.length = t'.kind.tablePrefix.toList.length := by
    cases t.kind <;> cases t'.kind <;> simp [ElementKind.tablePrefix]
  obtain ⟨hstart, hlabel⟩ := List.append_inj htext hlengths
  refine ⟨String.toList_injective hlabel, ?_⟩
  revert hstart
  cases t.kind <;> cases t'.kind <;> simp [ElementKind.tablePrefix]

namespace Topology

variable {T : Topology} {table : Table} {ps : Properties} {c : Column}

theorem Named.unmarked_schema (hT : T.Named) (d : Dialect) (h : T.properties? table = some ps) :
    d.Unmarked table.schema :=
  d.unmarked_of_isIdentifier (hT.of_properties h).1

theorem Named.unmarked_tableName (hT : T.Named) (d : Dialect) (h : T.properties? table = some ps) :
    d.Unmarked table.tableName := by
  refine Dialect.unmarked_append ?_ (d.unmarked_of_isIdentifier (hT.of_properties h).2.1)
  cases table.kind <;> cases d <;> decide

theorem Named.unmarked_name (hT : T.Named) (hc : T.Consistent) (d : Dialect)
    (h : T.HasColumn table c) : d.Unmarked c.name := by
  cases c with
  | id => cases d <;> decide
  | property p =>
    obtain ⟨ps, hps, hp⟩ := h
    exact d.unmarked_of_isIdentifier <| (hT.of_properties hps).2.2 p
      (SortedMap.mem_keys_iff.mpr (SortedMap.contains_iff.mp hp))
  | foreignKey k =>
    obtain ⟨ps, hps⟩ := (hc.properties_of_hasKey h).2
    obtain ⟨hschema, hlabel, _⟩ := hT.of_properties hps
    have hending : d.Unmarked k.direction.columnSuffix := by
      cases k.direction <;> cases d <;> decide
    have hdot : d.Unmarked "." := by cases d <;> decide
    exact Dialect.unmarked_append (Dialect.unmarked_append (Dialect.unmarked_append
      (d.unmarked_of_isIdentifier hschema) hdot) (d.unmarked_of_isIdentifier hlabel)) hending

theorem properties_of_hasColumn (hc : T.Consistent) (h : T.HasColumn table c) :
    ∃ ps, T.properties? table = some ps := by
  cases c with
  | id => exact h
  | property p => exact h.imp fun _ hps => hps.1
  | foreignKey k => exact (hc.properties_of_hasKey h).1

end Topology

namespace DropTarget

/-- The text that deletes the rows of a table whose value in a column is in the temporary table of
ids. -/
def deleteText (t : DropTarget) (d : Dialect) (table : Table) (c : Column) : String :=
  "DELETE FROM " ++ d.quote table.schema ++ "." ++ d.quote table.tableName ++ " WHERE "
    ++ d.quote c.name ++ " IN (SELECT " ++ d.quote "within" ++ " FROM " ++ d.quote t.idTable ++ ")"

/-- A target's statements are such texts. -/
theorem deletes_eq (t : DropTarget) (d : Dialect) :
    t.deletes d = t.deletions.map fun del => t.deleteText d del.table del.column := by
  have hopen : " IN (SELECT ".toList = " IN (".toList ++ "SELECT ".toList := rfl
  refine List.map_congr_left fun del _ => String.toList_injective ?_
  unfold deletionSql deleteText Dialect.table Dialect.qualified idsSql idColumn
  simp only [String.toList_append, List.append_assoc, hopen]

/-- Two of the texts are equal only for one table, and one name of a column. -/
theorem deleteText_inj {T : Topology} (hT : T.Named) (hc : T.Consistent)
    (t : DropTarget) (d : Dialect) {table table' : Table} {c c' : Column}
    (h : T.HasColumn table c) (h' : T.HasColumn table' c')
    (heq : t.deleteText d table c = t.deleteText d table' c') :
    table = table' ∧ c.name = c'.name := by
  obtain ⟨ps, hps⟩ := T.properties_of_hasColumn hc h
  obtain ⟨ps', hps'⟩ := T.properties_of_hasColumn hc h'
  have htext := congrArg String.toList heq
  unfold deleteText at htext
  simp only [String.toList_append, List.append_assoc] at htext
  obtain ⟨hschema, htext⟩ := (hT.unmarked_schema d hps).quote_inj (hT.unmarked_schema d hps')
    (List.append_cancel_left htext)
  obtain ⟨htable, htext⟩ := (hT.unmarked_tableName d hps).quote_inj (hT.unmarked_tableName d hps')
    (List.append_cancel_left htext)
  obtain ⟨hname, _⟩ := (hT.unmarked_name hc d h).quote_inj (hT.unmarked_name hc d h')
    (List.append_cancel_left htext)
  obtain ⟨hlabel, hkind⟩ := Table.tableName_inj htable
  obtain ⟨schema, label, kind⟩ := table
  obtain rfl : schema = table'.schema := hschema
  obtain rfl : label = table'.label := hlabel
  obtain rfl : kind = table'.kind := hkind
  exact ⟨rfl, hname⟩

end DropTarget

/-! ## 2. Graphs without some of their rows -/

/-- The id that a row has in a column: its own, or that of a vertex. Properties hold no ids. -/
def Row.idIn (r : Row) : Column → Option Int64
  | .id => some r.id
  | .property _ => none
  | .foreignKey k => r.key k

namespace StoredGraph

variable {T : Topology}

open Classical in
/-- The graph without the rows of which something holds. -/
noncomputable def without (g : StoredGraph T) (gone : Table → Row → Prop) : StoredGraph T where
  rows table := (g.rows table).filter fun r => ¬ gone table r
  uniqueIds table := (g.uniqueIds table).sublist (List.filter_sublist.map Row.id)
  ownTables h := g.ownTables (List.mem_of_mem_filter h)
  ownKeys h := g.ownKeys (List.mem_of_mem_filter h)

/-- Every foreign key that is not null points at a vertex. -/
def Intact (g : StoredGraph T) : Prop :=
  ∀ {edge r k i}, r ∈ g.rows edge → r.key k = some i → ∃ v ∈ g.rows k.vertex, v.id = i

variable {g g' : StoredGraph T} {gone gone' : Table → Row → Prop} {table : Table} {r : Row}

/-- Only edges have keys, and a key points at a vertex. -/
theorem kinds_of_key (hc : T.Consistent) {k : ForeignKey} {i : Int64} (hr : r ∈ g.rows table)
    (hk : r.key k = some i) : table.kind = .edge ∧ k.vertex.kind = .vertex :=
  ⟨(g.ownKeys hr hk).edgeKind hc, (g.ownKeys hr hk).vertexKind hc⟩

theorem ext_rows (h : ∀ table, g.rows table = g'.rows table) : g = g' := by
  cases g
  cases g'
  obtain rfl := funext h
  rfl

@[simp] theorem mem_without :
    r ∈ (g.without gone).rows table ↔ r ∈ g.rows table ∧ ¬ gone table r := by
  simp [without]

theorem rows_without_eq (h : ∀ r ∈ g.rows table, ¬ gone table r) :
    (g.without gone).rows table = g.rows table := by
  refine List.filter_eq_self.mpr ?_
  intro r hr
  simpa using h r hr

theorem without_congr (h : ∀ table, ∀ r ∈ g.rows table, gone table r ↔ gone' table r) :
    g.without gone = g.without gone' := by
  refine ext_rows fun table => List.filter_congr ?_
  intro r hr
  exact decide_eq_decide.mpr (not_congr (h table r hr))

theorem without_without :
    (g.without gone).without gone' = g.without fun table r => gone table r ∨ gone' table r := by
  refine ext_rows fun table => ?_
  refine List.filter_filter.trans (List.filter_congr ?_)
  intro r _
  by_cases h : gone table r <;> simp [h]

/-- What is left is intact if whoever points at a row that goes, goes as well. -/
theorem Intact.without (h : g.Intact) (hgone : ∀ {edge r k v}, r ∈ g.rows edge →
    v ∈ g.rows k.vertex → r.key k = some v.id → gone k.vertex v → gone edge r) :
    (g.without gone).Intact := by
  intro edge r k i hr hk
  obtain ⟨hr, hstays⟩ := mem_without.mp hr
  obtain ⟨v, hv, rfl⟩ := h hr hk
  refine ⟨v, mem_without.mpr ⟨hv, ?_⟩, rfl⟩
  exact fun hv' => hstays (hgone hr hv hk hv')

end StoredGraph

/-! ## 3. The deletions of a table -/

/-- The table has the column, and the column holds ids. -/
structure Deletion.Sound (T : Topology) (del : Deletion) : Prop where
  hasColumn : T.HasColumn del.table del.column
  holdsIds : ∀ p, del.column ≠ .property p

theorem Deletion.Sound.foreignKey {T : Topology} {edge : Table} {k : ForeignKey}
    (hk : T.HasKey edge k) : Deletion.Sound T ⟨edge, .foreignKey k⟩ :=
  ⟨hk, fun p h => by cases h⟩

namespace Topology

variable {T : Topology} {table : Table} {del : Deletion}

/-- There is a deletion for each foreign key into the table, and one for the table itself. -/
theorem Consistent.mem_deletionsFor_iff (hc : T.Consistent) : del ∈ deletionsFor T table ↔
    (∃ edge k, T.HasKey edge k ∧ k.vertex = table ∧ del = ⟨edge, .foreignKey k⟩) ∨
      del = ⟨table, .id⟩ := by
  unfold deletionsFor
  rw [List.mem_append, List.mem_singleton]
  refine or_congr_left ?_
  split
  · simp only [List.mem_map, Prod.exists, hc.mem_foreignKeysInto_iff, and_assoc, eq_comm]
  · -- keys point at tables of vertices
    rename_i hvertex
    simp only [List.not_mem_nil, false_iff]
    rintro ⟨edge, k, hk, rfl, _⟩
    simp [Table.isVertex, hk.vertexKind hc] at hvertex

theorem Consistent.sound_of_mem (hc : T.Consistent) (hknown : ∃ ps, T.properties? table = some ps)
    (h : del ∈ deletionsFor T table) : del.Sound T := by
  rcases hc.mem_deletionsFor_iff.mp h with ⟨edge, k, hk, _, rfl⟩ | rfl
  · exact .foreignKey hk
  · exact ⟨hknown, fun p h => by cases h⟩

end Topology

/-! ## 4. What statements remove -/

namespace DropTarget

variable (t : DropTarget) (d : Dialect) (ids : Set Int64) {T : Topology}

/-- The statement, run while the target's temporary table holds the ids, removes the row from the
table: the text names the table, and a column of it in which the row has one of the ids. -/
def Removes (T : Topology) (sql : String) (table : Table) (r : Row) : Prop :=
  ∃ c i, T.HasColumn table c ∧ sql = t.deleteText d table c ∧ r.idIn c = some i ∧ i ∈ ids

/-- The row is to be dropped: it has one of the ids in the target's table, or it is an edge at such
a row, whatever the edge's table and direction are. -/
def Drops (table : Table) (r : Row) : Prop :=
  (table = t.table ∧ r.id ∈ ids) ∨ ∃ k i, k.vertex = t.table ∧ r.key k = some i ∧ i ∈ ids

/-- The graph that statements leave, run in order. -/
noncomputable def leaves (sqls : List String) (g : StoredGraph T) : StoredGraph T :=
  sqls.foldl (fun g sql => g.without (t.Removes d ids T sql)) g

/-- One statement after the other removes what any of them does. -/
theorem leaves_eq (sqls : List String) (g : StoredGraph T) : t.leaves d ids sqls g
    = g.without fun table r => ∃ sql ∈ sqls, t.Removes d ids T sql table r := by
  induction sqls generalizing g with
  | nil =>
    refine StoredGraph.ext_rows fun table => (StoredGraph.rows_without_eq ?_).symm
    rintro r _ ⟨_, hsql, _⟩
    cases hsql
  | cons sql sqls ih =>
    have hstep : t.leaves d ids (sql :: sqls) g
        = t.leaves d ids sqls (g.without (t.Removes d ids T sql)) := rfl
    rw [hstep, ih, StoredGraph.without_without]
    refine StoredGraph.without_congr ?_
    simp

variable {t d ids} {table : Table} {del : Deletion} {r : Row} {g : StoredGraph T}

variable (t d ids) in
/-- Vertices are dropped after the edges at them, and nothing else is. -/
structure DropsVertices (g : StoredGraph T) : Prop where
  keys : ∀ {edge r k i}, r ∈ (t.leaves d ids (t.deletes d) g).rows edge → k.vertex = t.table →
    r.key k = some i → i ∉ ids
  vertices : ∀ {r}, r ∈ (t.leaves d ids (t.deletes d) g).rows t.table → r.id ∉ ids
  others : t.leaves d ids (t.deletes d) g = g.without (t.Drops ids)
  edgesFirst : ∃ edges, t.deletes d = edges ++ [t.deleteText d t.table .id] ∧
    ∀ sql, sql ∈ edges ↔ ∃ edge k, T.HasKey edge k ∧ k.vertex = t.table ∧
      sql = t.deleteText d edge (.foreignKey k)
  /-- No key is left without its vertex, whenever the statements are interrupted. -/
  intact : g.Intact → ∀ n, (t.leaves d ids ((t.deletes d).take n) g).Intact

variable (t d ids) in
/-- Edges are dropped, and nothing else is. -/
structure DropsEdges (g : StoredGraph T) : Prop where
  edges : t.leaves d ids (t.deletes d) g = g.without fun table r => table = t.table ∧ r.id ∈ ids
  once : t.deletes d = [t.deleteText d t.table .id]
  intact : g.Intact → (t.leaves d ids (t.deletes d) g).Intact

variable (hT : T.Named) (hc : T.Consistent)

section

include hT hc

/-- A statement means the column of ids that it names, even if a property is called like it. -/
theorem removes_iff (hdel : del.Sound T) :
    t.Removes d ids T (t.deleteText d del.table del.column) table r ↔
      table = del.table ∧ ∃ i, r.idIn del.column = some i ∧ i ∈ ids := by
  obtain ⟨hcolumn, hids⟩ := hdel
  constructor
  · rintro ⟨c, i, hc', hsql, hi, hmem⟩
    obtain ⟨rfl, hname⟩ := t.deleteText_inj hT hc d hcolumn hc' hsql
    rcases hT.eq_or_of_name_eq hc hcolumn hc' hname with rfl | ⟨_, rfl⟩ | ⟨hproperty, _⟩
    · exact ⟨rfl, i, hi, hmem⟩
    · cases hi
    · exact absurd hproperty (hids _)
  · rintro ⟨rfl, i, hi, hmem⟩
    exact ⟨del.column, i, hcolumn, rfl, hi, hmem⟩

/-- While edges are dropped, all vertices stay. -/
theorem intact_leaves_edges {sqls : List String} (hg : g.Intact)
    (hsqls : ∀ sql ∈ sqls, ∃ edge k, T.HasKey edge k ∧ k.vertex = t.table ∧
      sql = t.deleteText d edge (.foreignKey k)) : (t.leaves d ids sqls g).Intact := by
  rw [leaves_eq]
  refine hg.without ?_
  rintro edge r k v hr hv hk ⟨sql, hsql, hremoves⟩
  obtain ⟨edge', k', hk', _, rfl⟩ := hsqls sql hsql
  obtain ⟨htable, _⟩ := (removes_iff hT hc (.foreignKey hk')).mp hremoves
  have hvertex := (StoredGraph.kinds_of_key hc hr hk).2
  rw [htable, hk'.edgeKind hc] at hvertex
  cases hvertex

end

/-! The statements of a target are those of the deletions for its table. -/

variable (ht : t.deletions = deletionsFor T t.table)

section

variable (hknown : ∃ ps, T.properties? t.table = some ps)

include hT hc ht hknown

/-- All statements of a target together remove the rows with an id, and the edges at them. -/
theorem removed_iff (hr : r ∈ g.rows table) :
    (∃ sql ∈ t.deletes d, t.Removes d ids T sql table r) ↔ t.Drops ids table r := by
  simp only [deletes_eq, ht, List.mem_map, exists_exists_and_eq_and]
  constructor
  · rintro ⟨del, hdel, hremoves⟩
    obtain ⟨rfl, i, hi, hmem⟩ := (removes_iff hT hc (hc.sound_of_mem hknown hdel)).mp hremoves
    rcases (hc.mem_deletionsFor_iff).mp hdel with ⟨edge, k, hk, hv, rfl⟩ | rfl
    · exact Or.inr ⟨k, i, hv, hi, hmem⟩
    · cases hi
      exact Or.inl ⟨rfl, hmem⟩
  · rintro (⟨rfl, hmem⟩ | ⟨k, i, hv, hi, hmem⟩)
    · have hdel : ⟨t.table, .id⟩ ∈ deletionsFor T t.table :=
        hc.mem_deletionsFor_iff.mpr (Or.inr rfl)
      exact ⟨_, hdel, (removes_iff hT hc (hc.sound_of_mem hknown hdel)).mpr ⟨rfl, _, rfl, hmem⟩⟩
    · have hdel : ⟨table, .foreignKey k⟩ ∈ deletionsFor T t.table :=
        hc.mem_deletionsFor_iff.mpr (Or.inl ⟨table, k, g.ownKeys hr hi, hv, rfl⟩)
      exact ⟨_, hdel, (removes_iff hT hc (hc.sound_of_mem hknown hdel)).mpr ⟨rfl, i, hi, hmem⟩⟩

theorem leaves_deletes (g : StoredGraph T) :
    t.leaves d ids (t.deletes d) g = g.without (t.Drops ids) := by
  rw [leaves_eq]
  refine StoredGraph.without_congr ?_
  intro table r hr
  exact removed_iff hT hc ht hknown hr

theorem intact_leaves (hg : g.Intact) : (t.leaves d ids (t.deletes d) g).Intact := by
  rw [leaves_deletes hT hc ht hknown]
  refine hg.without ?_
  rintro edge r k v hr hv hk (⟨htable, hmem⟩ | ⟨k', i, _, hi, _⟩)
  · exact Or.inr ⟨k, v.id, htable, hk, hmem⟩
  · -- a vertex has no keys
    have hvertex := (StoredGraph.kinds_of_key hc hr hk).2
    rw [(StoredGraph.kinds_of_key hc hv hi).1] at hvertex
    cases hvertex

end

section

include ht

theorem deletes_of_vertex (hkind : t.table.kind = .vertex) : t.deletes d
    = (T.foreignKeysInto t.table).map (fun x => t.deleteText d x.1 (.foreignKey x.2))
      ++ [t.deleteText d t.table .id] := by
  simp [deletes_eq, ht, deletionsFor, Table.isVertex, hkind]

theorem deletes_of_edge (hkind : t.table.kind = .edge) :
    t.deletes d = [t.deleteText d t.table .id] := by
  simp [deletes_eq, ht, deletionsFor, Table.isVertex, hkind]

include hT hc

theorem dropsVertices (hvertex : t.table ∈ T.tables .vertex) (g : StoredGraph T) :
    t.DropsVertices d ids g := by
  obtain ⟨hkind, hknown⟩ := (Topology.mem_tables_iff hc).mp hvertex
  have hleaves : t.leaves d ids (t.deletes d) g = g.without (t.Drops ids) :=
    leaves_deletes hT hc ht hknown g
  have hdeletes := deletes_of_vertex (d := d) ht hkind
  have hedges : ∀ sql, sql ∈ (T.foreignKeysInto t.table).map
      (fun x => t.deleteText d x.1 (.foreignKey x.2)) ↔ ∃ edge k, T.HasKey edge k ∧
        k.vertex = t.table ∧ sql = t.deleteText d edge (.foreignKey k) := by
    intro sql
    simp only [List.mem_map, Prod.exists, hc.mem_foreignKeysInto_iff, and_assoc, eq_comm]
  refine {
    keys := ?_, vertices := ?_, others := hleaves
    edgesFirst := ⟨_, hdeletes, hedges⟩, intact := ?_ }
  · intro edge r k i hr hv hi hmem
    rw [hleaves, StoredGraph.mem_without] at hr
    exact hr.2 (Or.inr ⟨k, i, hv, hi, hmem⟩)
  · intro r hr hmem
    rw [hleaves, StoredGraph.mem_without] at hr
    exact hr.2 (Or.inl ⟨rfl, hmem⟩)
  · -- until the last statement only edges are dropped
    intro hg n
    rcases Nat.lt_or_ge ((T.foreignKeysInto t.table).length) n with hn | hn
    · rw [List.take_of_length_le (by simp [hdeletes]; omega)]
      exact intact_leaves hT hc ht hknown hg
    · rw [hdeletes, List.take_append_of_le_length (by simpa using hn)]
      exact intact_leaves_edges hT hc hg fun sql hsql =>
        (hedges sql).mp (List.mem_of_mem_take hsql)

theorem dropsEdges (hedge : t.table ∈ T.tables .edge) (g : StoredGraph T) :
    t.DropsEdges d ids g := by
  obtain ⟨hkind, hknown⟩ := (Topology.mem_tables_iff hc).mp hedge
  refine {
    edges := ?_, once := deletes_of_edge ht hkind
    intact := intact_leaves hT hc ht hknown }
  rw [leaves_deletes hT hc ht hknown]
  refine StoredGraph.without_congr ?_
  intro table r hr
  refine or_iff_left ?_
  rintro ⟨k, i, hv, hi, _⟩
  have hvertex := (StoredGraph.kinds_of_key hc hr hi).2
  rw [hv, hkind] at hvertex
  cases hvertex

end

end DropTarget

section

variable {T : Topology} {n : Nat} {tables : List Table}

theorem deletions_of_mem {t : DropTarget} (h : t ∈ dropTargets T n tables) :
    t.deletions = deletionsFor T t.table := by
  obtain ⟨_, _, rfl⟩ := List.mem_map.mp h
  rfl

theorem map_table_dropTargets :
    (dropTargets T n tables).map DropTarget.table = (SortedSet.ofList tables).toList := by
  rw [dropTargets, List.map_map]
  exact List.zipIdx_map_fst ..

theorem exists_target {table : Table} (h : table ∈ tables) :
    ∃ t ∈ dropTargets T n tables, t.table = table := by
  rw [← List.mem_map, map_table_dropTargets, SortedSet.mem_toList, SortedSet.ofList,
    SortedSet.mem_insertAll]
  exact Or.inl h

end

/-- **Dropping leaves no dangling edges and touches nothing else.** In a topology that was read from
a description, every table that elements are dropped from has a target. Its statements remove the
vertices with one of the ids and the edges at them, edges first, or the edges with one of the ids,
and no other row of any table. -/
theorem SchemaDescription.targets_drop {d : SchemaDescription} {T : Topology}
    (hd : d.topology = .ok T) (dialect : Dialect) (n : Nat) (tables : List Table) :
    (∀ table ∈ tables, ∃ t ∈ dropTargets T n tables, t.table = table) ∧
    ∀ t ∈ dropTargets T n tables, ∀ (ids : Set Int64) (g : StoredGraph T),
      (t.table ∈ T.tables .vertex → t.DropsVertices dialect ids g) ∧
      (t.table ∈ T.tables .edge → t.DropsEdges dialect ids g) := by
  obtain ⟨hbuilt, hT⟩ := topology_named hd
  have hc := hbuilt.consistent
  refine ⟨fun table htable => exists_target htable, ?_⟩
  intro t ht ids g
  have hdeletions := deletions_of_mem ht
  exact ⟨fun h => DropTarget.dropsVertices hT hc hdeletions h g,
    fun h => DropTarget.dropsEdges hT hc hdeletions h g⟩

/-! ## 5. A friend who leaves -/

namespace People

theorem isVertex_person : person ∈ topology.tables .vertex := by decide

theorem isEdge_knows : knows ∈ topology.tables .edge := by decide

theorem rows_person : graph.rows person = [row 1, row 2] := rfl

theorem rows_knows : graph.rows knows = [friendship] := rfl

/-- The friendship goes with the second person, and alone if it is dropped itself, but not with
people that have its id. -/
theorem friend_dropped :
    (∃ t ∈ dropTargets topology 0 [person], t.table = person ∧
      (t.leaves .sqlite {2} (t.deletes .sqlite) graph).rows person = [row 1] ∧
      (t.leaves .sqlite {2} (t.deletes .sqlite) graph).rows knows = [] ∧
      (t.leaves .sqlite {7} (t.deletes .sqlite) graph).rows knows = [friendship]) ∧
    ∃ t ∈ dropTargets topology 0 [knows], t.table = knows ∧
      (t.leaves .sqlite {7} (t.deletes .sqlite) graph).rows knows = [] := by
  obtain ⟨hpeople, hperson⟩ := SchemaDescription.targets_drop described .sqlite 0 [person]
  obtain ⟨hfriendships, hknows⟩ := SchemaDescription.targets_drop described .sqlite 0 [knows]
  obtain ⟨t, ht, htable⟩ := hpeople person List.mem_cons_self
  obtain ⟨u, hu, hutable⟩ := hfriendships knows List.mem_cons_self
  have hdrops := fun ids => ((hperson t ht ids graph).1 (htable ▸ isVertex_person)).others
  have hedges := ((hknows u hu {7} graph).2 (hutable ▸ isEdge_knows)).edges
  have hstays : ¬ t.Drops {2} person (row 1) := by
    rintro (⟨_, h⟩ | ⟨k, i, _, h, _⟩)
    · cases h
    · cases h
  have hgoes : t.Drops {2} person (row 2) := Or.inl ⟨htable.symm, rfl⟩
  have hfriend : t.Drops {2} knows friendship :=
    Or.inr ⟨⟨person, .incoming⟩, 2, htable.symm, rfl, rfl⟩
  have hkept : ¬ t.Drops {7} knows friendship := by
    rintro (⟨h, _⟩ | ⟨k, i, _, h, hi⟩)
    · exact absurd (h.trans htable) (by decide)
    · obtain rfl : i = 7 := hi
      simp only [friendship] at h
      split at h
      · cases h
      · split at h <;> cases h
  have hout : friendship.id = 7 := rfl
  refine ⟨⟨t, ht, htable, ?_, ?_, ?_⟩, u, hu, hutable, ?_⟩
  · simp [hdrops, StoredGraph.without, rows_person, hstays, hgoes]
  · simp [hdrops, StoredGraph.without, rows_knows, hfriend]
  · simp [hdrops, StoredGraph.without, rows_knows, hkept]
  · simp [hedges, StoredGraph.without, rows_knows, hutable, hout]

end People

end TraversalSql
