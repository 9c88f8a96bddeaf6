import TraversalSql.Proofs.Projection
import TraversalSql.Proofs.Results
import TraversalSql.Rows.Decoder

/-!
# Reading rows undoes writing selects

Statement and decoder share no node of a tree, only keys of depth, table, column and labels. Yet a
decoder reads from each row just the elements that the select put there: every node of a path has
keys of its own, what belongs to an element is in the outermost `SELECT` list as a whole, and the
name of a column leads back to its key, in whatever order the columns come.
-/

set_option autoImplicit false

namespace TraversalSql

open QueryTree

/-! ## 1. What a row shows -/

/-- The row has a foreign key that points at a vertex. -/
def Row.PointsAt (r : Row) (T : Topology) (table : Table) (side : Direction) (v : RecordId) :
    Prop :=
  T.HasKey table ⟨v.table, side⟩ ∧ r.key ⟨v.table, side⟩ = some v.id

/-- Of the foreign keys of an edge at most one per end is not null. -/
def Row.Single (r : Row) (T : Topology) (table : Table) : Prop :=
  ∀ {side : Direction} {v v' : RecordId}, r.PointsAt T table side v → r.PointsAt T table side v' →
    v = v'

/-- The element is what a row of a node's table says, at the depth and with the labels of the
node. -/
structure Element.Shows (e : Element) (T : Topology) (n : QueryNode) (r : Row) : Prop where
  record : e.record = ⟨n.table, r.id⟩
  ascending : e.properties.Ascending
  properties : ∀ {p : String} {v : Value}, e.properties.find? p = some v ↔
    T.HasColumn n.table (.property p) ∧ v = r.value p
  labels : e.labels = .ofList (ResultLabel.userNames n.labels)
  depth : e.depth = n.depth
  outVertex : ∀ {v : RecordId}, e.outVertex = some v ↔ r.PointsAt T n.table .outgoing v
  inVertex : ∀ {v : RecordId}, e.inVertex = some v ↔ r.PointsAt T n.table .incoming v

/-- A row of a node shows one element. -/
theorem Element.Shows.unique {T : Topology} {n : QueryNode} {r : Row} {e e' : Element}
    (h : e.Shows T n r) (h' : e'.Shows T n r) : e = e' := by
  have hproperties : e.properties = e'.properties :=
    h.ascending.ext h'.ascending (h.properties.trans h'.properties.symm)
  have hout : e.outVertex = e'.outVertex :=
    Option.ext fun v => h.outVertex.trans h'.outVertex.symm
  have hin : e.inVertex = e'.inVertex := Option.ext fun v => h.inVertex.trans h'.inVertex.symm
  have hrecord := h.record.trans h'.record.symm
  have hlabels := h.labels.trans h'.labels.symm
  have hdepth := h.depth.trans h'.depth.symm
  cases e
  cases e'
  simp_all

/-- One row of a result: the columns of the `SELECT` list under their aliases, in any order, and
columns with names that are no aliases of the statement. -/
def Statement.Returns (s : Statement) (rows : List (List Row)) (result : List (String × Value)) :
    Prop :=
  ∃ extra : List (String × Value), (∀ x ∈ extra, s.aliases.keyOf? x.1 = none) ∧
    result.Perm ((s.select.body.row rows).map (fun x => (s.aliases.name x.1, x.2)) ++ extra)

/-! ## 2. Names and keys -/

namespace AliasTable

variable {t : AliasTable} {name : String} {k : AliasKey}

theorem mem_entries (hnodup : t.keys.Nodup) :
    (name, k) ∈ t.entries ↔ k ∈ t.keys ∧ name = t.name k := by
  unfold entries AliasTable.name
  rw [List.mem_map]
  constructor
  · intro ⟨⟨k', i⟩, hmem, heq⟩
    have hi := List.mem_zipIdx_iff_getElem?.mp hmem
    obtain ⟨rfl, rfl⟩ := Prod.mk.inj heq
    obtain ⟨hlt, hget⟩ := List.getElem?_eq_some_iff.mp hi
    refine ⟨List.mem_of_getElem? hi, ?_⟩
    simp only at hget
    rw [← hget, hnodup.idxOf_getElem i hlt]
  · intro ⟨hk, hname⟩
    refine ⟨(k, t.keys.idxOf k), ?_, by rw [hname]⟩
    rw [List.mem_zipIdx_iff_getElem?]
    exact List.getElem?_idxOf hk

/-- The snapshot of the aliases has every key under its alias. -/
theorem mem_snapshot (hnodup : t.keys.Nodup) :
    (name, k) ∈ t.snapshot.entries ↔ k ∈ t.keys ∧ name = t.name k := by
  have hagree : ∀ {name : String} {k k' : AliasKey}, (name, k) ∈ t.entries →
      (name, k') ∈ t.entries → k = k' := by
    intro name k k' h h'
    obtain ⟨hk, hname⟩ := (mem_entries hnodup).mp h
    obtain ⟨_, hname'⟩ := (mem_entries hnodup).mp h'
    exact name_inj hk (hname.symm.trans hname')
  unfold snapshot
  rw [(SortedMap.ascending_ofList t.entries).mem_entries_iff, SortedMap.find?_ofList hagree,
    mem_entries hnodup]

theorem keyOf?_name (hnodup : t.keys.Nodup) (hk : k ∈ t.keys) : t.keyOf? (t.name k) ≠ none := by
  intro hnone
  have hmem : (t.name k, k) ∈ t.entries := (mem_entries hnodup).mpr ⟨hk, rfl⟩
  have hne := List.lookup_eq_none_iff.mp hnone _ hmem
  simp at hne

end AliasTable

theorem PathSelect.mem_requests {p : PathSelect} {k : AliasKey} {v : Value}
    {rows : List (List Row)} (h : (k, v) ∈ p.row rows) : k ∈ p.requests := by
  cases p with
  | flat s =>
    obtain ⟨k', hk', heq⟩ := List.mem_map.mp h
    rw [← (Prod.mk.inj heq).1]
    exact mem_of_mem_distinctOn hk'
  | chained s =>
    obtain ⟨e, he, heq⟩ := List.mem_map.mp h
    rw [← (Prod.mk.inj heq).1]
    exact List.mem_append_right _ (List.mem_map_of_mem he)

namespace Statement

variable {s : Statement} {rows : List (List Row)} {result : List (String × Value)} {k : AliasKey}
  {v : Value}

theorem mem_aliases : k ∈ s.aliases.keys ↔ k ∈ s.select.requests :=
  (AliasTable.ofList_spec _).1 k

theorem nodup_aliases : s.aliases.keys.Nodup := (AliasTable.ofList_spec _).2

/-- A column that is selected has an alias. -/
theorem mem_aliases_of_row (h : (k, v) ∈ s.select.body.row rows) : k ∈ s.aliases.keys := by
  rw [mem_aliases]
  exact List.mem_append_left _ (List.mem_append_left _ (PathSelect.mem_requests h))

/-- Under an alias stands what was selected. -/
theorem Returns.mem_row (h : s.Returns rows result) (hk : k ∈ s.aliases.keys) :
    (s.aliases.name k, v) ∈ result ↔ (k, v) ∈ s.select.body.row rows := by
  obtain ⟨extra, hextra, hperm⟩ := h
  rw [hperm.mem_iff, List.mem_append]
  constructor
  · intro hmem
    rcases hmem with hmem | hmem
    · obtain ⟨⟨k', v'⟩, hrow, heq⟩ := List.mem_map.mp hmem
      obtain ⟨hname, rfl⟩ := Prod.mk.inj heq
      rw [AliasTable.name_inj hk hname.symm]
      exact hrow
    · exact absurd (hextra _ hmem) (AliasTable.keyOf?_name nodup_aliases hk)
  · intro hrow
    exact Or.inl (List.mem_map.mpr ⟨(k, v), hrow, rfl⟩)

/-- The place of a selected column is found by its alias, and every row has its value there. -/
theorem Returns.position (h : s.Returns rows result) (hrow : (k, v) ∈ s.select.body.row rows) :
    ∃ index, (result.map Prod.fst).idxOf? (s.aliases.name k) = some index := by
  have hmem := (h.mem_row (mem_aliases_of_row hrow)).mpr hrow
  have hname : s.aliases.name k ∈ result.map Prod.fst := List.mem_map.mpr ⟨_, hmem, rfl⟩
  cases hindex : (result.map Prod.fst).idxOf? (s.aliases.name k) with
  | some index => exact ⟨index, rfl⟩
  | none => exact absurd hname (List.idxOf?_eq_none_iff.mp hindex)

theorem Returns.cell (h : s.Returns rows result) (hk : k ∈ s.aliases.keys) {index : Nat}
    (hindex : (result.map Prod.fst).idxOf? (s.aliases.name k) = some index) :
    ∃ v, (k, v) ∈ s.select.body.row rows ∧ (result.map Prod.snd)[index]? = some v := by
  obtain ⟨hlt, hname, _⟩ := List.idxOf?_eq_some_iff.mp hindex
  rw [List.length_map] at hlt
  rw [List.getElem_map] at hname
  refine ⟨result[index].2, (h.mem_row hk).mp ?_, ?_⟩
  · rw [← hname]
    exact List.getElem_mem hlt
  · rw [List.getElem?_map, List.getElem?_eq_getElem hlt]
    rfl

end Statement

/-! ## 3. Reading an element -/

theorem cell_eq {row : List Value} {index : Nat} {v : Value} (h : row[index]? = some v) :
    cell row index = .ok v := by
  unfold cell
  rw [h]

/-- The endpoint of an edge is the first of the candidates whose column is not null. -/
theorem endpoint_spec {row : List Value} {key : Table → Option Int64} :
    ∀ {ends : List (Table × Nat)}, (∀ x ∈ ends, row[x.2]? = some ((key x.1).elim .null .int)) →
    ∃ found, endpoint row ends = .ok found ∧
      (∀ v, found = some v → v.table ∈ ends.map Prod.fst ∧ key v.table = some v.id) ∧
      (found = none → ∀ x ∈ ends, key x.1 = none) := by
  intro ends
  induction ends with
  | nil =>
    intro _
    exact ⟨none, rfl, nofun, fun _ => List.forall_mem_nil _⟩
  | cons x ends ih =>
    intro h
    obtain ⟨table, index⟩ := x
    have hcell := cell_eq (h _ List.mem_cons_self)
    simp only [endpoint, hcell, bind, Except.bind]
    cases hkey : key table with
    | some i =>
      refine ⟨some ⟨table, i⟩, rfl, ?_, nofun⟩
      intro v hv
      cases hv
      exact ⟨List.mem_cons_self, hkey⟩
    | none =>
      obtain ⟨found, hfound, hsome, hnone⟩ := ih fun x hx => h x (List.mem_cons_of_mem _ hx)
      refine ⟨found, hfound, ?_, ?_⟩
      · intro v hv
        obtain ⟨hmem, hv⟩ := hsome v hv
        exact ⟨List.mem_cons_of_mem _ hmem, hv⟩
      · intro hn
        exact List.forall_mem_cons.mpr ⟨hkey, hnone hn⟩

/-- The columns of a result that belong to an element are those of its table, and they hold what a
row of the table holds. -/
structure RowFormat.Holds (f : RowFormat) (T : Topology) (result : List (String × Value))
    (key : FragmentKey) (r : Row) : Prop where
  own : ∀ x ∈ f.found (result.map Prod.fst) key, T.HasColumn key.table x.column ∧
    (result.map Prod.snd)[x.index]? = some (r.cell x.column)
  all : ∀ {col : Column}, T.HasColumn key.table col →
    ∃ x ∈ f.found (result.map Prod.fst) key, x.column = col

namespace RowFormat.Holds

variable {f : RowFormat} {T : Topology} {result : List (String × Value)} {key : FragmentKey}
  {r : Row} (h : f.Holds T result key r)
include h

theorem id_eq (hknown : ∃ ps, T.properties? key.table = some ps) :
    ∃ index, ((f.found (result.map Prod.fst) key).filterMap FoundColumn.id?).getLast?
        = some index ∧ (result.map Prod.snd)[index]? = some (.int r.id) := by
  have hcolumn : T.HasColumn key.table .id := hknown
  obtain ⟨x, hx, hcol⟩ := h.all hcolumn
  have hmem : x.index ∈ (f.found (result.map Prod.fst) key).filterMap FoundColumn.id? := by
    refine List.mem_filterMap.mpr ⟨x, hx, ?_⟩
    unfold FoundColumn.id?
    rw [hcol]
  cases hlast : ((f.found (result.map Prod.fst) key).filterMap FoundColumn.id?).getLast? with
  | none =>
    rw [List.getLast?_eq_none_iff] at hlast
    rw [hlast] at hmem
    cases hmem
  | some index =>
    obtain ⟨y, hy, hid⟩ := List.mem_filterMap.mp (List.mem_of_getLast? hlast)
    obtain ⟨_, hcell⟩ := h.own y hy
    unfold FoundColumn.id? at hid
    split at hid
    · rename_i hcol
      cases hid
      rw [hcol] at hcell
      exact ⟨_, rfl, hcell⟩
    · cases hid

theorem find?_isAmbiguous (hc : T.Consistent) :
    (f.found (result.map Prod.fst) key).find? FoundColumn.isAmbiguous = none := by
  rw [List.find?_eq_none]
  intro x hx hambiguous
  obtain ⟨hcol, _⟩ := h.own x hx
  unfold FoundColumn.isAmbiguous at hambiguous
  split at hambiguous
  · rename_i k hk
    rw [hk] at hcol
    exact hc.keyDirection hcol (eq_of_beq hambiguous)
  · cases hambiguous

theorem properties_eq :
    ((f.found (result.map Prod.fst) key).filterMap FoundColumn.property?).mapM
      (fun x => (return (x.1, ← cell (result.map Prod.snd) x.2) : Except DecodeFault _))
    = .ok (((f.found (result.map Prod.fst) key).filterMap FoundColumn.property?).map
      fun x => (x.1, r.value x.1)) := by
  refine mapM_ok ?_
  intro ⟨p, index⟩ hmem
  obtain ⟨x, hx, hp⟩ := List.mem_filterMap.mp hmem
  obtain ⟨_, hcell⟩ := h.own x hx
  unfold FoundColumn.property? at hp
  split at hp
  · rename_i hx'
    cases hp
    rw [hx'] at hcell
    simp only [cell_eq hcell]
    rfl
  · cases hp

theorem mem_read_properties {p : String} {v : Value} :
    (p, v) ∈ ((f.found (result.map Prod.fst) key).filterMap FoundColumn.property?).map
        (fun x => (x.1, r.value x.1)) ↔
      T.HasColumn key.table (.property p) ∧ v = r.value p := by
  rw [List.mem_map]
  constructor
  · intro ⟨⟨p', index⟩, hmem, heq⟩
    obtain ⟨rfl, rfl⟩ := Prod.mk.inj heq
    obtain ⟨x, hx, hp⟩ := List.mem_filterMap.mp hmem
    obtain ⟨hcol, _⟩ := h.own x hx
    unfold FoundColumn.property? at hp
    split at hp
    · rename_i hx'
      cases hp
      rw [hx'] at hcol
      exact ⟨hcol, rfl⟩
    · cases hp
  · intro ⟨hcol, hv⟩
    obtain ⟨x, hx, hp⟩ := h.all hcol
    refine ⟨(p, x.index), List.mem_filterMap.mpr ⟨x, hx, ?_⟩, by rw [hv]⟩
    unfold FoundColumn.property?
    rw [hp]

theorem mem_vertices {side : Direction} {x : Table × Nat}
    (hx : x ∈ (f.found (result.map Prod.fst) key).filterMap (FoundColumn.vertex? side)) :
    T.HasKey key.table ⟨x.1, side⟩ ∧
      (result.map Prod.snd)[x.2]? = some ((r.key ⟨x.1, side⟩).elim .null .int) := by
  obtain ⟨y, hy, hv⟩ := List.mem_filterMap.mp hx
  obtain ⟨hcol, hcell⟩ := h.own y hy
  unfold FoundColumn.vertex? at hv
  split at hv
  · rename_i k hk
    split at hv
    · rename_i hside
      cases hv
      subst hside
      rw [hk] at hcol hcell
      exact ⟨hcol, hcell⟩
    · cases hv
  · cases hv

/-- The vertex at an end of an edge is the one that its foreign key points at. -/
theorem endpoint_eq (hsingle : r.Single T key.table) (side : Direction) :
    ∃ found, endpoint (result.map Prod.snd)
        ((f.found (result.map Prod.fst) key).filterMap (FoundColumn.vertex? side)) = .ok found ∧
      ∀ {v : RecordId}, found = some v ↔ r.PointsAt T key.table side v := by
  obtain ⟨found, hfound, hsome, hnone⟩ :=
    @endpoint_spec _ (fun t => r.key ⟨t, side⟩) _ fun x hx => (h.mem_vertices hx).2
  refine ⟨found, hfound, ?_⟩
  have hpoints : ∀ {v : RecordId}, found = some v → r.PointsAt T key.table side v := by
    intro v hv
    obtain ⟨hmem, hkey⟩ := hsome v hv
    obtain ⟨x, hx, hxv⟩ := List.mem_map.mp hmem
    refine ⟨?_, hkey⟩
    rw [← hxv]
    exact (h.mem_vertices hx).1
  intro v
  refine ⟨hpoints, ?_⟩
  intro hv
  cases hcase : found with
  | some v' => rw [hsingle (hpoints hcase) hv]
  | none =>
    -- the column of the key is there, and it is not null
    have hcolumn : T.HasColumn key.table (.foreignKey ⟨v.table, side⟩) := hv.1
    obtain ⟨y, hy, hcol⟩ := h.all hcolumn
    have hmem : (v.table, y.index)
        ∈ (f.found (result.map Prod.fst) key).filterMap (FoundColumn.vertex? side) := by
      refine List.mem_filterMap.mpr ⟨y, hy, ?_⟩
      unfold FoundColumn.vertex?
      rw [hcol]
      exact if_pos rfl
    have hnull := hnone hcase _ hmem
    rw [hv.2] at hnull
    cases hnull

end RowFormat.Holds

/-- **An element is read back.** -/
theorem RowFormat.Holds.read {f : RowFormat} {T : Topology} {result : List (String × Value)}
    {n : QueryNode} {r : Row} (h : f.Holds T result n.fragmentKey r) (hc : T.Consistent)
    (hknown : ∃ ps, T.properties? n.table = some ps) (hsingle : r.Single T n.table) :
    ∃ l e, f.layout (result.map Prod.fst) n.fragmentKey = .ok l ∧
      l.read (result.map Prod.snd) = .ok (some e) ∧ e.Shows T n r := by
  obtain ⟨index, hindex, hid⟩ := h.id_eq hknown
  obtain ⟨out, hout, hpoints⟩ := h.endpoint_eq hsingle .outgoing
  obtain ⟨inn, hinn, hpoints'⟩ := h.endpoint_eq hsingle .incoming
  have hproperties := h.properties_eq
  have hlayout : f.layout (result.map Prod.fst) n.fragmentKey = .ok {
      key := n.fragmentKey
      id := index
      properties := (f.found (result.map Prod.fst) n.fragmentKey).filterMap FoundColumn.property?
      outVertices := (f.found (result.map Prod.fst) n.fragmentKey).filterMap
        (FoundColumn.vertex? .outgoing)
      inVertices := (f.found (result.map Prod.fst) n.fragmentKey).filterMap
        (FoundColumn.vertex? .incoming) } := by
    simp only [layout, h.find?_isAmbiguous hc, hindex]
    rfl
  refine ⟨_, {
    record := ⟨n.table, r.id⟩
    properties := .ofList (((f.found (result.map Prod.fst) n.fragmentKey).filterMap
      FoundColumn.property?).map fun x => (x.1, r.value x.1))
    labels := .ofList (ResultLabel.userNames n.labels)
    depth := n.depth
    outVertex := out
    inVertex := inn }, hlayout, ?_, ?_⟩
  · simp only [ElementLayout.read, cell_eq hid, Value.toInt?, bind, Except.bind] at hproperties ⊢
    rw [hproperties, hout, hinn]
    rfl
  · refine ⟨rfl, SortedMap.ascending_ofList _, ?_, rfl, rfl, hpoints, hpoints'⟩
    refine (SortedMap.find?_ofList ?_).trans h.mem_read_properties
    intro p v v' hv hv'
    rw [(h.mem_read_properties.mp hv).2, (h.mem_read_properties.mp hv').2]

/-! ## 4. Reading a row -/

/-- What is read by layouts one by one. -/
theorem mapM_read {R : Nat → Element → Prop} {cells : List Value} {ids : List Nat}
    {layouts : List ElementLayout}
    (h : List.Forall₂ (fun id l => ∃ e, ElementLayout.read l cells = .ok (some e) ∧ R id e) ids
      layouts) :
    ∃ elements, layouts.mapM (fun l => l.read cells) = .ok (elements.map some) ∧
      List.Forall₂ R ids elements := by
  induction h with
  | nil => exact ⟨[], rfl, .nil⟩
  | cons hread _ ih =>
    obtain ⟨e, he, hr⟩ := hread
    obtain ⟨elements, helements, hall⟩ := ih
    refine ⟨e :: elements, ?_, .cons hr hall⟩
    rw [List.mapM_cons, he, helements]
    rfl

/-- The values at which places point. -/
theorem mapM_cells {α : Type} {value : α → Value} {direction : α → SortDirection}
    {cells : List Value} {as : List α} {places : List (Nat × SortDirection)}
    (h : List.Forall₂ (fun a place => cells[place.1]? = some (value a) ∧ place.2 = direction a)
      as places) :
    places.mapM (fun place => (return (← cell cells place.1, place.2) : Except DecodeFault _))
      = .ok (as.map fun a => (value a, direction a)) := by
  induction h with
  | nil => rfl
  | cons hplace _ ih =>
    rw [List.mapM_cons, cell_eq hplace.1, hplace.2, ih]
    rfl

theorem eq_of_shows {T : Topology} {node : Nat → QueryNode} {row : Nat → Row} {ids : List Nat}
    {es es' : List Element}
    (h : List.Forall₂ (fun id e => Element.Shows e T (node id) (row id)) ids es) :
    List.Forall₂ (fun id e => Element.Shows e T (node id) (row id)) ids es' → es = es' := by
  induction h generalizing es' with
  | nil =>
    intro h'
    cases h'
    rfl
  | cons he _ ih =>
    intro h'
    cases h' with
    | cons he' h' => rw [he.unique he', ih h']

namespace Composer

variable {c : Composer} {T : Topology} {hops : List Hop} {nodes active : List Nat} {id : Nat}
  {outputs : List NodeColumn} {root : Option RootCondition} {stack : PathStack}
  {sort : List (NodeColumn × SortDirection)} {s : Statement} {rows : List (List Row)}
  {row : Nat → Row} {result : List (String × Value)}

/-- The rows at which the tables of a select are read are those of its nodes. -/
def Evaluates (c : Composer) (outputs : List NodeColumn) (p : PathSelect) (rows : List (List Row))
    (row : Nat → Row) : Prop :=
  ∀ (k : AliasKey) (v : Value),
    (k, v) ∈ p.row rows ↔ ∃ x ∈ outputs, k = c.keyAt x ∧ v = cellAt row x

section Reading

variable (h : c.IsStatement T stack root active outputs sort s) (hs : c.Sound T hops)
  (hl : c.tree.Layered) (hd : c.tree.GoesDown stack.nodes)
  (hrow : c.Evaluates outputs s.select.body rows row) (hreturns : s.Returns rows result)
include h hs hl hd hrow hreturns

omit hs hl hd hrow hreturns in
theorem IsStatement.has_output {x : NodeColumn} (hx : x ∈ outputs) :
    x.1 ∈ stack.nodes ∧ c.Has T x := by
  obtain ⟨hmem, hhas⟩ := h.select.body.has hx
  exact ⟨h.select.rooted.suffix.subset hmem, hhas⟩

/-- An output is found under its alias. -/
theorem IsStatement.output_cell {x : NodeColumn} (hx : x ∈ outputs) :
    ∃ index, (result.map Prod.fst).idxOf? (s.aliases.name (c.keyAt x)) = some index ∧
      (result.map Prod.snd)[index]? = some (cellAt row x) := by
  have hmem := (hrow _ _).mpr ⟨x, hx, rfl, rfl⟩
  obtain ⟨index, hindex⟩ := hreturns.position hmem
  obtain ⟨v, hv, hcell⟩ := hreturns.cell (Statement.mem_aliases_of_row hmem) hindex
  obtain ⟨y, hy, hkey, rfl⟩ := (hrow _ _).mp hv
  obtain rfl : x = y :=
    hs.keyAt_inj hl hd (h.has_output hx).1 (h.has_output hy).1 hkey
  exact ⟨index, hindex, hcell⟩

/-- The columns of a shown node, and no others, are found for its element. -/
theorem IsStatement.holds (hid : id ∈ c.shownAt stack.nodes)
    (hstop : (c.tree.nodeAt id).intermediate = false) :
    s.rowFormat.Holds T result (c.tree.nodeAt id).fragmentKey (row id) := by
  have hlive := hd.live id (mem_shownAt.mp hid).1
  constructor
  · intro x hx
    obtain ⟨⟨name, k⟩, hentry, hfound⟩ := List.mem_filterMap.mp hx
    obtain ⟨hentry, howns⟩ := List.mem_filter.mp hentry
    obtain ⟨index, hindex, rfl⟩ := Option.map_eq_some_iff.mp hfound
    obtain ⟨hk, rfl⟩ := (AliasTable.mem_snapshot Statement.nodup_aliases).mp hentry
    obtain ⟨v, hv, hcell⟩ := hreturns.cell hk hindex
    obtain ⟨y, hy, rfl, rfl⟩ := (hrow _ _).mp hv
    obtain ⟨hmem, hhas⟩ := h.has_output hy
    -- depth and table of the key are those of the element, so it is the node's
    have hnode : y.1 = id := by
      simp only [FragmentKey.owns, Bool.and_eq_true, beq_iff_eq] at howns
      exact List.inj_on_of_nodup_map (hs.nodup_places hl hd) hmem (mem_shownAt.mp hid).1
        (Prod.ext howns.1.1 howns.1.2)
    subst hnode
    exact ⟨hhas.2, hcell⟩
  · intro col hcol
    have hmem : (id, col) ∈ outputs := by
      rw [h.select.projects, mem_elementsAt]
      exact Or.inl ⟨hid, (hs.mem_elementColumns hlive hstop).mpr hcol⟩
    have hselected := (hrow _ _).mpr ⟨(id, col), hmem, rfl, rfl⟩
    obtain ⟨index, hindex, _⟩ := h.output_cell hs hl hd hrow hreturns hmem
    have hentry : (s.aliases.name (c.keyAt (id, col)), c.keyAt (id, col))
        ∈ s.rowFormat.aliases.entries :=
      (AliasTable.mem_snapshot Statement.nodup_aliases).mpr
        ⟨Statement.mem_aliases_of_row hselected, rfl⟩
    have howns : (c.tree.nodeAt id).fragmentKey.owns (c.keyAt (id, col)) = true := by
      simp [FragmentKey.owns, keyAt, FragmentKey.column]
    refine ⟨⟨s.aliases.name (c.keyAt (id, col)), col, index⟩, List.mem_filterMap.mpr
      ⟨_, List.mem_filter.mpr ⟨hentry, howns⟩, ?_⟩, rfl⟩
    simp only [hindex]
    rfl

/-- **Reading undoes projection.** From a row of its results a statement's decoder reads the
elements of the nodes that are shown, and the values that the rows are sorted by. -/
theorem IsStatement.decode
    (hstop : ∀ id ∈ c.shownAt stack.nodes, (c.tree.nodeAt id).intermediate = false)
    (hsingle : ∀ id ∈ c.shownAt stack.nodes, (row id).Single T (c.tableAt id)) :
    ∃ d elements, s.rowFormat.decoder (result.map Prod.fst) = .ok d ∧
      d.decode (result.map Prod.snd)
        = .ok (elements, sort.map fun x => (cellAt row x.1, x.2)) ∧
      List.Forall₂ (fun id e => Element.Shows e T (c.tree.nodeAt id) (row id))
        (c.shownAt stack.nodes) elements := by
  have hlayout : ∀ id ∈ c.shownAt stack.nodes, ∃ l,
      s.rowFormat.layout (result.map Prod.fst) (c.tree.nodeAt id).fragmentKey = .ok l ∧
        ∃ e, l.read (result.map Prod.snd) = .ok (some e) ∧
          Element.Shows e T (c.tree.nodeAt id) (row id) := by
    intro id hid
    have hknown := hs.known (hd.live id (mem_shownAt.mp hid).1)
    obtain ⟨l, e, hl, hread⟩ := (h.holds hs hl hd hrow hreturns hid (hstop id hid)).read
      hs.consistent hknown (hsingle id hid)
    exact ⟨l, hl, e, hread⟩
  obtain ⟨layouts, hlayouts, hreads⟩ := mapM_of_forall hlayout
  obtain ⟨elements, helements, hshows⟩ := mapM_read hreads
  have hsort : ∀ x ∈ sort, ∃ place,
      RowFormat.sortColumn (result.map Prod.fst) (s.aliases.name (c.keyAt x.1), x.2) = .ok place ∧
        (result.map Prod.snd)[place.1]? = some (cellAt row x.1) ∧ place.2 = x.2 := by
    intro x hx
    have hmem : x.1 ∈ outputs := by
      rw [h.select.projects]
      exact Or.inr (List.mem_map_of_mem hx)
    obtain ⟨index, hindex, hcell⟩ := h.output_cell hs hl hd hrow hreturns hmem
    refine ⟨(index, x.2), ?_, hcell, rfl⟩
    unfold RowFormat.sortColumn
    rw [hindex]
  obtain ⟨places, hplaces, hvalues⟩ := mapM_of_forall hsort
  have hfragments : s.fragments.mapM (s.rowFormat.layout (result.map Prod.fst)) = .ok layouts := by
    rw [h.fragments, List.mapM_map]
    exact hlayouts
  have horder : s.orderBy.mapM (RowFormat.sortColumn (result.map Prod.fst)) = .ok places := by
    rw [Statement.orderBy, h.select.orderBy, List.map_map, List.mapM_map]
    exact hplaces
  have hcells := mapM_cells hvalues
  refine ⟨⟨layouts, places⟩, elements, ?_, ?_, hshows⟩
  · show (do
      let layouts ← s.fragments.mapM (s.rowFormat.layout (result.map Prod.fst))
      let sortColumns ← s.orderBy.mapM (RowFormat.sortColumn (result.map Prod.fst))
      return (⟨layouts, sortColumns⟩ : RowDecoder)) = Except.ok _
    rw [hfragments, horder]
    rfl
  · simp only [RowDecoder.decode, helements, hcells]
    simp [bind, Except.bind, pure, Except.pure]

end Reading

end Composer

/-! ## 5. Plans -/

/-- **Decoding undoes projection.** A statement reads the nodes of its stack in segments. Put each
node at a row: from the row that the statement then returns, with its columns in any order and
among columns of other names, the decoder reads the elements of the nodes that are shown, from the
root on, and the values that rows are sorted by. -/
theorem Run.decode_selected {T : Topology} (hT : T.Built) {run : Run}
    (hdepths : ∀ {i : Nat} {h : Hop}, run.hops[i]? = some h → h.depth = i) (settings : Settings)
    (n : Numbering) {plan : Plan} (hok : run.plan settings T n = .ok plan) {i : Nat} {s : Statement}
    (hi : plan.statements[i]? = some s) :
    ∃ (trees : List QueryTree) (queue : List (QueryTree × PathStack)) (t : QueryTree)
      (stack : PathStack) (segments : List (List Nat)) (sort : List (NodeColumn × SortDirection)),
      run.trees settings T = .ok trees ∧ stacksOf trees = .ok queue ∧
      queue[i]? = some (t, stack) ∧ segments.flatten <:+ stack.nodes ∧
      s.select.body.scopes = segments.map (List.map fun id => (t.nodeAt id).table) ∧
      s.select.orderBy = sort.map (fun x => ((t.nodeAt x.1.1).fragmentKey.column x.1.2, x.2)) ∧
      ∀ row : Nat → Row, (∀ id ∈ stack.nodes, (row id).Single T (t.nodeAt id).table) →
        ∃ elements : List Element,
          List.Forall₂ (fun id e => Element.Shows e T (t.nodeAt id) (row id))
            ((⟨t, settings⟩ : Composer).shownAt stack.nodes) elements ∧
          ∀ result, s.Returns (segments.map (List.map row)) result →
            ∃ d, s.rowFormat.decoder (result.map Prod.fst) = .ok d ∧
              d.decode (result.map Prod.snd)
                = .ok (elements, sort.map fun x => ((row x.1.1).cell x.1.2, x.2)) := by
  have hc := hT.consistent
  obtain ⟨trees, queue, t, phase, id, root, active, outputs, sort, htrees, hqueue, hstack, ht, hid,
    hsound, hstatement⟩ := statement_of_plan hc hok hi
  have hlayered : t.Layered := trees_layered hc hdepths htrees ht
  obtain ⟨hdown, _, _⟩ := hsound.wellFormed.path_goesDown (live_of_mem_ends hid)
  have hnumbers : s.select.body.numbers.Nodup := by
    have hall : s.select.numbers.Nodup := hstatement.select.numbers ▸ List.nodup_range'
    exact hall.sublist (List.sublist_append_left _ _)
  obtain ⟨segments, hflatten, hscopes, hrow⟩ :=
    hstatement.select.body.mem_row hsound hlayered hnumbers
  refine ⟨trees, queue, t, _, segments, sort, htrees, hqueue, hstack,
    hflatten ▸ hstatement.select.rooted.suffix, hscopes, hstatement.select.orderBy, ?_⟩
  intro row hsingle
  have hread := fun result (hreturns : s.Returns _ result) =>
    hstatement.decode hsound hlayered hdown (hrow row) hreturns
      (fun _ hshown => hsound.stops_of_shown hlayered hid hshown)
      fun id hshown => hsingle id (Composer.mem_shownAt.mp hshown).1
  -- the columns as they stand in the `SELECT` list, and nothing else
  obtain ⟨_, elements, _, _, hshows⟩ := hread _ ⟨[], List.forall_mem_nil _, List.Perm.refl _⟩
  refine ⟨elements, hshows, ?_⟩
  intro result hreturns
  obtain ⟨d, elements', hdecoder, hdecode, hshows'⟩ := hread result hreturns
  obtain rfl : elements' = elements := eq_of_shows hshows' hshows
  exact ⟨d, hdecoder, hdecode⟩

namespace People

/-- The edges from everyone to whom they know. -/
def acquaintances : Run :=
  ⟨[everyone, { kind := .move (.follow .outgoing [] .edge), depth := 1 }]⟩

theorem key_friendship {k : ForeignKey} {i : Int64} (h : friendship.key k = some i) :
    (k = ⟨person, .outgoing⟩ ∧ i = 1) ∨ (k = ⟨person, .incoming⟩ ∧ i = 2) := by
  simp only [friendship] at h
  split at h
  · rename_i hk
    exact Or.inl ⟨hk, (Option.some.inj h).symm⟩
  · split at h
    · rename_i hk
      exact Or.inr ⟨hk, (Option.some.inj h).symm⟩
    · cases h

theorem single_friendship (table : Table) : friendship.Single topology table := by
  intro side v v' hv hv'
  obtain ⟨table, i⟩ := v
  obtain ⟨table', i'⟩ := v'
  rcases key_friendship hv.2 with ⟨hk, rfl⟩ | ⟨hk, rfl⟩ <;>
    rcases key_friendship hv'.2 with ⟨hk', rfl⟩ | ⟨hk', rfl⟩ <;> cases hk <;> cases hk' <;> rfl

theorem depths_acquaintances {i : Nat} {h : Hop} (hi : acquaintances.hops[i]? = some h) :
    h.depth = i := by
  match i with
  | 0 => cases hi; rfl
  | 1 => cases hi; rfl
  | _ + 2 => cases hi

/-- The rows of the only statement show the edge. -/
theorem shown_acquaintances {trees : List QueryTree} {queue : List (QueryTree × PathStack)}
    {t : QueryTree} {stack : PathStack} (htrees : acquaintances.trees {} topology = .ok trees)
    (hqueue : stacksOf trees = .ok queue) (hstack : queue[0]? = some (t, stack)) :
    (⟨t, {}⟩ : Composer).shownAt stack.nodes = [1] ∧ (t.nodeAt 1).table = knows := by
  have hall : ((acquaintances.trees {} topology).toOption.bind fun trees =>
      (stacksOf trees).toOption.map fun queue => queue.map fun x =>
        ((⟨x.1, {}⟩ : Composer).shownAt x.2.nodes, (x.1.nodeAt 1).table))
        = some [([1], knows)] := by decide +kernel
  rw [htrees] at hall
  simp only [Except.toOption, Option.bind_some, hqueue, Option.map_some, Option.some.injEq] at hall
  have hfirst := congrArg (·[0]?) hall
  simp only [List.getElem?_map, hstack, Option.map_some, List.getElem?_cons_zero,
    Option.some.injEq] at hfirst
  exact Prod.mk.inj hfirst

/-- The friendship of the first two is read back, with both of its ends. -/
theorem decode_friendship : ∃ plan s, acquaintances.plan {} topology {} = .ok plan ∧
    plan.statements[0]? = some s ∧ ∃ rows key, ∃ e : Element, e.record = ⟨knows, 7⟩ ∧
      e.outVertex = some ⟨person, 1⟩ ∧ e.inVertex = some ⟨person, 2⟩ ∧
      ∀ result, s.Returns rows result →
        ∃ d, s.rowFormat.decoder (result.map Prod.fst) = .ok d ∧
          d.decode (result.map Prod.snd) = .ok ([e], key) := by
  have hlen : (acquaintances.plan {} topology {}).toOption.map
      (fun plan => plan.statements.length) = some 1 := by decide +kernel
  cases hok : acquaintances.plan {} topology {} with
  | error e =>
    rw [hok] at hlen
    cases hlen
  | ok plan =>
    rw [hok] at hlen
    obtain ⟨s, hs⟩ := List.length_eq_one_iff.mp (Option.some.inj hlen)
    have hi : plan.statements[0]? = some s := by
      rw [hs]
      rfl
    obtain ⟨trees, queue, t, stack, segments, sort, htrees, hqueue, hstack, _, _, _, hdecode⟩ :=
      Run.decode_selected built depths_acquaintances {} {} hok hi
    obtain ⟨elements, hshows, hread⟩ := hdecode (fun _ => friendship)
      fun id _ => single_friendship (t.nodeAt id).table
    obtain ⟨hshown, htable⟩ := shown_acquaintances htrees hqueue hstack
    rw [hshown] at hshows
    cases hshows with
    | @cons _ e _ es he hes =>
      cases hes
      have hrow : friendship ∈ graph.rows (t.nodeAt 1).table := by
        rw [htable]
        exact List.mem_cons_self
      refine ⟨plan, s, rfl, hi, _, _, e, ?_, ?_, ?_, hread⟩
      · rw [he.record, htable]
        rfl
      · exact he.outVertex.mpr ⟨graph.ownKeys hrow rfl, rfl⟩
      · exact he.inVertex.mpr ⟨graph.ownKeys hrow rfl, rfl⟩

end People

end TraversalSql
