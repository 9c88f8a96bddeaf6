import TraversalSql.Proofs.Sorted
import TraversalSql.Schema.Topology

/-!
# Topologies as they are built

A topology is built by adding vertex tables and edge tables to the empty one. It shows the foreign
keys twice, at the edge tables and as incidence at the vertex tables. `Consistent` says that the
two views agree and that tables and keys are of the kinds they should be; `Built.consistent` says
that no sequence of additions breaks it.
-/

set_option autoImplicit false

namespace TraversalSql

namespace Topology

/-- The topology comes from the empty one by adding vertex and edge tables. A refused addition
gives no new topology, so it is not a step of its own. -/
inductive Built : Topology → Prop
  | empty : Built {}
  | vertex {t t' : Topology} {schema label : String} {properties : Properties} {table : Table} :
      Built t → t.addVertexLabel schema label properties = .ok (table, t') → Built t'
  | edge {t t' : Topology} {schema label : String} {properties : Properties}
      {connections : List (Table × Table)} {table : Table} :
      Built t → t.addEdgeLabel schema label properties connections = .ok (table, t') → Built t'

/-- The edge table has the foreign key. -/
def HasKey (t : Topology) (edge : Table) (k : ForeignKey) : Prop :=
  ∃ e, t.edges.find? edge = some e ∧ k ∈ e.foreignKeys

/-- The two views of the foreign keys agree, and every table is of its kind. -/
structure Consistent (t : Topology) : Prop where
  verticesAscend : t.vertices.Ascending
  edgesAscend : t.edges.Ascending
  incidenceAscends : t.incidence.Ascending
  vertexKind : ∀ {v ps}, t.vertices.find? v = some ps → v.kind = .vertex
  edgeKind : ∀ {e et}, t.edges.find? e = some et → e.kind = .edge
  keysAscend : ∀ {e et}, t.edges.find? e = some et → et.foreignKeys.Ascending
  keyVertex : ∀ {e k}, t.HasKey e k → ∃ ps, t.vertices.find? k.vertex = some ps
  keyDirection : ∀ {e k}, t.HasKey e k → k.direction ≠ .both
  incidenceIff : ∀ {v}, (∃ i, t.incidence.find? v = some i) ↔ ∃ ps, t.vertices.find? v = some ps
  sideAscends : ∀ {v i} d, t.incidence.find? v = some i → (i.side d).Ascending
  sideIff : ∀ {v i d e}, d ≠ .both → t.incidence.find? v = some i →
    (e ∈ i.side d ↔ t.HasKey e ⟨v, d⟩)

variable {t t' : Topology}

theorem consistent_empty : Consistent {} where
  verticesAscend := SortedMap.ascending_empty
  edgesAscend := SortedMap.ascending_empty
  incidenceAscends := SortedMap.ascending_empty
  vertexKind h := by cases h
  edgeKind h := by cases h
  keysAscend h := by cases h
  keyVertex h := by obtain ⟨_, h, _⟩ := h; cases h
  keyDirection h := by obtain ⟨_, h, _⟩ := h; cases h
  incidenceIff := by
    intro v
    constructor <;> rintro ⟨_, h⟩ <;> cases h
  sideAscends _ h := by cases h
  sideIff _ h := by cases h

/-! ## 1. A vertex table -/

theorem Consistent.addVertexLabel (hc : t.Consistent) {schema label : String}
    {properties : Properties} {table : Table}
    (h : t.addVertexLabel schema label properties = .ok (table, t')) : t'.Consistent := by
  simp only [Topology.addVertexLabel] at h
  split at h
  · cases h
  · rename_i hnew
    cases h
    have hfresh : t.vertices.find? ⟨schema, label, .vertex⟩ = none := by
      cases hf : t.vertices.find? ⟨schema, label, .vertex⟩ with
      | none => rfl
      | some ps => exact absurd (SortedMap.contains_iff.mpr ⟨ps, hf⟩) hnew
    have hnoInc : t.incidence.find? ⟨schema, label, .vertex⟩ = none := by
      cases hf : t.incidence.find? ⟨schema, label, .vertex⟩ with
      | none => rfl
      | some i =>
        obtain ⟨ps, hps⟩ := hc.incidenceIff.mp ⟨i, hf⟩
        rw [hfresh] at hps
        cases hps
    have hv := SortedMap.find?_alter hc.verticesAscend ⟨schema, label, .vertex⟩
      (fun _ => properties)
    have hi := SortedMap.find?_alter hc.incidenceAscends ⟨schema, label, .vertex⟩
      (fun old => old.getD {})
    refine {
      verticesAscend := hc.verticesAscend.alter _ _
      edgesAscend := hc.edgesAscend
      incidenceAscends := hc.incidenceAscends.alter _ _
      vertexKind := ?_, edgeKind := hc.edgeKind, keysAscend := hc.keysAscend, keyVertex := ?_
      keyDirection := hc.keyDirection, incidenceIff := ?_, sideAscends := ?_, sideIff := ?_ }
    · intro v ps hps
      simp only [SortedMap.insert, hv] at hps
      split at hps
      · rename_i heq
        rw [heq]
      · exact hc.vertexKind hps
    · intro e k hk
      simp only [SortedMap.insert, hv]
      split
      · exact ⟨_, rfl⟩
      · exact hc.keyVertex hk
    · intro v
      simp only [SortedMap.insert, hv, hi]
      split
      · exact ⟨fun _ => ⟨_, rfl⟩, fun _ => ⟨_, rfl⟩⟩
      · exact hc.incidenceIff
    · intro v i d hvi
      simp only [hi, hnoInc] at hvi
      split at hvi
      · cases hvi
        cases d <;> exact SortedSet.ascending_empty
      · exact hc.sideAscends d hvi
    · intro v i d e hd hvi
      simp only [hi, hnoInc] at hvi
      split at hvi
      · rename_i heq
        -- a new vertex table has no edges yet, since keys point at old tables only
        cases hvi
        have hside : ({} : Incidence).side d = ∅ := by cases d <;> rfl
        simp only [Option.getD_none, hside, SortedSet.not_mem_empty, false_iff]
        intro hk
        obtain ⟨ps, hps⟩ := hc.keyVertex hk
        rw [heq, hfresh] at hps
        cases hps
      · exact hc.sideIff hd hvi

/-! ## 2. An edge table -/

/-- The edge table with a key at either end added. -/
def EdgeTable.connected (e : EdgeTable) (source target : Table) : EdgeTable :=
  { e with foreignKeys := (e.foreignKeys.insert ⟨source, .outgoing⟩).insert ⟨target, .incoming⟩ }

/-- The keys that a connection adds. -/
def connectionKeys (source target : Table) : List ForeignKey :=
  [⟨source, .outgoing⟩, ⟨target, .incoming⟩]

theorem mem_connected {e : EdgeTable} {source target : Table} {k : ForeignKey} :
    k ∈ (EdgeTable.connected e source target).foreignKeys ↔
      k ∈ connectionKeys source target ∨ k ∈ e.foreignKeys := by
  simp only [EdgeTable.connected, SortedSet.mem_insert, connectionKeys, List.mem_cons,
    List.not_mem_nil, or_false]
  tauto

theorem find?_edges_connect (hc : t.Consistent) (edge source target e : Table) :
    (t.connect edge source target).edges.find? e
      = if e = edge then some (EdgeTable.connected ((t.edges.find? edge).getD {}) source target)
        else t.edges.find? e := by
  simp only [connect, EdgeTable.connected, SortedMap.find?_alter hc.edgesAscend]

theorem hasKey_connect (hc : t.Consistent) {edge source target e : Table} {k : ForeignKey} :
    (t.connect edge source target).HasKey e k ↔
      (e = edge ∧ k ∈ connectionKeys source target) ∨ t.HasKey e k := by
  simp only [HasKey, find?_edges_connect hc]
  by_cases he : e = edge
  · subst he
    simp only [if_true, Option.some.injEq, exists_eq_left', mem_connected, true_and]
    cases hf : t.edges.find? e with
    | none => simp
    | some et => simp
  · simp [he]

/-- The edge tables at a vertex table once an edge table from `source` to `target` is added. -/
def Incidence.joined (i : Incidence) (v edge source target : Table) : Incidence where
  outgoing := if v = source then i.outgoing.insert edge else i.outgoing
  incoming := if v = target then i.incoming.insert edge else i.incoming

theorem find?_incidence_connect (hc : t.Consistent) (edge source target v : Table) :
    (t.connect edge source target).incidence.find? v
      = if v = source ∨ v = target then
          some (Incidence.joined ((t.incidence.find? v).getD {}) v edge source target)
        else t.incidence.find? v := by
  simp only [connect, SortedMap.find?_alter (hc.incidenceAscends.alter _ _),
    SortedMap.find?_alter hc.incidenceAscends]
  by_cases ht : v = target
  · subst ht
    by_cases hs : v = source
    · subst hs
      simp [Incidence.joined]
    · simp [Incidence.joined, hs]
  · by_cases hs : v = source
    · subst hs
      simp [Incidence.joined, ht]
    · simp [ht, hs]

theorem mem_side_joined {i : Incidence} {v edge source target e : Table} {d : Direction}
    (hd : d ≠ .both) :
    e ∈ (Incidence.joined i v edge source target).side d ↔
      (e = edge ∧ (⟨v, d⟩ : ForeignKey) ∈ connectionKeys source target) ∨ e ∈ i.side d := by
  cases d with
  | outgoing =>
    by_cases hv : v = source <;> simp [Incidence.joined, Incidence.side, connectionKeys, hv]
  | incoming =>
    by_cases hv : v = target <;> simp [Incidence.joined, Incidence.side, connectionKeys, hv]
  | both => exact absurd rfl hd

theorem ascending_side_joined {i : Incidence} {v edge source target : Table}
    (h : ∀ d, (i.side d).Ascending) (d : Direction) :
    ((Incidence.joined i v edge source target).side d).Ascending := by
  have ho := h .outgoing
  have hi := h .incoming
  cases d <;> simp only [Incidence.joined, Incidence.side] at * <;> split
  all_goals first
    | exact ho.insert _
    | exact hi.insert _
    | exact ho
    | exact hi

theorem Consistent.connect (hc : t.Consistent) {edge source target : Table}
    (hedge : edge.kind = .edge) (hsource : ∃ ps, t.vertices.find? source = some ps)
    (htarget : ∃ ps, t.vertices.find? target = some ps) :
    (t.connect edge source target).Consistent := by
  have hends : ∀ {k}, k ∈ connectionKeys source target →
      (∃ ps, t.vertices.find? k.vertex = some ps) ∧ k.direction ≠ .both := by
    intro k hk
    rcases List.mem_pair.mp hk with rfl | rfl
    · exact ⟨hsource, nofun⟩
    · exact ⟨htarget, nofun⟩
  refine {
    verticesAscend := hc.verticesAscend
    edgesAscend := hc.edgesAscend.alter _ _
    incidenceAscends := (hc.incidenceAscends.alter _ _).alter _ _
    vertexKind := hc.vertexKind, edgeKind := ?_, keysAscend := ?_, keyVertex := ?_
    keyDirection := ?_, incidenceIff := ?_, sideAscends := ?_, sideIff := ?_ }
  · intro e et h
    rw [find?_edges_connect hc] at h
    split at h
    · rename_i heq
      rw [heq, hedge]
    · exact hc.edgeKind h
  · intro e et h
    rw [find?_edges_connect hc] at h
    split at h
    · cases h
      have hold : ((t.edges.find? edge).getD {}).foreignKeys.Ascending := by
        cases hf : t.edges.find? edge with
        | none => exact SortedSet.ascending_empty
        | some old => exact hc.keysAscend hf
      exact (hold.insert _).insert _
    · exact hc.keysAscend h
  · intro e k hk
    rcases (hasKey_connect hc).mp hk with ⟨_, hk⟩ | hk
    · exact (hends hk).1
    · exact hc.keyVertex hk
  · intro e k hk
    rcases (hasKey_connect hc).mp hk with ⟨_, hk⟩ | hk
    · exact (hends hk).2
    · exact hc.keyDirection hk
  · intro v
    rw [find?_incidence_connect hc]
    split
    · rename_i hv
      refine ⟨fun _ => ?_, fun _ => ⟨_, rfl⟩⟩
      rcases hv with rfl | rfl
      · exact hsource
      · exact htarget
    · exact hc.incidenceIff
  · intro v i d hi
    rw [find?_incidence_connect hc] at hi
    split at hi
    · cases hi
      refine ascending_side_joined (fun d => ?_) d
      cases hf : t.incidence.find? v with
      | none => cases d <;> exact SortedSet.ascending_empty
      | some old => exact hc.sideAscends d hf
    · exact hc.sideAscends d hi
  · intro v i d e hd hi
    rw [find?_incidence_connect hc] at hi
    rw [hasKey_connect hc]
    split at hi
    · rename_i hv
      cases hi
      have hold : ∃ old, t.incidence.find? v = some old := by
        refine hc.incidenceIff.mpr ?_
        rcases hv with rfl | rfl
        · exact hsource
        · exact htarget
      obtain ⟨old, hold⟩ := hold
      rw [mem_side_joined hd, hold, Option.getD_some, hc.sideIff hd hold]
    · rename_i hv
      rw [hc.sideIff hd hi]
      refine ⟨Or.inr, fun h => h.resolve_left ?_⟩
      rintro ⟨_, hk⟩
      rcases List.mem_pair.mp hk with hk | hk <;> cases hk
      · exact hv (Or.inl rfl)
      · exact hv (Or.inr rfl)

/-- Writing properties into an edge table, old or new, leaves keys and incidence alone. -/
theorem Consistent.extend (hc : t.Consistent) {edge : Table} (hedge : edge.kind = .edge)
    (properties : Properties) :
    ({ t with
      edges := t.edges.alter edge fun old =>
        { old.getD {} with
          properties := (old.getD {}).properties.insertAll properties.entries } } :
      Topology).Consistent := by
  have hfind := SortedMap.find?_alter hc.edgesAscend edge fun old =>
    ({ old.getD {} with
      properties := (old.getD {}).properties.insertAll properties.entries } : EdgeTable)
  have hkey : ∀ {e k}, ({ t with
      edges := t.edges.alter edge fun old =>
        { old.getD {} with
          properties := (old.getD {}).properties.insertAll properties.entries } } :
      Topology).HasKey e k ↔ t.HasKey e k := by
    intro e k
    simp only [HasKey, hfind]
    by_cases he : e = edge
    · subst he
      cases hf : t.edges.find? e with
      | none => simp
      | some et => simp
    · simp [he]
  refine {
    verticesAscend := hc.verticesAscend
    edgesAscend := hc.edgesAscend.alter _ _
    incidenceAscends := hc.incidenceAscends
    vertexKind := hc.vertexKind, edgeKind := ?_, keysAscend := ?_
    keyVertex := fun h => hc.keyVertex (hkey.mp h)
    keyDirection := fun h => hc.keyDirection (hkey.mp h)
    incidenceIff := hc.incidenceIff, sideAscends := hc.sideAscends
    sideIff := fun hd hi => (hc.sideIff hd hi).trans hkey.symm }
  · intro e et h
    rw [hfind] at h
    split at h
    · rename_i heq
      rw [heq, hedge]
    · exact hc.edgeKind h
  · intro e et h
    rw [hfind] at h
    split at h
    · cases h
      cases hf : t.edges.find? edge with
      | none => exact SortedSet.ascending_empty
      | some old =>
        have hold : old.foreignKeys.Ascending := hc.keysAscend hf
        exact hold
    · exact hc.keysAscend h

/-- The connections of a call, one after the other. -/
theorem Consistent.connectAll {edge : Table} (hedge : edge.kind = .edge) :
    ∀ (connections : List (Table × Table)) {t : Topology}, t.Consistent →
      (∀ c ∈ connections, (∃ ps, t.vertices.find? c.1 = some ps) ∧
        ∃ ps, t.vertices.find? c.2 = some ps) →
      (connections.foldl (fun t c => t.connect edge c.1 c.2) t).Consistent := by
  intro connections
  induction connections with
  | nil => intro t hc _; exact hc
  | cons c rest ih =>
    intro t hc h
    obtain ⟨hsource, htarget⟩ := h c List.mem_cons_self
    exact ih (hc.connect hedge hsource htarget) fun c' hc' => h c' (List.mem_cons_of_mem _ hc')

theorem Consistent.addEdgeLabel (hc : t.Consistent) {schema label : String}
    {properties : Properties} {connections : List (Table × Table)} {table : Table}
    (h : t.addEdgeLabel schema label properties connections = .ok (table, t')) :
    t'.Consistent := by
  simp only [Topology.addEdgeLabel] at h
  split at h
  · cases h
  · rename_i hends
    cases h
    refine Consistent.connectAll rfl connections (hc.extend rfl properties) fun c hmem => ?_
    have hall : ∀ v, v = c.1 ∨ v = c.2 → ∃ ps, t.vertices.find? v = some ps := by
      intro v hv
      have := List.find?_eq_none.mp hends v
        (List.mem_flatMap.mpr ⟨c, hmem, List.mem_pair.mpr hv⟩)
      exact SortedMap.contains_iff.mp (by simpa using this)
    exact ⟨hall _ (Or.inl rfl), hall _ (Or.inr rfl)⟩

/-- **A built topology is consistent.** -/
theorem Built.consistent (h : t.Built) : t.Consistent := by
  induction h with
  | empty => exact consistent_empty
  | vertex _ h ih => exact ih.addVertexLabel h
  | edge _ h ih => exact ih.addEdgeLabel h

/-! ## 3. What a reader of a topology relies on -/

theorem HasKey.edgeKind {e : Table} {k : ForeignKey} (hc : t.Consistent) (h : t.HasKey e k) :
    e.kind = .edge := by
  obtain ⟨et, het, _⟩ := h
  exact hc.edgeKind het

theorem HasKey.vertexKind {e : Table} {k : ForeignKey} (hc : t.Consistent) (h : t.HasKey e k) :
    k.vertex.kind = .vertex := by
  obtain ⟨ps, hps⟩ := hc.keyVertex h
  exact hc.vertexKind hps

/-- The foreign keys of a table, in the form in which hops read them. -/
theorem mem_foreignKeys_iff {e : Table} {k : ForeignKey} :
    k ∈ ((t.foreignKeys? e).getD ∅) ↔ t.HasKey e k := by
  unfold foreignKeys? HasKey
  cases t.edges.find? e with
  | none => simp
  | some et => simp

theorem Consistent.nodup_foreignKeys (hc : t.Consistent) (e : Table) :
    ((t.foreignKeys? e).getD ∅).toList.Nodup := by
  unfold foreignKeys?
  cases hf : t.edges.find? e with
  | none => exact List.nodup_nil
  | some et => exact (hc.keysAscend hf).nodup

theorem mem_tables_iff (hc : t.Consistent) {kind : ElementKind} {table : Table} :
    table ∈ t.tables kind ↔ table.kind = kind ∧ ∃ ps, t.properties? table = some ps := by
  cases kind with
  | vertex =>
    simp only [tables, SortedMap.mem_keys_iff, properties?]
    constructor
    · rintro ⟨ps, hps⟩
      have hk := hc.vertexKind hps
      exact ⟨hk, ps, by rw [hk]; exact hps⟩
    · rintro ⟨hk, ps, hps⟩
      rw [hk] at hps
      exact ⟨ps, hps⟩
  | edge =>
    simp only [tables, SortedMap.mem_keys_iff, properties?]
    constructor
    · rintro ⟨et, het⟩
      have hk := hc.edgeKind het
      exact ⟨hk, et.properties, by rw [hk]; simp [het]⟩
    · rintro ⟨hk, ps, hps⟩
      rw [hk] at hps
      obtain ⟨et, het, _⟩ := Option.map_eq_some_iff.mp hps
      exact ⟨et, het⟩

theorem Consistent.nodup_tables (hc : t.Consistent) (kind : ElementKind) :
    (t.tables kind).Nodup := by
  cases kind with
  | vertex => exact hc.verticesAscend.nodup_keys
  | edge => exact hc.edgesAscend.nodup_keys

/-- Both tables that a foreign key ties together have properties to filter on. -/
theorem Consistent.properties_of_hasKey (hc : t.Consistent) {e : Table} {k : ForeignKey}
    (h : t.HasKey e k) :
    (∃ ps, t.properties? e = some ps) ∧ ∃ ps, t.properties? k.vertex = some ps := by
  refine ⟨?_, ?_⟩
  · obtain ⟨et, het, hk⟩ := h
    exact ⟨et.properties, by rw [properties?, hc.edgeKind het]; simp [het]⟩
  · obtain ⟨ps, hps⟩ := hc.keyVertex h
    exact ⟨ps, by rw [properties?, hc.vertexKind hps]; exact hps⟩

end Topology

end TraversalSql
