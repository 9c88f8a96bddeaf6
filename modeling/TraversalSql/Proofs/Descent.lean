import TraversalSql.Proofs.Growth
import TraversalSql.Proofs.Results
import TraversalSql.Proofs.Walks

/-!
# Walks go down grown trees

In a grown tree the rows that a hop reaches are the rows that match the nodes one or two steps
further down. This file proves it for one hop, both ways, from what is known of the children of an
expanded node, and then for any number of hops: going along hops from a row is going down from the
row's node, and the nodes are determined by the rows.
-/

set_option autoImplicit false

namespace TraversalSql

open QueryTree

variable {T : Topology} {g : StoredGraph T} {truth : Truth} {h : Hop} {t : QueryTree}
  {p c : Nat} {n m : QueryNode} {u v : Visit}

/-! ## 1. The node of a visit -/

/-- What the hop and the visit put on a node at which the hop ends. -/
structure Hop.Dresses (h : Hop) (T : Topology) (nn : NewNode) (m : QueryNode) : Prop where
  table : m.table = nn.table
  direction : m.direction = some nn.direction
  joinKey : m.joinKey = some nn.joinKey
  intermediate : m.intermediate = nn.intermediate
  depth : m.depth = nn.depth
  emit : m.emit = h.emit
  filters : m.filters = (h.filtersFor? T nn.table).getD []
  ids : m.idPredicates = h.idPredicates.filterMap (Predicate.resolveIds? nn.table)

theorem Hop.StopAt.dresses {nn : NewNode} (hs : h.StopAt T t p nn c) (hm : t.nodes[c]? = some m) :
    h.Dresses T nn m := by
  obtain ⟨m', hm', hcore⟩ := hs
  rw [hm] at hm'
  cases hm'
  exact ⟨(congrArg QueryNode.table hcore :), (congrArg QueryNode.direction hcore :),
    (congrArg QueryNode.joinKey hcore :), (congrArg QueryNode.intermediate hcore :),
    (congrArg QueryNode.depth hcore :), (congrArg QueryNode.emit hcore :),
    (congrArg QueryNode.filters hcore :), (congrArg QueryNode.idPredicates hcore :)⟩

/-- A node with the filters of a hop lets through the rows of its table that pass the hop. -/
theorem Hop.passes_iff {ps : Properties} (hps : T.properties? v.table = some ps)
    (hfits : h.matchesTable T v.table = true) :
    h.Passes T truth v ↔
      (∀ f ∈ (h.filtersFor? T v.table).getD [], truth.holds f.predicate (v.row.value f.key)) ∧
      ∀ p ∈ h.idPredicates.filterMap (Predicate.resolveIds? v.table),
        p.HoldsAt truth v.row.id := by
  simp only [matchesTable, Bool.and_eq_true] at hfits
  obtain ⟨⟨hlabels, _⟩, hsome⟩ := hfits
  obtain ⟨fs, hfs⟩ := Option.isSome_iff_exists.mp hsome
  rw [Predicate.resolveIds_iff, hfs, Option.getD_some]
  constructor
  · intro hpass
    obtain ⟨fs', hfs', hall⟩ := (filtersFor_iff hps).mp hpass.filters
    rw [hfs] at hfs'
    cases hfs'
    exact ⟨hall, hpass.id⟩
  · rintro ⟨hall, hids⟩
    exact ⟨List.all_eq_true.mp hlabels, hids, (filtersFor_iff hps).mpr ⟨fs, hfs, hall⟩⟩

theorem Hop.Dresses.admits_iff {nn : NewNode} (hd : h.Dresses T nn m)
    (hknown : ∃ ps, T.properties? nn.table = some ps) (hfits : h.matchesTable T nn.table = true) :
    m.Admits g truth v ↔ v.table = nn.table ∧ v.direction = some nn.direction ∧
      v.row ∈ g.rows v.table ∧ h.Passes T truth v := by
  obtain ⟨ps, hps⟩ := hknown
  constructor
  · intro ha
    have hv : v.table = nn.table := ha.table.trans hd.table
    rw [← hv] at hps hfits
    refine ⟨hv, ha.direction.trans hd.direction, ha.row, (passes_iff hps hfits).mpr ⟨?_, ?_⟩⟩
    · rw [hv, ← hd.filters]
      exact ha.filters
    · rw [hv, ← hd.ids]
      exact ha.ids
  · rintro ⟨hv, hdir, hrow, hpass⟩
    rw [← hv] at hps hfits
    obtain ⟨hfilters, hids⟩ := (passes_iff hps hfits).mp hpass
    refine ⟨hv.trans hd.table.symm, hdir.trans hd.direction.symm, hrow, ?_, ?_⟩
    · rw [hd.filters, ← hv]
      exact hfilters
    · rw [hd.ids, ← hv]
      exact hids

/-- A node of an edge table that is only crossed lets through all rows of its table. -/
theorem NewNode.admits_iff {nn : NewNode} {cs : List Nat} :
    ((nn.node p).adopt cs).Admits g truth v ↔ v.table = nn.table ∧
      v.direction = some nn.direction ∧ v.row ∈ g.rows v.table := by
  constructor
  · intro ha
    exact ⟨ha.table, ha.direction, ha.row⟩
  · rintro ⟨hv, hd, hrow⟩
    exact ⟨hv, hd, hrow, nofun, nofun⟩

/-- The join of a node of an edge table: the key is a column of its row. -/
theorem joins_edge_iff {k : ForeignKey} (hk : m.joinKey = some k) (he : m.table.kind = .edge) :
    m.Joins u v ↔ v.row.key k = some u.row.id := by
  have hedge : m.table.isEdge = true := by rw [Table.isEdge, he]; rfl
  simp [QueryNode.Joins, hk, hedge]

/-- The join of a node of a vertex table: the key is a column of the row before. -/
theorem joins_vertex_iff {k : ForeignKey} (hk : m.joinKey = some k) (he : m.table.kind = .vertex) :
    m.Joins u v ↔ u.row.key k = some v.row.id := by
  have hedge : m.table.isEdge = false := by rw [Table.isEdge, he]; rfl
  simp [QueryNode.Joins, hk, hedge]

/-! ## 2. One hop -/

/-- **What a hop reaches is matched below.** -/
theorem Hop.Expanded.descends (hc : T.Consistent) (he : h.Expanded T t p)
    (hn : t.nodes[p]? = some n) (hu : u.table = n.table) (hrow : u.row ∈ g.rows u.table)
    {ext : List Visit} (hr : h.Reaches g truth u ext v) :
    ∃ ids c m, t.Descends p ids c ∧ t.Matches g truth u ids ext ∧ t.nodes[c]? = some m ∧
      m.intermediate = false ∧ m.depth = h.depth ∧ v.table = m.table := by
  obtain ⟨n', as, hn', has, _, hall⟩ := he
  rw [hn] at hn'
  cases hn'
  -- a direct arrival that lets the row through is a child to go down to
  have hdirect : ∀ {nn : NewNode}, h.Arrives T n.table (.direct nn) → ext = [v] →
      v.table = nn.table → v.direction = some nn.direction → v.row ∈ g.rows v.table →
      h.Passes T truth v →
      (∀ {m : QueryNode}, m.joinKey = some nn.joinKey → m.table = nn.table → m.Joins u v) →
      ∃ ids c m, t.Descends p ids c ∧ t.Matches g truth u ids ext ∧ t.nodes[c]? = some m ∧
        m.intermediate = false ∧ m.depth = h.depth ∧ v.table = m.table := by
    intro nn harr hext htable hdir hrow hpass hjoins
    have hstop := harr.stops hc
    obtain ⟨c, hmem, hat⟩ := exists_of_mem_left hall ((mem_arrivals_iff hc has).mpr harr)
    cases hat with
    | direct hs =>
      obtain ⟨m, hm, _⟩ := id hs
      have hd := hs.dresses hm
      refine ⟨[c], c, m, .cons hn hmem (.nil c), ?_, hm, hd.intermediate.trans hstop.intermediate,
        hd.depth.trans hstop.depth, htable.trans hd.table.symm⟩
      rw [hext]
      exact .cons hm ((hd.admits_iff hstop.known hstop.fits).mpr ⟨htable, hdir, hrow, hpass⟩)
        (hjoins hd.joinKey hd.table) (.nil v)
  cases hr with
  | @edge direction d labels e row hk hd hrow' hf hkey hpass =>
    have hkey' : T.HasKey e ⟨n.table, d⟩ := hu ▸ g.ownKeys hrow' hkey
    obtain ⟨⟨ps, hps⟩, _⟩ := hc.properties_of_hasKey hkey'
    have harr := Arrives.edge hk hd hkey' hf (matchesTable_of_passes hps hpass)
    refine hdirect harr rfl rfl rfl hrow' hpass fun {m} hjk hmt => ?_
    rw [joins_edge_iff hjk (hmt ▸ hkey'.edgeKind hc)]
    exact hu ▸ hkey
  | @endpoint direction d x row hk hd hrow' hkey hpass =>
    have hkey' : T.HasKey n.table ⟨x, d⟩ := hu ▸ g.ownKeys hrow hkey
    obtain ⟨_, ps, hps⟩ := hc.properties_of_hasKey hkey'
    have harr := Arrives.endpoint hk hd hkey' rfl (matchesTable_of_passes hps hpass)
    refine hdirect harr rfl rfl rfl hrow' hpass fun {m} hjk hmt => ?_
    rw [joins_vertex_iff hjk (hmt ▸ hkey'.vertexKind hc)]
    exact hkey
  | @vertex direction d labels e x row row' hk hd hrow₁ hf hkey hrow₂ hkey₂ hpass =>
    have hkey' : T.HasKey e ⟨n.table, d⟩ := hu ▸ g.ownKeys hrow₁ hkey
    have hkey₂' : T.HasKey e ⟨x, d.opposite⟩ := g.ownKeys hrow₁ hkey₂
    obtain ⟨_, ps, hps⟩ := hc.properties_of_hasKey hkey₂'
    have hend : h.endpointVisit T .vertexHop d ⟨x, d.opposite⟩
        ∈ h.endpoints T .vertexHop e d.opposite d :=
      mem_endpoints.mpr ⟨_, hkey₂', rfl, matchesTable_of_passes hps hpass, rfl⟩
    have harr := Arrives.vertex hk hd hkey' hf (List.ne_nil_of_mem hend)
    obtain ⟨_, hstops⟩ := harr.crosses hc
    have hstop := hstops _ hend
    obtain ⟨c, hmem, hat⟩ := exists_of_mem_left hall ((mem_arrivals_iff hc has).mpr harr)
    cases hat with
    | across hi hce htargets =>
      obtain ⟨c', hmem', hs⟩ := exists_of_mem_left htargets hend
      obtain ⟨m, hm, _⟩ := id hs
      have hdr := hs.dresses hm
      refine ⟨[c, c'], c', m, .cons hn hmem (.cons hce hmem' (.nil c')), ?_, hm,
        hdr.intermediate.trans hstop.intermediate, hdr.depth.trans hstop.depth, hdr.table.symm⟩
      refine .cons hce (NewNode.admits_iff.mpr ⟨rfl, rfl, hrow₁⟩) ?_ (.cons hm ?_ ?_ (.nil _))
      · rw [joins_edge_iff rfl (hkey'.edgeKind hc)]
        exact hu ▸ hkey
      · exact (hdr.admits_iff hstop.known hstop.fits).mpr ⟨rfl, rfl, hrow₂, hpass⟩
      · rw [joins_vertex_iff hdr.joinKey (hdr.table ▸ hkey₂'.vertexKind hc)]
        exact hkey₂

/-- A child of an expanded node comes from an arrival of the hop. -/
theorem Hop.Expanded.child_cases (hc : T.Consistent) (he : h.Expanded T t p)
    (hn : t.nodes[p]? = some n) (hmem : c ∈ n.children) :
    (∃ nn, h.Arrives T n.table (.direct nn) ∧ h.StopAt T t p nn c) ∨
    (∃ e targets cs, h.Arrives T n.table (.across e targets) ∧
      t.nodes[c]? = some ((e.node p).adopt cs) ∧
      ∀ c' ∈ cs, ∃ nn ∈ targets, h.StopAt T t c nn c') := by
  obtain ⟨n', as, hn', has, _, hall⟩ := he
  rw [hn] at hn'
  cases hn'
  obtain ⟨a, ha, hat⟩ := exists_of_mem_right hall hmem
  have harr := (mem_arrivals_iff hc has).mp ha
  cases hat with
  | direct hs => exact Or.inl ⟨_, harr, hs⟩
  | across _ hce htargets =>
    exact Or.inr ⟨_, _, _, harr, hce, fun c' hc' => exists_of_mem_right htargets hc'⟩

/-- A child at which the hop ends. -/
theorem Hop.Expanded.stop_child (hc : T.Consistent) (he : h.Expanded T t p)
    (hn : t.nodes[p]? = some n) (hmem : c ∈ n.children) (hm : t.nodes[c]? = some m)
    (hi : m.intermediate = false) : ∃ nn, h.Stops T n.table nn ∧ h.StopAt T t p nn c := by
  rcases he.child_cases hc hn hmem with ⟨nn, harr, hs⟩ | ⟨e, targets, cs, harr, hce, _⟩
  · exact ⟨nn, harr.stops hc, hs⟩
  · rw [hm] at hce
    cases hce
    exact absurd (hi.symm.trans (harr.crosses hc).1.intermediate) Bool.false_ne_true

/-- A child that the hop only crosses: it has nothing of the hop but its depth, and the hop ends
at what stands below it. -/
theorem Hop.Expanded.crossed_child (hc : T.Consistent) (he : h.Expanded T t p)
    (hn : t.nodes[p]? = some n) (hmem : c ∈ n.children) (hm : t.nodes[c]? = some m)
    (hi : m.intermediate = true) : m.depth = h.depth ∧ m.emit = false ∧ m.leftJoin = false ∧
      ∀ c' ∈ m.children, ∃ nn, h.Stops T m.table nn ∧ h.StopAt T t c nn c' := by
  rcases he.child_cases hc hn hmem with ⟨nn, harr, hs⟩ | ⟨e, targets, cs, harr, hce, hcs⟩
  · have := (hs.dresses hm).intermediate.trans (harr.stops hc).intermediate
    exact absurd (this.symm.trans hi) Bool.false_ne_true
  · rw [hm] at hce
    cases hce
    obtain ⟨hcross, hstops⟩ := harr.crosses hc
    refine ⟨hcross.depth, rfl, rfl, fun c' hc' => ?_⟩
    obtain ⟨nn, hnn, hs⟩ := hcs c' hc'
    exact ⟨nn, hstops nn hnn, hs⟩

/-- **What matches below is what the hop reaches.** One step down stands a node at which the hop
ends, or one of an edge table that it crosses to nodes at which it ends. -/
theorem Hop.Expanded.reaches (hc : T.Consistent) (he : h.Expanded T t p)
    (hn : t.nodes[p]? = some n) (hu : u.table = n.table) (hmem : c ∈ n.children)
    (hm : t.nodes[c]? = some m) (ha : m.Admits g truth v) (hj : m.Joins u v) :
    (m.intermediate = false ∧ m.depth = h.depth ∧ h.Reaches g truth u [v] v) ∨
    (m.intermediate = true ∧ ∀ {c' : Nat} {m' : QueryNode} {v' : Visit}, c' ∈ m.children →
      t.nodes[c']? = some m' → m'.Admits g truth v' → m'.Joins v v' →
      m'.intermediate = false ∧ m'.depth = h.depth ∧ h.Reaches g truth u [v, v'] v') := by
  rcases he.child_cases hc hn hmem with ⟨nn, harr, hs⟩ | ⟨e, targets, cs, harr, hce, hcs⟩
  · have hstop := harr.stops hc
    have hd := hs.dresses hm
    refine Or.inl ⟨hd.intermediate.trans hstop.intermediate, hd.depth.trans hstop.depth, ?_⟩
    obtain ⟨htable, hdir, hrow, hpass⟩ := (hd.admits_iff hstop.known hstop.fits).mp ha
    obtain ⟨vt, vd, vr⟩ := v
    cases htable
    cases hdir
    cases harr with
    | edge hk hdirection hkey hf _ =>
      rw [joins_edge_iff hd.joinKey (hd.table ▸ hkey.edgeKind hc)] at hj
      exact .edge hk hdirection hrow hf (hu.symm ▸ hj) hpass
    | @endpoint direction d k hk hdirection hkey hkd _ =>
      rw [joins_vertex_iff hd.joinKey (hd.table ▸ hkey.vertexKind hc)] at hj
      cases hkd
      exact .endpoint hk hdirection hrow hj hpass
  · rw [hm] at hce
    cases hce
    obtain ⟨hcross, hstops⟩ := harr.crosses hc
    refine Or.inr ⟨hcross.intermediate, ?_⟩
    intro c' m' v' hc' hm' ha' hj'
    obtain ⟨nn, hnn, hs⟩ := hcs c' hc'
    have hstop := hstops nn hnn
    have hd := hs.dresses hm'
    refine ⟨hd.intermediate.trans hstop.intermediate, hd.depth.trans hstop.depth, ?_⟩
    obtain ⟨htable', hdir', hrow', hpass'⟩ := (hd.admits_iff hstop.known hstop.fits).mp ha'
    obtain ⟨htable, hdir, hrow⟩ := NewNode.admits_iff.mp ha
    obtain ⟨vt, vd, vr⟩ := v
    obtain ⟨vt', vd', vr'⟩ := v'
    cases htable
    cases hdir
    cases htable'
    cases hdir'
    cases harr with
    | @vertex direction d labels e hk hdirection hkey hf _ =>
      obtain ⟨k, hkey', hkd, _, rfl⟩ := mem_endpoints.mp hnn
      rw [joins_edge_iff rfl (hkey.edgeKind hc)] at hj
      rw [joins_vertex_iff hd.joinKey (hd.table ▸ hkey'.vertexKind hc)] at hj'
      obtain ⟨kv, kd⟩ := k
      cases hkd
      exact .vertex hk hdirection hrow hf (hu.symm ▸ hj) hrow' hj' hpass'

/-! ## 3. Siblings -/

/-- Table and direction of a node. -/
def QueryTree.place? (t : QueryTree) (c : Nat) : Option (Table × Option Direction) :=
  t.nodes[c]?.map fun m => (m.table, m.direction)

theorem Hop.StopAt.place {nn : NewNode} (hs : h.StopAt T t p nn c) :
    t.place? c = some (nn.table, some nn.direction) := by
  obtain ⟨m, hm, _⟩ := id hs
  have hd := hs.dresses hm
  rw [place?, hm, Option.map_some, hd.table, hd.direction]

/-- Nodes in order for visits that differ in table or direction differ so, too. -/
theorem nodup_places {α : Type} {R : α → Nat → Prop} {f : α → NewNode} {as : List α}
    {cs : List Nat} (h : List.Forall₂ R as cs) (hnodup : (as.map fun a => (f a).place).Nodup)
    (hR : ∀ a c, R a c → t.place? c = some ((f a).table, some (f a).direction)) :
    (cs.map t.place?).Nodup := by
  rw [map_eq_of_forall₂ h hR]
  have hinj : Function.Injective fun tb : Table × Direction => some (tb.1, some tb.2) := by
    rintro ⟨a, b⟩ ⟨a', b'⟩ heq
    simpa using heq
  have := hnodup.map hinj
  rwa [List.map_map] at this

theorem eq_of_place {cs : List Nat} (hnodup : (cs.map t.place?).Nodup) {c' : Nat}
    {m' : QueryNode} (hmem : c ∈ cs) (hmem' : c' ∈ cs) (hm : t.nodes[c]? = some m)
    (hm' : t.nodes[c']? = some m') (htable : m.table = m'.table)
    (hdir : m.direction = m'.direction) : c = c' := by
  refine List.inj_on_of_nodup_map hnodup hmem hmem' ?_
  rw [place?, place?, hm, hm', Option.map_some, Option.map_some, htable, hdir]

theorem Hop.Expanded.nodup (hc : T.Consistent) (he : h.Expanded T t p)
    (hn : t.nodes[p]? = some n) : (n.children.map t.place?).Nodup := by
  obtain ⟨n', as, hn', has, _, hall⟩ := he
  rw [hn] at hn'
  cases hn'
  refine nodup_places (f := Arrival.top) hall (nodup_arrivals hc has) fun a c hat => ?_
  cases hat with
  | direct hs => exact hs.place
  | across _ hce _ =>
    rw [place?, hce]
    rfl

/-- Behind an edge table that is crossed, the vertex tables differ. -/
theorem Hop.Expanded.nodup_across (hc : T.Consistent) (he : h.Expanded T t p)
    (hn : t.nodes[p]? = some n) (hmem : c ∈ n.children) (hm : t.nodes[c]? = some m)
    (hi : m.intermediate = true) : (m.children.map t.place?).Nodup := by
  obtain ⟨n', as, hn', has, _, hall⟩ := he
  rw [hn] at hn'
  cases hn'
  obtain ⟨a, ha, hat⟩ := exists_of_mem_right hall hmem
  have harr := (mem_arrivals_iff hc has).mp ha
  cases hat with
  | direct hs =>
    have := (hs.dresses hm).intermediate.trans (harr.stops hc).intermediate
    rw [hi] at this
    cases this
  | across _ hce htargets =>
    rw [hm] at hce
    cases hce
    refine nodup_places (f := id) htargets ?_ fun nn c' hs => hs.place
    cases harr with
    | vertex => exact nodup_endpoints hc h .vertexHop _ _ _

/-! ## 4. The whole tree -/

namespace Run

variable {hop : Hop} {rest : List Hop} {table : Table} {binding : RootBinding}

/-- A node at which a hop ends was expanded if it has children. -/
theorem Grown.expanded (hg : Grown T rest t) (hn : t.nodes[p]? = some n)
    (hi : n.intermediate = false) (hmem : c ∈ n.children) :
    ∃ h, rest[n.depth]? = some h ∧ h.Expanded T t p := by
  rcases hg.stop hn hi with ⟨_, hnil, _⟩ | hex
  · rw [hnil] at hmem
    cases hmem
  · exact hex

theorem Planted.root_intermediate (hp : Planted T hop rest table binding t)
    (hn : t.nodes[root]? = some n) : n.intermediate = false := by
  obtain ⟨n', hn', hcore⟩ := hp.rootNode
  rw [hn] at hn'
  cases hn'
  exact (congrArg QueryNode.intermediate hcore :)

/-- An edge table that is only crossed stands below a node that was expanded. -/
theorem Planted.crossed (hc : T.Consistent) (hp : Planted T hop rest table binding t) :
    ∀ {c : Nat} {m : QueryNode}, t.nodes[c]? = some m → m.intermediate = true →
    ∃ (p : Nat) (n : QueryNode) (h : Hop), t.nodes[p]? = some n ∧ n.intermediate = false ∧
      rest[n.depth]? = some h ∧ h.Expanded T t p ∧ c ∈ n.children := by
  intro c
  induction c using Nat.strongRecOn with
  | ind c ih =>
    intro m hm hi
    have hroot : c ≠ root := by
      rintro rfl
      rw [hp.root_intermediate hm] at hi
      cases hi
    obtain ⟨q, n, hq, hn, _, hmem⟩ :=
      hp.grown.full.wellFormed.listed ⟨m, hm, hp.grown.full.live hm⟩ hroot
    cases hni : n.intermediate with
    | false =>
      obtain ⟨h, hh, hex⟩ := hp.grown.expanded hn hni hmem
      exact ⟨q, n, h, hn, hni, hh, hex, hmem⟩
    | true =>
      -- then the node above is crossed, and hops end at what stands below it
      obtain ⟨p', n', h, hn', _, _, hex, hmem'⟩ :=
        ih q (hp.grown.full.wellFormed.parentLt hq) hn hni
      obtain ⟨_, _, _, hstops⟩ := hex.crossed_child hc hn' hmem' hn hni
      obtain ⟨nn, hstop, hs⟩ := hstops c hmem
      have := (hs.dresses hm).intermediate.trans hstop.intermediate
      exact absurd (this.symm.trans hi) Bool.false_ne_true

/-- **Siblings differ in table or direction**, all over the tree. -/
theorem Planted.branches (hc : T.Consistent) (hp : Planted T hop rest table binding t) :
    t.Branches := by
  refine ⟨fun {p c c' n m m'} hn hmem hmem' hm hm' htable hdir => ?_⟩
  have hnodup : (n.children.map t.place?).Nodup := by
    cases hi : n.intermediate with
    | false =>
      obtain ⟨h, _, hex⟩ := hp.grown.expanded hn hi hmem
      exact hex.nodup hc hn
    | true =>
      obtain ⟨q, nq, h, hnq, _, _, hex, hmemq⟩ := hp.crossed hc hn hi
      exact hex.nodup_across hc hnq hmemq hn hi
  exact eq_of_place hnodup hmem hmem' hm hm' htable hdir

/-- A node below the root at which a hop ends is that of a visit of the hop. -/
theorem Planted.stop_cases (hc : T.Consistent) (hp : Planted T hop rest table binding t)
    (hdepths : ∀ {k : Nat} {h : Hop}, rest[k]? = some h → h.depth = k + 1)
    (hm : t.nodes[c]? = some m) (hi : m.intermediate = false) (hroot : c ≠ root) :
    ∃ k h q nn, rest[k]? = some h ∧ m.depth = k + 1 ∧ h.StopAt T t q nn c := by
  obtain ⟨q, n, _, hn, _, hmem⟩ :=
    hp.grown.full.wellFormed.listed ⟨m, hm, hp.grown.full.live hm⟩ hroot
  cases hni : n.intermediate with
  | false =>
    obtain ⟨h, hh, hex⟩ := hp.grown.expanded hn hni hmem
    obtain ⟨nn, hstop, hs⟩ := hex.stop_child hc hn hmem hm hi
    have hdepth := (hs.dresses hm).depth
    exact ⟨n.depth, h, q, nn, hh, hdepth.trans (hstop.depth.trans (hdepths hh)), hs⟩
  | true =>
    obtain ⟨_, n', h, hn', _, hh, hex, hmem'⟩ := hp.crossed hc hn hni
    obtain ⟨_, _, _, hstops⟩ := hex.crossed_child hc hn' hmem' hn hni
    obtain ⟨nn, hstop, hs⟩ := hstops c hmem
    have hdepth := (hs.dresses hm).depth
    exact ⟨n'.depth, h, q, nn, hh, hdepth.trans (hstop.depth.trans (hdepths hh)), hs⟩

/-- Which hop a node below the root comes from, and what it has of it. -/
theorem Planted.node_cases (hc : T.Consistent) (hp : Planted T hop rest table binding t)
    (hdepths : ∀ {k : Nat} {h : Hop}, rest[k]? = some h → h.depth = k + 1)
    (hm : t.nodes[c]? = some m) (hroot : c ≠ root) :
    ∃ k h, rest[k]? = some h ∧ m.depth = k + 1 ∧
      ((m.intermediate = false ∧ m.emit = h.emit) ∨
       (m.intermediate = true ∧ m.emit = false ∧ m.leftJoin = false)) := by
  cases hi : m.intermediate with
  | true =>
    obtain ⟨p, n, h, hn, _, hh, hex, hmem⟩ := hp.crossed hc hm hi
    obtain ⟨hdepth, hemit, hleft, _⟩ := hex.crossed_child hc hn hmem hm hi
    exact ⟨n.depth, h, hh, hdepth.trans (hdepths hh), Or.inr ⟨rfl, hemit, hleft⟩⟩
  | false =>
    obtain ⟨k, h, _, _, hh, hdepth, hs⟩ := hp.stop_cases hc hdepths hm hi hroot
    exact ⟨k, h, hh, hdepth, Or.inl ⟨rfl, (hs.dresses hm).emit⟩⟩

/-- A child of a node at which a hop ends is one deeper, that of a crossed node is as deep. -/
theorem Planted.child_depth_eq (hc : T.Consistent) (hp : Planted T hop rest table binding t)
    (hdepths : ∀ {k : Nat} {h : Hop}, rest[k]? = some h → h.depth = k + 1)
    (hn : t.nodes[p]? = some n) (hmem : c ∈ n.children) (hm : t.nodes[c]? = some m) :
    m.depth = if n.intermediate then n.depth else n.depth + 1 := by
  cases hni : n.intermediate with
  | false =>
    rw [if_neg Bool.false_ne_true]
    obtain ⟨h, hh, hex⟩ := hp.grown.expanded hn hni hmem
    cases hmi : m.intermediate with
    | false =>
      obtain ⟨nn, hstop, hs⟩ := hex.stop_child hc hn hmem hm hmi
      exact (hs.dresses hm).depth.trans (hstop.depth.trans (hdepths hh))
    | true => exact (hex.crossed_child hc hn hmem hm hmi).1.trans (hdepths hh)
  | true =>
    rw [if_pos rfl]
    obtain ⟨q, nq, h, hnq, _, hh, hex, hmemq⟩ := hp.crossed hc hn hni
    obtain ⟨hnd, _, _, hstops⟩ := hex.crossed_child hc hnq hmemq hn hni
    obtain ⟨nn, hstop, hs⟩ := hstops c hmem
    exact (hs.dresses hm).depth.trans (hstop.depth.trans hnd.symm)

theorem Planted.child_depth (hc : T.Consistent) (hp : Planted T hop rest table binding t)
    (hdepths : ∀ {k : Nat} {h : Hop}, rest[k]? = some h → h.depth = k + 1)
    (hn : t.nodes[p]? = some n) (hmem : c ∈ n.children) (hm : t.nodes[c]? = some m) :
    n.depth ≤ m.depth ∧ (n.intermediate = false → n.depth < m.depth) := by
  have hdepth := hp.child_depth_eq hc hdepths hn hmem hm
  split at hdepth
  · rename_i hni
    exact ⟨Nat.le_of_eq hdepth.symm, fun hstop => absurd (hstop.symm.trans hni) Bool.false_ne_true⟩
  · exact ⟨by omega, fun _ => by omega⟩

/-- Below a node at which a hop ends everything is deeper. -/
theorem Planted.descends_depth (hc : T.Consistent) (hp : Planted T hop rest table binding t)
    (hdepths : ∀ {k : Nat} {h : Hop}, rest[k]? = some h → h.depth = k + 1) {ids : List Nat}
    (hd : t.Descends p ids c) : ∀ {n m : QueryNode}, t.nodes[p]? = some n →
    t.nodes[c]? = some m →
    n.depth ≤ m.depth ∧ (n.intermediate = false → ids ≠ [] → n.depth < m.depth) := by
  induction hd with
  | nil =>
    intro n m hn hm
    rw [hn] at hm
    cases hm
    exact ⟨Nat.le_refl _, fun _ hne => absurd rfl hne⟩
  | cons hn' hmem _ ih =>
    intro n m hn hm
    rw [hn] at hn'
    cases hn'
    obtain ⟨m₁, hm₁, _⟩ := hp.grown.full.wellFormed.live_of_child hn hmem
    obtain ⟨hle, hlt⟩ := hp.child_depth hc hdepths hn hmem hm₁
    have hle' := (ih hm₁ hm).1
    exact ⟨Nat.le_trans hle hle', fun hi _ => Nat.lt_of_lt_of_le (hlt hi) hle'⟩

/-! ## 5. Any number of hops -/

theorem cons_prefix_drop_iff {hs : List Hop} {d : Nat} :
    h :: hs <+: rest.drop d ↔ rest[d]? = some h ∧ hs <+: rest.drop (d + 1) := by
  rw [← List.tail_drop, ← List.head?_drop]
  cases rest.drop d with
  | nil => simp
  | cons h' hs' =>
    rw [List.cons_prefix_cons, List.head?_cons, Option.some.injEq, List.tail_cons, eq_comm]

/-- **Going along hops is going down.** -/
theorem Grown.descends_of_follows (hc : T.Consistent) (hg : Grown T rest t)
    (hdepths : ∀ {k : Nat} {h : Hop}, rest[k]? = some h → h.depth = k + 1) {hs : List Hop}
    {w : List Visit} {x : Visit} (hf : Follows g truth hs u w x) : ∀ {p : Nat} {n : QueryNode},
    t.nodes[p]? = some n → n.intermediate = false → u.table = n.table →
    u.row ∈ g.rows u.table → hs <+: rest.drop n.depth →
    ∃ ids c m, t.Descends p ids c ∧ t.Matches g truth u ids w ∧ t.nodes[c]? = some m ∧
      m.intermediate = false ∧ m.depth = n.depth + hs.length := by
  induction hf with
  | nil u =>
    intro p n hn hi _ _ _
    exact ⟨[], p, n, .nil p, .nil u, hn, hi, rfl⟩
  | @cons h hs u v x ext w hr _ ih =>
    intro p n hn hi hu hrow hprefix
    obtain ⟨hh, hprefix⟩ := cons_prefix_drop_iff.mp hprefix
    have hex : h.Expanded T t p := by
      rcases hg.stop hn hi with ⟨hfull, _⟩ | ⟨h', hh', hex⟩
      · rw [hfull, List.getElem?_eq_none (Nat.le_refl _)] at hh
        cases hh
      · rw [hh] at hh'
        cases hh'
        exact hex
    obtain ⟨ids, c, m, hd, hmatch, hm, hmi, hmd, hv⟩ := hex.descends hc hn hu hrow hr
    rw [hdepths hh] at hmd
    obtain ⟨ids', c', m', hd', hmatch', hm', hmi', hmd'⟩ :=
      ih hm hmi hv hr.row_mem (hmd ▸ hprefix)
    refine ⟨ids ++ ids', c', m', hd.append hd', hmatch.append hr.getLast hmatch', hm', hmi', ?_⟩
    rw [hmd', hmd, List.length_cons]
    omega

/-- **Going down is going along hops.** -/
theorem Grown.follows_of_matches (hc : T.Consistent) (hg : Grown T rest t)
    (hdepths : ∀ {k : Nat} {h : Hop}, rest[k]? = some h → h.depth = k + 1) :
    ∀ {k p c : Nat} {ids : List Nat} {n m : QueryNode} {u : Visit} {w : List Visit},
    ids.length ≤ k → t.Descends p ids c → t.Matches g truth u ids w → t.nodes[p]? = some n →
    n.intermediate = false → u.table = n.table → t.nodes[c]? = some m →
    m.intermediate = false →
    ∃ hs x, hs <+: rest.drop n.depth ∧ m.depth = n.depth + hs.length ∧
      Follows g truth hs u w x := by
  intro k
  -- a hop goes one or two nodes down, so the induction is on the number of nodes
  induction k with
  | zero =>
    intro p c ids n m u w hlen hd hmatch hn _ _ hm _
    obtain rfl := List.length_eq_zero_iff.mp (Nat.le_zero.mp hlen)
    cases hd
    cases hmatch
    rw [hn] at hm
    cases hm
    exact ⟨[], u, List.nil_prefix, rfl, .nil u⟩
  | succ k ih =>
    intro p c ids n m u w hlen hd hmatch hn hni hu hm hmi
    cases hmatch with
    | nil =>
      cases hd
      rw [hn] at hm
      cases hm
      exact ⟨[], u, List.nil_prefix, rfl, .nil u⟩
    | @cons _ v c₁ ids w m₁ hm₁ ha hj hmatch =>
      cases hd with
      | cons hn' hmem hd =>
        rw [hn] at hn'
        cases hn'
        obtain ⟨h, hh, hex⟩ := hg.expanded hn hni hmem
        rcases hex.reaches hc hn hu hmem hm₁ ha hj with ⟨hi₁, hd₁, hr⟩ | ⟨hi₁, hbelow⟩
        · rw [hdepths hh] at hd₁
          obtain ⟨hs, x, hprefix, hmd, hf⟩ :=
            ih (Nat.le_of_succ_le_succ hlen) hd hmatch hm₁ hi₁ ha.table hm hmi
          refine ⟨h :: hs, x, cons_prefix_drop_iff.mpr ⟨hh, hd₁ ▸ hprefix⟩, ?_, .cons hr hf⟩
          rw [hmd, hd₁, List.length_cons]
          omega
        · cases hmatch with
          | nil =>
            cases hd
            rw [hm₁] at hm
            cases hm
            exact absurd (hmi.symm.trans hi₁) Bool.false_ne_true
          | @cons _ v' c₂ ids w m₂ hm₂ ha₂ hj₂ hmatch =>
            cases hd with
            | cons hn' hmem₂ hd =>
              rw [hm₁] at hn'
              cases hn'
              obtain ⟨hi₂, hd₂, hr⟩ := hbelow hmem₂ hm₂ ha₂ hj₂
              rw [hdepths hh] at hd₂
              have hlen' : ids.length ≤ k := by
                simp only [List.length_cons] at hlen
                omega
              obtain ⟨hs, x, hprefix, hmd, hf⟩ := ih hlen' hd hmatch hm₂ hi₂ ha₂.table hm hmi
              refine ⟨h :: hs, x, cons_prefix_drop_iff.mpr ⟨hh, hd₂ ▸ hprefix⟩, ?_, .cons hr hf⟩
              rw [hmd, hd₂, List.length_cons]
              omega

end Run

end TraversalSql
