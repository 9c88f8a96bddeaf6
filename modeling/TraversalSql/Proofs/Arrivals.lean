import Mathlib.Data.List.Nodup
import Mathlib.Data.List.Flatten
import TraversalSql.Proofs.IdFilters

/-!
# Where a hop arrives

From a table a hop arrives at other tables along the foreign keys. This file says which ones
(`Hop.Arrives`, by foreign keys alone), that the list of arrivals holds exactly these, that no two
of them agree in table and direction, and that each of them can be attached to a tree. The
incidence that the list is computed from is not mentioned again after this file.
-/

set_option autoImplicit false

namespace TraversalSql

variable {T : Topology} {h : Hop} {parent : Table} {as : List Hop.Arrival}

/-- The visit itself, or that of the edge table that is crossed first. -/
def Hop.Arrival.top : Hop.Arrival → NewNode
  | .direct n => n
  | .across e _ => e

/-- Table and direction of a visit. Siblings in a query tree differ in them. -/
def NewNode.place (n : NewNode) : Table × Direction := (n.table, n.direction)

theorem Direction.ne_both_of_mem_resolved {d d' : Direction} (h : d ∈ d'.resolved) :
    d ≠ .both := by
  rintro rfl
  cases d' <;> simp [resolved] at h

theorem Direction.nodup_resolved (d : Direction) : d.resolved.Nodup := by
  cases d <;> decide

/-! ## 1. Visits behind an edge table -/

/-- The visit of the vertex table that a foreign key points at. -/
def Hop.endpointVisit (h : Hop) (T : Topology) (origin : NodeOrigin) (direction : Direction)
    (k : ForeignKey) : NewNode := h.visit T origin k.vertex direction k false

theorem Hop.mem_endpoints {origin : NodeOrigin} {edge : Table} {side direction : Direction}
    {n : NewNode} : n ∈ h.endpoints T origin edge side direction ↔
      ∃ k, T.HasKey edge k ∧ k.direction = side ∧ h.matchesTable T k.vertex = true ∧
        n = h.endpointVisit T origin direction k := by
  simp only [endpoints, List.mem_map, List.mem_filter, Bool.and_eq_true, beq_iff_eq,
    SortedSet.mem_toList, Topology.mem_foreignKeys_iff, endpointVisit]
  constructor
  · rintro ⟨k, ⟨hk, hd, hm⟩, rfl⟩
    exact ⟨k, hk, hd, hm, rfl⟩
  · rintro ⟨k, hk, hd, hm, rfl⟩
    exact ⟨k, ⟨hk, hd, hm⟩, rfl⟩

/-- Two keys on the same side of an edge table point at different vertex tables. -/
theorem Hop.nodup_endpoints (hc : T.Consistent) (h : Hop) (origin : NodeOrigin) (edge : Table)
    (side direction : Direction) :
    ((h.endpoints T origin edge side direction).map NewNode.place).Nodup := by
  have hfilter := (hc.nodup_foreignKeys edge).filter fun k =>
    k.direction == side && h.matchesTable T k.vertex
  simp only [endpoints, List.map_map]
  refine List.Nodup.map_on ?_ hfilter
  intro k hk k' hk' heq
  simp only [List.mem_filter, Bool.and_eq_true, beq_iff_eq] at hk hk'
  simp only [Function.comp_apply, NewNode.place, Hop.visit, Prod.mk.injEq] at heq
  cases k
  cases k'
  simp_all

/-! ## 2. Arrivals -/

/-- A hop from a table arrives there, said by foreign keys: at an edge table of the table, behind
an edge table of the table, or at a vertex table that the table points at. -/
inductive Hop.Arrives (h : Hop) (T : Topology) (parent : Table) : Hop.Arrival → Prop
  | edge {direction d : Direction} {labels : List String} {e : Table} :
      h.kind = .move (.follow direction labels .edge) → d ∈ direction.resolved →
      T.HasKey e ⟨parent, d⟩ → followsEdge labels e = true → h.matchesTable T e = true →
      Arrives h T parent (.direct (h.visit T .vertexHop e d ⟨parent, d⟩ false))
  | vertex {direction d : Direction} {labels : List String} {e : Table} :
      h.kind = .move (.follow direction labels .vertex) → d ∈ direction.resolved →
      T.HasKey e ⟨parent, d⟩ → followsEdge labels e = true →
      h.endpoints T .vertexHop e d.opposite d ≠ [] →
      Arrives h T parent (.across (h.visit T .vertexHop e d ⟨parent, d⟩ true)
        (h.endpoints T .vertexHop e d.opposite d))
  | endpoint {direction d : Direction} {k : ForeignKey} :
      h.kind = .move (.endpoint direction) → d ∈ direction.resolved →
      T.HasKey parent k → k.direction = d → h.matchesTable T k.vertex = true →
      Arrives h T parent (.direct (h.endpointVisit T .edgeVertexHop d k))

/-- **The arrivals are where the hop arrives.** -/
theorem Hop.mem_arrivals_iff (hc : T.Consistent) (has : h.arrivals T parent = .ok as)
    {a : Arrival} : a ∈ as ↔ h.Arrives T parent a := by
  unfold arrivals at has
  cases hk : h.kind with
  | graphRoot k => rw [hk] at has; cases has
  | incomingRoot k => rw [hk] at has; cases has
  | move m =>
    cases m with
    | endpoint direction =>
      simp only [hk] at has
      split at has
      · cases has
        simp only [List.mem_flatMap, List.mem_map, mem_endpoints]
        constructor
        · rintro ⟨d, hd, n, ⟨k, hkey, hkd, hm, rfl⟩, rfl⟩
          exact .endpoint hk hd hkey hkd hm
        · intro harr
          cases harr with
          | edge hk' => rw [hk] at hk'; cases hk'
          | vertex hk' => rw [hk] at hk'; cases hk'
          | endpoint hk' hd hkey hkd hm =>
            rw [hk] at hk'
            cases hk'
            exact ⟨_, hd, _, ⟨_, hkey, hkd, hm, rfl⟩, rfl⟩
      · cases has
    | follow direction labels returns =>
      simp only [hk] at has
      split at has
      · split at has
        · cases has
        · rename_i incidence hinc
          cases has
          have hside {d : Direction} (hd : d ∈ direction.resolved) {e : Table} :
              e ∈ incidence.side d ↔ T.HasKey e ⟨parent, d⟩ :=
            hc.sideIff (Direction.ne_both_of_mem_resolved hd) hinc
          simp only [List.mem_flatMap, List.mem_filterMap, List.mem_filter, SortedSet.mem_toList]
          constructor
          · rintro ⟨d, hd, e, ⟨he, hf⟩, harr⟩
            have hkey := (hside hd).mp he
            cases returns with
            | edge =>
              simp only [arrivalAlong] at harr
              split at harr
              · rename_i hm
                cases harr
                exact .edge hk hd hkey hf hm
              · cases harr
            | vertex =>
              simp only [arrivalAlong] at harr
              split at harr
              · cases harr
              · rename_i hne
                cases harr
                exact .vertex hk hd hkey hf hne
          · intro harr
            cases harr with
            | @edge _ d _ e hk' hd hkey hf hm =>
              rw [hk] at hk'
              cases hk'
              exact ⟨d, hd, e, ⟨(hside hd).mpr hkey, hf⟩, by simp [arrivalAlong, hm]; rfl⟩
            | @vertex _ d _ e hk' hd hkey hf hne =>
              rw [hk] at hk'
              cases hk'
              exact ⟨d, hd, e, ⟨(hside hd).mpr hkey, hf⟩, by simp only [arrivalAlong]; rfl⟩
            | endpoint hk' => rw [hk] at hk'; cases hk'
      · cases has

/-- **No two arrivals agree in table and direction.** Within a direction the edge tables differ,
and the vertex tables behind different keys of one side do. -/
theorem Hop.nodup_arrivals (hc : T.Consistent) (has : h.arrivals T parent = .ok as) :
    (as.map fun a => a.top.place).Nodup := by
  -- each block of the list belongs to one direction
  have hblocks {direction : Direction} {block : Direction → List Arrival}
      (hdir : ∀ d, ∀ a ∈ block d, a.top.direction = d)
      (hblock : ∀ d ∈ direction.resolved, ((block d).map fun a => a.top.place).Nodup) :
      ((direction.resolved.flatMap block).map fun a => a.top.place).Nodup := by
    rw [List.map_flatMap, List.nodup_flatMap]
    refine ⟨hblock, direction.nodup_resolved.imp fun {d d'} hne => ?_⟩
    intro x hx hx'
    obtain ⟨a, ha, rfl⟩ := List.mem_map.mp hx
    obtain ⟨a', ha', heq⟩ := List.mem_map.mp hx'
    have : a'.top.direction = a.top.direction := congrArg Prod.snd heq
    rw [hdir _ _ ha, hdir _ _ ha'] at this
    exact hne this.symm
  unfold arrivals at has
  cases hk : h.kind with
  | graphRoot k => rw [hk] at has; cases has
  | incomingRoot k => rw [hk] at has; cases has
  | move m =>
    cases m with
    | endpoint direction =>
      simp only [hk] at has
      split at has
      · cases has
        refine hblocks (fun d a ha => ?_) fun d _ => ?_
        · obtain ⟨n, hn, rfl⟩ := List.mem_map.mp ha
          obtain ⟨k, _, _, _, rfl⟩ := mem_endpoints.mp hn
          rfl
        · rw [List.map_map]
          exact nodup_endpoints hc h .edgeVertexHop parent d d
      · cases has
    | follow direction labels returns =>
      simp only [hk] at has
      split at has
      · split at has
        · cases has
        · rename_i incidence hinc
          cases has
          have htop {d : Direction} {e : Table} {a : Arrival}
              (ha : h.arrivalAlong T parent returns d e = some a) : a.top.place = (e, d) := by
            cases returns with
            | edge =>
              simp only [arrivalAlong] at ha
              split at ha <;> cases ha
              rfl
            | vertex =>
              simp only [arrivalAlong] at ha
              split at ha <;> cases ha
              rfl
          refine hblocks (fun d a ha => ?_) fun d _ => ?_
          · obtain ⟨e, _, hea⟩ := List.mem_filterMap.mp ha
            exact congrArg Prod.snd (htop hea)
          · have hside : ((incidence.side d).toList.filter (followsEdge labels)).Nodup :=
              (hc.sideAscends d hinc).nodup.filter _
            rw [List.map_filterMap]
            refine hside.filterMap ?_
            intro e e' x hx hx'
            obtain ⟨a, ha, rfl⟩ := Option.map_eq_some_iff.mp hx
            obtain ⟨a', ha', heq⟩ := Option.map_eq_some_iff.mp hx'
            rw [htop ha, htop ha'] at heq
            exact (congrArg Prod.fst heq).symm
      · cases has

/-! ## 3. Arrivals can be attached -/

/-- A visit that a hop ends at, below a table. -/
structure Hop.Stops (h : Hop) (T : Topology) (parent : Table) (n : NewNode) : Prop where
  depth : n.depth = h.depth
  intermediate : n.intermediate = false
  kind : n.table.kind = h.kind.target
  alternates : parent.kind ≠ n.table.kind
  resolved : n.direction ≠ .both
  known : ∃ ps, T.properties? n.table = some ps
  fits : h.matchesTable T n.table = true

/-- The visit of an edge table that a hop only crosses, below a table. -/
structure Hop.Crosses (h : Hop) (parent : Table) (n : NewNode) : Prop where
  depth : n.depth = h.depth
  intermediate : n.intermediate = true
  alternates : parent.kind ≠ n.table.kind
  resolved : n.direction ≠ .both

theorem Hop.stops_endpointVisit (hc : T.Consistent) {edge : Table} {k : ForeignKey}
    {origin : NodeOrigin} {d : Direction} (hkey : T.HasKey edge k) (hd : d ≠ .both)
    (hkind : h.kind.target = .vertex) (hm : h.matchesTable T k.vertex = true) :
    h.Stops T edge (h.endpointVisit T origin d k) where
  depth := rfl
  intermediate := rfl
  kind := (hkey.vertexKind hc).trans hkind.symm
  alternates := by
    show edge.kind ≠ k.vertex.kind
    rw [hkey.edgeKind hc, hkey.vertexKind hc]
    exact nofun
  resolved := hd
  known := (hc.properties_of_hasKey hkey).2
  fits := hm

/-- An arrival at once is a visit that the hop ends at. -/
theorem Hop.Arrives.stops (hc : T.Consistent) {n : NewNode}
    (ha : h.Arrives T parent (.direct n)) : h.Stops T parent n := by
  cases ha with
  | @edge direction d labels e hk hd hkey hf hm =>
    have hedge : e.kind = .edge := hkey.edgeKind hc
    have hparent : parent.kind = .vertex := hkey.vertexKind hc
    exact {
      depth := rfl, intermediate := rfl
      kind := by rw [hk]; exact hedge
      alternates := by
        show parent.kind ≠ e.kind
        rw [hparent, hedge]
        exact nofun
      resolved := Direction.ne_both_of_mem_resolved hd
      known := (hc.properties_of_hasKey hkey).1
      fits := hm }
  | endpoint hk hd hkey hkd hm =>
    exact stops_endpointVisit hc hkey (Direction.ne_both_of_mem_resolved hd) (by rw [hk]; rfl) hm

/-- An arrival across an edge table crosses it, and the hop ends behind it. -/
theorem Hop.Arrives.crosses (hc : T.Consistent) {e : NewNode} {targets : List NewNode}
    (ha : h.Arrives T parent (.across e targets)) :
    h.Crosses parent e ∧ ∀ n ∈ targets, h.Stops T e.table n := by
  cases ha with
  | @vertex direction d labels e hk hd hkey hf hne =>
    have hedge : e.kind = .edge := hkey.edgeKind hc
    have hparent : parent.kind = .vertex := hkey.vertexKind hc
    have hdb := Direction.ne_both_of_mem_resolved hd
    refine ⟨⟨rfl, rfl, ?_, hdb⟩, fun n hn => ?_⟩
    · show parent.kind ≠ e.kind
      rw [hparent, hedge]
      exact nofun
    · obtain ⟨k, hkey', _, hm, rfl⟩ := mem_endpoints.mp hn
      exact stops_endpointVisit hc hkey' hdb (by rw [hk]; rfl) hm

/-- **A move has arrivals from every table of the kind it leaves from**, and is refused at the
other kind. -/
theorem Hop.arrivals_of_move (hc : T.Consistent) {m : Move} (hk : h.kind = .move m)
    (hknown : ∃ ps, T.properties? parent = some ps) :
    (m.source = parent.kind → ∃ as, h.arrivals T parent = .ok as) ∧
    (m.source ≠ parent.kind → ∃ p c, h.arrivals T parent = .error (.kindAlternation p c)) := by
  unfold arrivals
  cases m with
  | endpoint direction =>
    simp only [hk, Move.source, Table.isEdge, beq_iff_eq]
    constructor
    · intro hkind
      rw [if_pos hkind.symm]
      exact ⟨_, rfl⟩
    · intro hkind
      rw [if_neg (Ne.symm hkind)]
      exact ⟨_, _, rfl⟩
  | follow direction labels returns =>
    simp only [hk, Move.source, Table.isVertex, beq_iff_eq]
    constructor
    · intro hkind
      rw [if_pos hkind.symm]
      obtain ⟨ps, hps⟩ := hknown
      rw [Topology.properties?, ← hkind] at hps
      obtain ⟨i, hi⟩ := hc.incidenceIff.mpr ⟨ps, hps⟩
      rw [show T.incidence? parent = some i from hi]
      exact ⟨_, rfl⟩
    · intro hkind
      rw [if_neg (Ne.symm hkind)]
      exact ⟨_, _, rfl⟩

end TraversalSql
