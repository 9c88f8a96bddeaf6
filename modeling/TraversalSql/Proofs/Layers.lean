import TraversalSql.Proofs.Stacks

/-!
# Layers of a tree

Each hop of a run adds a layer to its trees, whose nodes have the depth of the hop: the nodes at
which it ends, and above them the edge tables that it only crosses. So along a path a depth comes
twice at most, for an edge and a vertex, and a node of a path is told from the others by its depth
and its table. Columns of different nodes of a path never share an alias.
-/

set_option autoImplicit false

namespace TraversalSql

open QueryTree

/-! ## 1. Depths -/

namespace QueryTree

/-- Depths rise from a node at which a hop ends to the ones below it. A node that is only crossed
is of the depth of the nodes below it, at which the hop ends. -/
structure Layered (t : QueryTree) : Prop where
  deepens : ∀ {a b : Nat}, t.Live b → t.parent? b = some a →
    (t.nodeAt a).depth ≤ (t.nodeAt b).depth ∧
      ((t.nodeAt a).intermediate = false → (t.nodeAt a).depth < (t.nodeAt b).depth)
  arrives : ∀ {a b : Nat}, t.Live b → t.parent? b = some a →
    (t.nodeAt a).intermediate = true → (t.nodeAt b).intermediate = false
  ends : ∀ {phase : Phase} {id : Nat}, id ∈ t.ends phase → (t.nodeAt id).intermediate = false

variable {t : QueryTree} {a b : Nat} {ids : List Nat}

/-- Below a node at which a hop ends, all depths are greater. -/
theorem Layered.depth_lt (hl : t.Layered) : ∀ {ids : List Nat} {a : Nat}, t.GoesDown (a :: ids) →
    ∀ b ∈ ids, (t.nodeAt a).depth ≤ (t.nodeAt b).depth ∧
      ((t.nodeAt a).intermediate = false → (t.nodeAt a).depth < (t.nodeAt b).depth) := by
  intro ids
  induction ids with
  | nil => exact fun _ => List.forall_mem_nil _
  | cons c ids ih =>
    intro a hd b hb
    have hstep := hl.deepens (hd.live c (List.mem_cons_of_mem _ List.mem_cons_self))
      (hd.parent_head rfl)
    rcases List.mem_cons.mp hb with rfl | hb
    · exact hstep
    · have hrest := (ih (hd.part (List.suffix_cons a _).isInfix) b hb).1
      exact ⟨Nat.le_trans hstep.1 hrest, fun hi => Nat.lt_of_lt_of_le (hstep.2 hi) hrest⟩

end QueryTree

namespace Run

variable {T : Topology} {settings : Settings} {hop : Hop} {rest : List Hop} {table : Table}
  {binding : RootBinding} {t : QueryTree}

/-- Pruning takes children away from a node that it leaves, and nothing else. -/
theorem Planted.nodeAt_prune (hp : Planted T hop rest table binding t) {id : Nat}
    (h : t.prune.Live id) : ∃ n cs, t.nodes[id]? = some n ∧
      t.prune.nodeAt id = { n with children := cs } := by
  obtain ⟨n', hn', hlive⟩ := h
  obtain ⟨n, cs, hn, _, rfl⟩ := hp.live_node hn' hlive
  exact ⟨n, cs, hn, nodeAt_eq hn'⟩

/-- What stands right below a node after pruning was its child before. -/
theorem Planted.child_of_prune (hp : Planted T hop rest table binding t) {a b : Nat}
    {n : QueryNode} (hb : t.prune.Live b) (hparent : t.prune.parent? b = some a)
    (hn : t.nodes[a]? = some n) : b ∈ n.children := by
  have hw := hp.grown.full.wellFormed
  obtain ⟨hcut, -⟩ := prune_cut hw
  rw [hcut.parent?] at hparent
  exact hw.mem_children_of_parent (hcut.live_iff.mp hb).1 hparent hn

theorem Planted.layered (hc : T.Consistent) (hp : Planted T hop rest table binding t)
    (hdepths : ∀ {k : Nat} {h : Hop}, rest[k]? = some h → h.depth = k + 1) :
    t.prune.Layered := by
  obtain ⟨-, hw, -⟩ := prune_cut hp.grown.full.wellFormed
  constructor
  · intro a b hb hparent
    obtain ⟨n, cs, hn, hna⟩ := hp.nodeAt_prune (hw.live_parent hb hparent)
    obtain ⟨m, cs', hm, hmb⟩ := hp.nodeAt_prune hb
    have hdepth := hp.child_depth hc hdepths hn (hp.child_of_prune hb hparent hn) hm
    rw [hna, hmb]
    exact hdepth
  · intro a b hb hparent ha
    obtain ⟨n, cs, hn, hna⟩ := hp.nodeAt_prune (hw.live_parent hb hparent)
    obtain ⟨m, cs', hm, hmb⟩ := hp.nodeAt_prune hb
    rw [hna] at ha
    rw [hmb]
    -- a crossed node stands below one at which a hop ends
    cases hi : m.intermediate with
    | false => rfl
    | true =>
      obtain ⟨p, n', _, hn', hi', _, _, hmem⟩ := hp.crossed hc hm hi
      have hw' := hp.grown.full.wellFormed
      obtain rfl : p = a := by
        have hparent' := (hw'.child hn' hmem).2
        rw [(prune_cut hw').1.parent?, hparent'] at hparent
        exact Option.some.inj hparent
      rw [hn] at hn'
      cases hn'
      exact absurd (hi'.symm.trans ha) Bool.false_ne_true
  · intro phase id hid
    obtain ⟨_, m, hm, hi, _⟩ := (hp.mem_ends_iff hc hdepths phase).mp hid
    obtain ⟨n, cs, hn, heq⟩ := hp.nodeAt_prune (live_of_mem_ends hid)
    rw [hm] at hn
    cases hn
    rw [heq]
    exact hi

/-- The trees of a run whose hops are at their places are layered. -/
theorem trees_layered (hc : T.Consistent) {run : Run}
    (hdepths : ∀ {i : Nat} {h : Hop}, run.hops[i]? = some h → h.depth = i) {trees : List QueryTree}
    (htrees : run.trees settings T = .ok trees) (ht : t ∈ trees) : t.Layered := by
  cases hhops : run.hops with
  | nil =>
    rw [Run.trees, hhops] at htrees
    cases htrees
    cases ht
  | cons hop rest =>
    obtain ⟨_, _, t₀, rfl, hp⟩ := exists_of_mem_right (trees_planted hc hhops hdepths htrees) ht
    refine hp.layered hc ?_
    intro k h hk
    exact hdepths (by rw [hhops]; exact hk)

end Run

/-! ## 2. Nodes of a path -/

namespace Composer

variable {c : Composer} {T : Topology} {hops : List Hop} {id a b : Nat} {ids nodes : List Nat}

/-- A node and its parent are in different tables: one of them is an edge. -/
theorem Sound.tableAt_ne (hs : c.Sound T hops) (hb : c.tree.Live b)
    (hp : c.tree.parent? b = some a) : c.tableAt a ≠ c.tableAt b := by
  intro heq
  obtain ⟨k, _, ⟨hkey, hvertex⟩ | ⟨hkey, hvertex⟩⟩ := hs.tie hb hp
  · have hedge := hkey.edgeKind hs.consistent
    rw [← heq, ← hvertex, hkey.vertexKind hs.consistent] at hedge
    cases hedge
  · have hedge := hkey.edgeKind hs.consistent
    rw [heq, ← hvertex, hkey.vertexKind hs.consistent] at hedge
    cases hedge

/-- **Depth and table tell the nodes of a path apart.** -/
theorem Sound.nodup_places (hs : c.Sound T hops) (hl : c.tree.Layered) :
    ∀ {ids : List Nat}, c.tree.GoesDown ids →
    (ids.map fun id => ((c.tree.nodeAt id).depth, c.tableAt id)).Nodup := by
  intro ids
  induction ids with
  | nil => exact fun _ => List.nodup_nil
  | cons a ids ih =>
    intro hd
    have hbelow := hd.part (List.suffix_cons a _).isInfix
    rw [List.map_cons, List.nodup_cons]
    refine ⟨?_, ih hbelow⟩
    intro hmem
    obtain ⟨b, hb, heq⟩ := List.mem_map.mp hmem
    obtain ⟨hdepth, htable⟩ := Prod.mk.inj heq
    cases ids with
    | nil => cases hb
    | cons first ids =>
      have hfirst := hd.live first (List.mem_cons_of_mem _ List.mem_cons_self)
      have hp : c.tree.parent? first = some a := hd.parent_head rfl
      rcases List.mem_cons.mp hb with rfl | hb
      · exact hs.tableAt_ne hfirst hp htable.symm
      · have hlt : (c.tree.nodeAt a).depth < (c.tree.nodeAt b).depth := by
          cases hi : (c.tree.nodeAt a).intermediate with
          | false => exact (hl.depth_lt hd b (List.mem_cons_of_mem _ hb)).2 hi
          | true =>
            -- the hop that crosses here ends at the next node
            have hstop := hl.arrives hfirst hp hi
            exact Nat.lt_of_le_of_lt (hl.deepens hfirst hp).1
              ((hl.depth_lt hbelow b hb).2 hstop)
        exact absurd hdepth (Nat.ne_of_gt hlt)

/-- Columns of different nodes of a path have different keys. -/
theorem Sound.keyAt_inj (hs : c.Sound T hops) (hl : c.tree.Layered) (hd : c.tree.GoesDown nodes)
    {x y : NodeColumn} (hx : x.1 ∈ nodes) (hy : y.1 ∈ nodes) (h : c.keyAt x = c.keyAt y) :
    x = y := by
  have hdepth := congrArg AliasKey.depth h
  have htable := congrArg AliasKey.table h
  have hcolumn := congrArg AliasKey.column h
  have hnode : x.1 = y.1 :=
    List.inj_on_of_nodup_map (hs.nodup_places hl hd) hx hy (Prod.ext hdepth htable)
  exact Prod.ext hnode hcolumn

/-! ## 3. Nodes that are shown -/

/-- A node whose element is part of a row is not merely crossed. -/
theorem Sound.stops_of_shown (hs : c.Sound T hops) (hl : c.tree.Layered) {phase : Phase}
    {last : Nat} (hlast : last ∈ c.tree.ends phase)
    (hid : id ∈ c.shownAt (c.tree.stack phase last).nodes) :
    (c.tree.nodeAt id).intermediate = false := by
  have hlive := live_of_mem_ends hlast
  obtain ⟨hdown, _, hend⟩ := hs.wellFormed.path_goesDown hlive
  obtain ⟨hmem, hterminal | hlabels⟩ := mem_shownAt.mp hid
  · obtain rfl : last = id := Option.some.inj (hend.symm.trans hterminal)
    exact hl.ends hlast
  · cases hi : (c.tree.nodeAt id).intermediate with
    | false => rfl
    | true =>
      have hempty := (hs.fits.node (hdown.live id hmem).node).crossed hi
      rw [hempty] at hlabels
      cases hlabels

/-- The element of a node at which a hop ends is made up of all columns of its table. -/
theorem Sound.mem_elementColumns (hs : c.Sound T hops) (hid : c.tree.Live id)
    (hstop : (c.tree.nodeAt id).intermediate = false) {col : Column} :
    col ∈ (c.tree.nodeAt id).elementColumns ↔ T.HasColumn (c.tableAt id) col := by
  refine ⟨fun h => (hs.has_elementColumn hid h).2, fun h => ?_⟩
  have hfits := hs.fits.node hid.node
  simp only [QueryNode.elementColumns, List.mem_append, List.mem_cons, List.mem_map]
  cases col with
  | id => exact Or.inl (Or.inl rfl)
  | property p =>
    obtain ⟨ps, hps, hp⟩ := h
    obtain rfl : (c.tree.nodeAt id).properties = ps :=
      Option.some.inj (hfits.properties.symm.trans hps)
    exact Or.inl (Or.inr ⟨p, SortedMap.mem_keys_iff.mpr (SortedMap.contains_iff.mp hp), rfl⟩)
  | foreignKey k =>
    have hedge : (c.tree.nodeAt id).table.isEdge = true := by
      have hkind : (c.tree.nodeAt id).table.kind = .edge := Topology.HasKey.edgeKind hs.consistent h
      rw [Table.isEdge, hkind]
      rfl
    refine Or.inr ?_
    rw [if_pos hedge, hfits.stop hstop hedge, List.mem_map]
    exact ⟨k, Topology.mem_foreignKeys_iff.mpr h, rfl⟩

end Composer

end TraversalSql
