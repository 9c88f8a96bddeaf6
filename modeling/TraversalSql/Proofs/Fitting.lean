import TraversalSql.Proofs.Descent
import TraversalSql.Proofs.Pruning
import TraversalSql.Proofs.Statements

/-!
# Trees that fit a topology

Whoever reads a tree of a run relies on the topology it was grown from: a node has the properties
of its table, a filter asks for one of them, and between a node and its parent there is a foreign
key that the edge table of the two has. That is `QueryTree.Fits`. It holds of the trees of every
run that has trees, whatever the depths of its hops are, so nothing is said of depths here.
-/

set_option autoImplicit false

namespace TraversalSql

open QueryTree

variable {T : Topology} {h : Hop} {hops : List Hop} {t t' : QueryTree} {p c : Nat}
  {n m pn : QueryNode}

/-- The foreign key joins a table to the one below it: it is a column of one and points at the
other. -/
def ForeignKey.Ties (k : ForeignKey) (T : Topology) (parent child : Table) : Prop :=
  (T.HasKey child k ∧ k.vertex = parent) ∨ (T.HasKey parent k ∧ k.vertex = child)

/-- What a node has of its table and of the hops of a run. -/
structure QueryNode.Fits (T : Topology) (hops : List Hop) (n : QueryNode) : Prop where
  properties : T.properties? n.table = some n.properties
  filters : ∀ f ∈ n.filters, n.properties.contains f.key = true ∧ ∃ h ∈ hops, f ∈ h.filters
  ids : ∀ p ∈ n.idPredicates, ∃ h ∈ hops, ∃ q ∈ h.idPredicates, q.resolveIds? n.table = some p
  order : ∀ s ∈ n.order, ∃ h ∈ hops, s ∈ h.order
  keys : ∀ k ∈ n.foreignKeys, T.HasKey n.table k
  stop : n.intermediate = false → n.table.isEdge = true →
    n.foreignKeys = (T.foreignKeys? n.table).getD ∅
  crossed : n.intermediate = true → n.labels = ∅

/-- All nodes fit, and a foreign key joins each to its parent. -/
structure QueryTree.Fits (T : Topology) (hops : List Hop) (t : QueryTree) : Prop where
  node : ∀ {id : Nat} {n : QueryNode}, t.nodes[id]? = some n → n.Fits T hops
  joined : ∀ {id p : Nat} {n pn : QueryNode}, t.nodes[id]? = some n → n.parent = some p →
    t.nodes[p]? = some pn → ∃ k, n.joinKey = some k ∧ k.Ties T pn.table n.table

/-! ## 1. New nodes -/

/-- The visit can be put below a table. -/
def NewNode.Suits (nn : NewNode) (T : Topology) (parent : Table) : Prop :=
  nn.joinKey.Ties T parent nn.table ∧ T.properties? nn.table = some nn.properties

theorem Hop.visit_suits {origin : NodeOrigin} {table parent : Table} {d : Direction}
    {k : ForeignKey} {crossed : Bool} (hk : k.Ties T parent table)
    (hknown : ∃ ps, T.properties? table = some ps) :
    (h.visit T origin table d k crossed).Suits T parent := by
  obtain ⟨ps, hps⟩ := hknown
  refine ⟨hk, ?_⟩
  show T.properties? table = some ((T.properties? table).getD ∅)
  rw [hps, Option.getD_some]

theorem Hop.endpointVisit_suits (hc : T.Consistent) {edge : Table} {k : ForeignKey}
    {origin : NodeOrigin} {d : Direction} (hkey : T.HasKey edge k) :
    (h.endpointVisit T origin d k).Suits T edge :=
  visit_suits (Or.inr ⟨hkey, rfl⟩) (hc.properties_of_hasKey hkey).2

theorem Hop.Arrives.direct_suits (hc : T.Consistent) {parent : Table} {nn : NewNode}
    (ha : h.Arrives T parent (.direct nn)) : nn.Suits T parent := by
  cases ha with
  | edge _ _ hkey _ _ => exact visit_suits (Or.inl ⟨hkey, rfl⟩) (hc.properties_of_hasKey hkey).1
  | endpoint _ _ hkey _ _ => exact endpointVisit_suits hc hkey

theorem Hop.Arrives.across_suits (hc : T.Consistent) {parent : Table} {e : NewNode}
    {targets : List NewNode} (ha : h.Arrives T parent (.across e targets)) :
    e.Suits T parent ∧ ∀ nn ∈ targets, nn.Suits T e.table := by
  cases ha with
  | vertex _ _ hkey _ _ =>
    refine ⟨visit_suits (Or.inl ⟨hkey, rfl⟩) (hc.properties_of_hasKey hkey).1, ?_⟩
    intro nn hnn
    obtain ⟨k, hkey', _, _, rfl⟩ := mem_endpoints.mp hnn
    exact endpointVisit_suits hc hkey'

/-- The filters that a hop puts on a table ask for properties of the table. -/
theorem Hop.mem_filtersFor {table : Table} {ps : Properties} (hps : T.properties? table = some ps)
    {f : Filter} (hf : f ∈ (h.filtersFor? T table).getD []) :
    ps.contains f.key = true ∧ f ∈ h.filters := by
  simp only [filtersFor?, hps, Option.bind_eq_bind, Option.bind_some] at hf
  split at hf
  · obtain ⟨hmem, hkey⟩ := List.mem_filter.mp hf
    exact ⟨hkey, hmem⟩
  · cases hf

/-- A hop can be put on any node without filters and labels that has the properties of its
table. -/
theorem Hop.dress_fits (hh : h ∈ hops) (withIds : Bool)
    (hps : T.properties? n.table = some n.properties) (hfilters : n.filters = [])
    (hids : n.idPredicates = []) (horder : n.order = []) (hkeys : n.foreignKeys = ∅)
    (hi : n.intermediate = false) :
    (h.dress T withIds n).Fits T hops where
  properties := hps
  filters := by
    intro f hf
    simp only [dress, hfilters, List.nil_append] at hf
    obtain ⟨hkey, hmem⟩ := mem_filtersFor hps hf
    exact ⟨hkey, h, hh, hmem⟩
  ids := by
    intro p hp
    cases withIds with
    | false =>
      simp only [dress, hids, Bool.false_eq_true, if_false] at hp
      cases hp
    | true =>
      simp only [dress, hids, if_true, List.nil_append, List.mem_filterMap] at hp
      obtain ⟨q, hq, hr⟩ := hp
      exact ⟨h, hh, q, hq, hr⟩
  order := by
    intro s hs
    simp only [dress, horder, List.nil_append] at hs
    exact ⟨h, hh, hs⟩
  keys := by
    intro k hk
    simp only [dress] at hk
    split at hk
    · exact Topology.mem_foreignKeys_iff.mp hk
    · rw [hkeys] at hk
      exact absurd hk SortedSet.not_mem_empty
  stop := by
    intro _ he
    have he : n.table.isEdge = true := he
    simp only [dress, he, if_true]
  crossed := by
    intro hcrossed
    have hcrossed : n.intermediate = true := hcrossed
    rw [hi] at hcrossed
    cases hcrossed

/-- An edge table that is only crossed has nothing of the hop. -/
theorem NewNode.node_fits {nn : NewNode} (hps : T.properties? nn.table = some nn.properties)
    (hi : nn.intermediate = true) : (nn.node p).Fits T hops where
  properties := hps
  filters := nofun
  ids := nofun
  order := nofun
  keys k hk := absurd hk SortedSet.not_mem_empty
  stop hstop := by
    have hstop : nn.intermediate = false := hstop
    rw [hi] at hstop
    cases hstop
  crossed _ := rfl

/-! ## 2. What later hops and pruning leave as it is -/

theorem QueryNode.Fits.of_core (hn : n.Fits T hops) (hcore : m.core = n.core) :
    m.Fits T hops := by
  have h : n.core.Fits T hops :=
    ⟨hn.properties, hn.filters, hn.ids, hn.order, hn.keys, hn.stop, hn.crossed⟩
  rw [← hcore] at h
  exact ⟨h.properties, h.filters, h.ids, h.order, h.keys, h.stop, h.crossed⟩

theorem QueryNode.Fits.cut (hn : n.Fits T hops) (keep : Nat → Prop) (id : Nat) :
    (n.cut keep id).Fits T hops := by
  obtain ⟨r, cs, hcut⟩ := n.cut_eq keep id
  rw [hcut]
  exact ⟨hn.properties, hn.filters, hn.ids, hn.order, hn.keys, hn.stop, hn.crossed⟩

theorem QueryTree.Fits.cutTo {keep : Nat → Prop} (hf : t.Fits T hops) (hcut : t.CutTo t' keep) :
    t'.Fits T hops := by
  have hback : ∀ {i : Nat} {n' : QueryNode}, t'.nodes[i]? = some n' →
      ∃ n, t.nodes[i]? = some n ∧ n' = n.cut keep i := by
    intro i n' hn'
    rw [hcut.nodes, Option.map_eq_some_iff] at hn'
    obtain ⟨n, hn, rfl⟩ := hn'
    exact ⟨n, hn, rfl⟩
  constructor
  · intro i n' hn'
    obtain ⟨n, hn, rfl⟩ := hback hn'
    exact (hf.node hn).cut keep i
  · intro i p n' pn' hn' hp hpn'
    obtain ⟨n, hn, rfl⟩ := hback hn'
    obtain ⟨pn, hpn, rfl⟩ := hback hpn'
    obtain ⟨r, cs, hcut⟩ := n.cut_eq keep i
    obtain ⟨pr, pcs, hpcut⟩ := pn.cut_eq keep p
    rw [hcut] at hp ⊢
    rw [hpcut]
    obtain ⟨k, hk, hties⟩ := hf.joined hn hp hpn
    exact ⟨k, hk, hties⟩

/-- Old nodes of a grown tree fit as they did. -/
theorem QueryTree.Fits.old {F : Nat → Prop} (hf : t.Fits T hops) (hw : t.WellFormed)
    (hx : Extends F t t') (hc : c < t.nodes.size) (hm : t'.nodes[c]? = some m) :
    m.Fits T hops ∧ ∀ {p pn}, m.parent = some p → t'.nodes[p]? = some pn →
      ∃ k, m.joinKey = some k ∧ k.Ties T pn.table m.table := by
  obtain ⟨n, hn⟩ : ∃ n, t.nodes[c]? = some n := ⟨_, Array.getElem?_eq_getElem hc⟩
  obtain ⟨n', hn', hcore⟩ := hx.core hn
  rw [hm] at hn'
  cases hn'
  refine ⟨(hf.node hn).of_core hcore, ?_⟩
  intro p pn' hp hpn'
  have hparent : n.parent = some p :=
    (QueryNode.eq_of_core QueryNode.parent (fun _ => rfl) hcore).symm.trans hp
  have hlt : p < c := hw.parentLt ((parent?_of_node hn).trans hparent)
  obtain ⟨pn, hpn⟩ : ∃ pn, t.nodes[p]? = some pn :=
    ⟨_, Array.getElem?_eq_getElem (Nat.lt_trans hlt hc)⟩
  obtain ⟨pn'', hpn'', hpcore⟩ := hx.core hpn
  rw [hpn'] at hpn''
  cases hpn''
  rw [QueryNode.eq_of_core QueryNode.joinKey (fun _ => rfl) hcore,
    QueryNode.eq_of_core QueryNode.table (fun _ => rfl) hcore,
    QueryNode.eq_of_core QueryNode.table (fun _ => rfl) hpcore]
  exact hf.joined hn hparent hpn

/-! ## 3. One hop -/

section Hop

variable {frontier next : List Nat} (hc : T.Consistent) (hf : t.Full)
  (hg : h.Grows T (· ∈ frontier) t t' next) (hex : ∀ p ∈ frontier, h.Expanded T t' p)
include hc hf hg hex

omit hc hex in
/-- A new node is listed by a node of the frontier, or by a new one. -/
theorem Hop.Grows.listed (hm : t'.nodes[c]? = some m) (hnew : t.nodes.size ≤ c) :
    ∃ p pn, m.parent = some p ∧ t'.nodes[p]? = some pn ∧ c ∈ pn.children ∧
      (p ∈ frontier ∨ t.nodes.size ≤ p) := by
  have hroot : c ≠ root := by
    obtain ⟨r, hr, _⟩ := hf.wellFormed.rootLive
    exact Nat.ne_of_gt (Nat.lt_of_lt_of_le (lt_size_of_node hr) hnew)
  obtain ⟨p, pn, hp, hpn, _, hmem⟩ := hg.full.wellFormed.listed ⟨m, hm, hg.full.live hm⟩ hroot
  rw [parent?_of_node hm] at hp
  refine ⟨p, pn, hp, hpn, hmem, ?_⟩
  by_contra hnot
  rw [not_or, Nat.not_le] at hnot
  obtain ⟨n, hn⟩ : ∃ n, t.nodes[p]? = some n := ⟨_, Array.getElem?_eq_getElem hnot.2⟩
  -- outside the frontier nodes keep the children they had, none of which is new
  have hkept := hg.extension.kept hn hnot.1
  rw [hpn] at hkept
  cases hkept
  obtain ⟨n', hn', _⟩ := hf.wellFormed.live_of_child hn hmem
  exact Nat.not_lt.mpr hnew (lt_size_of_node hn')

/-- A new node stands below a node of the frontier, or below an edge table that the hop crosses
there. -/
theorem Hop.Grows.new_cases : ∀ {c : Nat} {m : QueryNode}, t'.nodes[c]? = some m →
    t.nodes.size ≤ c → ∃ p pn, m.parent = some p ∧ t'.nodes[p]? = some pn ∧ c ∈ pn.children ∧
      (p ∈ frontier ∨ ∃ q qn, q ∈ frontier ∧ t'.nodes[q]? = some qn ∧ p ∈ qn.children ∧
        pn.intermediate = true) := by
  intro c
  induction c using Nat.strongRecOn with
  | ind c ih =>
    intro m hm hnew
    obtain ⟨p, pn, hp, hpn, hmem, hp' | hp'⟩ := hg.listed hf hm hnew
    · exact ⟨p, pn, hp, hpn, hmem, Or.inl hp'⟩
    · have hlt : p < c := hg.full.wellFormed.parentLt ((parent?_of_node hm).trans hp)
      have hnext : p ∉ next := by
        intro hin
        obtain ⟨n, hn, hfresh⟩ := hg.fresh hin
        rw [hpn] at hn
        cases hn
        rw [hfresh.childless] at hmem
        cases hmem
      have hi := hg.crossed hpn hp' hnext
      refine ⟨p, pn, hp, hpn, hmem, Or.inr ?_⟩
      obtain ⟨q, qn, _, hqn, hpmem, hq | ⟨r, rn, hr, hrn, hqmem, hqi⟩⟩ := ih p hlt hpn hp'
      · exact ⟨q, qn, hq, hqn, hpmem, hi⟩
      · -- what stands below a crossed node is where the hop ends
        obtain ⟨_, _, _, hstops⟩ := (hex r hr).crossed_child hc hrn hqmem hqn hqi
        obtain ⟨nn, hstop, hs⟩ := hstops p hpmem
        have := (hs.dresses hpn).intermediate.trans hstop.intermediate
        exact absurd (hi.symm.trans this) nofun

/-- New nodes fit. -/
theorem Hop.Grows.new_fits (hh : h ∈ hops) (hm : t'.nodes[c]? = some m)
    (hnew : t.nodes.size ≤ c) :
    m.Fits T hops ∧ ∃ p pn k, m.parent = some p ∧ t'.nodes[p]? = some pn ∧
      m.joinKey = some k ∧ k.Ties T pn.table m.table := by
  -- where the hop ends, its own filters are put on a bare node
  have hstop : ∀ {p : Nat} {pn : QueryNode} {nn : NewNode}, m.parent = some p →
      t'.nodes[p]? = some pn → nn.Suits T pn.table → nn.intermediate = false →
      h.StopAt T t' p nn c →
      m.Fits T hops ∧ ∃ p pn k, m.parent = some p ∧ t'.nodes[p]? = some pn ∧
        m.joinKey = some k ∧ k.Ties T pn.table m.table := by
    intro p pn nn hp hpn hsuits hi hs
    have hd := hs.dresses hm
    obtain ⟨m', hm', hcore⟩ := hs
    rw [hm] at hm'
    cases hm'
    refine ⟨?_, p, pn, nn.joinKey, hp, hpn, hd.joinKey, hd.table ▸ hsuits.1⟩
    have hfits : (h.dress T true (nn.node p)).Fits T hops :=
      Hop.dress_fits hh true hsuits.2 rfl rfl rfl rfl hi
    exact hfits.of_core hcore
  obtain ⟨p, pn, hp, hpn, hmem, hpF | ⟨q, qn, hq, hqn, hpmem, hpi⟩⟩ :=
    hg.new_cases hc hf hex hm hnew
  · rcases (hex p hpF).child_cases hc hpn hmem with ⟨nn, harr, hs⟩ | ⟨e, targets, cs, harr, hce, _⟩
    · exact hstop hp hpn (harr.direct_suits hc) (harr.stops hc).intermediate hs
    · obtain ⟨hsuits, _⟩ := harr.across_suits hc
      rw [hm] at hce
      cases hce
      have hfits : (e.node p).Fits T hops :=
        NewNode.node_fits hsuits.2 (harr.crosses hc).1.intermediate
      exact ⟨hfits.of_core (QueryNode.core_adopt _ _), p, pn, e.joinKey, hp, hpn, rfl, hsuits.1⟩
  · rcases (hex q hq).child_cases hc hqn hpmem with
      ⟨nn, harr, hs⟩ | ⟨e, targets, cs, harr, hce, hcs⟩
    · have := (hs.dresses hpn).intermediate.trans (harr.stops hc).intermediate
      exact absurd (hpi.symm.trans this) nofun
    · rw [hpn] at hce
      cases hce
      obtain ⟨nn, hnn, hs⟩ := hcs c hmem
      exact hstop hp hpn ((harr.across_suits hc).2 nn hnn)
        ((harr.crosses hc).2 nn hnn).intermediate hs

theorem Hop.Grows.fits (hh : h ∈ hops) (hfits : t.Fits T hops) : t'.Fits T hops := by
  constructor
  · intro c m hm
    by_cases hlt : c < t.nodes.size
    · exact (hfits.old hf.wellFormed hg.extension hlt hm).1
    · exact (hg.new_fits hc hf hex hh hm (Nat.not_lt.mp hlt)).1
  · intro c p m pn hm hp hpn
    by_cases hlt : c < t.nodes.size
    · exact (hfits.old hf.wellFormed hg.extension hlt hm).2 hp hpn
    · obtain ⟨_, p', pn', k, hp', hpn', hk, hties⟩ :=
        hg.new_fits hc hf hex hh hm (Nat.not_lt.mp hlt)
      rw [hp] at hp'
      cases hp'
      rw [hpn] at hpn'
      cases hpn'
      exact ⟨k, hk, hties⟩

end Hop

/-! ## 4. A whole run -/

namespace Run

/-- A tree in the course of growing, and the nodes at which the next hop is expanded. -/
structure Spreading (T : Topology) (hops : List Hop) (t : QueryTree) (frontier : List Nat) :
    Prop where
  full : t.Full
  fits : t.Fits T hops
  nodup : frontier.Nodup
  bare : ∀ p ∈ frontier, ∃ n, t.nodes[p]? = some n ∧ n.intermediate = false ∧ n.children = [] ∧
    n.leftJoin = false

theorem markFrontier_fits (h : Hop) (frontier : List Nat) (hf : t.Full) (hfits : t.Fits T hops) :
    (markFrontier h t frontier).Fits T hops := by
  have hover := markFrontier_over h frontier t
  have hold : ∀ {c : Nat} {m : QueryNode}, (markFrontier h t frontier).nodes[c]? = some m →
      c < t.nodes.size := by
    intro c m hm
    have hlt := lt_size_of_node hm
    rwa [(markFrontier_frame h frontier t).2.2] at hlt
  constructor
  · intro c m hm
    exact (hfits.old hf.wellFormed hover (hold hm) hm).1
  · intro c p m pn hm hp hpn
    exact (hfits.old hf.wellFormed hover (hold hm) hm).2 hp hpn

/-- One hop more; it leaves the cores of all nodes as they are. -/
theorem Spreading.step {frontier next : List Nat} (hc : T.Consistent) (hh : h ∈ hops)
    (hs : Spreading T hops t frontier)
    (hok : expandAll T h (markFrontier h t frontier) frontier = .ok (t', next)) :
    Spreading T hops t' next ∧ Extends (fun _ => True) t t' := by
  have hfull := markFrontier_full h frontier hs.full
  have hready : ∀ p ∈ frontier, ∃ n, (markFrontier h t frontier).nodes[p]? = some n ∧
      h.ReadyAt n := by
    intro p hp
    obtain ⟨n, hn, hi, hchildren, hleft⟩ := hs.bare p hp
    refine ⟨flagged h n, by rw [markFrontier_nodes, if_pos hp, hn, Option.map_some], hi,
      hchildren, ?_⟩
    rw [flagged, hleft, Bool.false_or]
  rcases expandAll_spec hc h hfull hs.nodup hready with
    ⟨t₁, next₁, hall, hg, hex⟩ | ⟨e, _, _, hall, _⟩
  · rw [hok] at hall
    cases hall
    refine ⟨⟨hg.full, hg.fits hc hfull hex hh (markFrontier_fits h frontier hs.full hs.fits),
      hg.nodup, ?_⟩, (markFrontier_over h frontier t).trans hg.extension fun _ _ _ => trivial⟩
    intro p hp
    obtain ⟨n, hn, hfresh⟩ := hg.fresh hp
    exact ⟨n, hn, hfresh.intermediate, hfresh.childless, hfresh.unmarked⟩
  · rw [hok] at hall
    cases hall

theorem Spreading.run (hc : T.Consistent) : ∀ {rest : List Hop} {t t' : QueryTree}
    {frontier : List Nat}, Spreading T hops t frontier → (∀ h ∈ rest, h ∈ hops) →
    expandHops T t frontier rest = .ok t' →
      t'.Full ∧ t'.Fits T hops ∧ Extends (fun _ => True) t t' := by
  intro rest
  induction rest with
  | nil =>
    intro t t' frontier hs _ hok
    cases hok
    exact ⟨hs.full, hs.fits, .refl t⟩
  | cons h rest ih =>
    intro t t' frontier hs hsub hok
    simp only [expandHops, bind, Except.bind] at hok
    split at hok
    · cases hok
    · rename_i r hall
      obtain ⟨hs', hx⟩ := hs.step hc (hsub h List.mem_cons_self) hall
      obtain ⟨hfull, hfits, hx'⟩ := ih hs' (fun h' hh' => hsub h' (List.mem_cons_of_mem _ hh')) hok
      exact ⟨hfull, hfits, hx.trans hx' fun _ _ _ => trivial⟩

/-- The tree of a root table that the topology knows is grown from the root with its hop and then
pruned. -/
theorem tree_grown (hc : T.Consistent) {hop : Hop} {rest : List Hop} {table : Table}
    {binding : RootBinding} (hknown : ∃ ps, T.properties? table = some ps)
    (hok : tree T hop rest table binding = .ok t') :
    ∃ seed grown keep, seed.nodes[root]? = some (hop.dress T (keepsIds binding) (rootNode T table)) ∧
      seed.binding = binding ∧ Extends (fun _ => True) seed grown ∧ grown.Fits T (hop :: rest) ∧
      grown.CutTo t' keep ∧ t'.WellFormed := by
  let new := QueryTree.new table ((T.properties? table).getD ∅) binding
  have hnew : new.nodes[root]? = some (rootNode T table) := rfl
  obtain ⟨seed, happly, hsize, hn, _, hbound, _⟩ := applyTo_ok hop T (keepsIds binding) hnew
  have hseed : hop.applyTo T (QueryTree.new table ((T.properties? table).getD ∅) binding) root
      (keepsIds binding) = .ok seed := happly
  have honly : ∀ {i : Nat} {m : QueryNode}, seed.nodes[i]? = some m →
      m = hop.dress T (keepsIds binding) (rootNode T table) := by
    intro i m hm
    have hlt : i < seed.nodes.size := lt_size_of_node hm
    rw [hsize, show new.nodes.size = 1 from rfl, Nat.lt_one_iff] at hlt
    subst hlt
    exact Option.some.inj (hm.symm.trans hn)
  have hspreading : Spreading T (hop :: rest) seed [root] := by
    refine ⟨full_of_single hsize hn rfl rfl rfl, ⟨?_, ?_⟩, List.nodup_singleton _, ?_⟩
    · intro i m hm
      obtain ⟨ps, hps⟩ := hknown
      rw [honly hm]
      refine Hop.dress_fits List.mem_cons_self _ ?_ rfl rfl rfl rfl rfl
      show T.properties? table = some ((T.properties? table).getD ∅)
      rw [hps, Option.getD_some]
    · intro i p m pm hm hp
      rw [honly hm] at hp
      cases hp
    · intro p hp
      rw [List.mem_singleton.mp hp]
      exact ⟨_, hn, rfl, rfl, rfl⟩
  simp only [tree, hseed, bind, Except.bind] at hok
  split at hok
  · cases hok
  · rename_i grown hgrown
    obtain ⟨hfull, hfits, hx⟩ := hspreading.run hc (fun h hh => List.mem_cons_of_mem _ hh) hgrown
    -- neither the shape of the tree nor its nodes know the full depth
    let full : QueryTree := { grown with fullDepth := rest.length }
    have hw : full.WellFormed :=
      ⟨hfull.wellFormed.rootLive, hfull.wellFormed.rootTop, hfull.wellFormed.parentLt,
        hfull.wellFormed.listed, hfull.wellFormed.child, hfull.wellFormed.nodup⟩
    rw [pruned_eq hw] at hok
    cases hok
    obtain ⟨hcut, hw', _⟩ := prune_cut hw
    exact ⟨seed, full, full.Useful, hn, hbound,
      ⟨hx.size, hx.kept, hx.core, hx.binding, hx.unsatisfiable⟩, ⟨hfits.node, hfits.joined⟩, hcut,
      hw'⟩

theorem tree_fits (hc : T.Consistent) {hop : Hop} {rest : List Hop} {table : Table}
    {binding : RootBinding} (hknown : ∃ ps, T.properties? table = some ps)
    (hok : tree T hop rest table binding = .ok t') :
    t'.WellFormed ∧ t'.Fits T (hop :: rest) := by
  obtain ⟨_, _, _, _, _, _, hfits, hcut, hw⟩ := tree_grown hc hknown hok
  exact ⟨hw, hfits.cutTo hcut⟩

/-- What the root of a tree has of its table and of the root hop. -/
structure Rooted (T : Topology) (hop : Hop) (table : Table) (binding : RootBinding)
    (t : QueryTree) (n : QueryNode) : Prop where
  node : t.nodes[root]? = some n
  bound : t.binding = binding
  filters : n.filters = (hop.filtersFor? T table).getD []
  place : n.table = table
  ids : n.idPredicates = if keepsIds binding then
    hop.idPredicates.filterMap (Predicate.resolveIds? table) else []

theorem tree_rooted (hc : T.Consistent) {hop : Hop} {rest : List Hop} {table : Table}
    {binding : RootBinding} (hknown : ∃ ps, T.properties? table = some ps)
    (hok : tree T hop rest table binding = .ok t') : ∃ n, Rooted T hop table binding t' n := by
  obtain ⟨seed, grown, keep, hseed, hbound, hx, _, hcut, _⟩ := tree_grown hc hknown hok
  obtain ⟨n, hn, hcore⟩ := hx.core hseed
  obtain ⟨_, _, hsame⟩ := n.cut_eq keep root
  refine ⟨_, hcut.node hn, (hcut.binding.trans hx.binding).trans hbound, ?_, ?_, ?_⟩ <;> rw [hsame]
  · exact QueryNode.eq_of_core QueryNode.filters (fun _ => rfl) hcore
  · exact QueryNode.eq_of_core QueryNode.table (fun _ => rfl) hcore
  · exact QueryNode.eq_of_core QueryNode.idPredicates (fun _ => rfl) hcore

/-- **The trees of a run fit.** Whenever a run has trees, each of them is a tree that fits the
topology. -/
theorem trees_fit (hc : T.Consistent) {run : Run} {settings : Settings} {trees : List QueryTree}
    (hok : run.trees settings T = .ok trees) (ht : t ∈ trees) :
    t.WellFormed ∧ t.Fits T run.hops := by
  unfold Run.trees at hok
  cases hr : run.hops with
  | nil =>
    rw [hr] at hok
    cases hok
    cases ht
  | cons hop rest =>
    rw [hr] at hok
    obtain ⟨⟨table, binding⟩, hmem, htree⟩ := exists_of_mem_right (forall₂_of_mapM hok) ht
    have hknown := ((mem_rootTables_iff hc).mp (mem_candidates_iff.mp hmem).1).2.1
    exact tree_fits hc hknown htree

end Run

end TraversalSql
