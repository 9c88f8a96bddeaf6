import TraversalSql.Proofs.Descent
import TraversalSql.Proofs.WholeLinks

/-!
# The walks that statements return

Every statement of a run reads one path of one tree. This file says, for the three phases at once,
which walks the paths of a phase stand for (`Run.EndsAt` has the hops that the phase ends at): each
such walk satisfies the joins and filters of exactly one path of one tree, and nothing else
satisfies any. On the way it is shown that pruning, the choice of root tables and the lists of ids
that roots are bound to neither lose a walk nor add one.
-/

set_option autoImplicit false

namespace TraversalSql

open QueryTree

variable {T : Topology} {g : StoredGraph T} {truth : Truth} {t : QueryTree} {a c c' : Nat}
  {n m : QueryNode} {u v : Visit} {w : List Visit} {ids : List Nat}

/-! ## 1. Stacks -/

namespace QueryTree

/-- The nodes that the stacks of a phase end at. -/
def ends (t : QueryTree) : Phase → List Nat
  | .regular => t.regularLeaves
  | .optional => t.frontiers
  | .emit => t.emitted

/-- The stack of a phase that ends at a node. -/
def stack (t : QueryTree) (phase : Phase) (c : Nat) : PathStack where
  phase := phase
  nodes := t.path c
  branches := if phase = .optional then t.branchesBelow c else []

theorem branches_stack (t : QueryTree) (c : Nat) :
    (t.stack .optional c).branches = t.branchesBelow c := rfl

theorem ends_eq_liveWhere (t : QueryTree) (phase : Phase) :
    ∃ f, t.ends phase = t.liveWhere f := by
  cases phase <;> simp only [ends, regularLeaves, frontiers, emitted] <;> exact ⟨_, rfl⟩

theorem live_of_mem_ends {phase : Phase} (h : c ∈ t.ends phase) : t.Live c := by
  obtain ⟨f, hf⟩ := t.ends_eq_liveWhere phase
  rw [hf] at h
  obtain ⟨n, hn, hlive, _⟩ := mem_liveWhere.mp h
  exact ⟨n, hn, hlive⟩

theorem nodup_ends (t : QueryTree) (phase : Phase) : (t.ends phase).Nodup := by
  obtain ⟨f, hf⟩ := t.ends_eq_liveWhere phase
  rw [hf]
  exact nodup_liveWhere f

/-- The stacks that are found, if none is refused. -/
theorem pathStacks_ok {phase : Phase} {all : List PathStack} (h : t.pathStacks phase = .ok all) :
    all = if t.unsatisfiable then [] else (t.ends phase).map (t.stack phase) := by
  cases hu : t.unsatisfiable with
  | true =>
    rw [pathStacks, if_pos hu] at h
    cases h
    rfl
  | false =>
    rw [pathStacks, if_neg (by rw [hu]; exact Bool.false_ne_true)] at h
    rw [if_neg Bool.false_ne_true]
    cases phase <;>
      (refine mapM_eq_map (fun c _ s hs => ?_) h
       obtain ⟨branches, hbranches, hs⟩ := bind_ok hs
       obtain ⟨path, hpath, hs⟩ := bind_ok hs
       cases hs)
    · cases hbranches
      rw [pathTo_ok hpath]
      rfl
    · rw [pathTo_ok hpath, findBranchesBelow_ok hbranches]
      rfl
    · cases hbranches
      rw [pathTo_ok hpath]
      rfl

/-- Stacks of a well-formed tree are never refused. -/
theorem pathStacks_eq (hw : t.WellFormed) (phase : Phase) : t.pathStacks phase
    = .ok (if t.unsatisfiable then [] else (t.ends phase).map (t.stack phase)) := by
  have hends : ∀ c ∈ t.ends phase, ∃ n, t.nodes[c]? = some n ∧ t.pathTo c = .ok (t.path c) := by
    intro c hc
    obtain ⟨n, hn⟩ := node_of_live (live_of_mem_ends hc)
    exact ⟨n, hn, pathTo_eq hw.parentLt (lt_size_of_node hn)⟩
  cases hu : t.unsatisfiable with
  | true => simp [pathStacks, hu]
  | false =>
    rw [pathStacks, if_neg (by rw [hu]; exact Bool.false_ne_true), if_neg Bool.false_ne_true]
    cases phase <;>
      (refine mapM_ok fun c hc => ?_
       obtain ⟨n, hn, hpath⟩ := hends c hc)
    · rw [hpath]
      rfl
    · rw [findBranchesBelow_eq hw hn, hpath]
      rfl
    · rw [hpath]
      rfl

end QueryTree

/-! ## 2. What rows say of the nodes they match -/

/-- A node that lets a row through has no filter that lets nothing through. -/
theorem QueryNode.Admits.not_isBlocked (ha : n.Admits g truth v) : n.isBlocked = false := by
  rw [isBlocked, Bool.or_eq_false_iff, List.any_eq_false, List.any_eq_false]
  constructor
  · intro p hp hempty
    exact Predicate.not_holdsAt_of_isEmptyMembership p hempty (ha.ids p hp)
  · intro f hf hempty
    exact Predicate.not_holds_of_isEmptyMembership f.predicate _ hempty (ha.filters f hf)

namespace QueryTree

theorem Matches.exists_admits (hm : t.Matches g truth u ids w) (hn : t.nodes[a]? = some n)
    (ha : a ∈ ids) : ∃ v, n.Admits g truth v := by
  induction hm with
  | nil => cases ha
  | cons hc hadmits _ _ ih =>
    rcases List.mem_cons.mp ha with rfl | ha
    · rw [hn] at hc
      cases hc
      exact ⟨_, hadmits⟩
    · exact ih ha

theorem Answers.exists_admits (h : t.Answers g truth ids w) (hn : t.nodes[a]? = some n)
    (ha : a ∈ ids) : ∃ v, n.Admits g truth v := by
  cases ids with
  | nil => cases ha
  | cons r ids =>
    cases w with
    | nil => exact h.elim
    | cons v w =>
      obtain ⟨⟨n', hn', hadmits⟩, _, hm⟩ := h
      rcases List.mem_cons.mp ha with rfl | ha
      · rw [hn] at hn'
        cases hn'
        exact ⟨v, hadmits⟩
      · exact hm.exists_admits hn ha

/-- Cutting changes neither what a node lets through nor its join. -/
theorem admits_cut_iff {keep : Nat → Prop} :
    (n.cut keep c).Admits g truth v ↔ n.Admits g truth v := by
  obtain ⟨r, cs, hcut⟩ := n.cut_eq keep c
  rw [hcut]
  constructor
  · intro ha
    exact ⟨ha.table, ha.direction, ha.row, ha.filters, ha.ids⟩
  · intro ha
    exact ⟨ha.table, ha.direction, ha.row, ha.filters, ha.ids⟩

theorem joins_cut_iff {keep : Nat → Prop} : (n.cut keep c).Joins u v ↔ n.Joins u v := by
  obtain ⟨r, cs, hcut⟩ := n.cut_eq keep c
  rw [hcut]
  exact Iff.rfl

theorem CutTo.matches_iff {t' : QueryTree} {keep : Nat → Prop} (h : t.CutTo t' keep) :
    t'.Matches g truth u ids w ↔ t.Matches g truth u ids w := by
  constructor
  · intro hm
    refine hm.mono fun {i n'} hn' => ?_
    rw [h.nodes, Option.map_eq_some_iff] at hn'
    obtain ⟨n, hn, rfl⟩ := hn'
    exact ⟨n, hn, fun v => admits_cut_iff.mp, fun u v => joins_cut_iff.mp⟩
  · intro hm
    exact hm.mono fun {i n} hn =>
      ⟨_, h.node hn, fun v => admits_cut_iff.mpr, fun u v => joins_cut_iff.mpr⟩

theorem CutTo.answers_iff {t' : QueryTree} {keep : Nat → Prop} (h : t.CutTo t' keep) :
    t'.Answers g truth ids w ↔ t.Answers g truth ids w := by
  cases ids with
  | nil => exact Iff.rfl
  | cons r ids =>
    cases w with
    | nil => exact Iff.rfl
    | cons v w =>
      simp only [Answers, h.matches_iff, h.binding, h.nodes, Option.map_eq_some_iff]
      refine and_congr_left fun _ => ?_
      constructor
      · rintro ⟨_, ⟨n, hn, rfl⟩, ha⟩
        exact ⟨n, hn, admits_cut_iff.mp ha⟩
      · rintro ⟨n, hn, ha⟩
        exact ⟨_, ⟨n, hn, rfl⟩, admits_cut_iff.mpr ha⟩

end QueryTree

/-! ## 3. The root -/

namespace Run

variable {settings : Settings} {hop : Hop} {rest : List Hop} {table : Table}
  {binding : RootBinding}

theorem rootIds_iff {is : List Int64} (h : rootIds? settings hop table = some is) {id : Int64} :
    (∀ p ∈ hop.idPredicates, p.HoldsOf truth table id) ↔ id ∈ is := by
  unfold rootIds? at h
  split at h
  · rename_i p hp
    simp only [Option.bind_eq_bind, Option.bind_eq_some_iff] at h
    obtain ⟨is', his, h⟩ := h
    split at h
    · cases h
      rw [hp, List.forall_mem_singleton, Predicate.boundIds_iff his]
    · cases h
  · cases h

/-- What a binding says itself and what it leaves to the root's node is what the hop's filters on
the id say. -/
theorem binding_iff (hb : rootBinding? settings hop table = some binding) {id : Int64} :
    ((∀ p ∈ (if keepsIds binding then
        hop.idPredicates.filterMap (Predicate.resolveIds? table) else []), p.HoldsAt truth id) ∧
      binding.Admits id) ↔ ∀ p ∈ hop.idPredicates, p.HoldsOf truth table id := by
  have hkept : keepsIds binding = true → (binding.Admits id ↔ True) → (((∀ p ∈ (if keepsIds binding
      then hop.idPredicates.filterMap (Predicate.resolveIds? table) else []),
        p.HoldsAt truth id) ∧ binding.Admits id) ↔
      ∀ p ∈ hop.idPredicates, p.HoldsOf truth table id) := by
    intro hkeeps hadmits
    rw [hkeeps, if_pos rfl, hadmits, and_true, Predicate.resolveIds_iff]
  unfold rootBinding? at hb
  split at hb
  · cases hb
    exact hkept rfl Iff.rfl
  · split at hb
    · cases hb
    · rename_i is _ hids
      cases hb
      rw [rootIds_iff hids]
      simp [keepsIds, RootBinding.Admits]
    · cases hb
      exact hkept rfl Iff.rfl

/-- A table with a row that passes the root's filters on the id is bound to something. -/
theorem exists_binding (settings : Settings) {id : Int64}
    (h : ∀ p ∈ hop.idPredicates, p.HoldsOf truth table id) :
    ∃ binding, rootBinding? settings hop table = some binding := by
  unfold rootBinding?
  split
  · exact ⟨_, rfl⟩
  · split
    · rename_i hids
      exact absurd ((rootIds_iff hids).mp h) List.not_mem_nil
    · exact ⟨_, rfl⟩
    · exact ⟨_, rfl⟩

theorem mem_rootTables_iff (hc : T.Consistent) : table ∈ hop.rootTables T ↔
    table.kind = hop.kind.target ∧ (∃ ps, T.properties? table = some ps) ∧
      hop.matchesTable T table = true := by
  rw [Hop.rootTables, List.mem_filter, Topology.mem_tables_iff hc, and_assoc]

/-- **The root lets through the rows that the root hop starts from.** -/
theorem Planted.root_iff (hc : T.Consistent) (hp : Planted T hop rest table binding t)
    (hb : rootBinding? settings hop table = some binding) (htable : table ∈ hop.rootTables T) :
    ((∃ n, t.nodes[root]? = some n ∧ n.Admits g truth v) ∧ t.binding.Admits v.row.id) ↔
      v.table = table ∧ hop.Starts g truth v := by
  obtain ⟨hkind, ⟨ps, hps⟩, hfits⟩ := (mem_rootTables_iff hc).mp htable
  obtain ⟨n, hn, hcore⟩ := hp.rootNode
  have hnt : n.table = table := (congrArg QueryNode.table hcore :)
  have hnd : n.direction = none := (congrArg QueryNode.direction hcore :)
  have hnf : n.filters = (hop.filtersFor? T table).getD [] := (congrArg QueryNode.filters hcore :)
  have hni : n.idPredicates = if keepsIds binding then
      hop.idPredicates.filterMap (Predicate.resolveIds? table) else [] :=
    (congrArg QueryNode.idPredicates hcore :)
  rw [hp.bound]
  constructor
  · rintro ⟨⟨n', hn', ha⟩, hadmits⟩
    rw [hn] at hn'
    cases hn'
    have hv : v.table = table := ha.table.trans hnt
    subst hv
    refine ⟨rfl, ha.row, hkind, ha.direction.trans hnd, (Hop.passes_iff hps hfits).mpr ⟨?_, ?_⟩⟩
    · rw [← hnf]
      exact ha.filters
    · rw [Predicate.resolveIds_iff, ← binding_iff hb, ← hni]
      exact ⟨ha.ids, hadmits⟩
  · rintro ⟨rfl, hs⟩
    obtain ⟨hfilters, _⟩ := (Hop.passes_iff hps hfits).mp hs.passes
    obtain ⟨hids, hadmits⟩ := (binding_iff hb).mpr hs.passes.id
    refine ⟨⟨n, hn, hnt.symm, hs.direction.trans hnd.symm, hs.row, ?_, ?_⟩, hadmits⟩
    · rw [hnf]
      exact hfilters
    · rw [hni]
      exact hids

/-! ## 4. Walks in one tree -/

section Tree

variable (hc : T.Consistent)
  (hdepths : ∀ {k : Nat} {h : Hop}, rest[k]? = some h → h.depth = k + 1)
  (hp : Planted T hop rest table binding t)
include hc hdepths hp

omit hc hdepths in
theorem Planted.path_eq (hm : t.nodes[c]? = some m) :
    ∃ ids, t.Descends root ids c ∧ t.path c = root :: ids := by
  have hw := hp.grown.full.wellFormed
  have hlive : t.Live c := ⟨m, hm, hp.grown.full.live hm⟩
  obtain ⟨ids, hd⟩ := hw.descends (hw.root_above hlive) hlive
  exact ⟨ids, hd, by rw [hd.path_eq hw, hw.path_root]; rfl⟩

omit hc hdepths in
theorem Planted.root_facts (hn : t.nodes[root]? = some n) :
    n.intermediate = false ∧ n.depth = 0 ∧ n.table = table ∧ n.emit = hop.emit := by
  obtain ⟨n', hn', hcore⟩ := hp.rootNode
  rw [hn] at hn'
  cases hn'
  exact ⟨(congrArg QueryNode.intermediate hcore :), (congrArg QueryNode.depth hcore :),
    (congrArg QueryNode.table hcore :), (congrArg QueryNode.emit hcore :)⟩

/-- Rows that match the path to a node at which a hop ends are a walk along the hops so far. -/
theorem Planted.isWalk_of_answers (hb : rootBinding? settings hop table = some binding)
    (htable : table ∈ hop.rootTables T) (hm : t.nodes[c]? = some m) (hi : m.intermediate = false)
    (ha : t.Answers g truth (t.path c) w) :
    IsWalk g truth ((hop :: rest).take (m.depth + 1)) w ∧
      w.head?.map Visit.table = some table := by
  obtain ⟨ids, hd, hpath⟩ := hp.path_eq hm
  rw [hpath] at ha
  cases w with
  | nil => exact ha.elim
  | cons v w =>
    obtain ⟨hroot, hadmits, hmatch⟩ := ha
    obtain ⟨hv, hs⟩ := (hp.root_iff hc hb htable).mp ⟨hroot, hadmits⟩
    obtain ⟨n, hn, _⟩ := hroot
    obtain ⟨hni, hnd, hnt, _⟩ := hp.root_facts hn
    obtain ⟨hs', x, hprefix, hmd, hf⟩ := hp.grown.follows_of_matches hc hdepths (Nat.le_refl _) hd
      hmatch hn hni (hv.trans hnt.symm) hm hi
    rw [hnd, List.drop_zero] at hprefix
    rw [hnd, Nat.zero_add] at hmd
    refine ⟨?_, congrArg some hv⟩
    rw [List.take_succ_cons, hmd, ← List.prefix_iff_eq_take.mp hprefix]
    exact ⟨hs, x, hf⟩

/-- A walk along the first hops matches the path to a node at which the last of them ends. -/
theorem Planted.answers_of_isWalk (hb : rootBinding? settings hop table = some binding)
    (htable : table ∈ hop.rootTables T) {d : Nat} (hd : d ≤ rest.length)
    (hw : IsWalk g truth ((hop :: rest).take (d + 1)) w)
    (hhead : w.head?.map Visit.table = some table) :
    ∃ c m, t.nodes[c]? = some m ∧ m.intermediate = false ∧ m.depth = d ∧
      t.Answers g truth (t.path c) w := by
  cases w with
  | nil => cases hhead
  | cons v w =>
    rw [List.take_succ_cons] at hw
    obtain ⟨hs, x, hf⟩ := hw
    have hv : v.table = table := Option.some.inj hhead
    obtain ⟨⟨n, hn, ha⟩, hadmits⟩ := (hp.root_iff hc hb htable).mpr ⟨hv, hs⟩
    obtain ⟨hni, hnd, hnt, _⟩ := hp.root_facts hn
    have hprefix : rest.take d <+: rest.drop n.depth := by
      rw [hnd, List.drop_zero]
      exact List.take_prefix d rest
    obtain ⟨ids, c, m, hdesc, hmatch, hm, hmi, hmd⟩ := hp.grown.descends_of_follows hc hdepths hf
      hn hni (hv.trans hnt.symm) hs.row hprefix
    refine ⟨c, m, hm, hmi, ?_, ?_⟩
    · rw [hmd, hnd, List.length_take, Nat.zero_add, Nat.min_eq_left hd]
    · have hwf := hp.grown.full.wellFormed
      rw [hdesc.path_eq hwf, hwf.path_root]
      exact ⟨⟨n, hn, ha⟩, hadmits, hmatch⟩

omit hdepths in
/-- The rows tell which node they end at. -/
theorem Planted.answers_unique {m' : QueryNode} (hm : t.nodes[c]? = some m)
    (hm' : t.nodes[c']? = some m') (ha : t.Answers g truth (t.path c) w)
    (ha' : t.Answers g truth (t.path c') w) : c = c' := by
  obtain ⟨ids, hd, hpath⟩ := hp.path_eq hm
  obtain ⟨ids', hd', hpath'⟩ := hp.path_eq hm'
  rw [hpath] at ha
  rw [hpath'] at ha'
  cases w with
  | nil => exact ha.elim
  | cons v w =>
    obtain rfl := (hp.branches hc).unique hd hd' ha.2.2 ha'.2.2
    exact hd.end_eq hd'

/-! ## 5. After pruning -/

/-- The flags of a node at which a hop ends: it is emitted if the hop is, and begins an optional
part if the next hop does. -/
theorem Planted.flags (hm : t.nodes[c]? = some m) (hi : m.intermediate = false) :
    m.depth ≤ rest.length ∧ (m.depth = rest.length → m.children = []) ∧
      (m.leftJoin = true ↔ ∃ h, rest[m.depth]? = some h ∧ h.leftJoin = true) ∧
      ∃ h, (hop :: rest)[m.depth]? = some h ∧ m.emit = h.emit := by
  have hemit : ∃ h, (hop :: rest)[m.depth]? = some h ∧ m.emit = h.emit := by
    by_cases hroot : c = root
    · subst hroot
      obtain ⟨_, hd, _, hemit⟩ := hp.root_facts hm
      exact ⟨hop, by rw [hd]; rfl, hemit⟩
    · obtain ⟨k, h, hh, hd, ⟨_, hemit⟩ | ⟨hi', _⟩⟩ := hp.node_cases hc hdepths hm hroot
      · exact ⟨h, by rw [hd]; exact hh, hemit⟩
      · exact absurd (hi.symm.trans hi') Bool.false_ne_true
  rcases hp.grown.stop hm hi with ⟨hfull, hnil, hleft⟩ | ⟨h, hh, n, _, hn, _, hleft, _⟩
  · refine ⟨Nat.le_of_eq hfull, fun _ => hnil, ?_, hemit⟩
    rw [hleft, hfull, List.getElem?_eq_none (Nat.le_refl _)]
    simp
  · rw [hm] at hn
    cases hn
    have hlt : m.depth < rest.length := (List.getElem?_eq_some_iff.mp hh).1
    refine ⟨Nat.le_of_lt hlt, fun heq => absurd heq (Nat.ne_of_lt hlt), ?_, hemit⟩
    rw [hleft, hh]
    simp

/-- The depths at which the statements of a phase end: that of the last hop, those of the hops
before an optional part, and those of emitted hops that are neither. -/
def EndsAt (hops : List Hop) (d : Nat) : Phase → Prop
  | .regular => d + 1 = hops.length
  | .optional => ∃ h, hops[d + 1]? = some h ∧ h.leftJoin = true
  | .emit => d + 1 < hops.length ∧ (∃ h, hops[d]? = some h ∧ h.emit = true) ∧
    ∀ h, hops[d + 1]? = some h → h.leftJoin = false

omit hc hdepths hp in
theorem EndsAt.le {phase : Phase} {d : Nat} (h : EndsAt (hop :: rest) d phase) :
    d ≤ rest.length := by
  cases phase with
  | regular => exact Nat.le_of_eq (Nat.succ.inj h)
  | optional =>
    obtain ⟨h', hh, _⟩ := h
    have := (List.getElem?_eq_some_iff.mp hh).1
    simp only [List.length_cons] at this
    omega
  | emit => exact Nat.le_of_lt (Nat.lt_of_succ_lt_succ h.1)

omit hc hdepths in
theorem Planted.path_prune (c : Nat) : t.prune.path c = t.path c := by
  have hw := hp.grown.full.wellFormed
  obtain ⟨hcut, _⟩ := prune_cut hw
  exact (path_congr (fun i => (hcut.parent? i).symm) hw.parentLt c).symm

omit hc hdepths in
/-- A node that pruning keeps loses children only. -/
theorem Planted.kept_node (hm : t.nodes[c]? = some m) (hu : t.Useful c) :
    ∃ cs, t.prune.nodes[c]? = some { m with children := cs } ∧ cs ⊆ m.children := by
  obtain ⟨hcut, _⟩ := prune_cut hp.grown.full.wellFormed
  refine ⟨_, by rw [hcut.node hm, QueryNode.cut, if_pos hu], ?_⟩
  exact List.filter_subset_self _

omit hc hdepths in
theorem Planted.live_node {n' : QueryNode} (hn' : t.prune.nodes[c]? = some n')
    (hlive : n'.removed = false) :
    ∃ m cs, t.nodes[c]? = some m ∧ t.Useful c ∧ n' = { m with children := cs } := by
  obtain ⟨hcut, _⟩ := prune_cut hp.grown.full.wellFormed
  obtain ⟨m, hm, hu, rfl⟩ := hcut.live_node hn' hlive
  exact ⟨m, _, hm, hu, by rw [QueryNode.cut, if_pos hu]⟩

theorem Planted.mem_regularLeaves_iff : c ∈ t.prune.regularLeaves ↔ t.Useful c ∧
    ∃ m, t.nodes[c]? = some m ∧ m.intermediate = false ∧ m.depth = rest.length := by
  obtain ⟨hcut, _, hbarren, _⟩ := prune_cut hp.grown.full.wellFormed
  have hfull : t.prune.fullDepth = rest.length := hcut.fullDepth.trans hp.fullDepth
  simp only [regularLeaves, mem_liveWhere, Bool.and_eq_true, List.isEmpty_iff, beq_iff_eq, hfull,
    Bool.not_eq_true']
  constructor
  · rintro ⟨n', hn', hlive, ⟨hnil, hd⟩, _⟩
    obtain ⟨m, cs, hm, hu, rfl⟩ := hp.live_node hn' hlive
    refine ⟨hu, m, hm, ?_, hd⟩
    -- pruning left no childless edge table that is only crossed
    cases hi : m.intermediate with
    | false => rfl
    | true =>
      have hroot : c ≠ root := by
        rintro rfl
        exact absurd ((hp.root_facts hm).1.symm.trans hi) Bool.false_ne_true
      have hleaf : c ∈ t.prune.barrenLeaves := by
        refine mem_barrenLeaves.mpr ⟨hroot, _, hn', hlive, hnil, ?_⟩
        simp only [isBarren, hi, Bool.true_or]
      rw [hbarren] at hleaf
      cases hleaf
  · rintro ⟨hu, m, hm, hi, hd⟩
    obtain ⟨cs, hn', hcs⟩ := hp.kept_node hm hu
    obtain ⟨_, hnil, hleft, _⟩ := hp.flags hc hdepths hm hi
    refine ⟨_, hn', (hp.grown.full.live hm :), ⟨?_, hd⟩, ?_⟩
    · rw [hnil hd] at hcs
      exact List.subset_nil.mp hcs
    · rw [← Bool.not_eq_true, hleft, hd, List.getElem?_eq_none (Nat.le_refl _)]
      rintro ⟨_, ⟨⟩, _⟩

/-- **Where the statements of a phase end.** -/
theorem Planted.mem_ends_iff (phase : Phase) : c ∈ t.prune.ends phase ↔ t.Useful c ∧
    ∃ m, t.nodes[c]? = some m ∧ m.intermediate = false ∧
      EndsAt (hop :: rest) m.depth phase := by
  have hregular := hp.mem_regularLeaves_iff (c := c) hc hdepths
  -- what is only crossed has neither flag
  have hstop : ∀ {m : QueryNode}, t.nodes[c]? = some m → m.emit = true ∨ m.leftJoin = true →
      m.intermediate = false := by
    intro m hm hflag
    by_cases hroot : c = root
    · subst hroot
      exact (hp.root_facts hm).1
    · obtain ⟨k, h, _, _, ⟨hi, _⟩ | ⟨_, hemit, hleft⟩⟩ := hp.node_cases hc hdepths hm hroot
      · exact hi
      · rw [hemit, hleft] at hflag
        exact absurd hflag (by decide)
  cases phase with
  | regular =>
    rw [ends, hregular]
    simp only [EndsAt, List.length_cons, Nat.add_right_cancel_iff]
  | optional =>
    simp only [ends, frontiers, mem_liveWhere]
    constructor
    · rintro ⟨n', hn', hlive, hleft⟩
      obtain ⟨m, cs, hm, hu, rfl⟩ := hp.live_node hn' hlive
      have hi := hstop hm (Or.inr hleft)
      exact ⟨hu, m, hm, hi, (hp.flags hc hdepths hm hi).2.2.1.mp hleft⟩
    · rintro ⟨hu, m, hm, hi, hend⟩
      obtain ⟨cs, hn', _⟩ := hp.kept_node hm hu
      exact ⟨_, hn', (hp.grown.full.live hm :), (hp.flags hc hdepths hm hi).2.2.1.mpr hend⟩
  | emit =>
    simp only [ends, emitted, mem_liveWhere, Bool.and_eq_true, Bool.not_eq_true',
      List.contains_eq_mem, decide_eq_false_iff_not, hregular]
    constructor
    · rintro ⟨n', hn', hlive, ⟨hemit, hleft⟩, hnot⟩
      obtain ⟨m, cs, hm, hu, rfl⟩ := hp.live_node hn' hlive
      have hi := hstop hm (Or.inl hemit)
      obtain ⟨hle, _, hleft', h, hh, hhe⟩ := hp.flags hc hdepths hm hi
      refine ⟨hu, m, hm, hi, ?_, ⟨h, hh, hhe.symm.trans hemit⟩, ?_⟩
      · have hne : m.depth ≠ rest.length := fun hd => hnot ⟨hu, m, hm, hi, hd⟩
        rw [List.length_cons]
        omega
      · intro h' hh'
        rw [← Bool.not_eq_true]
        intro hl
        exact absurd (hleft'.mpr ⟨h', hh', hl⟩) (by rw [hleft]; exact Bool.false_ne_true)
    · rintro ⟨hu, m, hm, hi, hlt, ⟨h, hh, hemit⟩, hleft⟩
      obtain ⟨cs, hn', _⟩ := hp.kept_node hm hu
      obtain ⟨_, _, hleft', h', hh', hhe⟩ := hp.flags hc hdepths hm hi
      rw [hh] at hh'
      cases hh'
      refine ⟨_, hn', (hp.grown.full.live hm :), ⟨hhe.trans hemit, ?_⟩, ?_⟩
      · rw [← Bool.not_eq_true, hleft']
        rintro ⟨h', hh', hl⟩
        exact absurd (hl.symm.trans (hleft h' hh')) (by decide)
      · rintro ⟨_, m', hm', _, hd⟩
        rw [hm] at hm'
        cases hm'
        rw [List.length_cons, hd] at hlt
        exact absurd hlt (Nat.lt_irrefl _)

/-- Where a statement of the phase ends, a result can end. -/
theorem Planted.endsResult {phase : Phase} (hm : t.nodes[c]? = some m)
    (hi : m.intermediate = false) (hend : EndsAt (hop :: rest) m.depth phase) :
    t.EndsResult c := by
  refine ⟨m, hm, ?_⟩
  obtain ⟨_, _, hleft, h, hh, hhe⟩ := hp.flags hc hdepths hm hi
  simp only [isBarren, hi, Bool.false_or, hp.fullDepth]
  cases phase with
  | regular =>
    obtain hd : m.depth = rest.length := Nat.succ.inj hend
    simp [hd]
  | optional =>
    rw [hleft.mpr hend]
    simp
  | emit =>
    obtain ⟨_, ⟨h', hh', hemit⟩, _⟩ := hend
    rw [hh] at hh'
    cases hh'
    rw [hhe, hemit]
    simp

/-- **Pruning spares what has rows.** -/
theorem Planted.useful_of_answers {phase : Phase} (hm : t.nodes[c]? = some m)
    (hi : m.intermediate = false) (hend : EndsAt (hop :: rest) m.depth phase)
    (ha : t.Answers g truth (t.path c) w) :
    t.Useful c ∧ t.prune.unsatisfiable = false := by
  have hw := hp.grown.full.wellFormed
  have hlive : t.Live c := ⟨m, hm, hp.grown.full.live hm⟩
  have hopen : ∀ {b : Nat} {n : QueryNode}, t.Above b c → t.nodes[b]? = some n →
      n.isBlocked = false := by
    intro b n hb hn
    obtain ⟨v, hadmits⟩ := ha.exists_admits hn ((mem_path_iff hw.parentLt).mpr hb)
    exact hadmits.not_isBlocked
  have hclear : t.Clear c := fun hb _ hn => hopen hb hn
  refine ⟨⟨hclear, Or.inr ⟨c, .refl c, hlive, hclear, hp.endsResult hc hdepths hm hi hend⟩⟩, ?_⟩
  obtain ⟨_, _, _, hunsat⟩ := prune_cut hw
  obtain ⟨r, hr, _⟩ := hp.rootNode
  rw [hunsat, hp.satisfiable, hr, Option.any_some, hopen (hw.root_above hlive) hr, Bool.or_false]

/-- **The walks of one tree.** -/
theorem Planted.answered_iff (hb : rootBinding? settings hop table = some binding)
    (htable : table ∈ hop.rootTables T) (phase : Phase) :
    (t.prune.unsatisfiable = false ∧
      ∃ c ∈ t.prune.ends phase, t.prune.Answers g truth (t.prune.path c) w) ↔
    ((∃ d, EndsAt (hop :: rest) d phase ∧ IsWalk g truth ((hop :: rest).take (d + 1)) w) ∧
      w.head?.map Visit.table = some table) := by
  obtain ⟨hcut, _⟩ := prune_cut hp.grown.full.wellFormed
  simp only [hp.path_prune, hcut.answers_iff, hp.mem_ends_iff hc hdepths phase]
  constructor
  · rintro ⟨_, c, ⟨_, m, hm, hi, hend⟩, ha⟩
    obtain ⟨hw, hhead⟩ := hp.isWalk_of_answers hc hdepths hb htable hm hi ha
    exact ⟨⟨m.depth, hend, hw⟩, hhead⟩
  · rintro ⟨⟨d, hend, hw⟩, hhead⟩
    obtain ⟨c, m, hm, hi, rfl, ha⟩ :=
      hp.answers_of_isWalk hc hdepths hb htable hend.le hw hhead
    obtain ⟨hu, hunsat⟩ := hp.useful_of_answers hc hdepths hm hi hend ha
    exact ⟨hunsat, c, ⟨hu, m, hm, hi, hend⟩, ha⟩

omit hdepths in
theorem Planted.answered_unique {phase : Phase} (hmem : c ∈ t.prune.ends phase)
    (hmem' : c' ∈ t.prune.ends phase) (ha : t.prune.Answers g truth (t.prune.path c) w)
    (ha' : t.prune.Answers g truth (t.prune.path c') w) : c = c' := by
  obtain ⟨hcut, _⟩ := prune_cut hp.grown.full.wellFormed
  rw [hp.path_prune, hcut.answers_iff] at ha ha'
  obtain ⟨m, hm⟩ := node_of_live (hcut.live_iff.mp (live_of_mem_ends hmem)).1
  obtain ⟨m', hm'⟩ := node_of_live (hcut.live_iff.mp (live_of_mem_ends hmem')).1
  exact hp.answers_unique hc hm hm' ha ha'

end Tree

/-! ## 6. All trees of a run -/

/-- The root tables of a run with what they are bound to. -/
def candidates (settings : Settings) (T : Topology) (hop : Hop) : List (Table × RootBinding) :=
  (hop.rootTables T).filterMap fun table =>
    (rootBinding? settings hop table).map fun binding => (table, binding)

theorem mem_candidates_iff : (table, binding) ∈ candidates settings T hop ↔
    table ∈ hop.rootTables T ∧ rootBinding? settings hop table = some binding := by
  simp only [candidates, List.mem_filterMap, Option.map_eq_some_iff, Prod.mk.injEq]
  constructor
  · rintro ⟨_, htable, _, hb, rfl, rfl⟩
    exact ⟨htable, hb⟩
  · rintro ⟨htable, hb⟩
    exact ⟨table, htable, binding, hb, rfl, rfl⟩

theorem nodup_candidates (hc : T.Consistent) (settings : Settings) (hop : Hop) :
    ((candidates settings T hop).map Prod.fst).Nodup := by
  have hroot : (hop.rootTables T).Nodup := (hc.nodup_tables hop.kind.target).filter _
  rw [candidates, List.map_filterMap]
  refine hroot.filterMap ?_
  intro a a' b hb hb'
  simp only [Option.map_map, Option.mem_def, Option.map_eq_some_iff, Function.comp_apply] at hb hb'
  obtain ⟨_, _, rfl⟩ := hb
  obtain ⟨_, _, rfl⟩ := hb'
  rfl

/-- A run as fusion makes it: a root hop first, and every hop at its place. -/
structure Placed (run : Run) (hop : Hop) (rest : List Hop) : Prop where
  hops : run.hops = hop :: rest
  isRoot : hop.kind.isRoot = true
  depths : ∀ {i : Nat} {h : Hop}, run.hops[i]? = some h → h.depth = i

/-- The rows satisfy the joins and filters of a stack of the phase: of the `j`-th of the `i`-th
tree. -/
def AnsweredAt (g : StoredGraph T) (truth : Truth) (trees : List QueryTree) (phase : Phase)
    (w : List Visit) (i j : Nat) : Prop :=
  ∃ t all s, trees[i]? = some t ∧ t.pathStacks phase = .ok all ∧ all[j]? = some s ∧
    t.Answers g truth s.nodes w

theorem answeredAt_iff_ends {trees : List QueryTree} (hw : ∀ t ∈ trees, t.WellFormed)
    {phase : Phase} {i j : Nat} :
    AnsweredAt g truth trees phase w i j ↔
      ∃ t, trees[i]? = some t ∧ t.unsatisfiable = false ∧
        ∃ c, (t.ends phase)[j]? = some c ∧ t.Answers g truth (t.path c) w := by
  constructor
  · rintro ⟨t, all, s, ht, hall, hs, ha⟩
    rw [pathStacks_ok hall] at hs
    cases hunsat : t.unsatisfiable with
    | true =>
      rw [hunsat] at hs
      cases hs
    | false =>
      rw [hunsat, if_neg Bool.false_ne_true, List.getElem?_map, Option.map_eq_some_iff] at hs
      obtain ⟨c, hc, rfl⟩ := hs
      exact ⟨t, ht, hunsat, c, hc, ha⟩
  · rintro ⟨t, ht, hunsat, c, hc, ha⟩
    refine ⟨t, _, t.stack phase c, ht, pathStacks_eq (hw t (List.mem_of_getElem? ht)) phase, ?_, ha⟩
    rw [hunsat, if_neg Bool.false_ne_true, List.getElem?_map, hc]
    rfl

/-- The trees of a run whose hops are at their places are grown and pruned. -/
theorem trees_planted (hc : T.Consistent) {run : Run} {trees : List QueryTree}
    (hhops : run.hops = hop :: rest)
    (hdepths : ∀ {i : Nat} {h : Hop}, run.hops[i]? = some h → h.depth = i)
    (htrees : run.trees settings T = .ok trees) :
    List.Forall₂ (fun candidate t' => ∃ t, t' = t.prune ∧
      Planted T hop rest candidate.1 candidate.2 t) (candidates settings T hop) trees := by
  rw [hhops] at hdepths
  rw [Run.trees, hhops] at htrees
  have hall := forall₂_of_mapM htrees
  refine (List.forall₂_iff_zip.mpr ⟨hall.length_eq, fun {candidate t'} hmem => ?_⟩)
  have hok : tree T hop rest candidate.1 candidate.2 = .ok t' := List.forall₂_zip hall hmem
  have hcand : (candidate.1, candidate.2) ∈ candidates settings T hop := (List.of_mem_zip hmem).1
  obtain ⟨hkind, hknown, _⟩ := (mem_rootTables_iff hc).mp (mem_candidates_iff.mp hcand).1
  rcases tree_spec hc (hdepths rfl) (fun hk => hdepths hk) hkind hknown with
    ⟨t, htree, hp⟩ | ⟨e, _, _, _, _, htree, _⟩
  · rw [htree] at hok
    cases hok
    exact ⟨t, rfl, hp⟩
  · rw [htree] at hok
    cases hok

section Trees

variable {run : Run} {trees : List QueryTree} (hc : T.Consistent) (hr : run.Placed hop rest)
include hc hr

omit hc in
theorem Placed.trees_eq (settings : Settings) : run.trees settings T
    = (candidates settings T hop).mapM fun (table, binding) => tree T hop rest table binding := by
  rw [trees, hr.hops]
  rfl

omit hc in
theorem Placed.rest_depths {k : Nat} {h : Hop} (hk : rest[k]? = some h) : h.depth = k + 1 :=
  hr.depths (by rw [hr.hops]; exact hk)

omit hc in
theorem Placed.root_depth : hop.depth = 0 := hr.depths (by rw [hr.hops]; rfl)

/-- Root table by root table, the trees of a run are grown and pruned. -/
theorem Placed.planted (htrees : run.trees settings T = .ok trees) :
    List.Forall₂ (fun candidate t' => ∃ t, t' = t.prune ∧
      Planted T hop rest candidate.1 candidate.2 t) (candidates settings T hop) trees :=
  trees_planted hc hr.hops hr.depths htrees

theorem Placed.wellFormed (htrees : run.trees settings T = .ok trees) :
    ∀ t ∈ trees, t.WellFormed := by
  intro t' ht'
  obtain ⟨_, _, t, rfl, hp⟩ := exists_of_mem_right (hr.planted hc htrees) ht'
  exact (prune_cut hp.grown.full.wellFormed).2.1

/-- A run has no trees only if a hop has no arrivals from a table in which the hop before it can
end. -/
theorem Placed.trees_error {e : TreeError} (herror : run.trees settings T = .error e) :
    ∃ (k : Nat) (h prev : Hop) (source : Table), rest[k]? = some h ∧
      (hop :: rest)[k]? = some prev ∧ source.kind = prev.kind.target ∧
      (∃ ps, T.properties? source = some ps) ∧ h.arrivals T source = .error e := by
  rw [hr.trees_eq] at herror
  obtain ⟨⟨table, binding⟩, hcand, herror⟩ := mapM_error herror
  obtain ⟨hkind, hknown, _⟩ := (mem_rootTables_iff hc).mp (mem_candidates_iff.mp hcand).1
  rcases tree_spec hc hr.root_depth hr.rest_depths hkind hknown with
    ⟨t, htree, _⟩ | ⟨e', k, h, prev, source, htree, hfacts⟩
  · have herror : tree T hop rest table binding = .error e := herror
    rw [htree] at herror
    cases herror
  · have herror : tree T hop rest table binding = .error e := herror
    rw [htree] at herror
    cases herror
    exact ⟨k, h, prev, source, hfacts⟩

theorem Placed.answeredAt_iff (htrees : run.trees settings T = .ok trees) {phase : Phase}
    {i j : Nat} : AnsweredAt g truth trees phase w i j ↔
      ∃ table binding t c, (candidates settings T hop)[i]? = some (table, binding) ∧
        trees[i]? = some t.prune ∧ Planted T hop rest table binding t ∧
        t.prune.unsatisfiable = false ∧ (t.prune.ends phase)[j]? = some c ∧
        t.prune.Answers g truth (t.prune.path c) w := by
  have hw := hr.wellFormed hc htrees
  constructor
  · intro h
    obtain ⟨t', ht', hunsat, c, hc', ha⟩ := (answeredAt_iff_ends hw).mp h
    obtain ⟨⟨table, binding⟩, hcand, t, rfl, hp⟩ := getElem?_of_forall₂ (hr.planted hc htrees) ht'
    exact ⟨table, binding, t, c, hcand, ht', hp, hunsat, hc', ha⟩
  · rintro ⟨table, binding, t, c, _, ht', _, hunsat, hc', ha⟩
    exact (answeredAt_iff_ends hw).mpr ⟨t.prune, ht', hunsat, c, hc', ha⟩

/-- **The walks of a run.** The rows that satisfy the joins and filters of some stack of a phase
are the walks along the hops up to one that the phase ends at. -/
theorem Placed.answered_iff (htrees : run.trees settings T = .ok trees) (phase : Phase) :
    (∃ i j, AnsweredAt g truth trees phase w i j) ↔
      ∃ d, EndsAt run.hops d phase ∧ IsWalk g truth (run.hops.take (d + 1)) w := by
  rw [hr.hops]
  constructor
  · rintro ⟨i, j, hij⟩
    obtain ⟨table, binding, t, c, hcand, _, hp, hunsat, hc', ha⟩ :=
      (hr.answeredAt_iff hc htrees).mp hij
    obtain ⟨htable, hb⟩ := mem_candidates_iff.mp (List.mem_of_getElem? hcand)
    exact ((hp.answered_iff hc hr.rest_depths hb htable phase).mp
      ⟨hunsat, c, List.mem_of_getElem? hc', ha⟩).1
  · rintro ⟨d, hend, hw⟩
    obtain ⟨_, _, v, w', heq, rfl⟩ := hw.exists_cons
    rw [List.take_succ_cons] at heq hw
    cases heq
    obtain ⟨hs, hf⟩ := isWalk_cons.mp hw
    obtain ⟨ps, hps⟩ := g.ownTables hs.row
    have htable : v.table ∈ hop.rootTables T :=
      (mem_rootTables_iff hc).mpr ⟨hs.kind, ⟨ps, hps⟩, Hop.matchesTable_of_passes hps hs.passes⟩
    obtain ⟨binding, hb⟩ := exists_binding settings hs.passes.id
    obtain ⟨i, hi⟩ := List.getElem?_of_mem (mem_candidates_iff.mpr ⟨htable, hb⟩)
    obtain ⟨t', ht', t, rfl, hp⟩ := getElem?_of_forall₂ (hr.planted hc htrees).flip hi
    have hall : (∃ d, EndsAt (hop :: rest) d phase ∧
        IsWalk g truth ((hop :: rest).take (d + 1)) (v :: w')) ∧
        (v :: w').head?.map Visit.table = some v.table := ⟨⟨d, hend, hw⟩, rfl⟩
    obtain ⟨hunsat, c, hmem, ha⟩ := (hp.answered_iff hc hr.rest_depths hb htable phase).mpr hall
    obtain ⟨j, hj⟩ := List.getElem?_of_mem hmem
    exact ⟨i, j, (hr.answeredAt_iff hc htrees).mpr
      ⟨v.table, binding, t, c, hi, ht', hp, hunsat, hj, ha⟩⟩

/-- **No walk is returned twice.** -/
theorem Placed.answered_unique (htrees : run.trees settings T = .ok trees) {phase : Phase}
    {i j i' j' : Nat} (h : AnsweredAt g truth trees phase w i j)
    (h' : AnsweredAt g truth trees phase w i' j') : i = i' ∧ j = j' := by
  obtain ⟨table, binding, t, c, hcand, ht, hp, hunsat, hc₁, ha⟩ :=
    (hr.answeredAt_iff hc htrees).mp h
  obtain ⟨table', binding', t', c', hcand', ht', hp', hunsat', hc₂, ha'⟩ :=
    (hr.answeredAt_iff hc htrees).mp h'
  -- the first row tells the table, and with it the tree
  have hhead : ∀ {table binding t c}, (table, binding) ∈ candidates settings T hop →
      Planted T hop rest table binding t → t.prune.unsatisfiable = false →
      c ∈ t.prune.ends phase → t.prune.Answers g truth (t.prune.path c) w →
      w.head?.map Visit.table = some table := by
    intro table binding t c hmem hp hunsat hc' ha
    obtain ⟨htable, hb⟩ := mem_candidates_iff.mp hmem
    exact ((hp.answered_iff hc hr.rest_depths hb htable phase).mp ⟨hunsat, c, hc', ha⟩).2
  have h₁ := hhead (List.mem_of_getElem? hcand) hp hunsat (List.mem_of_getElem? hc₁) ha
  have h₂ := hhead (List.mem_of_getElem? hcand') hp' hunsat' (List.mem_of_getElem? hc₂) ha'
  obtain rfl : table = table' := Option.some.inj (h₁.symm.trans h₂)
  have hlt : i < ((candidates settings T hop).map Prod.fst).length := by
    rw [List.length_map]
    exact (List.getElem?_eq_some_iff.mp hcand).1
  obtain rfl : i = i' := by
    refine (List.getElem?_inj hlt (nodup_candidates hc settings hop)).mp ?_
    rw [List.getElem?_map, List.getElem?_map, hcand, hcand']
    rfl
  rw [ht] at ht'
  obtain heq : t.prune = t'.prune := Option.some.inj ht'
  rw [← heq] at hc₂ ha'
  obtain rfl := hp.answered_unique hc (List.mem_of_getElem? hc₁) (List.mem_of_getElem? hc₂) ha ha'
  have hlt : j < (t.prune.ends phase).length := (List.getElem?_eq_some_iff.mp hc₁).1
  exact ⟨rfl, (List.getElem?_inj hlt (t.prune.nodup_ends phase)).mp (hc₁.trans hc₂.symm)⟩

end Trees

end Run

end TraversalSql
