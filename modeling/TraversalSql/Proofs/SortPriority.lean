import TraversalSql.Proofs.Layers
import TraversalSql.Proofs.SortKeys
import TraversalSql.Proofs.SortSteps
import TraversalSql.Proofs.TerminalNames

/-!
# Which step sorts first

A statement gathers its sort keys node by node, from the end of its path to the root. The nodes at
which hops end come hop by hop along a path, and each has the keys of its hop. So between hops the
later step comes first in `ORDER BY`; but steps at one hop keep the order of the chain, and the
earlier one comes first. The later step comes first throughout exactly if at no hop of the path it
matters which of its steps does.
-/

set_option autoImplicit false

namespace TraversalSql

open QueryTree

/-! ## 1. Hops along a path -/

namespace QueryTree

/-- The nodes at which hops end. -/
def stops (t : QueryTree) (nodes : List Nat) : List Nat :=
  nodes.filter fun id => !(t.nodeAt id).intermediate

/-- Depths count the hops on every way down, and a node has the sort keys of the hop that ends
there. -/
structure Counts (t : QueryTree) (hops : List Hop) : Prop where
  top : (t.nodeAt root).depth = 0
  starts : (t.nodeAt root).intermediate = false
  below : ∀ {a b : Nat}, t.Live b → t.parent? b = some a → (t.nodeAt b).depth
    = if (t.nodeAt a).intermediate then (t.nodeAt a).depth else (t.nodeAt a).depth + 1
  order : ∀ {id : Nat}, t.Live id → (t.nodeAt id).order
    = if (t.nodeAt id).intermediate then [] else orderAt hops (t.nodeAt id).depth

section Paths

variable {t : QueryTree} {hops : List Hop} {nodes : List Nat}

theorem stops_cons (a : Nat) (nodes : List Nat) : t.stops (a :: nodes)
    = if (t.nodeAt a).intermediate then t.stops nodes else a :: t.stops nodes := by
  rw [stops, List.filter_cons]
  cases (t.nodeAt a).intermediate <;> rfl

/-- Below a node the hops come one after the other. -/
theorem Counts.depths_below (h : t.Counts hops) : ∀ {nodes : List Nat} {a : Nat},
    t.GoesDown (a :: nodes) → (t.stops nodes).map (fun id => (t.nodeAt id).depth)
      = List.range' (if (t.nodeAt a).intermediate then (t.nodeAt a).depth
          else (t.nodeAt a).depth + 1) (t.stops nodes).length := by
  intro nodes
  induction nodes with
  | nil => exact fun _ => rfl
  | cons b nodes ih =>
    intro a hd
    have hdepth := h.below (hd.live b (List.mem_cons_of_mem _ List.mem_cons_self))
      (hd.parent_head rfl)
    have hbelow := ih (hd.part (List.suffix_cons a _).isInfix)
    -- what is crossed is counted with the node behind it
    rw [← hdepth, stops_cons]
    cases hb : (t.nodeAt b).intermediate with
    | true =>
      rw [hb, if_pos rfl] at hbelow
      exact hbelow
    | false =>
      rw [hb, if_neg Bool.false_ne_true] at hbelow
      rw [if_neg Bool.false_ne_true, List.map_cons, hbelow, List.length_cons, List.range'_succ]

/-- Along a path from the root the `i`-th hop ends at the `i`-th node at which one ends. -/
theorem Counts.depths (h : t.Counts hops) (hd : t.GoesDown nodes)
    (htop : nodes.head? = some root) : (t.stops nodes).map (fun id => (t.nodeAt id).depth)
      = List.range (t.stops nodes).length := by
  obtain ⟨below, rfl⟩ := List.head?_eq_some_iff.mp htop
  have hbelow := h.depths_below hd
  rw [h.starts, if_neg Bool.false_ne_true, h.top] at hbelow
  rw [stops_cons, h.starts, if_neg Bool.false_ne_true, List.map_cons, hbelow, h.top,
    List.length_cons, List.range_eq_range', List.range'_succ]

end Paths

end QueryTree

namespace Run

variable {T : Topology} {settings : Settings} {hop : Hop} {rest : List Hop} {table : Table}
  {binding : RootBinding} {t : QueryTree} {c : Nat} {m : QueryNode}

/-- A node at which a hop ends has its sort keys, and one that is only crossed has none. -/
theorem Planted.order_eq (hc : T.Consistent) (hp : Planted T hop rest table binding t)
    (hdepths : ∀ {k : Nat} {h : Hop}, rest[k]? = some h → h.depth = k + 1)
    (hm : t.nodes[c]? = some m) :
    m.order = if m.intermediate then [] else orderAt (hop :: rest) m.depth := by
  cases hi : m.intermediate with
  | true =>
    rw [if_pos rfl]
    obtain ⟨p, n, h, hn, _, _, hex, hmem⟩ := hp.crossed hc hm hi
    -- the hop is put on the nodes behind it only
    rcases hex.child_cases hc hn hmem with ⟨nn, harr, hs⟩ | ⟨e, targets, cs, _, hce, _⟩
    · have hstop := (hs.dresses hm).intermediate.trans (harr.stops hc).intermediate
      exact absurd (hstop.symm.trans hi) Bool.false_ne_true
    · rw [hm] at hce
      cases hce
      rfl
  | false =>
    rw [if_neg Bool.false_ne_true]
    by_cases hroot : c = root
    · subst hroot
      obtain ⟨m', hm', hcore⟩ := hp.rootNode
      rw [hm] at hm'
      cases hm'
      have hdepth : m.depth = 0 := congrArg QueryNode.depth hcore
      rw [hdepth]
      exact congrArg QueryNode.order hcore
    · obtain ⟨k, h, q, nn, hh, hdepth, m', hm', hcore⟩ := hp.stop_cases hc hdepths hm hi hroot
      rw [hm] at hm'
      cases hm'
      rw [hdepth, orderAt, List.getElem?_cons_succ, hh]
      exact congrArg QueryNode.order hcore

theorem Planted.counts (hc : T.Consistent) (hp : Planted T hop rest table binding t)
    (hdepths : ∀ {k : Nat} {h : Hop}, rest[k]? = some h → h.depth = k + 1) :
    t.prune.Counts (hop :: rest) := by
  obtain ⟨-, hw, -⟩ := prune_cut hp.grown.full.wellFormed
  obtain ⟨n, cs, hn, hroot⟩ := hp.nodeAt_prune hw.rootLive
  constructor
  · obtain ⟨n', hn', hcore⟩ := hp.rootNode
    rw [hn] at hn'
    cases hn'
    rw [hroot]
    exact congrArg QueryNode.depth hcore
  · have hstop := hp.root_intermediate hn
    rw [hroot]
    exact hstop
  · intro a b hb hparent
    obtain ⟨n, cs, hn, hna⟩ := hp.nodeAt_prune (hw.live_parent hb hparent)
    obtain ⟨m, cs', hm, hmb⟩ := hp.nodeAt_prune hb
    have hdepth := hp.child_depth_eq hc hdepths hn (hp.child_of_prune hb hparent hn) hm
    rw [hna, hmb]
    exact hdepth
  · intro id hid
    obtain ⟨m, cs, hm, heq⟩ := hp.nodeAt_prune hid
    have horder := hp.order_eq hc hdepths hm
    rw [heq]
    exact horder

theorem trees_count (hc : T.Consistent) {run : Run}
    (hdepths : ∀ {i : Nat} {h : Hop}, run.hops[i]? = some h → h.depth = i) {trees : List QueryTree}
    (htrees : run.trees settings T = .ok trees) (ht : t ∈ trees) : t.Counts run.hops := by
  cases hhops : run.hops with
  | nil =>
    rw [Run.trees, hhops] at htrees
    cases htrees
    cases ht
  | cons hop rest =>
    obtain ⟨_, _, t₀, rfl, hp⟩ := exists_of_mem_right (trees_planted hc hhops hdepths htrees) ht
    refine hp.counts hc ?_
    intro k h hk
    exact hdepths (by rw [hhops]; exact hk)

end Run

/-! ## 2. What keys denote -/

namespace QueryTree

/-- A property of a node, where the topology has it for the node's table. -/
def propertyOf? (t : QueryTree) (T : Topology) (id : Nat) (name : String) : Option NodeColumn :=
  if (T.properties? (t.nodeAt id).table).any fun ps => ps.contains name then
    some (id, .property name)
  else none

/-- The column by which a key of a node sorts, on a path. -/
def sortedColumn? (t : QueryTree) (T : Topology) (nodes : List Nat) (id : Nat) :
    SortKey → Option NodeColumn
  | .id => some (id, .id)
  | .property name => t.propertyOf? T id name
  | .select label property =>
    (nodes.find? fun i => (t.nodeAt i).hasUserLabel label).bind fun target =>
      property.elim (some (target, .id)) (t.propertyOf? T target)
  | .aggregate _ | .lambda _ => none

/-- The sort keys of a path for such of a node. -/
def ordering (t : QueryTree) (T : Topology) (nodes : List Nat) (specs : List SortSpec) (id : Nat) :
    List (AliasKey × SortDirection) :=
  specs.filterMap fun spec => (t.sortedColumn? T nodes id spec.key).map fun x =>
    ((t.nodeAt x.1).fragmentKey.column x.2, spec.direction)

/-- What a step has a path sorted by: its keys in their order, at the node at which the step's hop
ends, and nothing if the path ends before. -/
def stepOrdering (t : QueryTree) (T : Topology) (nodes : List Nat) (step : SortStep) :
    List (AliasKey × SortDirection) :=
  (t.stops nodes)[step.place]?.elim [] (t.ordering T nodes step.specs)

end QueryTree

namespace Composer

variable {c : Composer} {T : Topology} {hops : List Hop} {a : Nat} {nodes : List Nat}

theorem Sound.property_eq (hs : c.Sound T hops) (ha : c.tree.Live a) (name : String) :
    property? a (c.tree.nodeAt a) name = c.tree.propertyOf? T a name := by
  rw [property?, propertyOf?, (hs.fits.node ha.node).properties, Option.any_some]

/-- A key that is not refused denotes its column. -/
theorem Sound.sortColumn_eq (hs : c.Sound T hops) (hlive : ∀ id ∈ nodes, c.tree.Live id)
    (ha : a ∈ nodes) {spec : SortSpec} {found : Option NodeColumn}
    (hfound : sortColumn? (nodes.map fun id => (id, c.tree.nodeAt id)) a (c.tree.nodeAt a) spec
      = .ok found) : found = c.tree.sortedColumn? T nodes a spec.key := by
  cases hkey : spec.key with
  | id =>
    simp only [sortColumn?, hkey] at hfound
    exact (Except.ok.inj hfound).symm
  | property name =>
    simp only [sortColumn?, hkey] at hfound
    rw [← Except.ok.inj hfound]
    exact hs.property_eq (hlive a ha) name
  | select label property =>
    rw [sortColumn_select hkey, List.find?_map] at hfound
    rw [sortedColumn?]
    cases hfind : nodes.find? fun i => (c.tree.nodeAt i).hasUserLabel label with
    | none =>
      have hnone : nodes.find? ((fun x : Nat × QueryNode => x.2.hasUserLabel label) ∘
          fun id => (id, c.tree.nodeAt id)) = none := hfind
      rw [hnone] at hfound
      cases hfound
    | some target =>
      have hsome : nodes.find? ((fun x : Nat × QueryNode => x.2.hasUserLabel label) ∘
          fun id => (id, c.tree.nodeAt id)) = some target := hfind
      rw [hsome] at hfound
      rw [← Except.ok.inj hfound]
      cases property with
      | none => rfl
      | some name => exact hs.property_eq (hlive target (List.mem_of_find?_eq_some hfind)) name
  | aggregate | lambda =>
    simp only [sortColumn?, hkey] at hfound
    cases hfound

/-- The sort columns of a node. -/
theorem Sound.ordering_eq (hs : c.Sound T hops) (hlive : ∀ id ∈ nodes, c.tree.Live id)
    (ha : a ∈ nodes) {specs : List SortSpec} {columns : List (Option (NodeColumn × SortDirection))}
    (hcolumns : (specs.mapM fun spec => do
      return (← sortColumn? (nodes.map fun id => (id, c.tree.nodeAt id)) a (c.tree.nodeAt a)
        spec).map fun column => (column, spec.direction)) = .ok columns) :
    (columns.filterMap id).map (fun x => (c.keyAt x.1, x.2)) = c.tree.ordering T nodes specs a := by
  have hall : columns.map (fun x => x) = specs.map fun spec =>
      (c.tree.sortedColumn? T nodes a spec.key).map fun column => (column, spec.direction) := by
    refine map_eq_of_forall₂ (forall₂_of_mapM hcolumns) fun spec column hcolumn => ?_
    obtain ⟨found, hfound, hcolumn⟩ := bind_ok hcolumn
    cases hcolumn
    rw [hs.sortColumn_eq hlive ha hfound]
  rw [List.map_id'] at hall
  rw [hall, List.filterMap_map, List.map_filterMap, ordering]
  refine List.filterMap_congr fun spec _ => ?_
  exact Option.map_map _ _ _

/-- The sort columns of a path, node by node from its end. -/
theorem Sound.sortColumns_eq (hs : c.Sound T hops) (hlive : ∀ id ∈ nodes, c.tree.Live id)
    {sort : List (NodeColumn × SortDirection)}
    (hsort : sortColumns (nodes.map fun id => (id, c.tree.nodeAt id)) = .ok sort) :
    (sort.map fun x => (c.keyAt x.1, x.2)) = nodes.reverse.flatMap fun id =>
      c.tree.ordering T nodes (c.tree.nodeAt id).order id := by
  obtain ⟨columns, hcolumns, hsort⟩ := bind_ok hsort
  cases hsort
  rw [← List.map_reverse] at hcolumns
  have hnodes := (List.forall₂_and_left _ _).mpr
    ⟨fun id hid => List.mem_reverse.mp hid, List.forall₂_map_left_iff.mp (forall₂_of_mapM hcolumns)⟩
  have hall := map_eq_of_forall₂ hnodes fun id cols h => hs.ordering_eq hlive h.1 h.2
  rw [List.flatMap_def, ← hall]
  simp only [List.filterMap_flatten, List.map_flatten, List.map_map]
  rfl

/-- A statement is sorted by its nodes, from the end of its path. -/
theorem Sound.orderBy_eq (hs : c.Sound T hops) {stack : PathStack} (hst : c.IsStack stack)
    {bulkTables : Nat} {strip : Bool} {s : Statement}
    (hok : c.tree.statement c.settings bulkTables stack strip = .ok s) :
    s.select.orderBy = stack.nodes.reverse.flatMap fun id =>
      c.tree.ordering T stack.nodes (c.tree.nodeAt id).order id := by
  have hlive := hst.down.live
  obtain ⟨_, path, sort, keys, hpath, hsort, hkeys, horder⟩ :=
    QueryTree.statement_meets (c.statement_sorts stack strip _) hok
  obtain rfl := Except.ok.inj (hpath.symm.trans (path_eq hlive))
  have hspec := hs.sortColumns_spec hlive
  rw [hsort] at hspec
  have hcolumns : ∀ x ∈ sort.map Prod.fst, c.tree.Live x.1 := by
    intro x hx
    obtain ⟨y, hy, rfl⟩ := List.mem_map.mp hx
    exact hlive _ (hspec y hy).1
  obtain rfl := Except.ok.inj (hkeys.symm.trans (keys_eq hcolumns))
  rw [← hs.sortColumns_eq hlive hsort, horder, List.map_map, List.zip_map']
  rfl

end Composer

/-! ## 3. Statements -/

theorem map_getElem?_range {α : Type} (l : List α) :
    (List.range l.length).map (fun i => l[i]?) = l.map some := by
  refine List.ext_getElem (by simp) fun i h₁ h₂ => ?_
  simp only [List.length_map, List.length_range] at h₁
  simp [List.getElem?_eq_getElem h₁]

namespace QueryTree

variable {t : QueryTree} {T : Topology} {hops : List Hop} {nodes : List Nat}
  {steps : List SortStep}

/-- The node at which a hop of a path ends is sorted by what the steps of the hop say. -/
theorem Counts.ordering_eq (h : t.Counts hops) (hd : t.GoesDown nodes)
    (htop : nodes.head? = some root)
    (hsteps : ∀ place, orderAt hops place = (stepsAt place steps).flatMap SortStep.specs)
    {place id : Nat} (hid : (t.stops nodes)[place]? = some id) :
    t.ordering T nodes (t.nodeAt id).order id
      = (stepsAt place steps).flatMap (t.stepOrdering T nodes) := by
  obtain ⟨hmem, hstop⟩ := List.mem_filter.mp (List.mem_of_getElem? hid)
  rw [Bool.not_eq_true'] at hstop
  have hdepth : (t.nodeAt id).depth = place := by
    have hdepths := congrArg (fun l => l[place]?) (h.depths hd htop)
    simp only [List.getElem?_map, hid, Option.map_some] at hdepths
    rw [List.getElem?_range (List.getElem?_eq_some_iff.mp hid).1] at hdepths
    exact Option.some.inj hdepths
  rw [h.order (hd.live id hmem), hstop, if_neg Bool.false_ne_true, hdepth, hsteps, ordering,
    List.filterMap_flatMap]
  refine List.flatMap_congr fun step hstep => ?_
  rw [stepOrdering, beq_iff_eq.mp (List.mem_filter.mp hstep).2, hid]
  rfl

/-- Hop by hop from the end of a path, its nodes have the keys of the steps. -/
theorem Counts.orderings_eq (h : t.Counts hops) (hd : t.GoesDown nodes)
    (htop : nodes.head? = some root)
    (hsteps : ∀ place, orderAt hops place = (stepsAt place steps).flatMap SortStep.specs) :
    (nodes.reverse.flatMap fun id => t.ordering T nodes (t.nodeAt id).order id)
      = (List.range (t.stops nodes).length).reverse.flatMap fun place =>
          (stepsAt place steps).flatMap (t.stepOrdering T nodes) := by
  have hcrossed : ∀ id ∈ nodes.reverse, (!(t.nodeAt id).intermediate) = false →
      t.ordering T nodes (t.nodeAt id).order id = [] := by
    intro id hid hcross
    rw [Bool.not_eq_false'] at hcross
    rw [h.order (hd.live id (List.mem_reverse.mp hid)), if_pos hcross]
    rfl
  rw [← flatMap_filter_of_nil hcrossed, List.filter_reverse]
  -- the places of the stops instead of the stops themselves
  have hplaces : (t.stops nodes).reverse.map some
      = (List.range (t.stops nodes).length).reverse.map fun i => (t.stops nodes)[i]? := by
    rw [List.map_reverse, List.map_reverse, map_getElem?_range]
  calc (t.stops nodes).reverse.flatMap (fun id => t.ordering T nodes (t.nodeAt id).order id)
    _ = ((t.stops nodes).reverse.map some).flatMap fun stop =>
          stop.elim [] fun id => t.ordering T nodes (t.nodeAt id).order id := by
      rw [List.flatMap_map]
      rfl
    _ = _ := by
      rw [hplaces, List.flatMap_map]
      refine List.flatMap_congr fun place hplace => ?_
      have hlt := List.mem_range.mp (List.mem_reverse.mp hplace)
      have hid := List.getElem?_eq_getElem hlt
      rw [hid]
      exact h.ordering_eq hd htop hsteps hid

end QueryTree

/-- The `i`-th statement of the run is that of the stack in the tree. -/
def Run.HasStack (run : Run) (settings : Settings) (T : Topology) (i : Nat) (t : QueryTree)
    (stack : PathStack) : Prop :=
  ∃ trees queue, run.trees settings T = .ok trees ∧ stacksOf trees = .ok queue ∧
    queue[i]? = some (t, stack)

/-- How the sorting steps of a run sort a statement along a path. -/
structure Statement.SortsBy (s : Statement) (T : Topology) (t : QueryTree) (nodes : List Nat)
    (steps : List SortStep) : Prop where
  /-- The hops of the path are the first hops of the run, and each ends at one node. -/
  depths : (t.stops nodes).map (fun id => (t.nodeAt id).depth)
    = List.range (t.stops nodes).length
  /-- The later hop comes first, and at one hop the earlier step. -/
  orderBy : s.select.orderBy = (List.range (t.stops nodes).length).reverse.flatMap fun place =>
    (stepsAt place steps).flatMap (t.stepOrdering T nodes)
  /-- The later step comes first throughout exactly if at no hop it matters. -/
  latest : s.select.orderBy = steps.reverse.flatMap (t.stepOrdering T nodes) ↔
    ∀ place < (t.stops nodes).length, (stepsAt place steps).flatMap (t.stepOrdering T nodes)
      = (stepsAt place steps).reverse.flatMap (t.stepOrdering T nodes)

/-- Between hops the later step comes first. -/
theorem Statement.SortsBy.latest_first {s : Statement} {T : Topology} {t : QueryTree}
    {nodes : List Nat} {steps : List SortStep} (h : s.SortsBy T t nodes steps)
    (hplaces : (steps.map SortStep.place).Nodup) :
    s.select.orderBy = steps.reverse.flatMap (t.stepOrdering T nodes) :=
  h.latest.mpr fun place _ => by rw [reverse_stepsAt hplaces place]

/-- A statement of a run whose hops have the keys of the steps. -/
theorem Run.sortsBy_of_plan {T : Topology} (hc : T.Consistent) {run : Run}
    (hdepths : ∀ {i : Nat} {h : Hop}, run.hops[i]? = some h → h.depth = i)
    {steps : List SortStep} (hordered : steps.Pairwise fun a b => a.place ≤ b.place)
    (hsteps : ∀ place, orderAt run.hops place = (stepsAt place steps).flatMap SortStep.specs)
    {settings : Settings} {n : Numbering} {plan : Plan} (hok : run.plan settings T n = .ok plan)
    {i : Nat} {s : Statement} (hi : plan.statements[i]? = some s) :
    ∃ t stack, run.HasStack settings T i t stack ∧ s.SortsBy T t stack.nodes steps := by
  obtain ⟨trees, queue, strip, htrees, hqueue, hall⟩ := plan_ok hok
  obtain ⟨⟨t, stack⟩, hx, b, hstatement⟩ := getElem?_of_forall₂ hall hi
  obtain ⟨ht, phase, last, hlast, hstack⟩ := mem_stacksOf hqueue (List.mem_of_getElem? hx)
  dsimp only at ht hlast hstack hstatement
  have hsound : (⟨t, settings⟩ : Composer).Sound T run.hops := sound_of_trees hc htrees ht
  have hst := hsound.wellFormed.isStack settings phase (live_of_mem_ends hlast)
  rw [← hstack] at hst
  have hcounts := trees_count hc hdepths htrees ht
  have horderBy := hsound.orderBy_eq hst hstatement
  rw [hcounts.orderings_eq hst.down hst.top hsteps] at horderBy
  refine ⟨t, stack, ⟨trees, queue, htrees, hqueue, hx⟩, hcounts.depths hst.down hst.top,
    horderBy, ?_⟩
  rw [horderBy]
  refine flatMap_stepsAt_eq_iff hordered fun step _ hbehind => ?_
  rw [QueryTree.stepOrdering, List.getElem?_eq_none hbehind]
  rfl

/-- The run was read from the traversal, where it took the steps. -/
def FusedRun.Took (f : FusedRun) (o : FusionOptions) (t : Traversal) (steps : List StepNode) :
    Prop :=
  ∃ before node rest, t.steps = before ++ node :: rest ∧
    fuseRun? o t.mutationListener node rest = some f ∧ steps = (node :: rest).take f.consumed

/-- **Which step sorts first.** Every run of a traversal in which nothing is fused before is read
from some of its steps. A statement of the run is sorted hop by hop from the end of its path, and at
one hop by the steps in the order of the chain, each with its keys in their order. So the later step
comes first on every path on which it does not matter which step of a hop comes first. -/
theorem Traversal.sort_priority (t : Traversal)
    (hplain : ∀ n ∈ t.steps, ∀ run, n.step ≠ .fused run) {T : Topology} (hT : T.Built)
    (o : FusionOptions) :
    (∀ run ∈ (t.fuse o).runs, ∃ f taken, FusedRun.Took f o t taken ∧ f.run = run) ∧
    ∀ {f : FusedRun} {taken : List StepNode}, f.Took o t taken →
      ∀ {settings : Settings} {n : Numbering} {plan : Plan}, f.run.plan settings T n = .ok plan →
      ∀ {i : Nat} {s : Statement}, plan.statements[i]? = some s →
        ∃ tree stack, f.run.HasStack settings T i tree stack ∧
          s.SortsBy T tree stack.nodes (sortSteps 0 (chainEdits o.fullText taken)) := by
  constructor
  · intro run hrun
    obtain ⟨f, last, ⟨before, node, rest, hsteps, hf, -⟩, heq⟩ :=
      Traversal.exists_readFrom hplain hrun
    exact ⟨f, _, ⟨before, node, rest, hsteps, hf, rfl⟩, heq⟩
  · rintro f taken ⟨before, node, rest, -, hf, rfl⟩ settings n plan hok i s hi
    exact Run.sortsBy_of_plan hT.consistent (fun hj => (fuseRun_shaped hf).depth hj)
      (pairwise_sortSteps _ _) (fuseRun_orderAt hf) hok hi

namespace People

/-- Everyone, and whoever they know, latest first. -/
def latestFriends : Traversal where
  steps := [.plain (.graph .vertex []), .plain (.order [⟨.id, .asc⟩]),
    .plain (.move (.follow .outgoing [] .vertex)), .plain (.order [⟨.id, .desc⟩])]

/-- A hop lies between the steps, and the later one comes first. -/
theorem latestFriends_sorted : ∃ (f : FusedRun) (plan : Plan) (s : Statement),
    f.Took ({} : Settings).fusion latestFriends latestFriends.steps ∧
    f.run.plan {} topology {} = .ok plan ∧ plan.statements[0]? = some s ∧
    s.select.orderBy.map (fun x => (x.1.depth, x.1.column, x.2))
      = [(1, .id, .desc), (0, .id, .asc)] ∧
    ∃ tree stack, f.run.HasStack {} topology 0 tree stack ∧
      s.SortsBy topology tree stack.nodes
        [⟨0, [⟨.id, .asc⟩]⟩, ⟨1, [⟨.id, .desc⟩]⟩] := by
  have hplanned : (fuseRun? ({} : Settings).fusion false (.plain (.graph .vertex []))
      latestFriends.steps.tail).bind (fun f => (f.run.plan {} topology {}).toOption.bind fun plan =>
        plan.statements[0]?.map fun s => (f.consumed,
          s.select.orderBy.map fun x => (x.1.depth, x.1.column, x.2)))
      = some (4, [(1, .id, .desc), (0, .id, .asc)]) := by
    decide +kernel
  obtain ⟨f, hf, hplan⟩ := Option.bind_eq_some_iff.mp hplanned
  obtain ⟨plan, hok, hstatement⟩ := Option.bind_eq_some_iff.mp hplan
  obtain ⟨s, hs, heq⟩ := Option.map_eq_some_iff.mp hstatement
  obtain ⟨hconsumed, horder⟩ := Prod.mk.inj heq
  have hok := eq_ok_of_toOption hok
  have hplain : ∀ n ∈ latestFriends.steps, ∀ run, n.step ≠ .fused run := by
    simp [latestFriends, StepNode.plain]
  have htook : f.Took ({} : Settings).fusion latestFriends latestFriends.steps :=
    ⟨[], _, _, rfl, hf, by rw [hconsumed]; rfl⟩
  exact ⟨f, plan, s, htook, hok, hs, horder,
    (latestFriends.sort_priority hplain built _).2 htook hok hs⟩

end People

namespace Crew

/-- Everyone by name, and then by age. -/
def byNameByAge : Traversal where
  steps := [.plain (.graph .vertex []), .plain (.order [⟨.property "name", .asc⟩]),
    .plain (.order [⟨.property "age", .asc⟩])]

/-- Both steps are at one hop, and the earlier one comes first. -/
theorem name_before_age : ∃ (f : FusedRun) (plan : Plan) (s : Statement) (tree : QueryTree)
    (stack : PathStack),
    f.Took ({} : Settings).fusion byNameByAge byNameByAge.steps ∧
    f.run.plan {} people {} = .ok plan ∧ plan.statements[0]? = some s ∧
    f.run.HasStack {} people 0 tree stack ∧
    s.select.orderBy.map (fun x => (x.1.column, x.2))
      = [(.property "name", .asc), (.property "age", .asc)] ∧
    ((sortSteps 0 (chainEdits ({} : Settings).fusion.fullText byNameByAge.steps)).reverse.flatMap
      (tree.stepOrdering people stack.nodes)).map (fun x => (x.1.column, x.2))
      = [(.property "age", .asc), (.property "name", .asc)] ∧
    s.select.orderBy ≠ (sortSteps 0 (chainEdits ({} : Settings).fusion.fullText
      byNameByAge.steps)).reverse.flatMap (tree.stepOrdering people stack.nodes) := by
  have hplanned : (fuseRun? ({} : Settings).fusion false (.plain (.graph .vertex []))
      byNameByAge.steps.tail).bind (fun f => (f.run.plan {} people {}).toOption.bind fun plan =>
        plan.statements[0]?.bind fun s => (f.run.trees {} people).toOption.bind fun trees =>
          (stacksOf trees).toOption.bind fun queue => queue[0]?.map fun x => (f.consumed,
            s.select.orderBy.map fun x => (x.1.column, x.2),
            ((sortSteps 0 (chainEdits ({} : Settings).fusion.fullText
              byNameByAge.steps)).reverse.flatMap (x.1.stepOrdering people x.2.nodes)).map
                fun x => (x.1.column, x.2)))
      = some (3, [(.property "name", .asc), (.property "age", .asc)],
          [(.property "age", .asc), (.property "name", .asc)]) := by
    decide +kernel
  simp only [Option.bind_eq_some_iff, Option.map_eq_some_iff] at hplanned
  obtain ⟨f, hf, plan, hok, s, hs, trees, htrees, queue, hqueue, ⟨tree, stack⟩, hstack, heq⟩ :=
    hplanned
  obtain ⟨hconsumed, heq⟩ := Prod.mk.inj heq
  obtain ⟨horder, hlatest⟩ := Prod.mk.inj heq
  exact ⟨f, plan, s, tree, stack, ⟨[], _, _, rfl, hf, by rw [hconsumed]; rfl⟩,
    eq_ok_of_toOption hok, hs,
    ⟨trees, queue, eq_ok_of_toOption htrees, eq_ok_of_toOption hqueue, hstack⟩, horder, hlatest,
    fun heq => absurd (horder.symm.trans (heq ▸ hlatest)) (by decide)⟩

end Crew

end TraversalSql
