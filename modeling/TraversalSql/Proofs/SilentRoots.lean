import TraversalSql.Proofs.Projection

/-!
# Leaving the root out

Where a statement is run for a given root id and the root is silent, its table is not read: the id
is compared with the foreign key of the first edge instead. The rows that are found for the other
nodes are the same as if the root's table had been read, as long as the key of an edge never points
at a vertex that is not there. One row for the root goes with each of them, and only one, because
ids are unique in their table; and no column of the root is missed, because a silent root has no
filter and is neither labelled nor sorted by.
-/

set_option autoImplicit false

namespace TraversalSql

open QueryTree

/-! ## 1. Rows for a root id -/

section Rows

variable {T : Topology} (g : StoredGraph T) (truth : Truth)

/-- The rows, one for each node, satisfy the joins and filters of nodes that stand one below the
other, wherever the first of them stands. -/
def QueryTree.Reads (t : QueryTree) : List Nat → List Visit → Prop
  | a :: ids, v :: w => (∃ n, t.nodes[a]? = some n ∧ n.Admits g truth v) ∧ t.Matches g truth v ids w
  | _, _ => False

/-- In the row of the condition's node, the column of the condition holds the id. -/
def RootCondition.Holds (r : RootCondition) (i : Int64) (nodes : List Nat) (w : List Visit) :
    Prop :=
  ∃ v, (nodes.zip w).lookup r.node = some v ∧ v.row.cell r.column = .int i

/-- The rows are found for a root id: they satisfy joins, filters and the comparison with the id. -/
structure QueryTree.Found (t : QueryTree) (nodes : List Nat) (r : RootCondition) (i : Int64)
    (w : List Visit) : Prop where
  reads : t.Reads g truth nodes w
  root : r.Holds i nodes w

/-- Every value of an edge table's key is the id of a row of the vertex table. -/
def StoredGraph.Resolves (edge : Table) (k : ForeignKey) (vertex : Table) : Prop :=
  ∀ row ∈ g.rows edge, ∀ j, row.key k = some j → ∃ row' ∈ g.rows vertex, row'.id = j

end Rows

/-- No column of the node is projected, sorted by or filtered in the statement of a stack. -/
structure Composer.Ignores (c : Composer) (stack : PathStack) (path : List (Nat × QueryNode))
    (id : Nat) : Prop where
  projected : ∀ x ∈ Composer.projected stack.terminal? path, x.1 ≠ id
  sorted : ∀ sort, Composer.sortColumns path = .ok sort → ∀ x ∈ sort, x.1.1 ≠ id
  filtered : c.nodeFilters id = .ok []

section

variable {T : Topology} {g : StoredGraph T} {truth : Truth} {t : QueryTree} {a b : Nat}
  {ids nodes active : List Nat} {n m : QueryNode} {u v : Visit} {w : List Visit} {i : Int64}
  {k : ForeignKey} {col : Column} {r : RootCondition}

theorem Row.cell_foreignKey_eq_int {row : Row} :
    row.cell (.foreignKey k) = .int i ↔ row.key k = some i := by
  cases hk : row.key k <;> simp [Row.cell, hk]

theorem Row.cell_id_eq_int {row : Row} : row.cell .id = .int i ↔ row.id = i := by
  simp [Row.cell]

theorem QueryNode.Admits.visit_eq (h : n.Admits g truth v) : v = ⟨n.table, n.direction, v.row⟩ := by
  obtain ⟨table, direction, row⟩ := v
  rw [← h.table, ← h.direction]

theorem RootCondition.holds_head :
    (⟨a, col⟩ : RootCondition).Holds i (a :: ids) (v :: w) ↔ v.row.cell col = .int i := by
  simp [Holds]

/-- For an id that the statements of a tree are run for, the rows that are found answer the path. -/
theorem QueryTree.found_iff_answers (hi : t.binding.Admits i) :
    t.Found g truth (a :: ids) ⟨a, .id⟩ i (v :: w) ↔
      t.Answers g truth (a :: ids) (v :: w) ∧ v.row.id = i := by
  constructor
  · rintro ⟨⟨hv, hmatch⟩, hroot⟩
    have hid := Row.cell_id_eq_int.mp (RootCondition.holds_head.mp hroot)
    exact ⟨⟨hv, hid ▸ hi, hmatch⟩, hid⟩
  · rintro ⟨⟨hv, _, hmatch⟩, hid⟩
    exact ⟨⟨hv, hmatch⟩, RootCondition.holds_head.mpr (Row.cell_id_eq_int.mpr hid)⟩

/-! ## 2. Where the root is left out -/

namespace QueryNode

theorem filters_of_isSilent (hsilent : n.isSilent = true) :
    n.filters = [] ∧ n.idPredicates = [] := by
  simp only [isSilent, hasFilters, Bool.and_eq_true, Bool.not_eq_true', Bool.or_eq_false_iff,
    Bool.not_eq_false', List.isEmpty_iff] at hsilent
  exact hsilent.1.1.2

/-- A silent node lets every row of its table through. -/
theorem admits_of_isSilent (hsilent : n.isSilent = true) {row : Row} (hrow : row ∈ g.rows n.table) :
    n.Admits g truth ⟨n.table, n.direction, row⟩ := by
  obtain ⟨hfilters, hids⟩ := filters_of_isSilent hsilent
  refine ⟨rfl, rfl, hrow, ?_, ?_⟩
  · rw [hfilters]
    exact nofun
  · rw [hids]
    exact nofun

theorem joins_iff_key (hk : m.joinKey = some k) (hedge : m.table.isEdge = true) :
    m.Joins u v ↔ v.row.key k = some u.row.id := by
  simp only [Joins, hk, Option.some.injEq, exists_eq_left', hedge, if_true]

end QueryNode

namespace QueryTree

/-- With the root's row dropped, the key of the first edge holds the root's id. -/
theorem Found.tail (hb : t.nodes[b]? = some m) (hk : m.joinKey = some k)
    (hedge : m.table.isEdge = true) (h : t.Found g truth (a :: b :: ids) ⟨a, .id⟩ i w) :
    t.Found g truth (b :: ids) ⟨b, .foreignKey k⟩ i w.tail := by
  obtain ⟨hreads, hroot⟩ := h
  cases w with
  | nil => exact hreads.elim
  | cons v w =>
    obtain ⟨_, hmatch⟩ := hreads
    rw [RootCondition.holds_head, Row.cell_id_eq_int] at hroot
    cases hmatch with
    | cons hm hadmits hjoins hrest =>
      rw [hb] at hm
      cases hm
      rw [QueryNode.joins_iff_key hk hedge, hroot] at hjoins
      exact ⟨⟨⟨m, hb, hadmits⟩, hrest⟩,
        RootCondition.holds_head.mpr (Row.cell_foreignKey_eq_int.mpr hjoins)⟩

/-- Before rows that begin with an edge whose key holds the root's id there is a row of the root. -/
theorem Found.exists_cons (ha : t.nodes[a]? = some n) (hb : t.nodes[b]? = some m)
    (hsilent : n.isSilent = true) (hk : m.joinKey = some k) (hedge : m.table.isEdge = true)
    (hresolves : g.Resolves m.table k n.table)
    (h : t.Found g truth (b :: ids) ⟨b, .foreignKey k⟩ i w) :
    ∃ v, t.Found g truth (a :: b :: ids) ⟨a, .id⟩ i (v :: w) := by
  obtain ⟨hreads, hroot⟩ := h
  cases w with
  | nil => exact hreads.elim
  | cons u w =>
    obtain ⟨⟨m', hm', hadmits⟩, hmatch⟩ := hreads
    rw [hb] at hm'
    cases hm'
    rw [RootCondition.holds_head, Row.cell_foreignKey_eq_int] at hroot
    obtain ⟨row, hrow, hid⟩ := hresolves u.row (hadmits.table ▸ hadmits.row) i hroot
    have hjoins : m.Joins ⟨n.table, n.direction, row⟩ u := by
      rw [QueryNode.joins_iff_key hk hedge, hid]
      exact hroot
    exact ⟨⟨n.table, n.direction, row⟩,
      ⟨⟨n, ha, QueryNode.admits_of_isSilent hsilent hrow⟩, .cons hb hadmits hjoins hmatch⟩,
      RootCondition.holds_head.mpr (Row.cell_id_eq_int.mpr hid)⟩

/-- Ids are unique, so rows for a root id that agree behind the root agree. -/
theorem Found.eq_of_tail_eq {w' : List Visit} (h : t.Found g truth (a :: ids) ⟨a, .id⟩ i w)
    (h' : t.Found g truth (a :: ids) ⟨a, .id⟩ i w') (htail : w.tail = w'.tail) : w = w' := by
  obtain ⟨hreads, hroot⟩ := h
  obtain ⟨hreads', hroot'⟩ := h'
  cases w with
  | nil => exact hreads.elim
  | cons v w =>
    cases w' with
    | nil => exact hreads'.elim
    | cons v' w' =>
      obtain ⟨⟨n, hn, hadmits⟩, _⟩ := hreads
      obtain ⟨⟨n', hn', hadmits'⟩, _⟩ := hreads'
      rw [hn] at hn'
      cases hn'
      rw [RootCondition.holds_head, Row.cell_id_eq_int] at hroot hroot'
      have hrow : v.row ∈ g.rows n.table := hadmits.table ▸ hadmits.row
      have hrow' : v'.row ∈ g.rows n.table := hadmits'.table ▸ hadmits'.row
      have hsame : v.row = v'.row :=
        List.inj_on_of_nodup_map (g.uniqueIds n.table) hrow hrow' (hroot.trans hroot'.symm)
      have hvisit : v = v' := calc
        v = ⟨n.table, n.direction, v.row⟩ := hadmits.visit_eq
        _ = ⟨n.table, n.direction, v'.row⟩ := by rw [hsame]
        _ = v' := hadmits'.visit_eq.symm
      rw [hvisit]
      exact congrArg (v' :: ·) htail

end QueryTree

namespace Composer

variable {c : Composer} {hops : List Hop} {stack : PathStack}

/-- The root is left out where it is silent, and then the next node's key holds its id. -/
theorem Sound.left_out (hs : c.Sound T hops) (hd : c.tree.GoesDown (a :: ids))
    (hroot : c.rootCondition (a :: ids) = .ok (some r, active)) (hleft : a ∉ active) :
    ∃ b rest k, ids = b :: rest ∧ active = b :: rest ∧ r = ⟨b, .foreignKey k⟩ ∧
      (c.tree.nodeAt a).isSilent = true ∧ (c.tree.nodeAt b).joinKey = some k ∧
      (c.tableAt b).isEdge = true := by
  have htop := hd.live a List.mem_cons_self
  simp only [rootCondition, node_eq htop, bind, Except.bind] at hroot
  split at hroot
  · split at hroot
    · rename_i b rest hsilent
      have hlive := hd.live b (List.mem_cons_of_mem _ List.mem_cons_self)
      obtain ⟨k, hk, hkey⟩ := hs.hasKey_below_silent hlive (hd.parent_head rfl) hsilent
      simp only [node_eq hlive, hk, pure, Except.pure, Except.ok.injEq, Prod.mk.injEq,
        Option.some.injEq] at hroot
      obtain ⟨rfl, rfl⟩ := hroot
      refine ⟨b, rest, k, rfl, rfl, rfl, hsilent, hk, ?_⟩
      rw [Table.isEdge, hkey.edgeKind hs.consistent]
      rfl
    · cases hroot
      exact absurd List.mem_cons_self hleft
  · cases hroot

/-- A node that is left out shows nothing. -/
theorem Sound.ignores (hs : c.Sound T hops) (hd : c.tree.GoesDown stack.nodes)
    (hne : stack.nodes ≠ []) (hroot : c.rootCondition stack.nodes = .ok (some r, active))
    (ha : a ∈ stack.nodes) (hleft : a ∉ active) :
    ∃ path, c.path stack.nodes = .ok path ∧ c.Ignores stack path a := by
  obtain ⟨root, active', hroot', hrooted⟩ := hs.rootCondition_eq hd hne
  rw [hroot] at hroot'
  cases hroot'
  have hpath := path_eq hd.live
  obtain ⟨hsilent, _⟩ := hrooted.skipped a ha hleft
  refine ⟨_, hpath, ?_, ?_, ?_⟩
  · rintro x hx rfl
    rw [PathStack.terminal?, projected_eq] at hx
    obtain ⟨id, hid, rfl⟩ := List.mem_map.mp hx
    obtain ⟨hmem, hshows⟩ := mem_shownAt.mp hid
    exact hleft (hrooted.mem hmem (hshows.symm.imp_left not_isSilent_of_labels))
  · rintro sort hsort x hx rfl
    have hspec := hs.sortColumns_spec hd.live
    rw [hsort] at hspec
    obtain ⟨hmem, hshows, _⟩ := hspec x hx
    exact hleft (hrooted.mem hmem (Or.inl hshows))
  · obtain ⟨hfilters, hids⟩ := QueryNode.filters_of_isSilent hsilent
    simp only [nodeFilters, node_eq (hd.live a ha), hfilters, hids, bind, Except.bind]
    rfl

end Composer

end

/-! ## 3. Statements without their root -/

namespace Run

variable {T : Topology} {settings : Settings} {run : Run} {trees : List QueryTree} {t : QueryTree}
  {phase : Phase} {stacksOf : List PathStack} {stack : PathStack} {r : RootCondition}
  {active : List Nat}

theorem isStack_of_mem (settings : Settings) (hw : t.WellFormed)
    (hstacks : t.pathStacks phase = .ok stacksOf) (hstack : stack ∈ stacksOf) :
    (⟨t, settings⟩ : Composer).IsStack stack := by
  rw [pathStacks_ok hstacks] at hstack
  split at hstack
  · cases hstack
  · obtain ⟨id, hid, rfl⟩ := List.mem_map.mp hstack
    exact hw.isStack settings phase (live_of_mem_ends hid)

/-- **Leaving the root out changes no result.** Where the statement of a stack is composed without
its root, the rows it finds for a root id are those that it would find with the root, less the
root's row: each comes from exactly one. What is projected, sorted by and filtered is elsewhere. -/
theorem found_without_root (hT : T.Built) (htrees : run.trees settings T = .ok trees)
    (ht : t ∈ trees) (hstacks : t.pathStacks phase = .ok stacksOf) (hstack : stack ∈ stacksOf)
    (hroot : (⟨t, settings⟩ : Composer).rootCondition stack.nodes = .ok (some r, active))
    (hleft : QueryTree.root ∉ active) (g : StoredGraph T) (truth : Truth)
    (hresolves : ∀ k, r.column = .foreignKey k →
      g.Resolves (t.nodeAt r.node).table k (t.nodeAt QueryTree.root).table) (i : Int64) :
    (∀ w, t.Found g truth active r i w ↔
      ∃! full, full.tail = w ∧ t.Found g truth stack.nodes ⟨QueryTree.root, .id⟩ i full) ∧
    (∀ full, t.Found g truth stack.nodes ⟨QueryTree.root, .id⟩ i full →
      t.Found g truth active r i full.tail) ∧
    ∃ path, (⟨t, settings⟩ : Composer).path stack.nodes = .ok path ∧
      (⟨t, settings⟩ : Composer).Ignores stack path QueryTree.root := by
  have hs := sound_of_trees hT.consistent htrees ht
  obtain ⟨hdown, htop, _⟩ := isStack_of_mem settings hs.wellFormed hstacks hstack
  obtain ⟨ids, hnodes⟩ := List.head?_eq_some_iff.mp htop
  have hignores := hs.ignores hdown (by rw [hnodes]; exact List.cons_ne_nil _ _) hroot
    (by rw [hnodes]; exact List.mem_cons_self) hleft
  rw [hnodes] at hdown hroot hignores ⊢
  obtain ⟨b, rest, k, rfl, rfl, rfl, hsilent, hk, hedge⟩ := hs.left_out hdown hroot hleft
  have ha := (hdown.live QueryTree.root List.mem_cons_self).node
  have hb := (hdown.live b (List.mem_cons_of_mem _ List.mem_cons_self)).node
  refine ⟨fun w => ⟨fun h => ?_, ?_⟩, fun full h => h.tail hb hk hedge, hignores⟩
  · obtain ⟨v, hfull⟩ := h.exists_cons ha hb hsilent hk hedge (hresolves k rfl)
    refine ⟨v :: w, ⟨rfl, hfull⟩, ?_⟩
    rintro full ⟨htail, hfull'⟩
    exact hfull'.eq_of_tail_eq hfull htail
  · rintro ⟨full, ⟨rfl, hfull⟩, _⟩
    exact hfull.tail hb hk hedge

end Run

/-! ## 4. The friends of the first person -/

namespace People

/-- The people that the first person knows. -/
def friendsOfFirst : Run :=
  ⟨[{ everyone with idPredicates := [.compare .eq (.int 1)] }, friends false]⟩

def tree : QueryTree :=
  match Run.trees {} topology friendsOfFirst with
  | .ok (t :: _) => t
  | _ => .new person ∅ .unconstrained

/-- The id is compared with the key of the friendship. -/
def knower : RootCondition := ⟨1, .foreignKey ⟨person, .outgoing⟩⟩

theorem resolves_knower : graph.Resolves knows ⟨person, .outgoing⟩ person := by
  intro r hr j hj
  cases List.mem_singleton.mp hr
  cases hj
  exact ⟨row 1, List.mem_cons_self, rfl⟩

theorem found_reached : tree.Found graph asLabels [1, 2] knower 1 reached where
  reads := by
    refine ⟨⟨_, rfl, rfl, rfl, List.mem_cons_self, nofun, nofun⟩, ?_⟩
    have hfriend : row 2 ∈ graph.rows person := List.mem_cons_of_mem _ List.mem_cons_self
    exact .cons rfl ⟨rfl, rfl, hfriend, nofun, nofun⟩ ⟨_, rfl, rfl⟩ (.nil _)
  root := ⟨_, rfl, rfl⟩

/-- The friendship is found without reading the first person, who goes with it. -/
theorem first_person_left_out :
    ∃ trees stacksOf stack, Run.trees {} topology friendsOfFirst = .ok trees ∧ tree ∈ trees ∧
      tree.pathStacks .regular = .ok stacksOf ∧ stack ∈ stacksOf ∧
      (⟨tree, {}⟩ : Composer).rootCondition stack.nodes = .ok (some knower, [1, 2]) ∧
      QueryTree.root ∉ [1, 2] ∧
      ∃! full, full.tail = reached ∧
        tree.Found graph asLabels stack.nodes ⟨QueryTree.root, .id⟩ 1 full := by
  have htrees : Run.trees {} topology friendsOfFirst = .ok [tree] := rfl
  have hstacks : tree.pathStacks .regular = .ok [⟨.regular, [0, 1, 2], []⟩] := rfl
  have hroot : (⟨tree, {}⟩ : Composer).rootCondition [0, 1, 2] = .ok (some knower, [1, 2]) := rfl
  have hleft : QueryTree.root ∉ [1, 2] := by decide
  have hresolves : ∀ k, knower.column = .foreignKey k →
      graph.Resolves (tree.nodeAt knower.node).table k (tree.nodeAt QueryTree.root).table := by
    intro k hk
    cases hk
    exact resolves_knower
  obtain ⟨hfound, _⟩ := Run.found_without_root built htrees List.mem_cons_self hstacks
    List.mem_cons_self hroot hleft graph asLabels hresolves 1
  exact ⟨_, _, _, htrees, List.mem_cons_self, hstacks, List.mem_cons_self, hroot, hleft,
    (hfound reached).mp found_reached⟩

end People

end TraversalSql
