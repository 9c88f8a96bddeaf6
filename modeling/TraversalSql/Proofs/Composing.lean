import Mathlib.Data.List.Chain
import TraversalSql.Proofs.Fitting
import TraversalSql.Proofs.OptionalParts
import TraversalSql.Sql.Plan

/-!
# What the composer writes

The composer looks nodes up in a tree and hands out names on its way, and each lookup can be
refused. On a path of a tree that fits its topology none is: what is left to fail is a filter that
has no SQL, or a sort key (`Composer.Refuses`). A select is described by the nodes of its path,
without a workspace, and every function of the composer has one theorem that says which
description its result meets (`Meets`). This file goes as far as selects over distinct tables
(`IsFlat`).
-/

set_option autoImplicit false

namespace TraversalSql

open QueryTree

/-! ## 1. Compositions that use up names -/

/-- From a workspace on, the composition fails with an error of `E`, or its result and the
workspace it leaves satisfy `Q`. -/
def Meets {α : Type} (E : SqlError → Prop) (m : Compose α) (w : Workspace)
    (Q : α → Workspace → Prop) : Prop :=
  match m.run w with
  | .ok (a, w') => Q a w'
  | .error e => E e

section Meets

variable {α β : Type} {E : SqlError → Prop} {m : Compose α} {f : α → Compose β} {w : Workspace}
  {Q Q' : α → Workspace → Prop} {R : β → Workspace → Prop}

@[simp] theorem meets_pure {a : α} : Meets E (pure a : Compose α) w Q ↔ Q a w := Iff.rfl

@[simp] theorem meets_bind :
    Meets E (m >>= f) w R ↔ Meets E m w fun a w' => Meets E (f a) w' R := by
  simp only [Meets, StateT.run_bind]
  cases m.run w with
  | error e => exact Iff.rfl
  | ok r => exact Iff.rfl

@[simp] theorem meets_get {Q : Workspace → Workspace → Prop} :
    Meets E (get : Compose Workspace) w Q ↔ Q w w := Iff.rfl

@[simp] theorem meets_modify {Q : Unit → Workspace → Prop} {g : Workspace → Workspace} :
    Meets E (modify g : Compose Unit) w Q ↔ Q () (g w) := Iff.rfl

@[simp] theorem meets_ok {a : α} :
    Meets E (liftM (.ok a : Except SqlError α) : Compose α) w Q ↔ Q a w := Iff.rfl

theorem Meets.mono (h : Meets E m w Q) (hQ : ∀ a w', Q a w' → Q' a w') : Meets E m w Q' := by
  unfold Meets at h ⊢
  split at h
  · exact hQ _ _ h
  · exact h

/-- A composition that went well has the result that it is meant to have. -/
theorem Meets.of_run {a : α} {w' : Workspace} (h : Meets E m w Q) (hrun : m.run w = .ok (a, w')) :
    Q a w' := by
  unfold Meets at h
  rw [hrun] at h
  exact h

theorem Meets.of_error {e : SqlError} (h : Meets E m w Q) (hrun : m.run w = .error e) : E e := by
  unfold Meets at h
  rw [hrun] at h
  exact h

end Meets

/-- On the way from one workspace to another the sub-selects `numbers` were named, in this order,
and columns of `V` were requested. -/
structure Workspace.Goes (V : NodeColumn → Prop) (w : Workspace) (numbers : List Nat)
    (w' : Workspace) : Prop where
  kept : ∀ x ∈ w.wanted, x ∈ w'.wanted
  valid : ∀ x ∈ w'.wanted, x ∈ w.wanted ∨ V x
  named : numbers = List.range' (w.subSelects + 1) numbers.length
  counted : w'.subSelects = w.subSelects + numbers.length

namespace Workspace.Goes

variable {V : NodeColumn → Prop} {w w' w'' : Workspace} {ks ks' : List Nat}

theorem refl (w : Workspace) : w.Goes V [] w := ⟨fun _ h => h, fun _ h => Or.inl h, rfl, rfl⟩

theorem trans (h : w.Goes V ks w') (h' : w'.Goes V ks' w'') : w.Goes V (ks ++ ks') w'' where
  kept x hx := h'.kept x (h.kept x hx)
  valid x hx := by
    rcases h'.valid x hx with hx | hV
    · exact h.valid x hx
    · exact Or.inr hV
  named := by
    have hks' := h'.named
    rw [h.counted, Nat.add_right_comm] at hks'
    rw [List.length_append, ← List.range'_append_1, ← h.named, ← hks']
  counted := by
    rw [h'.counted, h.counted, List.length_append, Nat.add_assoc]

/-- What is wanted is all of `V` if it was before. -/
theorem all_valid (h : w.Goes V ks w') (hw : ∀ x ∈ w.wanted, V x) : ∀ x ∈ w'.wanted, V x := by
  intro x hx
  exact (h.valid x hx).elim (hw x) id

end Workspace.Goes

section Requests

variable {V : NodeColumn → Prop} {E : SqlError → Prop} {w : Workspace}

theorem want_meets {id : Nat} {col : Column} (hV : V (id, col)) :
    Meets E (want id col) w fun _ w' => w.Goes V [] w' ∧ (id, col) ∈ w'.wanted := by
  simp only [want, meets_modify]
  split
  · rename_i hmem
    exact ⟨.refl w, hmem⟩
  · refine ⟨⟨?_, ?_, rfl, rfl⟩, ?_⟩
    · intro x hx
      exact List.mem_append_left _ hx
    · intro x hx
      rcases List.mem_append.mp hx with hx | hx
      · exact Or.inl hx
      · exact Or.inr (List.mem_singleton.mp hx ▸ hV)
    · exact List.mem_append_right _ (List.mem_singleton.mpr rfl)

theorem wantAll_meets : ∀ {xs : List NodeColumn} {w : Workspace}, (∀ x ∈ xs, V x) →
    Meets E (wantAll xs) w fun _ w' => w.Goes V [] w' ∧ ∀ x ∈ xs, x ∈ w'.wanted := by
  intro xs
  induction xs with
  | nil =>
    intro w _
    exact ⟨.refl w, nofun⟩
  | cons x xs ih =>
    intro w hV
    obtain ⟨id, col⟩ := x
    simp only [wantAll, meets_bind]
    refine (want_meets (hV _ List.mem_cons_self)).mono ?_
    rintro _ w₁ ⟨hg, hmem⟩
    refine (ih fun x hx => hV x (List.mem_cons_of_mem _ hx)).mono ?_
    rintro _ w₂ ⟨hg', hall⟩
    refine ⟨hg.trans hg', ?_⟩
    intro x hx
    rcases List.mem_cons.mp hx with rfl | hx
    · exact hg'.kept _ hmem
    · exact hall x hx

theorem nextSubSelect_meets :
    Meets E nextSubSelect w fun k w' => w.Goes V [k] w' ∧ w'.wanted = w.wanted := by
  simp only [nextSubSelect, meets_bind, meets_modify, meets_get, meets_pure]
  exact ⟨⟨fun _ h => h, fun _ h => Or.inl h, rfl, rfl⟩, trivial⟩

end Requests

/-! ## 2. Lookups -/

instance : Inhabited ForeignKey := ⟨⟨default, .outgoing⟩⟩

instance : Inhabited QueryNode := ⟨{
  table := default, direction := none, origin := .graphRoot, depth := 0, joinKey := none
  parent := none, properties := ∅ }⟩

namespace QueryTree

variable {t : QueryTree} {id a b : Nat} {ids ids' : List Nat}

/-- The node of a number that there is. -/
def nodeAt (t : QueryTree) (id : Nat) : QueryNode := t.nodes[id]?.getD default

theorem nodeAt_eq {n : QueryNode} (h : t.nodes[id]? = some n) : t.nodeAt id = n := by
  rw [nodeAt, h, Option.getD_some]

theorem Live.node (h : t.Live id) : t.nodes[id]? = some (t.nodeAt id) := by
  obtain ⟨n, hn, _⟩ := h
  rw [nodeAt_eq hn, hn]

/-- The nodes stand one right below the other. -/
structure GoesDown (t : QueryTree) (ids : List Nat) : Prop where
  live : ∀ id ∈ ids, t.Live id
  chain : ids.IsChain fun a b => t.parent? b = some a

theorem GoesDown.part (h : t.GoesDown ids) (hi : ids' <:+: ids) : t.GoesDown ids' := by
  refine ⟨fun id hid => h.live id (hi.subset hid), ?_⟩
  obtain ⟨before, behind, rfl⟩ := hi
  exact h.chain.left_of_append.right_of_append

theorem GoesDown.behind (h : t.GoesDown (ids ++ ids')) (ha : ids.getLast? = some a) :
    t.GoesDown (a :: ids') := by
  obtain ⟨before, rfl⟩ := List.getLast?_eq_some_iff.mp ha
  rw [List.append_assoc] at h
  exact h.part (List.suffix_append before _).isInfix

theorem GoesDown.parent_head (h : t.GoesDown (a :: ids)) (hb : ids.head? = some b) :
    t.parent? b = some a := by
  obtain ⟨rest, rfl⟩ := List.head?_eq_some_iff.mp hb
  exact (List.isChain_cons_cons.mp h.chain).1

theorem GoesDown.lt (hw : t.WellFormed) (h : t.GoesDown ids) : ids.Pairwise (· < ·) := by
  have hlt : ids.IsChain (· < ·) := h.chain.imp fun _ _ hp => hw.parentLt hp
  exact hlt.pairwise

theorem GoesDown.nodup (hw : t.WellFormed) (h : t.GoesDown ids) : ids.Nodup :=
  (h.lt hw).imp Nat.ne_of_lt

theorem Descends.goesDown (hw : t.WellFormed) (h : t.Descends a ids b) (ha : t.Live a) :
    t.GoesDown (a :: ids) := by
  induction h with
  | nil => exact ⟨List.forall_mem_singleton.mpr ha, List.isChain_singleton _⟩
  | cons hn hmem _ ih =>
    obtain ⟨hlive, hp⟩ := hw.child hn hmem
    have hdown := ih hlive
    exact ⟨List.forall_mem_cons.mpr ⟨ha, hdown.live⟩, List.isChain_cons_cons.mpr ⟨hp, hdown.chain⟩⟩

theorem Descends.getLast (h : t.Descends a ids b) : (a :: ids).getLast? = some b := by
  induction h with
  | nil => rfl
  | cons _ _ _ ih => rw [List.getLast?_cons_cons, ih]

/-- The way from the root to a live node. -/
theorem WellFormed.path_goesDown (hw : t.WellFormed) (h : t.Live id) :
    t.GoesDown (t.path id) ∧ (t.path id).head? = some root ∧
      (t.path id).getLast? = some id := by
  obtain ⟨ids, hd⟩ := hw.descends (hw.root_above h) h
  rw [hd.path_eq hw, hw.path_root, List.singleton_append]
  exact ⟨hd.goesDown hw hw.rootLive, rfl, hd.getLast⟩

/-- The branches of an optional part go on where its node stands. -/
theorem WellFormed.branch_goesDown (hw : t.WellFormed) (h : t.Live id)
    {branch : List Nat} (hb : branch ∈ t.branchesBelow id) :
    t.GoesDown (id :: branch) ∧ branch ≠ [] := by
  obtain ⟨c, hmem, hbranch⟩ := (mem_branchesBelow_iff hw h.node).mp hb
  obtain ⟨e, _, hd, _⟩ := hbranch.descends h.node hmem
  refine ⟨hd.goesDown hw h, ?_⟩
  cases hbranch <;> exact List.cons_ne_nil _ _

end QueryTree

/-- The table has the column. -/
def Topology.HasColumn (T : Topology) (table : Table) : Column → Prop
  | .id => ∃ ps, T.properties? table = some ps
  | .property p => ∃ ps, T.properties? table = some ps ∧ ps.contains p = true
  | .foreignKey k => T.HasKey table k

namespace Composer

variable (c : Composer) {T : Topology} {hops : List Hop} {id a b : Nat} {ids nodes : List Nat}
  {columns outputs : List NodeColumn} {root : Option RootCondition} {w : Workspace}

def tableAt (id : Nat) : Table := (c.tree.nodeAt id).table

/-- What a column of a node stands for. -/
def keyAt (x : NodeColumn) : AliasKey := (c.tree.nodeAt x.1).fragmentKey.column x.2

/-- The columns that are equal where a node follows its parent. -/
def joinAt (id : Nat) : Column × Column :=
  let k := (c.tree.nodeAt id).joinKey.getD default
  if (c.tableAt id).isEdge then (.id, .foreignKey k) else (.foreignKey k, .id)

/-- The joins of a path. -/
def joinsAt : List Nat → List TableJoin
  | a :: b :: rest =>
    ⟨c.tableAt b, ⟨c.tableAt a, (c.joinAt b).1⟩, ⟨c.tableAt b, (c.joinAt b).2⟩⟩
      :: joinsAt (b :: rest)
  | _ => []

/-- The filters of a node. -/
def filtersOf (id : Nat) : List (ColumnRef × Predicate) :=
  (c.tree.nodeAt id).idPredicates.map (fun p => (⟨c.tableAt id, .id⟩, p))
    ++ (c.tree.nodeAt id).filters.map fun f => (⟨c.tableAt id, .property f.key⟩, f.predicate)

/-- The comparison with the root id that falls to a path. -/
def rootAt (nodes : List Nat) : Option RootCondition → List Condition
  | some r =>
    if nodes.contains r.node then [.rootId ⟨c.tableAt r.node, r.column⟩] else []
  | none => []

/-- The node is there, and its table has the column. -/
def Has (T : Topology) (x : NodeColumn) : Prop :=
  c.tree.Live x.1 ∧ T.HasColumn (c.tableAt x.1) x.2

/-- What a composition can be refused for. -/
inductive Refuses : SqlError → Prop
  | filter {id : Nat} {f : ColumnRef × Predicate} {e : SqlError} : c.tree.Live id →
      f ∈ c.filtersOf id →
      f.2.condition c.settings.dialect (f.1.sql c.settings.dialect) = .error e → Refuses e
  | label {id : Nat} {s : SortSpec} {name : String} {property : Option String} : c.tree.Live id →
      s ∈ (c.tree.nodeAt id).order → s.key = .select name property → Refuses (.unknownLabel name)
  | sortKey {id : Nat} {s : SortSpec} : c.tree.Live id → s ∈ (c.tree.nodeAt id).order →
      s.key.isComputed = true → Refuses (.untranslatable (.sortKey s.text))

/-- The tree of the composer is one, and fits. -/
structure Sound (T : Topology) (hops : List Hop) : Prop where
  consistent : T.Consistent
  wellFormed : c.tree.WellFormed
  fits : c.tree.Fits T hops

variable {c}

theorem node_eq (h : c.tree.Live id) : c.node id = .ok (c.tree.nodeAt id) := by
  rw [node, QueryTree.node, h.node]
  rfl

theorem key_eq (h : c.tree.Live id) (col : Column) : c.key id col = .ok (c.keyAt (id, col)) := by
  rw [key, node_eq h]
  rfl

theorem columnRef_eq (h : c.tree.Live id) (col : Column) :
    c.columnRef id col = .ok ⟨c.tableAt id, col⟩ := by
  rw [columnRef, node_eq h]
  rfl

theorem keys_eq (h : ∀ x ∈ columns, c.tree.Live x.1) :
    c.keys columns = .ok (columns.map c.keyAt) :=
  mapM_ok fun x hx => key_eq (h x hx) x.2

theorem filters_eq (h : ∀ id ∈ nodes, c.tree.Live id) :
    c.filters nodes = .ok (nodes.flatMap c.filtersOf) := by
  have hnode : ∀ id ∈ nodes, c.nodeFilters id = .ok (c.filtersOf id) := by
    intro id hid
    rw [nodeFilters, node_eq (h id hid)]
    rfl
  rw [filters, mapM_ok hnode, List.flatMap_def]
  rfl

theorem rootConditions_eq (h : ∀ id ∈ nodes, c.tree.Live id) :
    c.rootConditions nodes root = .ok (c.rootAt nodes root) := by
  cases root with
  | none => rfl
  | some r =>
    simp only [rootConditions, rootAt]
    split
    · rename_i hr
      rw [columnRef_eq (h r.node (List.contains_iff_mem.mp hr))]
      rfl
    · rfl


/-! ## 3. Joins -/

section Joins

variable (hs : c.Sound T hops)
include hs

/-- A foreign key joins a node to its parent. -/
theorem Sound.tie (hb : c.tree.Live b) (hp : c.tree.parent? b = some a) :
    ∃ k, (c.tree.nodeAt b).joinKey = some k ∧ k.Ties T (c.tableAt a) (c.tableAt b) := by
  have ha := hs.wellFormed.live_parent hb hp
  rw [parent?_of_node hb.node] at hp
  exact hs.fits.joined hb.node hp ha.node

theorem Sound.joinColumns_eq (hb : c.tree.Live b) (hp : c.tree.parent? b = some a) :
    c.joinColumns b = .ok (c.joinAt b) := by
  obtain ⟨k, hk, _⟩ := hs.tie hb hp
  simp only [joinColumns, node_eq hb, joinAt, hk, Option.getD_some, tableAt, bind, Except.bind]
  rfl

theorem Sound.known (h : c.tree.Live id) : ∃ ps, T.properties? (c.tableAt id) = some ps :=
  ⟨_, (hs.fits.node h.node).properties⟩

/-- Both tables have the columns on which they are joined. -/
theorem Sound.has_joinAt (hb : c.tree.Live b) (hp : c.tree.parent? b = some a) :
    c.Has T (a, (c.joinAt b).1) ∧ c.Has T (b, (c.joinAt b).2) := by
  have ha := hs.wellFormed.live_parent hb hp
  obtain ⟨k, hk, ⟨hkey, hv⟩ | ⟨hkey, hv⟩⟩ := hs.tie hb hp
  · have hedge : (c.tableAt b).isEdge = true := by
      rw [Table.isEdge, hkey.edgeKind hs.consistent]
      rfl
    simp only [joinAt, hedge, if_true, hk, Option.getD_some]
    exact ⟨⟨ha, hs.known ha⟩, hb, hkey⟩
  · have hedge : (c.tableAt b).isEdge = false := by
      rw [Table.isEdge, ← hv, hkey.vertexKind hs.consistent]
      rfl
    simp only [joinAt, hedge, Bool.false_eq_true, if_false, hk, Option.getD_some]
    exact ⟨⟨ha, hkey⟩, hb, hs.known hb⟩

theorem Sound.joins_eq : ∀ {ids : List Nat}, c.tree.GoesDown ids →
    c.joins ids = .ok (c.joinsAt ids) := by
  intro ids
  induction ids with
  | nil => exact fun _ => rfl
  | cons a ids ih =>
    intro hd
    cases ids with
    | nil => rfl
    | cons b ids =>
      have ha := hd.live a List.mem_cons_self
      have hb := hd.live b (List.mem_cons_of_mem _ List.mem_cons_self)
      have hp := (List.isChain_cons_cons.mp hd.chain).1
      simp only [joins, node_eq hb, hs.joinColumns_eq hb hp, columnRef_eq ha, columnRef_eq hb,
        ih (hd.part (List.suffix_cons a _).isInfix), joinsAt]
      rfl

end Joins

/-! ## 4. Cutting a path -/

/-- The parts of a path, in each of which no table comes twice. -/
structure Cut (c : Composer) (nodes : List Nat) (segments : List (List Nat)) : Prop where
  flatten : segments.flatten = nodes
  ne_nil : ∀ s ∈ segments, s ≠ []
  nodup : ∀ s ∈ segments, (s.map c.tableAt).Nodup

end Composer

theorem flatten_cutAtRepeats {α κ : Type} [BEq κ] (key : α → κ) : ∀ (l current : List α),
    (cutAtRepeats key current l).flatten = current ++ l := by
  intro l
  induction l with
  | nil =>
    intro current
    rw [cutAtRepeats]
    split
    · rename_i h
      rw [List.isEmpty_iff.mp h]
      rfl
    · simp
  | cons a l ih =>
    intro current
    rw [cutAtRepeats]
    split
    · rw [List.flatten_cons, ih]
      rfl
    · rw [ih, List.append_assoc]
      rfl

/-- Cutting by a key of what the elements are mapped to. -/
theorem map_cutAtRepeats {α β κ : Type} [BEq κ] (key : β → κ) (f : α → β) :
    ∀ (l current : List α), (cutAtRepeats (key ∘ f) current l).map (List.map f)
      = cutAtRepeats key (current.map f) (l.map f) := by
  intro l
  induction l with
  | nil =>
    intro current
    rw [List.map_nil, cutAtRepeats, cutAtRepeats, List.isEmpty_map]
    split <;> rfl
  | cons a l ih =>
    intro current
    have hany : ((current.map f).any fun b => key b == key (f a))
        = current.any fun b => (key ∘ f) b == (key ∘ f) a := List.any_map
    rw [List.map_cons, cutAtRepeats, cutAtRepeats, hany]
    split
    · rw [List.map_cons, ih, List.map_singleton]
    · rw [ih, List.map_append, List.map_singleton]

theorem mem_cutAtRepeats {α κ : Type} [DecidableEq κ] (key : α → κ) :
    ∀ {l : List α} (current : List α) {part : List α}, (current.map key).Nodup →
    part ∈ cutAtRepeats key current l → part ≠ [] ∧ (part.map key).Nodup := by
  intro l
  induction l with
  | nil =>
    intro current part hnodup hpart
    rw [cutAtRepeats] at hpart
    split at hpart
    · cases hpart
    · rename_i h
      rw [List.mem_singleton.mp hpart]
      exact ⟨fun h' => h (List.isEmpty_iff.mpr h'), hnodup⟩
  | cons a l ih =>
    intro current part hnodup hpart
    rw [cutAtRepeats] at hpart
    split at hpart
    · rename_i h
      rcases List.mem_cons.mp hpart with rfl | hpart
      · refine ⟨?_, hnodup⟩
        rintro rfl
        cases h
      · exact ih [a] (List.nodup_singleton _) hpart
    · rename_i h
      refine ih (current ++ [a]) ?_ hpart
      rw [List.map_append, List.map_singleton, List.nodup_append_comm, List.singleton_append,
        List.nodup_cons]
      refine ⟨?_, hnodup⟩
      intro hmem
      obtain ⟨b, hb, hkey⟩ := List.mem_map.mp hmem
      exact h (List.any_eq_true.mpr ⟨b, hb, beq_iff_eq.mpr hkey⟩)

namespace Composer

variable {c : Composer} {T : Topology} {hops : List Hop} {id a b : Nat} {ids nodes : List Nat}
  {columns outputs : List NodeColumn} {root : Option RootCondition} {w : Workspace}

/-- On nodes that there are, the path is cut by their tables. -/
theorem segments_of_lt (h : ∀ id ∈ nodes, id < c.tree.nodes.size) :
    c.segments nodes = .ok (cutAtRepeats c.tableAt [] nodes) := by
  have htables : nodes.mapM (fun id => return (id, (← c.node id).table))
      = (.ok (nodes.map fun id => (id, c.tableAt id)) : Except SqlError _) := by
    refine mapM_ok fun id hid => ?_
    have hn := Array.getElem?_eq_getElem (h id hid)
    rw [node, QueryTree.node, tableAt, nodeAt_eq hn, hn]
    rfl
  have hmap := map_cutAtRepeats Prod.snd (fun id => (id, c.tableAt id)) nodes []
  rw [segments, htables]
  simp only [bind, Except.bind, pure, Except.pure, Except.ok.injEq]
  rw [← List.map_nil, ← hmap, List.map_map]
  simp [Function.comp_def]

theorem cut_cutAtRepeats (c : Composer) (nodes : List Nat) :
    c.Cut nodes (cutAtRepeats c.tableAt [] nodes) where
  flatten := flatten_cutAtRepeats c.tableAt nodes []
  ne_nil _ hs := (mem_cutAtRepeats c.tableAt [] List.nodup_nil hs).1
  nodup _ hs := (mem_cutAtRepeats c.tableAt [] List.nodup_nil hs).2

theorem segments_eq (h : ∀ id ∈ nodes, c.tree.Live id) :
    ∃ segments, c.segments nodes = .ok segments ∧ c.Cut nodes segments :=
  ⟨_, segments_of_lt fun id hid => lt_size_of_node (h id hid).node, c.cut_cutAtRepeats nodes⟩

/-! ## 5. Flat selects -/

/-- A condition that stands for a filter: its SQL, or the test that a joined temporary table lists
no match. -/
inductive IsFilter (c : Composer) (filters : List (ColumnRef × Predicate)) (bulk : List BulkJoin) :
    Condition → Prop
  | inline {f : ColumnRef × Predicate} {sql : Fragment} : f ∈ filters →
      f.2.condition c.settings.dialect (f.1.sql c.settings.dialect) = .ok sql →
      IsFilter c filters bulk (.filter f.1 sql)
  | unlisted {j : BulkJoin} : j ∈ bulk → IsFilter c filters bulk (.unlisted j.bulk)

theorem IsFilter.mono {filters filters' : List (ColumnRef × Predicate)} {bulk bulk' : List BulkJoin}
    {x : Condition} (h : c.IsFilter filters bulk x) (hf : ∀ f ∈ filters, f ∈ filters')
    (hb : ∀ j ∈ bulk, j ∈ bulk') : c.IsFilter filters' bulk' x := by
  cases h with
  | inline hmem hsql => exact .inline (hf _ hmem) hsql
  | unlisted hmem => exact .unlisted (hb _ hmem)

/-- A select with filters added to it. -/
structure Filtered (c : Composer) (filters : List (ColumnRef × Predicate)) (s s' : FlatSelect) :
    Prop where
  columns : s'.columns = s.columns
  source : s'.source = s.source
  joins : s'.joins = s.joins
  bulk : ∃ more, s'.bulkJoins = s.bulkJoins ++ more ∧ ∀ j ∈ more, ∃ f ∈ filters, j.column = f.1
  conditions : ∃ more, s'.conditions = s.conditions ++ more ∧
    ∀ x ∈ more, c.IsFilter filters s'.bulkJoins x

theorem Filtered.refl (c : Composer) (s : FlatSelect) : c.Filtered [] s s :=
  ⟨rfl, rfl, rfl, ⟨[], (List.append_nil _).symm, nofun⟩, [], (List.append_nil _).symm, nofun⟩

theorem Filtered.trans {fs fs' : List (ColumnRef × Predicate)} {s s' s'' : FlatSelect}
    (h : c.Filtered fs s s') (h' : c.Filtered fs' s' s'') : c.Filtered (fs ++ fs') s s'' := by
  obtain ⟨more, hmore, hbulk⟩ := h.bulk
  obtain ⟨more', hmore', hbulk'⟩ := h'.bulk
  obtain ⟨conds, hconds, hfilter⟩ := h.conditions
  obtain ⟨conds', hconds', hfilter'⟩ := h'.conditions
  refine ⟨h'.columns.trans h.columns, h'.source.trans h.source, h'.joins.trans h.joins,
    ⟨more ++ more', by rw [hmore', hmore, List.append_assoc], ?_⟩,
    conds ++ conds', by rw [hconds', hconds, List.append_assoc], ?_⟩
  · intro j hj
    rcases List.mem_append.mp hj with hj | hj
    · obtain ⟨f, hf, hcol⟩ := hbulk j hj
      exact ⟨f, List.mem_append_left _ hf, hcol⟩
    · obtain ⟨f, hf, hcol⟩ := hbulk' j hj
      exact ⟨f, List.mem_append_right _ hf, hcol⟩
  · intro x hx
    rcases List.mem_append.mp hx with hx | hx
    · refine (hfilter x hx).mono (fun f hf => List.mem_append_left _ hf) ?_
      intro j hj
      rw [hmore']
      exact List.mem_append_left _ hj
    · exact (hfilter' x hx).mono (fun f hf => List.mem_append_right _ hf) fun j hj => hj

theorem addFilter_meets {s : FlatSelect} {f : ColumnRef × Predicate} (hid : c.tree.Live id)
    (hf : f ∈ c.filtersOf id) :
    Meets c.Refuses (c.addFilter s f) w fun s' w' => c.Filtered [f] s s' ∧
      w'.wanted = w.wanted ∧ w'.subSelects = w.subSelects := by
  obtain ⟨col, p⟩ := f
  simp only [addFilter]
  cases hbulk : p.bulk? c.settings.bulkThreshold with
  | some found =>
    obtain ⟨kind, values⟩ := found
    simp only [nextBulkTable, meets_bind, meets_modify, meets_get, meets_pure, and_true]
    refine ⟨rfl, rfl, rfl, ⟨[_], rfl, ?_⟩, _, rfl, ?_⟩
    · intro j hj
      rw [List.mem_singleton.mp hj]
      exact ⟨_, List.mem_singleton.mpr rfl, rfl⟩
    · intro x hx
      cases kind with
      | within => cases hx
      | without =>
        rw [List.mem_singleton.mp hx]
        exact .unlisted (List.mem_append_right _ (List.mem_singleton.mpr rfl))
  | none =>
    simp only [meets_bind]
    cases hsql : p.condition c.settings.dialect (col.sql c.settings.dialect) with
    | error e => exact .filter hid hf hsql
    | ok sql =>
      simp only [meets_ok, meets_pure, and_true]
      refine ⟨rfl, rfl, rfl, ⟨[], (List.append_nil _).symm, nofun⟩, [_], rfl, ?_⟩
      intro x hx
      rw [List.mem_singleton.mp hx]
      exact .inline (List.mem_singleton.mpr rfl) hsql

theorem addFilters_meets : ∀ {fs : List (ColumnRef × Predicate)} {s : FlatSelect} {w : Workspace},
    (∀ f ∈ fs, ∃ id, c.tree.Live id ∧ f ∈ c.filtersOf id) →
    Meets c.Refuses (c.addFilters s fs) w fun s' w' => c.Filtered fs s s' ∧
      w'.wanted = w.wanted ∧ w'.subSelects = w.subSelects := by
  intro fs
  induction fs with
  | nil =>
    intro s w _
    exact ⟨.refl c s, rfl, rfl⟩
  | cons f fs ih =>
    intro s w hfs
    obtain ⟨id, hid, hf⟩ := hfs f List.mem_cons_self
    simp only [addFilters, meets_bind]
    refine (addFilter_meets hid hf).mono ?_
    rintro s₁ w₁ ⟨hs₁, hwanted₁, hsub₁⟩
    refine (ih fun f' hf' => hfs f' (List.mem_cons_of_mem _ hf')).mono ?_
    rintro s₂ w₂ ⟨hs₂, hwanted₂, hsub₂⟩
    exact ⟨hs₁.trans hs₂, hwanted₂.trans hwanted₁, hsub₂.trans hsub₁⟩

/-- Nodes that can be read one after the other; the column that is compared with the root id is
there. -/
structure IsRoute (c : Composer) (T : Topology) (root : Option RootCondition)
    (nodes : List Nat) : Prop where
  down : c.tree.GoesDown nodes
  ne_nil : nodes ≠ []
  bound : ∀ r, root = some r → r.node ∈ nodes → c.Has T (r.node, r.column)

/-- Nodes that can be read in one select. -/
structure IsSegment (c : Composer) (T : Topology) (root : Option RootCondition)
    (nodes : List Nat) : Prop extends c.IsRoute T root nodes where
  nodup : (nodes.map c.tableAt).Nodup

theorem IsRoute.segment (hr : c.IsRoute T root nodes) {segments : List (List Nat)}
    (hcut : c.Cut nodes segments) {segment : List Nat} (hmem : segment ∈ segments) :
    c.IsSegment T root segment := by
  have hpart : segment <:+: nodes := hcut.flatten ▸ List.infix_of_mem_flatten hmem
  refine ⟨⟨hr.down.part hpart, hcut.ne_nil segment hmem, ?_⟩, hcut.nodup segment hmem⟩
  intro r hroot hr'
  exact hr.bound r hroot (hpart.subset hr')

/-- The select reads the columns of the nodes, from the joined tables of the nodes and of no
others, under the filters of the nodes. -/
structure IsFlat (c : Composer) (T : Topology) (root : Option RootCondition) (nodes : List Nat)
    (columns : List NodeColumn) (s : FlatSelect) : Prop where
  segment : c.IsSegment T root nodes
  has : ∀ x ∈ columns, x.1 ∈ nodes ∧ c.Has T x
  columns : s.columns = columns.map c.keyAt
  tables : s.source :: s.joins.map TableJoin.table = nodes.map c.tableAt
  joins : s.joins = c.joinsAt nodes
  bulk : ∀ j ∈ s.bulkJoins, ∃ f ∈ nodes.flatMap c.filtersOf, j.column = f.1
  conditions : ∃ more, s.conditions = c.rootAt nodes root ++ more ∧
    ∀ x ∈ more, c.IsFilter (nodes.flatMap c.filtersOf) s.bulkJoins x

theorem tables_joinsAt (c : Composer) : ∀ (a : Nat) (ids : List Nat),
    c.tableAt a :: (c.joinsAt (a :: ids)).map TableJoin.table = (a :: ids).map c.tableAt := by
  intro a ids
  induction ids generalizing a with
  | nil => rfl
  | cons b ids ih =>
    rw [joinsAt, List.map_cons, ih]
    rfl

theorem Sound.flat_meets (hs : c.Sound T hops) (hseg : c.IsSegment T root nodes)
    (hcols : ∀ x ∈ columns, x.1 ∈ nodes ∧ c.Has T x) :
    Meets c.Refuses (c.flat nodes root columns) w fun s w' =>
      c.IsFlat T root nodes columns s ∧ w'.wanted = w.wanted ∧ w'.subSelects = w.subSelects := by
  obtain ⟨first, rest, rfl⟩ := List.exists_cons_of_ne_nil hseg.ne_nil
  have hlive := hseg.down.live
  have hkeys := keys_eq fun x hx => (hcols x hx).2.1
  simp only [flat, hkeys, node_eq (hlive first List.mem_cons_self), hs.joins_eq hseg.down,
    rootConditions_eq hlive, filters_eq hlive, meets_bind, meets_ok]
  refine (addFilters_meets ?_).mono ?_
  · intro f hf
    obtain ⟨id, hid, hf⟩ := List.mem_flatMap.mp hf
    exact ⟨id, hlive id hid, hf⟩
  · rintro s w' ⟨hfiltered, hw'⟩
    refine ⟨⟨hseg, hcols, hfiltered.columns, ?_, hfiltered.joins, ?_, hfiltered.conditions⟩, hw'⟩
    · rw [hfiltered.source, hfiltered.joins]
      exact c.tables_joinsAt first rest
    · obtain ⟨more, hmore, hbulk⟩ := hfiltered.bulk
      intro j hj
      rw [hmore] at hj
      exact hbulk j hj

end Composer

end TraversalSql
