import TraversalSql.Proofs.Descent
import TraversalSql.Proofs.Literals
import TraversalSql.Sql.Plan

/-!
# Literals and query trees

Hops that differ in the literals of their filters grow trees that do: table by table, node by
node and stack by stack the trees are the same, up to the literals in the filters of their nodes.
-/

set_option autoImplicit false

namespace TraversalSql

/-! ## 1. Hops, nodes and trees that are alike -/

/-- The filters ask for the same key by predicates that are alike and mention few values. -/
structure Filter.Like (x : Exchange) (f g : Filter) : Prop where
  key : g.key = f.key
  predicate : f.predicate.Like x g.predicate
  few : f.predicate.values.length ≤ x.settings.bulkThreshold

/-- The hops differ in their filters, which are alike. -/
inductive Hop.Like (x : Exchange) : Hop → Hop → Prop
  | mk (h : Hop) {fs : List Filter} (filters : List.Forall₂ (Filter.Like x) h.filters fs) :
    Like x h { h with filters := fs }

/-- The nodes differ in their filters, which are alike. -/
inductive QueryNode.Like (x : Exchange) : QueryNode → QueryNode → Prop
  | mk (n : QueryNode) {fs : List Filter} (filters : List.Forall₂ (Filter.Like x) n.filters fs) :
    Like x n { n with filters := fs }

/-- The trees differ in their nodes, which are alike. -/
inductive QueryTree.Like (x : Exchange) : QueryTree → QueryTree → Prop
  | mk (t : QueryTree) {nodes : Array QueryNode}
    (nodes_like : List.Forall₂ (QueryNode.Like x) t.nodes.toList nodes.toList) :
    Like x t { t with nodes := nodes }

variable {x : Exchange}

section Lists

variable {α β γ : Type} {R : α → β → Prop} {as : List α} {bs : List β}

theorem any_of_forall₂ {p : α → Bool} {q : β → Bool} (h : List.Forall₂ R as bs)
    (hpq : ∀ a b, R a b → q b = p a) : bs.any q = as.any p := by
  induction h with
  | nil => rfl
  | cons hab _ ih => rw [List.any_cons, List.any_cons, hpq _ _ hab, ih]

theorem all_of_forall₂ {p : α → Bool} {q : β → Bool} (h : List.Forall₂ R as bs)
    (hpq : ∀ a b, R a b → q b = p a) : bs.all q = as.all p := by
  induction h with
  | nil => rfl
  | cons hab _ ih => rw [List.all_cons, List.all_cons, hpq _ _ hab, ih]

theorem filter_of_forall₂ {p : α → Bool} {q : β → Bool} (h : List.Forall₂ R as bs)
    (hpq : ∀ a b, R a b → q b = p a) : List.Forall₂ R (as.filter p) (bs.filter q) := by
  induction h with
  | nil => exact .nil
  | @cons a b as bs hab _ ih =>
    rw [List.filter_cons, List.filter_cons, hpq a b hab]
    split
    · exact .cons hab ih
    · exact ih

theorem forall₂_zipIdx (h : List.Forall₂ R as bs) (k : Nat) :
    List.Forall₂ (fun a b => R a.1 b.1 ∧ a.2 = b.2) (as.zipIdx k) (bs.zipIdx k) := by
  induction h generalizing k with
  | nil => exact .nil
  | cons hab _ ih => exact .cons ⟨hab, rfl⟩ (ih (k + 1))

theorem getElem?_of_both (h : List.Forall₂ R as bs) (i : Nat) :
    (as[i]? = none ∧ bs[i]? = none) ∨ ∃ a b, as[i]? = some a ∧ bs[i]? = some b ∧ R a b := by
  induction h generalizing i with
  | nil => exact .inl ⟨rfl, rfl⟩
  | cons hab _ ih =>
    cases i with
    | zero => exact .inr ⟨_, _, rfl, rfl, hab⟩
    | succ i => exact ih i

theorem forall₂_modify {R : α → α → Prop} {as bs : List α} (h : List.Forall₂ R as bs)
    {f g : α → α} (hfg : ∀ a b, R a b → R (f a) (g b)) (i : Nat) :
    List.Forall₂ R (as.modify i f) (bs.modify i g) := by
  induction h generalizing i with
  | nil => cases i <;> exact .nil
  | cons hab hs ih =>
    cases i with
    | zero => exact .cons (hfg _ _ hab) hs
    | succ i => exact .cons hab (ih i)

end Lists

namespace QueryNode.Like

variable {n m : QueryNode}

theorem hasFilters (h : n.Like x m) : m.hasFilters = n.hasFilters := by
  obtain ⟨hfs⟩ := h
  cases hn : n.filters with
  | nil =>
    rw [hn] at hfs
    cases hfs
    simp [QueryNode.hasFilters, hn]
  | cons f fs =>
    rw [hn] at hfs
    cases hfs
    simp [QueryNode.hasFilters, hn]

theorem isBlocked (h : n.Like x m) : m.isBlocked = n.isBlocked := by
  obtain ⟨hfs⟩ := h
  unfold QueryNode.isBlocked
  rw [any_of_forall₂ hfs fun f g hfg => hfg.predicate.isEmptyMembership]

end QueryNode.Like

namespace QueryTree

variable {t u : QueryTree}

namespace Like

theorem binding (h : t.Like x u) : u.binding = t.binding := by
  obtain ⟨_⟩ := h
  rfl

theorem leaves (h : t.Like x u) : u.leaves = t.leaves := by
  obtain ⟨_⟩ := h
  rfl

theorem fullDepth (h : t.Like x u) : u.fullDepth = t.fullDepth := by
  obtain ⟨_⟩ := h
  rfl

theorem unsatisfiable (h : t.Like x u) : u.unsatisfiable = t.unsatisfiable := by
  obtain ⟨_⟩ := h
  rfl

theorem setLeaves (h : t.Like x u) (ids : List Nat) :
    { t with leaves := ids }.Like x { u with leaves := ids } := by
  obtain ⟨hnodes⟩ := h
  exact .mk _ hnodes

theorem size (h : t.Like x u) : u.nodes.size = t.nodes.size := by
  obtain ⟨hnodes⟩ := h
  exact hnodes.length_eq.symm

/-- The nodes of a number are alike, or neither tree has one. -/
theorem get (h : t.Like x u) (i : Nat) : (t.nodes[i]? = none ∧ u.nodes[i]? = none) ∨
    ∃ n m, t.nodes[i]? = some n ∧ u.nodes[i]? = some m ∧ n.Like x m := by
  obtain ⟨hnodes⟩ := h
  rw [← Array.getElem?_toList, ← Array.getElem?_toList]
  exact getElem?_of_both hnodes i

/-- What is read of a node but its filters is the same. -/
theorem read {α : Type} (h : t.Like x u) (f : Option QueryNode → α)
    (hf : ∀ n fs, f (some { n with filters := fs }) = f (some n)) (i : Nat) :
    f u.nodes[i]? = f t.nodes[i]? := by
  rcases h.get i with ⟨ht, hu⟩ | ⟨n, m, ht, hu, ⟨_⟩⟩
  · rw [ht, hu]
  · rw [ht, hu]
    exact hf n _

theorem node (h : t.Like x u) (i : Nat) : Agree (QueryNode.Like x) (t.node i) (u.node i) := by
  unfold QueryTree.node
  rcases h.get i with ⟨ht, hu⟩ | ⟨n, m, ht, hu, hn⟩
  · rw [ht, hu]
    trivial
  · rw [ht, hu]
    exact hn

/-- What is done with a node but for its filters is the same. -/
theorem bind_node {α : Type} (h : t.Like x u) (i : Nat) {k : QueryNode → Except TreeError α}
    (hk : ∀ n fs, k { n with filters := fs } = k n) : (u.node i >>= k) = t.node i >>= k := by
  unfold QueryTree.node
  rcases h.get i with ⟨ht, hu⟩ | ⟨n, m, ht, hu, ⟨_⟩⟩
  · rw [ht, hu]
  · rw [ht, hu]
    exact hk n _

theorem modify (h : t.Like x u) {f g : QueryNode → QueryNode}
    (hfg : ∀ n m, n.Like x m → (f n).Like x (g m)) (i : Nat) :
    (t.modify i f).Like x (u.modify i g) := by
  obtain ⟨hnodes⟩ := h
  refine .mk (t.modify i f) ?_
  simp only [QueryTree.modify, Array.toList_modify]
  exact forall₂_modify hnodes hfg i

/-- A node is changed in what is not a filter. -/
theorem modify_beside (h : t.Like x u) {f : QueryNode → QueryNode}
    (hf : ∀ n fs, f { n with filters := fs } = { f n with filters := fs }) (i : Nat) :
    (t.modify i f).Like x (u.modify i f) := by
  apply h.modify
  intro n m hn
  obtain @⟨fs, hfs⟩ := hn
  have hfilters := congrArg QueryNode.filters (hf n n.filters)
  rw [hf n fs]
  refine .mk (f n) ?_
  rw [show (f n).filters = n.filters from hfilters]
  exact hfs

theorem foldl {α : Type} {f : QueryTree → α → QueryTree}
    (hf : ∀ t u a, t.Like x u → (f t a).Like x (f u a)) (as : List α) (h : t.Like x u) :
    (as.foldl f t).Like x (as.foldl f u) := by
  induction as generalizing t u with
  | nil => exact h
  | cons a as ih => exact ih (hf t u a h)

theorem foldlM {α : Type} {f : QueryTree → α → Except TreeError QueryTree}
    (hf : ∀ t u a, t.Like x u → Agree (QueryTree.Like x) (f t a) (f u a)) (as : List α)
    (h : t.Like x u) : Agree (QueryTree.Like x) (as.foldlM f t) (as.foldlM f u) := by
  induction as generalizing t u with
  | nil => exact h
  | cons a as ih =>
    rw [List.foldlM_cons, List.foldlM_cons]
    exact (hf t u a h).bind fun _ _ h => ih h

theorem live (h : t.Like x u) :
    List.Forall₂ (fun a b => a.1 = b.1 ∧ a.2.Like x b.2) t.live u.live := by
  obtain ⟨hnodes⟩ := h
  unfold QueryTree.live
  rw [List.forall₂_map_left_iff, List.forall₂_map_right_iff]
  refine (filter_of_forall₂ (forall₂_zipIdx hnodes 0) ?_).imp fun a b hab => ⟨hab.2, hab.1⟩
  intro a b hab
  obtain ⟨n, i⟩ := a
  obtain ⟨m, j⟩ := b
  obtain ⟨⟨_⟩, _⟩ := hab
  rfl

/-- Live nodes are found in the same places. -/
theorem liveWhere (h : t.Like x u) {p q : Nat → QueryNode → Bool}
    (hpq : ∀ i n m, n.Like x m → q i m = p i n) : u.liveWhere q = t.liveWhere p := by
  refine map_eq_of_forall₂ (filter_of_forall₂ h.live ?_) fun a b hab => hab.1.symm
  intro a b hab
  obtain ⟨i, n⟩ := a
  obtain ⟨j, m⟩ := b
  obtain ⟨rfl, hn⟩ := hab
  exact hpq i n m hn

/-! ### Pruning -/

theorem below (h : t.Like x u) (depth id : Nat) : u.below depth id = t.below depth id := by
  induction depth generalizing id with
  | zero => rfl
  | succ depth ih =>
    rw [QueryTree.below, QueryTree.below, funext ih]
    rcases h.get id with ⟨ht, hu⟩ | ⟨n, m, ht, hu, ⟨_⟩⟩
    · rw [ht, hu]
    · rw [ht, hu]

theorem findBelow (h : t.Like x u) (depth id : Nat) :
    u.findBelow depth id = t.findBelow depth id := by
  induction depth generalizing id with
  | zero => rfl
  | succ depth ih =>
    rw [QueryTree.findBelow, QueryTree.findBelow, funext ih]
    exact h.bind_node id fun _ _ => rfl

theorem detach (h : t.Like x u) (parent id : Nat) :
    (t.detach parent id).Like x (u.detach parent id) := by
  have hcut : (t.modify parent fun n => { n with children := n.children.filter (· != id) }).Like x
      (u.modify parent fun n => { n with children := n.children.filter (· != id) }) :=
    h.modify_beside (fun _ _ => by rfl) parent
  unfold QueryTree.detach
  simp only
  rcases hcut.get parent with ⟨ht, hu⟩ | ⟨n, m, ht, hu, ⟨_⟩⟩
  · rw [ht, hu]
    exact hcut
  · rw [ht, hu, hcut.leaves]
    simp only
    split
    · exact hcut.setLeaves _
    · exact hcut

theorem dropSubtree (h : t.Like x u) (id : Nat) :
    (t.dropSubtree id).Like x (u.dropSubtree id) := by
  have hbare := foldl
    (f := fun t i => t.modify i fun n => { n with removed := true, children := [] })
    (fun _ _ i h => h.modify_beside (fun _ _ => by rfl) i) (t.below t.nodes.size id) h
  have hparent := h.read (fun n => n.bind QueryNode.parent) (fun _ _ => rfl) id
  unfold QueryTree.dropSubtree
  simp only [h.size, h.below, h.leaves, hparent]
  split
  · exact (hbare.setLeaves _).detach _ _
  · exact hbare.setLeaves _

theorem removeSubtree (h : t.Like x u) (id : Nat) :
    Agree (QueryTree.Like x) (t.removeSubtree id) (u.removeSubtree id) := by
  unfold QueryTree.removeSubtree
  split
  · trivial
  · apply (h.node id).bind
    rintro n m ⟨_⟩
    have hparent : Agree (fun _ _ => True) (n.parent.mapM t.node) (n.parent.mapM u.node) := by
      cases n.parent with
      | none => trivial
      | some p => exact (h.node p).map (f := some) (g := some) fun _ _ _ => trivial
    rw [h.size, h.findBelow]
    apply (Agree.refl _).bind
    intro _ _ _
    apply hparent.bind
    intro _ _ _
    exact h.dropSubtree id

theorem removeBlocked (h : t.Like x u) (id : Nat) :
    Agree (QueryTree.Like x) (t.removeBlocked id) (u.removeBlocked id) := by
  unfold QueryTree.removeBlocked
  split
  · obtain ⟨hnodes⟩ := h
    exact .mk _ hnodes
  · apply (h.node id).bind
    rintro n m ⟨_⟩
    simp only
    split
    · exact h
    · exact h.removeSubtree id

theorem removeBarren (h : t.Like x u) (rounds : Nat) :
    Agree (QueryTree.Like x) (QueryTree.removeBarren rounds t)
      (QueryTree.removeBarren rounds u) := by
  induction rounds generalizing t u with
  | zero => exact h
  | succ rounds ih =>
    have hbarren : u.barrenLeaves = t.barrenLeaves := by
      apply h.liveWhere
      intro i n m hn
      obtain ⟨_⟩ := hn
      simp only [isBarren, h.fullDepth]
    rw [QueryTree.removeBarren, QueryTree.removeBarren, hbarren]
    split
    · exact h
    · apply (foldlM (fun _ _ i h => h.removeSubtree i) _ h).bind
      exact fun _ _ h => ih h

theorem pruned (h : t.Like x u) : Agree (QueryTree.Like x) t.pruned u.pruned := by
  -- a node is cut off for the shape of its filters, never for a literal
  have hblocked : u.liveWhere (fun _ n => n.isBlocked) = t.liveWhere fun _ n => n.isBlocked :=
    h.liveWhere fun i n m hn => hn.isBlocked
  unfold QueryTree.pruned
  rw [hblocked]
  apply (foldlM (fun _ _ i h => h.removeBlocked i) _ h).bind
  intro t u h
  rw [h.size]
  exact h.removeBarren _

/-! ### Stacks -/

theorem findAncestors (h : t.Like x u) (steps id : Nat) :
    u.findAncestors steps id = t.findAncestors steps id := by
  induction steps generalizing id with
  | zero => rfl
  | succ steps ih =>
    rw [QueryTree.findAncestors, QueryTree.findAncestors, funext ih]
    exact h.bind_node id fun _ _ => rfl

theorem pathTo (h : t.Like x u) (id : Nat) : u.pathTo id = t.pathTo id := by
  rw [QueryTree.pathTo, h.findAncestors, QueryTree.pathTo]

theorem findBranches (h : t.Like x u) (depth id : Nat) :
    u.findBranches depth id = t.findBranches depth id := by
  induction depth generalizing id with
  | zero => rfl
  | succ depth ih =>
    rw [QueryTree.findBranches, QueryTree.findBranches, funext ih]
    exact h.bind_node id fun _ _ => rfl

theorem findBranchesBelow (h : t.Like x u) (id : Nat) :
    u.findBranchesBelow id = t.findBranchesBelow id := by
  rw [QueryTree.findBranchesBelow, QueryTree.findBranchesBelow, h.size,
    funext (h.findBranches t.nodes.size)]
  exact h.bind_node id fun _ _ => rfl

theorem regularLeaves (h : t.Like x u) : u.regularLeaves = t.regularLeaves := by
  apply h.liveWhere
  intro i n m hn
  obtain ⟨_⟩ := hn
  simp only [h.fullDepth]

theorem frontiers (h : t.Like x u) : u.frontiers = t.frontiers := by
  apply h.liveWhere
  intro i n m hn
  obtain ⟨_⟩ := hn
  rfl

theorem emitted (h : t.Like x u) : u.emitted = t.emitted := by
  unfold QueryTree.emitted
  simp only [h.regularLeaves]
  apply h.liveWhere
  intro i n m hn
  obtain ⟨_⟩ := hn
  rfl

theorem pathStacks (h : t.Like x u) (phase : Phase) : u.pathStacks phase = t.pathStacks phase := by
  unfold QueryTree.pathStacks
  rw [h.unsatisfiable, funext h.findBranchesBelow, funext h.pathTo, h.regularLeaves, h.frontiers,
    h.emitted]

end Like

end QueryTree

/-! ## 2. Growth -/

/-- The trees are alike, and what comes with them is the same. -/
abbrev LikeWith {α : Type} (x : Exchange) (r s : QueryTree × α) : Prop :=
  r.1.Like x s.1 ∧ r.2 = s.2

/-- What is attached below a node, and the rest behind it. -/
theorem LikeWith.bind {r s : Except TreeError (QueryTree × List Nat)}
    {f g : QueryTree → Except TreeError (QueryTree × List Nat)} (h : Agree (LikeWith x) r s)
    (hfg : ∀ t u, t.Like x u → Agree (LikeWith x) (f t) (g u)) :
    Agree (LikeWith x) (do
        let (t, ids) ← r
        let (t, more) ← f t
        return (t, ids ++ more))
      (do
        let (t, ids) ← s
        let (t, more) ← g t
        return (t, ids ++ more)) := by
  apply Agree.bind h
  intro r s hrs
  apply (hfg _ _ hrs.1).bind
  intro r' s' hrs'
  exact ⟨hrs'.1, by rw [hrs.2, hrs'.2]⟩

namespace QueryTree.Like

variable {t u : QueryTree}

theorem addChild (h : t.Like x u) (parent : Nat) (child : NewNode) :
    Agree (LikeWith x) (t.addChild parent child) (u.addChild parent child) := by
  unfold QueryTree.addChild
  apply (h.node parent).bind
  intro n m hn
  obtain ⟨_⟩ := hn
  rw [h.size, h.leaves]
  simp only
  split
  · trivial
  · split
    · trivial
    · refine ⟨?_, rfl⟩
      obtain ⟨hnodes⟩ := h
      refine .mk _ ?_
      simp only [Array.toList_modify, Array.toList_push]
      apply forall₂_modify
      · exact List.rel_append hnodes (.cons (.mk _ .nil) .nil)
      · intro n m hn
        obtain ⟨hfs⟩ := hn
        exact .mk _ hfs

theorem addIdPredicates (h : t.Like x u) (id : Nat) (ps : List Predicate) :
    Agree (QueryTree.Like x) (t.addIdPredicates id ps) (u.addIdPredicates id ps) := by
  unfold QueryTree.addIdPredicates
  apply (h.node id).bind
  intro n m hn
  obtain ⟨_⟩ := hn
  show QueryTree.Like x _ _
  exact h.modify_beside (fun _ _ => by rfl) id

theorem addIdPredicatesIf (h : t.Like x u) (id : Nat) (ps : List Predicate) (withIds : Bool) :
    Agree (QueryTree.Like x) (if withIds then t.addIdPredicates id ps else return t)
      (if withIds then u.addIdPredicates id ps else return u) := by
  split
  · exact h.addIdPredicates id ps
  · exact h

end QueryTree.Like

namespace Hop.Like

variable {h k : Hop} (T : Topology)

theorem filtersFor? (hk : h.Like x k) (table : Table) :
    (h.filtersFor? T table = none ∧ k.filtersFor? T table = none) ∨
    ∃ fs gs, h.filtersFor? T table = some fs ∧ k.filtersFor? T table = some gs ∧
      List.Forall₂ (Filter.Like x) fs gs := by
  obtain ⟨hfs⟩ := hk
  unfold Hop.filtersFor?
  cases T.properties? table with
  | none => exact .inl ⟨rfl, rfl⟩
  | some properties =>
    have hkept : ∀ f g : Filter, f.Like x g →
        (properties.contains g.key || g.predicate.isAbsent)
          = (properties.contains f.key || f.predicate.isAbsent) := by
      intro f g hfg
      rw [hfg.key, hfg.predicate.isAbsent]
    have hall := all_of_forall₂ hfs hkept
    simp only [Option.bind_eq_bind, Option.bind_some, hall]
    split
    · exact .inr ⟨_, _, rfl, rfl, filter_of_forall₂ hfs fun f g hfg => by rw [hfg.key]⟩
    · exact .inl ⟨rfl, rfl⟩

theorem matchesTable (hk : h.Like x k) (table : Table) :
    k.matchesTable T table = h.matchesTable T table := by
  have hsome : (k.filtersFor? T table).isSome = (h.filtersFor? T table).isSome := by
    rcases hk.filtersFor? T table with ⟨hh, hk⟩ | ⟨fs, gs, hh, hk, _⟩
    · rw [hh, hk]
    · rw [hh, hk]
      rfl
  unfold Hop.matchesTable
  rw [hsome]
  obtain ⟨_⟩ := hk
  rfl

theorem rootTables (hk : h.Like x k) : k.rootTables T = h.rootTables T := by
  unfold Hop.rootTables
  rw [funext (hk.matchesTable T)]
  obtain ⟨_⟩ := hk
  rfl

theorem endpoints (hk : h.Like x k) (origin : NodeOrigin) (edge : Table)
    (side direction : Direction) :
    k.endpoints T origin edge side direction = h.endpoints T origin edge side direction := by
  unfold Hop.endpoints
  rw [funext (hk.matchesTable T)]
  obtain ⟨_⟩ := hk
  rfl

theorem arrivalAlong (hk : h.Like x k) (parent : Table) (returns : ElementKind)
    (direction : Direction) (edge : Table) :
    k.arrivalAlong T parent returns direction edge
      = h.arrivalAlong T parent returns direction edge := by
  unfold Hop.arrivalAlong
  rw [hk.matchesTable T, hk.endpoints T]
  obtain ⟨_⟩ := hk
  rfl

/-- The hops arrive at the same tables, or at none; only the text of a fault may differ. -/
theorem arrivals (hk : h.Like x k) (parent : Table) :
    Agree Eq (h.arrivals T parent) (k.arrivals T parent) := by
  have hkind : k.kind = h.kind := by
    obtain ⟨_⟩ := hk
    rfl
  unfold Hop.arrivals
  rw [hkind]
  cases h.kind with
  | graphRoot _ => trivial
  | incomingRoot _ => trivial
  | move m =>
    cases m with
    | follow direction labels returns =>
      simp only [hk.arrivalAlong T]
      split
      · cases T.incidence? parent with
        | none => trivial
        | some incidence => exact rfl
      · trivial
    | endpoint direction =>
      simp only [hk.endpoints T]
      split
      · exact rfl
      · trivial

variable {t u : QueryTree}

theorem applyTo (hk : h.Like x k) (ht : t.Like x u) (id : Nat) (withIds : Bool) :
    Agree (QueryTree.Like x) (h.applyTo T t id withIds) (k.applyTo T u id withIds) := by
  unfold Hop.applyTo
  apply (ht.node id).bind
  intro n m hn
  obtain ⟨_⟩ := hn
  have hfilters : List.Forall₂ (Filter.Like x) ((h.filtersFor? T n.table).getD [])
      ((k.filtersFor? T n.table).getD []) := by
    rcases hk.filtersFor? T n.table with ⟨hh, hk⟩ | ⟨fs, gs, hh, hk, hfs⟩
    · rw [hh, hk]
      exact .nil
    · rw [hh, hk]
      exact hfs
  obtain ⟨_⟩ := hk
  -- of all that is put on the node, only the filters may differ
  apply QueryTree.Like.addIdPredicatesIf
  apply ht.modify
  intro n m hn
  obtain ⟨hfs⟩ := hn
  exact .mk _ (List.rel_append hfs hfilters)

theorem attach (hk : h.Like x k) (parent : Nat) (ns : List NewNode) (ht : t.Like x u) :
    Agree (LikeWith x) (h.attach T parent t ns) (k.attach T parent u ns) := by
  induction ns generalizing t u with
  | nil => exact ⟨ht, rfl⟩
  | cons n ns ih =>
    rw [Hop.attach, Hop.attach]
    apply (ht.addChild parent n).bind
    intro r s hrs
    obtain ⟨t₁, id⟩ := r
    obtain ⟨u₁, id'⟩ := s
    obtain ⟨ht₁, rfl⟩ := hrs
    apply (hk.applyTo T ht₁ id true).bind
    intro t₂ u₂ ht₂
    apply (ih ht₂).bind
    intro r s hrs
    obtain ⟨ht₃, hids⟩ := hrs
    exact ⟨ht₃, congrArg (id :: ·) hids⟩

theorem grow (hk : h.Like x k) (parent : Nat) (arrivals : List Arrival) (ht : t.Like x u) :
    Agree (LikeWith x) (h.grow T parent t arrivals) (k.grow T parent u arrivals) := by
  induction arrivals generalizing t u with
  | nil => exact ⟨ht, rfl⟩
  | cons a rest ih =>
    cases a with
    | direct n =>
      rw [Hop.grow, Hop.grow]
      exact LikeWith.bind (hk.attach T parent [n] ht) fun t u ht => ih ht
    | across edge targets =>
      rw [Hop.grow, Hop.grow]
      apply (ht.addChild parent edge).bind
      intro r s hrs
      obtain ⟨t₁, id⟩ := r
      obtain ⟨u₁, id'⟩ := s
      obtain ⟨ht₁, rfl⟩ := hrs
      exact LikeWith.bind (hk.attach T id targets ht₁) fun t u ht => ih ht

theorem expand (hk : h.Like x k) (ht : t.Like x u) (parent : Nat) :
    Agree (LikeWith x) (h.expand T t parent) (k.expand T u parent) := by
  unfold Hop.expand
  apply (ht.node parent).bind
  intro n m hn
  obtain ⟨_⟩ := hn
  apply (hk.arrivals T n.table).bind
  intro as bs has
  subst has
  exact hk.grow T parent as ht

theorem expandAll (hk : h.Like x k) (frontier : List Nat) (ht : t.Like x u) :
    Agree (LikeWith x) (Run.expandAll T h t frontier) (Run.expandAll T k u frontier) := by
  induction frontier generalizing t u with
  | nil => exact ⟨ht, rfl⟩
  | cons parent parents ih =>
    rw [Run.expandAll, Run.expandAll]
    exact LikeWith.bind (hk.expand T ht parent) fun t u ht => ih ht

theorem markFrontier (hk : h.Like x k) (ht : t.Like x u) (frontier : List Nat) :
    (Run.markFrontier h t frontier).Like x (Run.markFrontier k u frontier) := by
  obtain ⟨_⟩ := hk
  unfold Run.markFrontier
  simp only
  split
  · refine QueryTree.Like.foldl ?_ frontier ht
    exact fun _ _ id ht => ht.modify_beside (fun _ _ => by rfl) id
  · exact ht

end Hop.Like

/-! ## 3. Runs -/

namespace Run

variable (T : Topology) {t u : QueryTree}

theorem expandHops_like {hops ks : List Hop} (hlike : List.Forall₂ (Hop.Like x) hops ks)
    (frontier : List Nat) (ht : t.Like x u) :
    Agree (QueryTree.Like x) (expandHops T t frontier hops) (expandHops T u frontier ks) := by
  induction hlike generalizing t u frontier with
  | nil => exact ht
  | cons hk _ ih =>
    rw [expandHops, expandHops]
    apply (hk.expandAll T frontier (hk.markFrontier ht frontier)).bind
    intro r s hrs
    obtain ⟨t₁, next⟩ := r
    obtain ⟨u₁, next'⟩ := s
    obtain ⟨ht₁, rfl⟩ := hrs
    exact ih next ht₁

theorem tree_like {root root' : Hop} (hroot : root.Like x root') {rest rest' : List Hop}
    (hrest : List.Forall₂ (Hop.Like x) rest rest') (table : Table) (binding : RootBinding) :
    Agree (QueryTree.Like x) (tree T root rest table binding)
      (tree T root' rest' table binding) := by
  have hseed : (QueryTree.new table ((T.properties? table).getD ∅) binding).Like x
      (QueryTree.new table ((T.properties? table).getD ∅) binding) :=
    .mk _ (.cons (.mk _ .nil) .nil)
  unfold tree
  apply (hroot.applyTo T hseed _ _).bind
  intro t u ht
  apply (expandHops_like T hrest _ ht).bind
  intro t u ht
  apply QueryTree.Like.pruned
  rw [hrest.length_eq]
  obtain ⟨hnodes⟩ := ht
  exact .mk _ hnodes

/-- Runs that are alike have trees that are alike. -/
theorem trees_like {run run' : Run} (hlike : List.Forall₂ (Hop.Like x) run.hops run'.hops)
    (settings : Settings) :
    Agree (List.Forall₂ (QueryTree.Like x)) (run.trees settings T) (run'.trees settings T) := by
  obtain ⟨hops⟩ := run
  obtain ⟨ks⟩ := run'
  cases hlike with
  | nil => exact .nil
  | @cons root root' rest rest' hroot hrest =>
    have hbinding : rootBinding? settings root' = rootBinding? settings root := by
      obtain ⟨_⟩ := hroot
      rfl
    simp only [trees, hroot.rootTables T, hbinding]
    apply Agree.mapM_same
    intro a
    exact tree_like T hroot hrest a.1 a.2

end Run

/-- Trees that are alike have the same stacks. -/
theorem stacksOf_like {trees trees' : List QueryTree}
    (h : List.Forall₂ (QueryTree.Like x) trees trees') :
    Agree (List.Forall₂ (LikeWith x)) (stacksOf trees)
      (stacksOf trees') := by
  unfold stacksOf
  have hphase : ∀ phase, Agree (List.Forall₂ (List.Forall₂ (LikeWith x)))
      (trees.mapM fun t => do return (← t.pathStacks phase).map fun stack => (t, stack))
      (trees'.mapM fun t => do return (← t.pathStacks phase).map fun stack => (t, stack)) := by
    intro phase
    apply Agree.mapM h
    intro t u ht
    rw [ht.pathStacks phase]
    apply (Agree.refl _).bind
    rintro listed _ rfl
    show List.Forall₂ _ _ _
    rw [List.forall₂_map_left_iff, List.forall₂_map_right_iff]
    exact List.forall₂_same.mpr fun _ _ => ⟨ht, rfl⟩
  apply (Agree.mapM_same Phase.all hphase).bind
  intro found found' hfound
  show List.Forall₂ _ _ _
  apply List.rel_flatten
  rw [List.forall₂_map_left_iff, List.forall₂_map_right_iff]
  exact hfound.imp fun _ _ h => List.rel_flatten h

end TraversalSql
