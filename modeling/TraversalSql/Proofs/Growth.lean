import Mathlib.Data.List.Forall2
import TraversalSql.Proofs.Arena
import TraversalSql.Proofs.Arrivals
import TraversalSql.Proofs.WholeLinks
import TraversalSql.Tree.Build

/-!
# Growing a tree

A tree is grown hop by hop, each hop at all nodes where the one before ended. What growing leaves
behind is a statement about single nodes: the children of a node at which a hop was expanded are
the arrivals of the hop from the node's table, one by one (`Expanded`). The nodes of earlier hops
are not touched again, and a node of the frontier only gets children and, where an optional part
begins, its flag. So the statement is made once, where the node is expanded, and carried along.
-/

set_option autoImplicit false

namespace TraversalSql

variable {T : Topology} {h : Hop} {t t' t'' : QueryTree} {p id c : Nat} {n pn : QueryNode}

/-! ## 1. One node -/

/-- The node of a visit, before its hop is put on it. -/
def NewNode.node (n : NewNode) (parent : Nat) : QueryNode where
  table := n.table
  direction := some n.direction
  origin := n.origin
  depth := n.depth
  joinKey := some n.joinKey
  intermediate := n.intermediate
  parent := some parent
  properties := n.properties

/-- A node with a hop put on it. -/
def Hop.dress (h : Hop) (T : Topology) (withIds : Bool) (n : QueryNode) : QueryNode := { n with
  foreignKeys := if n.table.isEdge then (T.foreignKeys? n.table).getD ∅ else n.foreignKeys
  labels := n.labels.insertAll h.labels.toList
  emit := n.emit || h.emit
  untilFirst := h.untilFirst
  drop := h.drop
  filters := n.filters ++ (h.filtersFor? T n.table).getD []
  idPredicates :=
    if withIds then n.idPredicates ++ h.idPredicates.filterMap (Predicate.resolveIds? n.table)
    else n.idPredicates
  order := n.order ++ h.order
  range := h.range <|> n.range }

/-- A node with more children. -/
def QueryNode.adopt (n : QueryNode) (ids : List Nat) : QueryNode :=
  { n with children := n.children ++ ids }

@[simp] theorem QueryNode.adopt_parent (n : QueryNode) (ids : List Nat) :
    (n.adopt ids).parent = n.parent := rfl

@[simp] theorem QueryNode.adopt_removed (n : QueryNode) (ids : List Nat) :
    (n.adopt ids).removed = n.removed := rfl

@[simp] theorem QueryNode.adopt_table (n : QueryNode) (ids : List Nat) :
    (n.adopt ids).table = n.table := rfl

@[simp] theorem QueryNode.adopt_children (n : QueryNode) (ids : List Nat) :
    (n.adopt ids).children = n.children ++ ids := rfl

theorem QueryNode.adopt_nil (n : QueryNode) : n.adopt [] = n := by
  rw [adopt, List.append_nil]

theorem QueryNode.adopt_adopt (n : QueryNode) (ids ids' : List Nat) :
    (n.adopt ids).adopt ids' = n.adopt (ids ++ ids') := by
  rw [adopt, adopt, adopt, List.append_assoc]

/-- What later hops leave as it is. -/
def QueryNode.core (n : QueryNode) : QueryNode := { n with children := [], leftJoin := false }

theorem QueryNode.core_adopt (n : QueryNode) (ids : List Nat) : (n.adopt ids).core = n.core := rfl

/-- Nodes with the same core agree in whatever reads neither children nor the flag. -/
theorem QueryNode.eq_of_core {α : Type} (f : QueryNode → α) (hf : ∀ n, f n.core = f n)
    {n m : QueryNode} (h : n.core = m.core) : f n = f m := by
  rw [← hf n, ← hf m, h]

namespace QueryTree

theorem getElem?_modify (t : QueryTree) (id i : Nat) (f : QueryNode → QueryNode) :
    (t.modify id f).nodes[i]? = if id = i then t.nodes[i]?.map f else t.nodes[i]? := by
  simp only [modify, Array.getElem?_modify]

/-- Putting a hop on a node changes that node only. -/
theorem applyTo_ok (h : Hop) (T : Topology) (withIds : Bool) (hn : t.nodes[id]? = some n) :
    ∃ t', h.applyTo T t id withIds = .ok t' ∧ t'.nodes.size = t.nodes.size ∧
      t'.nodes[id]? = some (h.dress T withIds n) ∧ (∀ i, i ≠ id → t'.nodes[i]? = t.nodes[i]?) ∧
      t'.binding = t.binding ∧ t'.unsatisfiable = t.unsatisfiable := by
  cases withIds with
  | false =>
    simp only [Hop.applyTo, node, hn, bind, Except.bind, pure, Except.pure]
    refine ⟨_, rfl, by simp [modify], ?_, fun i hi => ?_, rfl, rfl⟩
    · rw [getElem?_modify, if_pos rfl, hn]
      rfl
    · rw [getElem?_modify, if_neg (Ne.symm hi)]
  | true =>
    simp only [Hop.applyTo, addIdPredicates, node, getElem?_modify, hn, bind, Except.bind, pure,
      Except.pure, if_true, Option.map_some]
    refine ⟨_, rfl, by simp [modify], ?_, fun i hi => ?_, rfl, rfl⟩
    · rw [getElem?_modify, if_pos rfl, getElem?_modify, if_pos rfl, hn]
      rfl
    · rw [getElem?_modify, if_neg (Ne.symm hi), getElem?_modify, if_neg (Ne.symm hi)]

/-- `t'` is `t` with a new childless node below `p`. -/
structure Sprouts (t t' : QueryTree) (p : Nat) (m : QueryNode) : Prop where
  size : t'.nodes.size = t.nodes.size + 1
  parent : ∀ {n}, t.nodes[p]? = some n →
    t'.nodes[p]? = some (n.adopt [t.nodes.size])
  new : t'.nodes[t.nodes.size]? = some m
  kept : ∀ {i}, i ≠ p → i ≠ t.nodes.size → t'.nodes[i]? = t.nodes[i]?
  binding : t'.binding = t.binding
  unsatisfiable : t'.unsatisfiable = t.unsatisfiable

theorem addChild_sprouts {nn : NewNode} (hp : t.nodes[p]? = some pn)
    (halt : pn.table.kind ≠ nn.table.kind) (hres : nn.direction ≠ .both) :
    ∃ t', t.addChild p nn = .ok (t', t.nodes.size) ∧ t.Sprouts t' p (nn.node p) := by
  have hlt : p < t.nodes.size := (Array.getElem?_eq_some_iff.mp hp).1
  simp only [addChild, node, hp, bind, Except.bind, if_neg halt, if_neg hres, pure, Except.pure]
  refine ⟨_, rfl, ?_⟩
  constructor
  · simp
  · intro n hn
    simp [Array.getElem?_modify, Array.getElem?_push, hn, Nat.ne_of_lt hlt, QueryNode.adopt]
  · rw [Array.getElem?_modify, if_neg (Nat.ne_of_lt hlt), Array.getElem?_push_size]
    rfl
  · intro i hi hi'
    simp [Array.getElem?_modify, Array.getElem?_push, Ne.symm hi, hi']
  · rfl
  · rfl

/-- A hop that ends at a new node. -/
theorem addChild_applyTo {nn : NewNode} (h : Hop) (T : Topology) (hp : t.nodes[p]? = some pn)
    (halt : pn.table.kind ≠ nn.table.kind) (hres : nn.direction ≠ .both) :
    ∃ t₁ t', t.addChild p nn = .ok (t₁, t.nodes.size) ∧
      h.applyTo T t₁ t.nodes.size true = .ok t' ∧
      t.Sprouts t' p (h.dress T true (nn.node p)) := by
  have hlt : p < t.nodes.size := (Array.getElem?_eq_some_iff.mp hp).1
  obtain ⟨t₁, hadd, hs⟩ := addChild_sprouts hp halt hres
  obtain ⟨t', happly, hsize, hnew, hkept, hbind, hunsat⟩ := applyTo_ok h T true hs.new
  refine ⟨t₁, t', hadd, happly, ?_⟩
  constructor
  · exact hsize.trans hs.size
  · intro n hn
    rw [hkept p (Nat.ne_of_lt hlt), hs.parent hn]
  · exact hnew
  · intro i hi hi'
    rw [hkept i hi', hs.kept hi hi']
  · exact hbind.trans hs.binding
  · exact hunsat.trans hs.unsatisfiable

/-- A tree from which nothing was removed. -/
structure Full (t : QueryTree) : Prop where
  wellFormed : t.WellFormed
  live : ∀ {i : Nat} {n : QueryNode}, t.nodes[i]? = some n → n.removed = false

section Sprouts

variable {m : QueryNode} (hs : t.Sprouts t' p m) (hp : t.nodes[p]? = some pn)
include hs hp

omit hp in
theorem Sprouts.old (hn : t.nodes[id]? = some n) :
    t'.nodes[id]? = some (n.adopt (if id = p then [t.nodes.size] else [])) := by
  have hlt : id < t.nodes.size := (Array.getElem?_eq_some_iff.mp hn).1
  by_cases hid : id = p
  · subst hid
    rw [hs.parent hn]
    simp
  · rw [hs.kept hid (Nat.ne_of_lt hlt), hn, if_neg hid, QueryNode.adopt_nil]

/-- Each node is the new one, or an old one with perhaps one more child. -/
theorem Sprouts.cases {n' : QueryNode} (hn' : t'.nodes[id]? = some n') :
    (id = t.nodes.size ∧ n' = m) ∨ (id ≠ t.nodes.size ∧ ∃ n, t.nodes[id]? = some n ∧
      n' = n.adopt (if id = p then [t.nodes.size] else [])) := by
  by_cases hid : id = t.nodes.size
  · subst hid
    rw [hs.new] at hn'
    cases hn'
    exact Or.inl ⟨rfl, rfl⟩
  · refine Or.inr ⟨hid, ?_⟩
    by_cases hidp : id = p
    · subst hidp
      rw [hs.parent hp] at hn'
      cases hn'
      exact ⟨pn, hp, by simp⟩
    · rw [hs.kept hidp hid] at hn'
      exact ⟨n', hn', by rw [if_neg hidp, QueryNode.adopt_nil]⟩

theorem Sprouts.parent?_old (hid : id ≠ t.nodes.size) : t'.parent? id = t.parent? id := by
  cases hn : t.nodes[id]? with
  | some n => rw [parent?_of_node (hs.old hn), parent?_of_node hn, QueryNode.adopt_parent]
  | none =>
    have hidp : id ≠ p := by
      rintro rfl
      rw [hp] at hn
      cases hn
    simp only [parent?, hs.kept hidp hid]

/-- A new node below a live one leaves the tree a tree. -/
theorem Sprouts.wellFormed (hlive : pn.removed = false) (hm : m.parent = some p)
    (hmc : m.children = []) (hmr : m.removed = false) (hw : t.WellFormed) : t'.WellFormed := by
  have hlt : p < t.nodes.size := (Array.getElem?_eq_some_iff.mp hp).1
  constructor
  · obtain ⟨r, hr, hrlive⟩ := hw.rootLive
    exact ⟨_, hs.old hr, hrlive⟩
  · have hne : root ≠ t.nodes.size := Nat.ne_of_lt (Nat.zero_lt_of_lt hlt)
    rw [hs.parent?_old hp hne, hw.rootTop]
  · intro i q hq
    by_cases hi : i = t.nodes.size
    · subst hi
      rw [parent?_of_node hs.new, hm] at hq
      cases hq
      exact hlt
    · exact hw.parentLt (hs.parent?_old hp hi ▸ hq)
  · intro i hi hroot
    obtain ⟨n', hn', hnlive⟩ := hi
    rcases hs.cases hp hn' with ⟨rfl, rfl⟩ | ⟨hne, n, hn, rfl⟩
    · refine ⟨p, _, (parent?_of_node hs.new).trans hm, hs.parent hp, hlive, ?_⟩
      simp
    · obtain ⟨q, qn, hq, hqn, hqlive, hmem⟩ := hw.listed ⟨n, hn, hnlive⟩ hroot
      exact ⟨q, _, (hs.parent?_old hp hne).trans hq, hs.old hqn, hqlive,
        List.mem_append_left _ hmem⟩
  · intro q i n' hn' hi
    rcases hs.cases hp hn' with ⟨_, rfl⟩ | ⟨_, n, hn, rfl⟩
    · rw [hmc] at hi
      cases hi
    · rcases List.mem_append.mp hi with hi | hi
      · obtain ⟨⟨m', hm', hr⟩, hq⟩ := hw.child hn hi
        have hne : i ≠ t.nodes.size := Nat.ne_of_lt (Array.getElem?_eq_some_iff.mp hm').1
        exact ⟨⟨_, hs.old hm', hr⟩, (hs.parent?_old hp hne).trans hq⟩
      · split at hi
        · rename_i hqp
          cases List.mem_singleton.mp hi
          exact ⟨⟨m, hs.new, hmr⟩, (parent?_of_node hs.new).trans (hqp ▸ hm)⟩
        · cases hi
  · intro q n' hn'
    rcases hs.cases hp hn' with ⟨_, rfl⟩ | ⟨_, n, hn, rfl⟩
    · rw [hmc]
      exact List.nodup_nil
    · refine List.Nodup.append (hw.nodup hn) ?_ ?_
      · split
        · exact List.nodup_singleton _
        · exact List.nodup_nil
      · intro i hi hi'
        obtain ⟨⟨m', hm', _⟩, _⟩ := hw.child hn hi
        have hilt : i < t.nodes.size := (Array.getElem?_eq_some_iff.mp hm').1
        split at hi'
        · exact absurd (List.mem_singleton.mp hi') (Nat.ne_of_lt hilt)
        · cases hi'

/-- A new node leaves the old ones where they were, and the tree a tree. -/
theorem Sprouts.full (hm : m.parent = some p) (hmc : m.children = []) (hmr : m.removed = false)
    (hf : t.Full) : t'.Full := by
  refine ⟨hs.wellFormed hp (hf.live hp) hm hmc hmr hf.wellFormed, ?_⟩
  intro i n' hn'
  rcases hs.cases hp hn' with ⟨_, rfl⟩ | ⟨_, n, hn, rfl⟩
  · exact hmr
  · rw [QueryNode.adopt_removed, hf.live hn]

end Sprouts

/-! ## 2. What growing leaves as it was -/

/-- `t'` has the nodes of `t`: those outside `F` as they were, and those in `F` up to children and
the flag of an optional part. -/
structure Extends (F : Nat → Prop) (t t' : QueryTree) : Prop where
  size : t.nodes.size ≤ t'.nodes.size
  kept : ∀ {i : Nat} {n : QueryNode}, t.nodes[i]? = some n → ¬ F i → t'.nodes[i]? = some n
  core : ∀ {i : Nat} {n : QueryNode}, t.nodes[i]? = some n →
    ∃ n', t'.nodes[i]? = some n' ∧ n'.core = n.core
  binding : t'.binding = t.binding
  unsatisfiable : t'.unsatisfiable = t.unsatisfiable

variable {F F' G : Nat → Prop}

theorem Extends.refl (t : QueryTree) : Extends F t t where
  size := Nat.le_refl _
  kept hn _ := hn
  core hn := ⟨_, hn, rfl⟩
  binding := rfl
  unsatisfiable := rfl

theorem Extends.trans (h : Extends F t t') (h' : Extends F' t' t'')
    (hG : ∀ i < t.nodes.size, F i ∨ F' i → G i) : Extends G t t'' where
  size := Nat.le_trans h.size h'.size
  kept {i n} hn hi := by
    have hlt : i < t.nodes.size := (Array.getElem?_eq_some_iff.mp hn).1
    exact h'.kept (h.kept hn fun hF => hi (hG i hlt (Or.inl hF))) fun hF => hi (hG i hlt (Or.inr hF))
  core hn := by
    obtain ⟨n', hn', hcore⟩ := h.core hn
    obtain ⟨n'', hn'', hcore'⟩ := h'.core hn'
    exact ⟨n'', hn'', hcore'.trans hcore⟩
  binding := h'.binding.trans h.binding
  unsatisfiable := h'.unsatisfiable.trans h.unsatisfiable

theorem Sprouts.extension {m : QueryNode} (hs : t.Sprouts t' p m) (hp : t.nodes[p]? = some pn) :
    Extends (· = p) t t' := by
  have hkept : ∀ {i : Nat} {n : QueryNode}, t.nodes[i]? = some n → i ≠ p →
      t'.nodes[i]? = some n := by
    intro i n hn hi
    rw [hs.kept hi (Nat.ne_of_lt (Array.getElem?_eq_some_iff.mp hn).1), hn]
  refine ⟨by rw [hs.size]; exact Nat.le_succ _, hkept, ?_, hs.binding, hs.unsatisfiable⟩
  intro i n hn
  by_cases hi : i = p
  · subst hi
    exact ⟨_, hs.parent hn, n.core_adopt _⟩
  · exact ⟨n, hkept hn hi, rfl⟩

end QueryTree

open QueryTree

/-- A node that the hop has just ended at. -/
structure Hop.Fresh (h : Hop) (T : Topology) (n : QueryNode) : Prop where
  depth : n.depth = h.depth
  intermediate : n.intermediate = false
  childless : n.children = []
  unmarked : n.leftJoin = false
  kind : n.table.kind = h.kind.target
  known : ∃ ps, T.properties? n.table = some ps

/-- `t'` is `t` with new nodes below those in `F`. The hop ends at the nodes `next`, and the other
new ones are only crossed. -/
structure Hop.Grows (h : Hop) (T : Topology) (F : Nat → Prop) (t t' : QueryTree)
    (next : List Nat) : Prop where
  full : t'.Full
  extension : Extends F t t'
  nodup : next.Nodup
  new : ∀ {c}, c ∈ next → t.nodes.size ≤ c
  fresh : ∀ {c}, c ∈ next → ∃ n, t'.nodes[c]? = some n ∧ h.Fresh T n
  crossed : ∀ {c : Nat} {n : QueryNode}, t'.nodes[c]? = some n → t.nodes.size ≤ c → c ∉ next →
    n.intermediate = true

variable {F F' G : Nat → Prop} {next next' : List Nat}

theorem Hop.Grows.refl (h : Hop) (hf : t.Full) : h.Grows T F t t [] where
  full := hf
  extension := .refl t
  nodup := List.nodup_nil
  new := nofun
  fresh := nofun
  crossed hn hc := absurd (Array.getElem?_eq_some_iff.mp hn).1 (Nat.not_lt.mpr hc)

theorem Hop.Grows.trans (hg : h.Grows T F t t' next) (hg' : h.Grows T F' t' t'' next')
    (hsep : ∀ c ∈ next, ¬ F' c) (hG : ∀ i < t.nodes.size, F i ∨ F' i → G i) :
    h.Grows T G t t'' (next ++ next') where
  full := hg'.full
  extension := hg.extension.trans hg'.extension hG
  nodup := by
    refine List.Nodup.append hg.nodup hg'.nodup fun c hc hc' => ?_
    obtain ⟨n, hn, _⟩ := hg.fresh hc
    exact Nat.not_lt.mpr (hg'.new hc') (Array.getElem?_eq_some_iff.mp hn).1
  new {c} hc := by
    rcases List.mem_append.mp hc with hc | hc
    · exact hg.new hc
    · exact Nat.le_trans hg.extension.size (hg'.new hc)
  fresh {c} hc := by
    rcases List.mem_append.mp hc with hc | hc
    · obtain ⟨n, hn, hfresh⟩ := hg.fresh hc
      exact ⟨n, hg'.extension.kept hn (hsep c hc), hfresh⟩
    · exact hg'.fresh hc
  crossed {c n} hn hc hnot := by
    rw [List.mem_append, not_or] at hnot
    by_cases hlt : c < t'.nodes.size
    · have hm := Array.getElem?_eq_getElem hlt
      obtain ⟨n', hn', hcore⟩ := hg'.extension.core hm
      rw [hn] at hn'
      cases hn'
      rw [QueryNode.eq_of_core QueryNode.intermediate (fun _ => rfl) hcore]
      exact hg.crossed hm hc hnot.1
    · exact hg'.crossed hn (Nat.not_lt.mp hlt) hnot.2

/-- A new node at which the hop ends. -/
theorem Hop.Grows.of_stop {nn : NewNode} (hs : t.Sprouts t' p (h.dress T true (nn.node p)))
    (hf : t.Full) (hp : t.nodes[p]? = some pn) (hstop : h.Stops T pn.table nn) :
    h.Grows T (· = p) t t' [t.nodes.size] where
  full := hs.full hp rfl rfl rfl hf
  extension := hs.extension hp
  nodup := List.nodup_singleton _
  new hc := Nat.le_of_eq (List.mem_singleton.mp hc).symm
  fresh hc := by
    rw [List.mem_singleton.mp hc]
    exact ⟨_, hs.new, hstop.depth, hstop.intermediate, rfl, rfl, hstop.kind, hstop.known⟩
  crossed {c n} hn hc hnot := by
    have hlt : c < t'.nodes.size := (Array.getElem?_eq_some_iff.mp hn).1
    rw [List.mem_singleton] at hnot
    rw [hs.size] at hlt
    omega

/-- A new node that the hop only crosses. -/
theorem Hop.Grows.of_crossed {nn : NewNode} (hs : t.Sprouts t' p (nn.node p))
    (hf : t.Full) (hp : t.nodes[p]? = some pn) (hi : nn.intermediate = true) :
    h.Grows T (· = p) t t' [] where
  full := hs.full hp rfl rfl rfl hf
  extension := hs.extension hp
  nodup := List.nodup_nil
  new := nofun
  fresh := nofun
  crossed {c n} hn hc _ := by
    have hlt : c < t'.nodes.size := (Array.getElem?_eq_some_iff.mp hn).1
    rw [hs.size] at hlt
    obtain rfl : c = t.nodes.size := by omega
    rw [hs.new] at hn
    cases hn
    exact hi

/-! ## 3. One hop at one node -/

/-- The node at which the hop ends for a visit, below `p`. -/
def Hop.StopAt (h : Hop) (T : Topology) (t : QueryTree) (p : Nat) (nn : NewNode) (c : Nat) : Prop :=
  ∃ n, t.nodes[c]? = some n ∧ n.core = h.dress T true (nn.node p)

/-- The child of `p` that stands for an arrival of the hop. -/
inductive Hop.ArrivalAt (h : Hop) (T : Topology) (t : QueryTree) (p : Nat) : Arrival → Nat → Prop
  | direct {nn : NewNode} {c : Nat} : h.StopAt T t p nn c → ArrivalAt h T t p (.direct nn) c
  | across {e : NewNode} {targets : List NewNode} {c : Nat} {cs : List Nat} :
      e.intermediate = true → t.nodes[c]? = some ((e.node p).adopt cs) →
      List.Forall₂ (h.StopAt T t c) targets cs → ArrivalAt h T t p (.across e targets) c

theorem Hop.StopAt.along {nn : NewNode} (hs : h.StopAt T t p nn c) (hx : Extends F t t') :
    h.StopAt T t' p nn c := by
  obtain ⟨n, hn, hcore⟩ := hs
  obtain ⟨n', hn', hcore'⟩ := hx.core hn
  exact ⟨n', hn', hcore'.trans hcore⟩

/-- The edge tables that are only crossed are never in a frontier. -/
def QueryTree.Stopping (t : QueryTree) (F : Nat → Prop) : Prop :=
  ∀ {c : Nat} {n : QueryNode}, F c → t.nodes[c]? = some n → n.intermediate = false

theorem Hop.ArrivalAt.along {a : Arrival} (ha : h.ArrivalAt T t p a c) (hx : Extends F t t')
    (hF : t.Stopping F) : h.ArrivalAt T t' p a c := by
  cases ha with
  | direct hs => exact .direct (hs.along hx)
  | across hi hc hts =>
    have hnot : ¬ F c := by
      intro hcF
      have hfalse : _ = false := hF hcF hc
      exact Bool.false_ne_true (hfalse.symm.trans hi)
    exact .across hi (hx.kept hc hnot) (hts.imp fun _ _ hs => hs.along hx)

/-- Attaching visits at which the hop ends gives `p` one child for each, in their order. -/
theorem Hop.attach_ok {nns : List NewNode} : ∀ {t : QueryTree} {pn : QueryNode}, t.Full →
    t.nodes[p]? = some pn → (∀ nn ∈ nns, h.Stops T pn.table nn) →
    ∃ t' ids, h.attach T p t nns = .ok (t', ids) ∧ h.Grows T (· = p) t t' ids ∧
      t'.nodes[p]? = some (pn.adopt ids) ∧ List.Forall₂ (h.StopAt T t' p) nns ids := by
  induction nns with
  | nil =>
    intro t pn hf hp _
    exact ⟨t, [], rfl, .refl h hf, by rw [pn.adopt_nil, hp], .nil⟩
  | cons nn nns ih =>
    intro t pn hf hp hstops
    have hstop := hstops nn List.mem_cons_self
    have hlt : p < t.nodes.size := (Array.getElem?_eq_some_iff.mp hp).1
    obtain ⟨t₁, t₂, hadd, happly, hs⟩ := addChild_applyTo h T hp hstop.alternates hstop.resolved
    have hg := Grows.of_stop hs hf hp hstop
    obtain ⟨t', ids, hattach, hg', hp', hall⟩ := ih hg.full (hs.parent hp)
      fun nn' hnn' => hstops nn' (List.mem_cons_of_mem _ hnn')
    refine ⟨t', t.nodes.size :: ids, ?_, ?_, ?_, ?_⟩
    · simp only [attach, hadd, happly, hattach, bind, Except.bind, pure, Except.pure]
    · refine hg.trans hg' ?_ fun i _ hi => hi.elim id id
      intro c hc
      rw [List.mem_singleton.mp hc]
      exact Nat.ne_of_gt hlt
    · rw [hp', QueryNode.adopt_adopt]
      rfl
    · have hnew : h.StopAt T t₂ p nn t.nodes.size := ⟨_, hs.new, rfl⟩
      exact .cons (hnew.along hg'.extension) hall

/-- Growing the arrivals of the hop gives `p` one child for each, in their order. -/
theorem Hop.grow_ok (hc : T.Consistent) {as : List Arrival} : ∀ {t : QueryTree} {pn : QueryNode},
    t.Full → t.nodes[p]? = some pn → pn.intermediate = false →
    (∀ a ∈ as, h.Arrives T pn.table a) →
    ∃ t' next tops, h.grow T p t as = .ok (t', next) ∧ h.Grows T (· = p) t t' next ∧
      t'.nodes[p]? = some (pn.adopt tops) ∧ List.Forall₂ (h.ArrivalAt T t' p) as tops := by
  induction as with
  | nil =>
    intro t pn hf hp _ _
    exact ⟨t, [], [], rfl, .refl h hf, by rw [pn.adopt_nil, hp], .nil⟩
  | cons a as ih =>
    intro t pn hf hp hpi harr
    have hlt : p < t.nodes.size := (Array.getElem?_eq_some_iff.mp hp).1
    have ha := harr a List.mem_cons_self
    -- the arrival itself, whichever it is
    have hfirst : ∃ t₁ ids top,
        (∀ t' more, h.grow T p t₁ as = .ok (t', more) →
          h.grow T p t (a :: as) = .ok (t', ids ++ more)) ∧
        h.Grows T (· = p) t t₁ ids ∧ t₁.nodes[p]? = some (pn.adopt [top]) ∧
        h.ArrivalAt T t₁ p a top := by
      cases a with
      | direct nn =>
        have hstops : ∀ nn' ∈ [nn], h.Stops T pn.table nn' := by
          intro nn' hnn'
          rw [List.mem_singleton.mp hnn']
          exact ha.stops hc
        obtain ⟨t₁, ids, hattach, hg, hp₁, hall⟩ := attach_ok hf hp hstops
        cases hall with
        | cons hstop hnil =>
          cases hnil
          refine ⟨t₁, _, _, fun t' more hmore => ?_, hg, hp₁, .direct hstop⟩
          simp only [grow, hattach, hmore, bind, Except.bind, pure, Except.pure]
      | across e targets =>
        obtain ⟨hcross, hstops⟩ := ha.crosses hc
        obtain ⟨t₀, hadd, hs⟩ := addChild_sprouts hp hcross.alternates hcross.resolved
        have hg₀ : h.Grows T (· = p) t t₀ [] := .of_crossed hs hf hp hcross.intermediate
        obtain ⟨t₁, ids, hattach, hg, he, hall⟩ := attach_ok hg₀.full hs.new hstops
        refine ⟨t₁, ids, t.nodes.size, fun t' more hmore => ?_,
          hg₀.trans hg (fun _ hc => absurd hc List.not_mem_nil) ?_, ?_,
          .across hcross.intermediate he hall⟩
        · simp only [grow, hadd, hattach, hmore, bind, Except.bind, pure, Except.pure]
        · rintro i hi (rfl | rfl)
          · rfl
          · exact absurd hi (Nat.lt_irrefl _)
        · exact hg.extension.kept (hs.parent hp) (Nat.ne_of_lt hlt)
    obtain ⟨t₁, ids, top, hgrow, hg, hp₁, hat⟩ := hfirst
    obtain ⟨t', next, tops, hgrow', hg', hp', hall⟩ := ih hg.full hp₁ hpi
      fun a' ha' => harr a' (List.mem_cons_of_mem _ ha')
    have hstopping : t₁.Stopping (· = p) := by
      rintro c n rfl hn
      rw [hp₁] at hn
      cases hn
      exact hpi
    refine ⟨t', ids ++ next, top :: tops, ?_, ?_, ?_, .cons (hat.along hg'.extension hstopping) hall⟩
    · exact hgrow _ _ hgrow'
    · refine hg.trans hg' (fun c hc => ?_) fun i _ hi => hi.elim id id
      exact Nat.ne_of_gt (Nat.lt_of_lt_of_le hlt (hg.new hc))
    · rw [hp', QueryNode.adopt_adopt]
      rfl

/-- The hop was expanded at the node: the children are its arrivals from the node's table. -/
def Hop.Expanded (h : Hop) (T : Topology) (t : QueryTree) (p : Nat) : Prop :=
  ∃ n as, t.nodes[p]? = some n ∧ h.arrivals T n.table = .ok as ∧ n.leftJoin = h.leftJoin ∧
    List.Forall₂ (h.ArrivalAt T t p) as n.children

theorem Hop.Expanded.along (he : h.Expanded T t p) (hx : Extends F t t') (hF : t.Stopping F)
    (hp : ¬ F p) : h.Expanded T t' p := by
  obtain ⟨n, as, hn, has, hl, hall⟩ := he
  exact ⟨n, as, hx.kept hn hp, has, hl, hall.imp fun _ _ ha => ha.along hx hF⟩

/-- A node at which the hop can be expanded. -/
structure Hop.ReadyAt (h : Hop) (n : QueryNode) : Prop where
  intermediate : n.intermediate = false
  childless : n.children = []
  marked : n.leftJoin = h.leftJoin

/-- Expanding a hop fails only where it has no arrivals. -/
theorem Hop.expand_spec (hc : T.Consistent) (hf : t.Full) (hp : t.nodes[p]? = some pn)
    (hr : h.ReadyAt pn) :
    (∃ t' next, h.expand T t p = .ok (t', next) ∧ h.Grows T (· = p) t t' next ∧
      h.Expanded T t' p) ∨
    (∃ e, h.expand T t p = .error e ∧ h.arrivals T pn.table = .error e) := by
  cases has : h.arrivals T pn.table with
  | error e =>
    refine Or.inr ⟨e, ?_, rfl⟩
    simp only [expand, node, hp, has, bind, Except.bind]
  | ok as =>
    obtain ⟨t', next, tops, hgrow, hg, hp', hall⟩ := grow_ok hc hf hp hr.intermediate
      fun a ha => (mem_arrivals_iff hc has).mp ha
    refine Or.inl ⟨t', next, ?_, hg, pn.adopt tops, as, hp', has, hr.marked, ?_⟩
    · simp only [expand, node, hp, has, hgrow, bind, Except.bind]
    · rw [QueryNode.adopt_children, hr.childless, List.nil_append]
      exact hall

namespace Run

/-! ## 4. One hop at all nodes of a frontier -/

theorem expandAll_spec (hc : T.Consistent) (h : Hop) : ∀ {frontier : List Nat} {t : QueryTree},
    t.Full → frontier.Nodup → (∀ p ∈ frontier, ∃ n, t.nodes[p]? = some n ∧ h.ReadyAt n) →
    (∃ t' next, expandAll T h t frontier = .ok (t', next) ∧
      h.Grows T (· ∈ frontier) t t' next ∧ ∀ p ∈ frontier, h.Expanded T t' p) ∨
    (∃ e p n, expandAll T h t frontier = .error e ∧ p ∈ frontier ∧ t.nodes[p]? = some n ∧
      h.arrivals T n.table = .error e) := by
  intro frontier
  induction frontier with
  | nil =>
    intro t hf _ _
    exact Or.inl ⟨t, [], rfl, .refl h hf, nofun⟩
  | cons p ps ih =>
    intro t hf hnodup hready
    obtain ⟨hp, hnodup⟩ := List.nodup_cons.mp hnodup
    obtain ⟨pn, hpn, hr⟩ := hready p List.mem_cons_self
    rcases h.expand_spec hc hf hpn hr with ⟨t₁, ids, hexp, hg, hexpanded⟩ | ⟨e, hexp, harr⟩
    · have hold : ∀ q ∈ ps, ∃ n, t.nodes[q]? = some n ∧ t₁.nodes[q]? = some n ∧ h.ReadyAt n := by
        intro q hq
        obtain ⟨n, hn, hrn⟩ := hready q (List.mem_cons_of_mem _ hq)
        have hne : q ≠ p := fun heq => hp (heq ▸ hq)
        exact ⟨n, hn, hg.extension.kept hn hne, hrn⟩
      have hstopping : t₁.Stopping (· ∈ ps) := by
        intro q n hq hn
        obtain ⟨m, _, hm, hrm⟩ := hold q hq
        rw [hm] at hn
        cases hn
        exact hrm.intermediate
      have hready' : ∀ q ∈ ps, ∃ n, t₁.nodes[q]? = some n ∧ h.ReadyAt n := fun q hq => by
        obtain ⟨n, _, hn, hrn⟩ := hold q hq
        exact ⟨n, hn, hrn⟩
      rcases ih hg.full hnodup hready' with
        ⟨t', next, hall, hg', hexpanded'⟩ | ⟨e, q, n, hall, hq, hn, harr⟩
      · refine Or.inl ⟨t', ids ++ next, ?_, ?_, ?_⟩
        · simp only [expandAll, hexp, hall, bind, Except.bind, pure, Except.pure]
        · refine hg.trans hg' (fun c hc hcps => ?_) fun i _ hi => ?_
          · obtain ⟨n, hn, _⟩ := hold c hcps
            exact Nat.not_lt.mpr (hg.new hc) (Array.getElem?_eq_some_iff.mp hn).1
          · exact hi.elim (fun heq => heq ▸ List.mem_cons_self) (List.mem_cons_of_mem _)
        · intro q hq
          rcases List.mem_cons.mp hq with rfl | hq
          · exact hexpanded.along hg'.extension hstopping hp
          · exact hexpanded' q hq
      · obtain ⟨m, hm, hm₁, _⟩ := hold q hq
        rw [hm₁] at hn
        cases hn
        refine Or.inr ⟨e, q, n, ?_, List.mem_cons_of_mem _ hq, hm, harr⟩
        simp only [expandAll, hexp, hall, bind, Except.bind]
    · refine Or.inr ⟨e, p, pn, ?_, List.mem_cons_self, hpn, harr⟩
      simp only [expandAll, hexp, bind, Except.bind]

/-- A frontier node with its flag. -/
def flagged (h : Hop) (n : QueryNode) : QueryNode := { n with leftJoin := n.leftJoin || h.leftJoin }

theorem markFrontier_nodes (h : Hop) (frontier : List Nat) (t : QueryTree) (i : Nat) :
    (markFrontier h t frontier).nodes[i]?
      = if i ∈ frontier then t.nodes[i]?.map (flagged h) else t.nodes[i]? := by
  unfold markFrontier
  cases hl : h.leftJoin with
  | false =>
    have hid : flagged h = id := by
      funext n
      simp [flagged, hl]
    simp [hid]
  | true =>
    have hflag : flagged h = fun n => { n with leftJoin := true } := by
      funext n
      simp [flagged, hl]
    simp only [if_true, hflag]
    induction frontier generalizing t with
    | nil => simp
    | cons p ps ih =>
      rw [List.foldl_cons, ih, getElem?_modify]
      by_cases hip : p = i
      · subst hip
        by_cases hmem : p ∈ ps
        · simp [hmem, Function.comp_def]
        · simp [hmem]
      · have hne : i ≠ p := fun heq => hip heq.symm
        by_cases hmem : i ∈ ps <;> simp [hip, hne, hmem]

theorem markFrontier_frame (h : Hop) (frontier : List Nat) (t : QueryTree) :
    (markFrontier h t frontier).binding = t.binding ∧
      (markFrontier h t frontier).unsatisfiable = t.unsatisfiable ∧
      (markFrontier h t frontier).nodes.size = t.nodes.size := by
  unfold markFrontier
  split
  · induction frontier generalizing t with
    | nil => exact ⟨rfl, rfl, rfl⟩
    | cons p ps ih =>
      obtain ⟨hb, hu, hs⟩ := ih (t.modify p fun n => { n with leftJoin := true })
      exact ⟨hb, hu, hs.trans (Array.size_modify ..)⟩
  · exact ⟨rfl, rfl, rfl⟩

/-- Flags of optional parts do not matter to the shape of a tree. -/
theorem markFrontier_full (h : Hop) (frontier : List Nat) (hf : t.Full) :
    (markFrontier h t frontier).Full := by
  refine ⟨hf.wellFormed.of_links fun i => ?_, fun {i n'} hn' => ?_⟩
  · rw [markFrontier_nodes]
    split
    · rw [Option.map_map]
      rfl
    · rfl
  · rw [markFrontier_nodes] at hn'
    split at hn'
    · obtain ⟨n, hn, rfl⟩ := Option.map_eq_some_iff.mp hn'
      exact (hf.live hn : n.removed = false)
    · exact hf.live hn'

theorem markFrontier_over (h : Hop) (frontier : List Nat) (t : QueryTree) :
    Extends (· ∈ frontier) t (markFrontier h t frontier) := by
  obtain ⟨hb, hu, hs⟩ := markFrontier_frame h frontier t
  refine ⟨Nat.le_of_eq hs.symm, ?_, ?_, hb, hu⟩
  · intro i n hn hi
    rw [markFrontier_nodes, if_neg hi, hn]
  · intro i n hn
    rw [markFrontier_nodes, hn]
    split
    · exact ⟨_, rfl, rfl⟩
    · exact ⟨n, rfl, rfl⟩

/-! ## 5. One hop after the other -/

/-- A tree in the course of growing: the hops `done` were expanded, each at every node at which the
one before ended, and the last of them ended at the nodes of the frontier. -/
structure Growing (T : Topology) (done : List Hop) (last : Hop) (t : QueryTree)
    (frontier : List Nat) : Prop where
  full : t.Full
  depth : last.depth = done.length
  nodup : frontier.Nodup
  fresh : ∀ {p}, p ∈ frontier → ∃ n, t.nodes[p]? = some n ∧ last.Fresh T n
  inner : ∀ {p : Nat} {n : QueryNode}, t.nodes[p]? = some n → n.intermediate = false →
    p ∉ frontier → ∃ h, done[n.depth]? = some h ∧ h.Expanded T t p

/-- A tree that all hops were expanded in. -/
structure Grown (T : Topology) (hops : List Hop) (t : QueryTree) : Prop where
  full : t.Full
  stop : ∀ {p : Nat} {n : QueryNode}, t.nodes[p]? = some n → n.intermediate = false →
    (n.depth = hops.length ∧ n.children = [] ∧ n.leftJoin = false) ∨
    (∃ h, hops[n.depth]? = some h ∧ h.Expanded T t p)

/-- One hop more. -/
theorem Growing.step {done : List Hop} {last : Hop} {frontier : List Nat} (hc : T.Consistent)
    (hg : Growing T done last t frontier) (hdepth : h.depth = done.length + 1) :
    (∃ t' next, expandAll T h (markFrontier h t frontier) frontier = .ok (t', next) ∧
      Extends (fun _ => True) t t' ∧ Growing T (done ++ [h]) h t' next) ∨
    (∃ e table, expandAll T h (markFrontier h t frontier) frontier = .error e ∧
      table.kind = last.kind.target ∧ (∃ ps, T.properties? table = some ps) ∧
      h.arrivals T table = .error e) := by
  have hmark : ∀ {p}, p ∈ frontier → ∃ n, t.nodes[p]? = some n ∧ last.Fresh T n ∧
      (markFrontier h t frontier).nodes[p]? = some (flagged h n) := by
    intro p hp
    obtain ⟨n, hn, hfresh⟩ := hg.fresh hp
    exact ⟨n, hn, hfresh, by rw [markFrontier_nodes, if_pos hp, hn, Option.map_some]⟩
  have hready : ∀ p ∈ frontier, ∃ n, (markFrontier h t frontier).nodes[p]? = some n ∧
      h.ReadyAt n := by
    intro p hp
    obtain ⟨n, _, hfresh, hn⟩ := hmark hp
    refine ⟨_, hn, hfresh.intermediate, hfresh.childless, ?_⟩
    rw [flagged, hfresh.unmarked, Bool.false_or]
  have hstopping : t.Stopping (· ∈ frontier) := by
    intro p n hp hn
    obtain ⟨m, hm, hfresh⟩ := hg.fresh hp
    rw [hm] at hn
    cases hn
    exact hfresh.intermediate
  have hover := markFrontier_over h frontier t
  rcases expandAll_spec hc h (markFrontier_full h frontier hg.full) hg.nodup hready with
    ⟨t', next, hall, hgrows, hexpanded⟩ | ⟨e, p, n, hall, hp, hn, harr⟩
  · have hover' : Extends (· ∈ frontier) t t' := hover.trans hgrows.extension fun i _ hi => hi.elim id id
    refine Or.inl ⟨t', next, hall, hover.trans hgrows.extension fun _ _ _ => trivial, ?_⟩
    refine ⟨hgrows.full, by rw [hdepth, List.length_append]; rfl, hgrows.nodup, hgrows.fresh, ?_⟩
    intro p n hn hi hp
    by_cases hlt : p < t.nodes.size
    · obtain ⟨m, hm⟩ : ∃ m, t.nodes[p]? = some m := ⟨_, Array.getElem?_eq_getElem hlt⟩
      by_cases hpF : p ∈ frontier
      · obtain ⟨m', hm', hfresh⟩ := hg.fresh hpF
        obtain ⟨n', hn', hcore⟩ := hover'.core hm'
        rw [hn] at hn'
        cases hn'
        have hd := QueryNode.eq_of_core QueryNode.depth (fun _ => rfl) hcore
        refine ⟨h, ?_, hexpanded p hpF⟩
        rw [hd, hfresh.depth, hg.depth, List.getElem?_concat_length]
      · have hn' := hover'.kept hm hpF
        rw [hn] at hn'
        cases hn'
        obtain ⟨h', hh', hex⟩ := hg.inner hm hi hpF
        refine ⟨h', ?_, hex.along hover' hstopping hpF⟩
        rw [List.getElem?_append_left (List.getElem?_eq_some_iff.mp hh').1, hh']
    · have hsize := (markFrontier_frame h frontier t).2.2
      have := hgrows.crossed hn (hsize ▸ Nat.not_lt.mp hlt) hp
      rw [hi] at this
      cases this
  · obtain ⟨m, hm, hfresh, hm'⟩ := hmark hp
    rw [hm'] at hn
    cases hn
    exact Or.inr ⟨e, m.table, hall, hfresh.kind, hfresh.known, harr⟩

/-- **A whole run.** Growing fails only where a hop has no arrivals from a table in which the hop
before it can end; otherwise every hop was expanded wherever the one before ended. -/
theorem Growing.run (hc : T.Consistent) : ∀ {hops done : List Hop} {last : Hop} {t : QueryTree}
    {frontier : List Nat}, Growing T done last t frontier →
    (∀ {k : Nat} {h : Hop}, hops[k]? = some h → h.depth = done.length + k + 1) →
    (∃ t', expandHops T t frontier hops = .ok t' ∧ Extends (fun _ => True) t t' ∧
      Grown T (done ++ hops) t') ∨
    (∃ (e : TreeError) (k : Nat) (h prev : Hop) (table : Table),
      expandHops T t frontier hops = .error e ∧ hops[k]? = some h ∧
      (last :: hops)[k]? = some prev ∧ table.kind = prev.kind.target ∧
      (∃ ps, T.properties? table = some ps) ∧ h.arrivals T table = .error e) := by
  intro hops
  induction hops with
  | nil =>
    intro done last t frontier hg _
    refine Or.inl ⟨t, rfl, .refl t, hg.full, ?_⟩
    intro p n hn hi
    rw [List.append_nil]
    by_cases hp : p ∈ frontier
    · obtain ⟨m, hm, hfresh⟩ := hg.fresh hp
      rw [hm] at hn
      cases hn
      exact Or.inl ⟨hfresh.depth.trans hg.depth, hfresh.childless, hfresh.unmarked⟩
    · exact Or.inr (hg.inner hn hi hp)
  | cons h hops ih =>
    intro done last t frontier hg hdepth
    rcases hg.step hc (hdepth (k := 0) rfl) with
      ⟨t₁, next, hall, hover, hg₁⟩ | ⟨e, table, hall, hkind, hknown, harr⟩
    · have hdepth' : ∀ {k h'}, hops[k]? = some h' → h'.depth = (done ++ [h]).length + k + 1 := by
        intro k h' hh'
        rw [hdepth (k := k + 1) hh', List.length_append, List.length_singleton]
        omega
      rcases ih hg₁ hdepth' with
        ⟨t', hrun, hover', hgrown⟩ | ⟨e, k, h', prev, table, hrun, hk, hprev, rest⟩
      · refine Or.inl ⟨t', ?_, hover.trans hover' fun _ _ _ => trivial, ?_⟩
        · simp only [expandHops, hall, hrun, bind, Except.bind]
        · rwa [List.append_assoc] at hgrown
      · refine Or.inr ⟨e, k + 1, h', prev, table, ?_, hk, hprev, rest⟩
        simp only [expandHops, hall, hrun, bind, Except.bind]
    · refine Or.inr ⟨e, 0, h, last, table, ?_, rfl, rfl, hkind, hknown, harr⟩
      simp only [expandHops, hall, bind, Except.bind]

/-- Nothing that growing says of a tree depends on its full depth. -/
theorem Grown.setFullDepth {hops : List Hop} (hg : Grown T hops t) (d : Nat) :
    Grown T hops { t with fullDepth := d } := by
  have hw := hg.full.wellFormed
  have hx : Extends (fun _ => False) t { t with fullDepth := d } :=
    ⟨Nat.le_refl _, fun hn _ => hn, fun hn => ⟨_, hn, rfl⟩, rfl, rfl⟩
  refine ⟨⟨⟨hw.rootLive, hw.rootTop, hw.parentLt, hw.listed, hw.child, hw.nodup⟩, hg.full.live⟩, ?_⟩
  intro p n hn hi
  refine (hg.stop hn hi).imp id ?_
  rintro ⟨h, hh, hex⟩
  exact ⟨h, hh, hex.along hx (fun hc _ => hc.elim) id⟩

/-- The node of a root table, before the root hop is put on it. -/
def rootNode (T : Topology) (table : Table) : QueryNode where
  table := table
  direction := none
  origin := .graphRoot
  depth := 0
  joinKey := none
  parent := none
  properties := (T.properties? table).getD ∅

/-- A tree of one node is a tree. -/
theorem full_of_single (hsize : t.nodes.size = 1) (hn : t.nodes[root]? = some n)
    (hp : n.parent = none) (hchildren : n.children = []) (hr : n.removed = false) : t.Full := by
  have honly : ∀ {i : Nat} {m : QueryNode}, t.nodes[i]? = some m → i = root ∧ m = n := by
    intro i m hm
    have hlt : i < t.nodes.size := (Array.getElem?_eq_some_iff.mp hm).1
    obtain rfl : i = root := by
      simp only [root]
      omega
    rw [hn] at hm
    cases hm
    exact ⟨rfl, rfl⟩
  refine ⟨?_, fun hm => (honly hm).2 ▸ hr⟩
  constructor
  · exact ⟨n, hn, hr⟩
  · rw [parent?_of_node hn, hp]
  · intro i p hip
    obtain ⟨m, hm, hmp⟩ := Option.bind_eq_some_iff.mp hip
    rw [(honly hm).2, hp] at hmp
    cases hmp
  · rintro i ⟨m, hm, _⟩ hi
    exact absurd (honly hm).1 hi
  · intro p c m hm hmem
    rw [(honly hm).2, hchildren] at hmem
    cases hmem
  · intro p m hm
    rw [(honly hm).2, hchildren]
    exact List.nodup_nil

/-- The grown tree of a root table, before pruning. -/
structure Planted (T : Topology) (hop : Hop) (rest : List Hop) (table : Table)
    (binding : RootBinding) (t : QueryTree) : Prop where
  grown : Grown T rest t
  fullDepth : t.fullDepth = rest.length
  bound : t.binding = binding
  satisfiable : t.unsatisfiable = false
  rootNode : ∃ n, t.nodes[root]? = some n ∧
    n.core = hop.dress T (keepsIds binding) (rootNode T table)

/-- **The tree of a root table.** It is a grown tree after pruning, or a hop has no arrivals from
a table in which the hop before it can end. -/
theorem tree_spec (hc : T.Consistent) {hop : Hop} {rest : List Hop} {table : Table}
    {binding : RootBinding} (hdepth : hop.depth = 0)
    (hdepths : ∀ {k : Nat} {h : Hop}, rest[k]? = some h → h.depth = k + 1)
    (hkind : table.kind = hop.kind.target) (hknown : ∃ ps, T.properties? table = some ps) :
    (∃ t, tree T hop rest table binding = .ok t.prune ∧ Planted T hop rest table binding t) ∨
    (∃ (e : TreeError) (k : Nat) (h prev : Hop) (source : Table),
      tree T hop rest table binding = .error e ∧ rest[k]? = some h ∧
      (hop :: rest)[k]? = some prev ∧ source.kind = prev.kind.target ∧
      (∃ ps, T.properties? source = some ps) ∧ h.arrivals T source = .error e) := by
  let new := QueryTree.new table ((T.properties? table).getD ∅) binding
  have hnew : new.nodes[root]? = some (rootNode T table) := rfl
  obtain ⟨seed, happly, hsize, hn, _, hbind, hunsat⟩ := applyTo_ok hop T (keepsIds binding) hnew
  have hseed : hop.applyTo T (QueryTree.new table ((T.properties? table).getD ∅) binding) root
      (keepsIds binding) = .ok seed := happly
  have hgrowing : Growing T [] hop seed [root] := by
    refine ⟨full_of_single hsize hn rfl rfl rfl, hdepth, List.nodup_singleton _, ?_, ?_⟩
    · intro p hp
      rw [List.mem_singleton.mp hp]
      exact ⟨_, hn, hdepth.symm, rfl, rfl, rfl, hkind, hknown⟩
    · intro p n hp _ hnot
      have hlt : p < seed.nodes.size := (Array.getElem?_eq_some_iff.mp hp).1
      rw [hsize, show new.nodes.size = 1 from rfl] at hlt
      exact absurd (List.mem_singleton.mpr (Nat.lt_one_iff.mp hlt)) hnot
  have hdepths' : ∀ {k : Nat} {h : Hop}, rest[k]? = some h → h.depth = ([] : List Hop).length + k + 1 := by
    intro k h hk
    rw [hdepths hk, List.length_nil, Nat.zero_add]
  rcases hgrowing.run hc hdepths' with
    ⟨t, hrun, hover, hgrown⟩ | ⟨e, k, h, prev, tbl, hrun, hfacts⟩
  · obtain ⟨n, hn', hcore⟩ := hover.core hn
    have hplain := hgrown.setFullDepth rest.length
    refine Or.inl ⟨{ t with fullDepth := rest.length }, ?_, hplain, rfl,
      hover.binding.trans hbind, hover.unsatisfiable.trans hunsat, n, hn', hcore⟩
    simp only [tree, hseed, hrun, bind, Except.bind]
    exact pruned_eq hplain.full.wellFormed
  · refine Or.inr ⟨e, k, h, prev, tbl, ?_, hfacts⟩
    simp only [tree, hseed, hrun, bind, Except.bind]

end Run

end TraversalSql
