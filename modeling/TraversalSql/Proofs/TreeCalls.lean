import TraversalSql.Proofs.PlainRuns
import TraversalSql.Proofs.Survivors

/-!
# A tree in use

A tree is put together by calls that change it in place: nodes are added and removed, branches are
pruned, hops are expanded. A call may be refused, and expanding a hop takes many steps, so a refusal
in the middle would leave half an expansion behind. Here the calls are computations on a tree in
place, in which a fault leaves whatever was done before it. `outcome_expandHere` and its companions
say that what they return is what the functions on trees return. The main statement is about any
sequence of calls, refused ones among them, whatever the topology: the array stays a tree, tables of
vertices and edges alternate, every node below the root knows how it was reached, and the list of
leaves, which is kept by hand, is the list of the live nodes without children (`Intact`).
-/

set_option autoImplicit false

namespace TraversalSql

open QueryTree

/-! ## 1. Calls -/

/-- A computation on a tree in place. A fault ends it; what was done until then stays. -/
abbrev Surgery := EStateM TreeError QueryTree

namespace Surgery

variable {α β : Type}

/-- A function on trees that is refused before it changes anything. -/
def change (f : QueryTree → Except TreeError (QueryTree × α)) : Surgery α := fun t =>
  match f t with
  | .ok (t', a) => .ok a t'
  | .error e => .error e t

/-- A question to the tree, which may have no answer. -/
def look (f : QueryTree → Except TreeError α) : Surgery α := change fun t => (f t).map (t, ·)

/-- A change with nothing to return. -/
def update (f : QueryTree → Except TreeError QueryTree) : Surgery Unit :=
  change fun t => (f t).map (·, ())

/-- The tree that is left behind, with or without a fault. -/
def left (m : Surgery α) (t : QueryTree) : QueryTree :=
  match m t with
  | .ok _ t' => t'
  | .error _ t' => t'

/-- The computation as a function on trees. -/
def outcome (m : Surgery α) (t : QueryTree) : Except TreeError (QueryTree × α) :=
  match m t with
  | .ok a t' => .ok (t', a)
  | .error e _ => .error e

end Surgery

namespace Hop

open Surgery

variable (h : Hop) (T : Topology)

/-- `attach` in place. -/
def attachHere (parent : Nat) : List NewNode → Surgery (List Nat)
  | [] => return []
  | n :: ns => do
    let id ← change fun t => t.addChild parent n
    update fun t => h.applyTo T t id true
    let ids ← attachHere parent ns
    return id :: ids

/-- `grow` in place. -/
def growHere (parent : Nat) : List Arrival → Surgery (List Nat)
  | [] => return []
  | .direct n :: rest => do
    let ids ← h.attachHere T parent [n]
    let more ← growHere parent rest
    return ids ++ more
  | .across edge targets :: rest => do
    let id ← change fun t => t.addChild parent edge
    let ids ← h.attachHere T id targets
    let more ← growHere parent rest
    return ids ++ more

/-- `expand` in place. -/
def expandHere (parent : Nat) : Surgery (List Nat) := do
  let n ← look fun t => t.node parent
  let arrivals ← look fun _ => h.arrivals T n.table
  h.growHere T parent arrivals

end Hop

/-- A call on a tree, with whatever arguments. -/
inductive TreeCall where
  | addChild (parent : Nat) (child : NewNode)
  | removeSubtree (id : Nat)
  | prune
  | expand (T : Topology) (h : Hop) (parent : Nat)
  /-- Flags, depth and filters of a node are set at will. -/
  | editNode (id : Nat) (e : NodeEdit)
  | setFullDepth (depth : Nat)

namespace TreeCall

open QueryTree Surgery

/-- The node that the call is made at. -/
def node? : TreeCall → Option Nat
  | addChild parent _ => some parent
  | removeSubtree id => some id
  | prune => none
  | expand _ _ parent => some parent
  | editNode id _ => some id
  | setFullDepth _ => none

/-- The tree that a call leaves, refused or not. -/
def leaves (t : QueryTree) : TreeCall → QueryTree
  | addChild parent child => left (change fun t => t.addChild parent child) t
  | removeSubtree id => left (update fun t => t.removeSubtree id) t
  | prune => left (update pruned) t
  | expand T h parent => left (h.expandHere T parent) t
  | editNode id e => t.modify id (QueryNode.edit e)
  | setFullDepth depth => { t with fullDepth := depth }

end TreeCall

/-- The trees that come from a single node by calls at live nodes, some of which may have been
refused. -/
inductive QueryTree.Handled : QueryTree → Prop
  | new (table : Table) (properties : Properties) (binding : RootBinding) :
      Handled (.new table properties binding)
  | call {t : QueryTree} (h : Handled t) (c : TreeCall)
      (hlive : ∀ id, c.node? = some id → t.Live id) : Handled (c.leaves t)

/-! ## 2. In place or not -/

namespace Surgery

variable {α β : Type}

theorem outcome_change (f : QueryTree → Except TreeError (QueryTree × α)) (t : QueryTree) :
    outcome (change f) t = f t := by
  simp only [outcome, change]
  cases f t <;> rfl

theorem outcome_pure (a : α) (t : QueryTree) : outcome (pure a) t = .ok (t, a) := rfl

theorem outcome_bind (m : Surgery α) (f : α → Surgery β) (t : QueryTree) :
    outcome (m >>= f) t = outcome m t >>= fun r => outcome (f r.2) r.1 := by
  simp only [outcome, bind, EStateM.bind]
  cases m t <;> rfl

theorem outcome_look (f : QueryTree → Except TreeError α) (t : QueryTree) :
    outcome (look f) t = (f t).map (t, ·) := outcome_change _ t

theorem outcome_update (f : QueryTree → Except TreeError QueryTree) (t : QueryTree) :
    outcome (update f) t = (f t).map (·, ()) := outcome_change _ t

end Surgery

namespace Hop

open Surgery

variable (h : Hop) (T : Topology)

theorem outcome_attachHere (ns : List NewNode) : ∀ (parent : Nat) (t : QueryTree),
    outcome (h.attachHere T parent ns) t = h.attach T parent t ns := by
  induction ns with
  | nil => exact fun _ _ => rfl
  | cons n ns ih =>
    intro parent t
    simp only [attachHere, attach, outcome_bind, outcome_change, outcome_update, outcome_pure, ih]
    cases t.addChild parent n with
    | error e => rfl
    | ok added =>
      obtain ⟨t₁, id⟩ := added
      simp only [bind, Except.bind]
      cases h.applyTo T t₁ id true <;> rfl

theorem outcome_growHere (parent : Nat) (as : List Arrival) : ∀ t : QueryTree,
    outcome (h.growHere T parent as) t = h.grow T parent t as := by
  induction as with
  | nil => exact fun _ => rfl
  | cons a as ih =>
    intro t
    cases a <;>
      simp only [growHere, grow, outcome_bind, outcome_change, outcome_pure, outcome_attachHere, ih]
        <;> rfl

/-- **Expanding in place returns what expanding returns.** -/
theorem outcome_expandHere (parent : Nat) (t : QueryTree) :
    outcome (h.expandHere T parent) t = h.expand T t parent := by
  simp only [expandHere, expand, outcome_bind, outcome_look, outcome_growHere]
  cases t.node parent with
  | error e => rfl
  | ok n =>
    simp only [Except.map, bind, Except.bind]
    cases h.arrivals T n.table <;> rfl

/-- The call leaves the tree that expanding makes. -/
theorem leaves_expand {parent : Nat} {t t' : QueryTree} {ids : List Nat}
    (hexp : h.expand T t parent = .ok (t', ids)) : (TreeCall.expand T h parent).leaves t = t' := by
  rw [← outcome_expandHere, outcome] at hexp
  simp only [TreeCall.leaves, left]
  cases hrun : h.expandHere T parent t with
  | ok a t₁ =>
    rw [hrun] at hexp
    cases hexp
    rfl
  | error e t₁ =>
    rw [hrun] at hexp
    cases hexp

end Hop

namespace QueryTree

/-! ## 3. Intact trees -/

/-- The array is a tree, and the tree is kept up to date. -/
structure Intact (t : QueryTree) : Prop extends WellFormed t where
  /-- Tables of vertices and tables of edges alternate. -/
  alternates : ∀ {id p : Nat} {n pn : QueryNode}, t.nodes[id]? = some n → n.parent = some p →
    t.nodes[p]? = some pn → pn.table.kind ≠ n.table.kind
  /-- A node below the root was reached in one direction, over one key. -/
  reached : ∀ {id : Nat} {n : QueryNode}, t.nodes[id]? = some n → id ≠ root →
    (n.direction = some .outgoing ∨ n.direction = some .incoming) ∧ n.joinKey.isSome = true
  leavesNodup : t.leaves.Nodup
  mem_leaves : ∀ {id : Nat}, id ∈ t.leaves ↔ t.Leaf id

end QueryTree

/-- All of a node that an intact tree depends on. -/
def QueryNode.seat (n : QueryNode) :
    (Option Nat × List Nat × Bool) × Table × Option Direction × Option ForeignKey :=
  (n.links, n.table, n.direction, n.joinKey)

namespace QueryTree

variable {t t' : QueryTree} {d id p : Nat} {n pn : QueryNode}

theorem Leaf.of_seats (h : t.Leaf id)
    (hseats : ∀ i : Nat, t'.nodes[i]?.map QueryNode.seat = t.nodes[i]?.map QueryNode.seat) :
    t'.Leaf id := by
  obtain ⟨n, hn, hlive, hnil⟩ := h
  obtain ⟨n', hn', hseat⟩ := exists_node_of_map_eq hseats hn
  simp only [QueryNode.seat, QueryNode.links, Prod.mk.injEq] at hseat
  obtain ⟨⟨_, hchildren, hremoved⟩, _⟩ := hseat
  exact ⟨n', hn', hremoved.trans hlive, hchildren.trans hnil⟩

/-- A tree is intact by the seats of its nodes and its leaves alone. -/
theorem Intact.of_seats (h : t.Intact)
    (hseats : ∀ i : Nat, t'.nodes[i]?.map QueryNode.seat = t.nodes[i]?.map QueryNode.seat)
    (hleaves : t'.leaves = t.leaves) : t'.Intact := by
  have hback : ∀ i : Nat, t.nodes[i]?.map QueryNode.seat = t'.nodes[i]?.map QueryNode.seat :=
    fun i => (hseats i).symm
  refine ⟨h.toWellFormed.of_links fun i => ?_, ?_, ?_, hleaves ▸ h.leavesNodup, fun {i} => ?_⟩
  · have hi := congrArg (Option.map Prod.fst) (hseats i)
    rwa [Option.map_map, Option.map_map] at hi
  · intro i q n' pn' hn' hq hpn'
    obtain ⟨n, hn, hseat⟩ := exists_node_of_map_eq hback hn'
    obtain ⟨pn, hpn, hpseat⟩ := exists_node_of_map_eq hback hpn'
    simp only [QueryNode.seat, QueryNode.links, Prod.mk.injEq] at hseat hpseat
    rw [← hseat.2.1, ← hpseat.2.1]
    exact h.alternates hn (hseat.1.1.trans hq) hpn
  · intro i n' hn' hi
    obtain ⟨n, hn, hseat⟩ := exists_node_of_map_eq hback hn'
    simp only [QueryNode.seat, Prod.mk.injEq] at hseat
    rw [← hseat.2.2.1, ← hseat.2.2.2]
    exact h.reached hn hi
  · rw [hleaves, h.mem_leaves]
    exact ⟨fun hi => hi.of_seats hseats, fun hi => hi.of_seats hback⟩

theorem intact_new (table : Table) (properties : Properties) (binding : RootBinding) :
    (new table properties binding).Intact := by
  have honly : ∀ {i : Nat} {n : QueryNode}, (new table properties binding).nodes[i]? = some n →
      i = root := fun hn => Nat.lt_one_iff.mp (lt_size_of_node hn)
  refine ⟨wellFormed_new table properties binding, ?_, fun hn hi => absurd (honly hn) hi,
    List.nodup_singleton _, fun {i} => ?_⟩
  · intro i q n pn hn hq _
    obtain rfl := honly hn
    cases hn
    cases hq
  · constructor
    · intro hi
      cases List.mem_singleton.mp hi
      exact ⟨_, rfl, rfl, rfl⟩
    · rintro ⟨n, hn, _⟩
      exact honly hn ▸ List.mem_singleton_self _

/-! ## 4. Adding a node -/

/-- A new node below a live one, of the other kind and reached in one direction. -/
theorem Sprouts.intact {child : NewNode} (hs : t.Sprouts t' p (child.node p))
    (hp : t.nodes[p]? = some pn) (hlive : pn.removed = false)
    (halt : pn.table.kind ≠ child.table.kind) (hres : child.direction ≠ .both)
    (hleaves : t'.leaves = t.leaves.filter (· != p) ++ [t.nodes.size]) (h : t.Intact) :
    t'.Intact := by
  have hnew : ∀ {i}, i ∈ t.leaves → i < t.nodes.size := by
    intro i hi
    obtain ⟨n, hn, _⟩ := h.mem_leaves.mp hi
    exact lt_size_of_node hn
  have hsize : p ≠ t.nodes.size := Nat.ne_of_lt (lt_size_of_node hp)
  refine ⟨hs.wellFormed hp hlive rfl rfl rfl h.toWellFormed, ?_, ?_, ?_, fun {i} => ?_⟩
  · intro i q n' qn' hn' hq hqn'
    rcases hs.cases hp hn' with ⟨rfl, rfl⟩ | ⟨_, n, hn, rfl⟩
    · cases hq
      rw [hs.parent hp] at hqn'
      cases hqn'
      exact halt
    · rcases hs.cases hp hqn' with ⟨rfl, rfl⟩ | ⟨_, qn, hqn, rfl⟩
      · -- nobody had the new node as its parent
        have hlt := h.parentLt ((parent?_of_node hn).trans hq)
        exact absurd hlt (Nat.not_lt.mpr (Nat.le_of_lt (lt_size_of_node hn)))
      · exact (h.alternates hn hq hqn :)
  · intro i n' hn' hi
    rcases hs.cases hp hn' with ⟨rfl, rfl⟩ | ⟨_, n, hn, rfl⟩
    · refine ⟨?_, rfl⟩
      simp only [NewNode.node]
      cases hd : child.direction with
      | outgoing => exact Or.inl rfl
      | incoming => exact Or.inr rfl
      | both => exact absurd hd hres
    · exact (h.reached hn hi :)
  · rw [hleaves]
    refine (h.leavesNodup.filter _).append (List.nodup_singleton _) fun i hi hi' => ?_
    rw [List.mem_singleton.mp hi'] at hi
    exact absurd (hnew (List.mem_of_mem_filter hi)) (Nat.lt_irrefl _)
  · rw [hleaves, List.mem_append, List.mem_filter, List.mem_singleton, h.mem_leaves, bne_iff_ne]
    constructor
    · rintro (⟨⟨n, hn, hnlive, hnil⟩, hip⟩ | rfl)
      · refine ⟨_, hs.old hn, hnlive, ?_⟩
        rw [if_neg hip, QueryNode.adopt_nil, hnil]
      · exact ⟨_, hs.new, rfl, rfl⟩
    · rintro ⟨n', hn', hnlive, hnil⟩
      rcases hs.cases hp hn' with ⟨rfl, _⟩ | ⟨_, n, hn, rfl⟩
      · exact Or.inr rfl
      · by_cases hip : i = p
        · rw [if_pos hip, QueryNode.adopt_children] at hnil
          exact absurd hnil (List.append_ne_nil_of_right_ne_nil _ (List.cons_ne_nil _ _))
        · rw [if_neg hip, QueryNode.adopt_nil] at hnil hnlive
          exact Or.inl ⟨⟨n, hn, hnlive, hnil⟩, hip⟩

/-! ## 5. Removing a subtree -/

theorem leaf_iff (hn : t.nodes[id]? = some n) :
    t.Leaf id ↔ n.children = [] ∧ n.removed = false := by
  refine ⟨?_, fun h => ⟨n, hn, h.2, h.1⟩⟩
  rintro ⟨m, hm, hlive, hnil⟩
  rw [hn] at hm
  cases hm
  exact ⟨hnil, hlive⟩

/-- A node that a child was taken off is put behind the leaves if it became one. -/
theorem leaves_detach (hn : (t.detach p id).nodes[p]? = some n) : ∃ more,
    (t.detach p id).leaves = t.leaves ++ more ∧ more.Nodup ∧
      ∀ i, i ∈ more ↔ i = p ∧ (t.detach p id).Leaf i := by
  have hleaf := leaf_iff hn
  have hn' : (t.modify p fun n => { n with children := n.children.filter (· != id) }).nodes[p]?
      = some n := by
    rwa [nodes_detach, ← getElem?_modify] at hn
  have hleaves : (t.detach p id).leaves
      = t.leaves ++ if n.children.isEmpty && !n.removed then [p] else [] := by
    simp only [detach, hn']
    split
    · rfl
    · exact (List.append_nil _).symm
  refine ⟨_, hleaves, ?_, fun i => ?_⟩
  · split
    · exact List.nodup_singleton p
    · exact List.nodup_nil
  · have hcond : (n.children.isEmpty && !n.removed) = true ↔ (t.detach p id).Leaf p := by
      rw [hleaf, Bool.and_eq_true, List.isEmpty_iff, Bool.not_eq_true']
    split
    · rename_i hbare
      rw [List.mem_singleton, iff_self_and]
      rintro rfl
      exact hcond.mp hbare
    · rename_i hbare
      refine iff_of_false List.not_mem_nil ?_
      rintro ⟨rfl, h⟩
      exact hbare (hcond.mpr h)

/-- What is removed is off the list of leaves, and the node that it hung from may come onto it. -/
theorem leaves_dropSubtree (hp : t.parent? id = some p)
    (hn : (t.dropSubtree id).nodes[p]? = some n) : ∃ more,
    (t.dropSubtree id).leaves
        = (t.leaves.filter fun l => !(t.below t.nodes.size id).contains l) ++ more ∧
      more.Nodup ∧ ∀ i, i ∈ more ↔ i = p ∧ (t.dropSubtree id).Leaf i := by
  have hparent : t.nodes[id]?.bind QueryNode.parent = some p := hp
  simp only [QueryTree.dropSubtree, hparent] at hn ⊢
  exact leaves_detach hn

section Removal

variable (hw : t.WellFormed) (hlive : t.Live id) (hid : id ≠ root) (hp : t.parent? id = some p)
include hw hlive hid hp

/-- Only the node that the subtree hung from can become a leaf. -/
theorem leaf_dropSubtree_iff (hd : d ≠ p) :
    (t.dropSubtree id).Leaf d ↔ t.Leaf d ∧ ¬ t.Above id d := by
  have hcut := dropSubtree_cut hw hlive hid
  constructor
  · rintro ⟨n', hn', hnlive, hnil⟩
    obtain ⟨n, hn, hi, rfl⟩ := hcut.live_node hn' hnlive
    rw [cut_eq_of_not_above hw hn hi hp, if_neg (Ne.symm hd)] at hnlive hnil
    exact ⟨⟨n, hn, hnlive, hnil⟩, hi⟩
  · rintro ⟨⟨n, hn, hnlive, hnil⟩, hi⟩
    refine ⟨_, hcut.node hn, ?_⟩
    rw [cut_eq_of_not_above hw hn hi hp, if_neg (Ne.symm hd)]
    exact ⟨hnlive, hnil⟩

omit hid in
/-- The node that the subtree hangs from has a child. -/
theorem not_leaf_of_child : ¬ t.Leaf p := by
  rintro ⟨n, hn, _, hnil⟩
  have hmem := hw.mem_children_of_parent hlive hp hn
  rw [hnil] at hmem
  cases hmem

end Removal

theorem Intact.dropSubtree (h : t.Intact) (hlive : t.Live id) (hid : id ≠ root) :
    (t.dropSubtree id).Intact := by
  have hw := h.toWellFormed
  obtain ⟨p, pn, hp, hpn, _, _⟩ := hw.listed hlive hid
  have hcut := dropSubtree_cut hw hlive hid
  obtain ⟨more, hleaves, hnodup, hmore⟩ := leaves_dropSubtree hp (hcut.node hpn)
  have hkept : ∀ {i : Nat}, i ∈ (t.leaves.filter fun l => !(t.below t.nodes.size id).contains l) ↔
      t.Leaf i ∧ ¬ t.Above id i := by
    intro i
    rw [List.mem_filter, h.mem_leaves, Bool.not_eq_true', ← Bool.not_eq_true, List.contains_iff_mem]
    exact and_congr_right fun hi => not_congr (mem_below_iff hw hi.live)
  have hinner := not_leaf_of_child hw hlive hp
  refine ⟨wellFormed_of_cut_below hw hid hcut, ?_, ?_, ?_, fun {i} => ?_⟩
  · intro i q n' qn' hn' hq hqn'
    obtain ⟨n, _, _, hn, rfl⟩ := hcut.exists_old hn'
    obtain ⟨qn, _, _, hqn, rfl⟩ := hcut.exists_old hqn'
    exact (h.alternates hn hq hqn :)
  · intro i n' hn' hi
    obtain ⟨n, _, _, hn, rfl⟩ := hcut.exists_old hn'
    exact (h.reached hn hi :)
  · rw [hleaves]
    refine (h.leavesNodup.filter _).append hnodup fun i hi hi' => ?_
    rw [((hmore i).mp hi').1] at hi
    exact hinner (hkept.mp hi).1
  · rw [hleaves, List.mem_append, hkept, hmore]
    by_cases hip : i = p
    · subst hip
      rw [or_iff_right fun hi => hinner hi.1, and_iff_right rfl]
    · rw [leaf_dropSubtree_iff hw hlive hid hp hip, or_iff_left fun hi => hip hi.1]

/-! ## 6. Pruning -/

theorem Intact.dropBlocked (h : t.Intact) (id : Nat) : (t.dropBlocked id).Intact := by
  unfold QueryTree.dropBlocked
  split
  · exact h.of_seats (fun _ => rfl) rfl
  · rename_i hid
    split
    · rename_i hany
      obtain ⟨n, hn, hlive⟩ := (Option.any_eq_true _ _).mp hany
      exact h.dropSubtree ⟨n, hn, by simpa using hlive⟩ hid
    · exact h

theorem Intact.foldl_dropBlocked (bs : List Nat) : ∀ {t : QueryTree}, t.Intact →
    (bs.foldl QueryTree.dropBlocked t).Intact := by
  induction bs with
  | nil => exact fun h => h
  | cons b bs ih => exact fun h => ih (h.dropBlocked b)

theorem Intact.foldl_dropSubtree (bs : List Nat) : ∀ {t : QueryTree}, t.Intact → t.Shed bs →
    (bs.foldl QueryTree.dropSubtree t).Intact := by
  induction bs with
  | nil => exact fun h _ => h
  | cons b bs ih =>
    intro t h hall
    obtain ⟨hb, hleaf⟩ := hall.leaf b List.mem_cons_self
    exact ih (h.dropSubtree hleaf.live hb) (hall.tail h.toWellFormed)

theorem Intact.dropBarren (rounds : Nat) : ∀ {t : QueryTree}, t.Intact →
    (t.dropBarren rounds).Intact := by
  induction rounds with
  | zero => exact fun h => h
  | succ rounds ih =>
    intro t h
    rw [QueryTree.dropBarren]
    split
    · exact h
    · exact ih (h.foldl_dropSubtree _ t.shed_barrenLeaves)

theorem Intact.prune (h : t.Intact) : t.prune.Intact :=
  (h.foldl_dropBlocked _).dropBarren _

/-! ## 7. Expanding a hop -/

/-- The tree is intact, and what was live in `t` is live in it. -/
structure Onward (t t' : QueryTree) : Prop where
  intact : t'.Intact
  live : ∀ {i : Nat}, t.Live i → t'.Live i

theorem Intact.onward (h : t.Intact) : t.Onward t := ⟨h, id⟩

theorem Onward.trans {t'' : QueryTree} (h : t.Onward t') (h' : t'.Onward t'') : t.Onward t'' :=
  ⟨h'.intact, fun hi => h'.live (h.live hi)⟩

theorem Intact.addChild (h : t.Intact) (hp : t.Live p) {child : NewNode}
    (hadd : t.addChild p child = .ok (t', id)) : t.Onward t' ∧ t'.Live id := by
  obtain ⟨pn, hpn, hlive⟩ := hp
  obtain ⟨halt, hres, rfl, hs, hleaves⟩ := addChild_ok hpn hadd
  refine ⟨⟨hs.intact hpn hlive halt hres hleaves h, ?_⟩, _, hs.new, rfl⟩
  rintro i ⟨n, hn, hnlive⟩
  exact ⟨_, hs.old hn, hnlive⟩

theorem leaves_applyTo {h : Hop} {T : Topology} {withIds : Bool}
    (happly : h.applyTo T t id withIds = .ok t') : t'.leaves = t.leaves := by
  cases hn : t.nodes[id]? with
  | none => simp [Hop.applyTo, node, hn, bind, Except.bind] at happly
  | some n =>
    cases withIds <;>
      simp only [Hop.applyTo, addIdPredicates, node, getElem?_modify, hn, bind, Except.bind, pure,
        Except.pure, if_true, Option.map_some, Except.ok.injEq, Bool.false_eq_true, if_false]
        at happly <;>
      rw [← happly] <;> rfl

/-- A hop put on a node leaves everybody in their seats. -/
theorem Intact.applyTo (ht : t.Intact) {h : Hop} {T : Topology} {withIds : Bool} (hid : t.Live id)
    (happly : h.applyTo T t id withIds = .ok t') : t.Onward t' := by
  obtain ⟨n, hn, _⟩ := hid
  obtain ⟨t₁, happly₁, _, hdress, hkept, _, _⟩ := applyTo_ok h T withIds hn
  rw [happly] at happly₁
  cases happly₁
  have hseats : ∀ i : Nat, t'.nodes[i]?.map QueryNode.seat = t.nodes[i]?.map QueryNode.seat := by
    intro i
    by_cases hi : i = id
    · rw [hi, hdress, hn]
      rfl
    · rw [hkept i hi]
  refine ⟨ht.of_seats hseats (leaves_applyTo happly), ?_⟩
  rintro i ⟨m, hm, hlive⟩
  by_cases hi : i = id
  · subst hi
    rw [hn] at hm
    cases hm
    exact ⟨_, hdress, hlive⟩
  · exact ⟨m, (hkept i hi).trans hm, hlive⟩

end QueryTree

namespace Surgery

variable {α β : Type} {m : Surgery α} {t : QueryTree} {Q : α → QueryTree → Prop}

/-- Started at `t`, the computation leaves an intact tree in which all is live that was, fault or
not, and what it returns satisfies `Q`. -/
def Keeps (m : Surgery α) (t : QueryTree) (Q : α → QueryTree → Prop) : Prop :=
  t.Onward (left m t) ∧ ∀ a t', m t = .ok a t' → Q a t'

theorem Keeps.pure (h : t.Intact) (a : α) (ha : Q a t) : Keeps (pure a) t Q := by
  refine ⟨h.onward, fun b t' hb => ?_⟩
  cases hb
  exact ha

theorem Keeps.bind {f : α → Surgery β} {R : β → QueryTree → Prop} (hm : Keeps m t Q)
    (hf : ∀ a t', t'.Intact → (∀ {i}, t.Live i → t'.Live i) → Q a t' → Keeps (f a) t' R) :
    Keeps (m >>= f) t R := by
  obtain ⟨honward, hQ⟩ := hm
  cases hrun : m t with
  | ok a t' =>
    have hleft : left m t = t' := by simp only [left, hrun]
    rw [hleft] at honward
    obtain ⟨hrest, hR⟩ := hf a t' honward.intact honward.live (hQ a t' hrun)
    have hbind : (m >>= f) t = f a t' := by simp only [Bind.bind, EStateM.bind, hrun]
    refine ⟨?_, fun b t'' hb => hR b t'' (hbind ▸ hb)⟩
    rw [left, hbind]
    exact honward.trans hrest
  | error e t' =>
    have hbind : (m >>= f) t = .error e t' := by simp only [Bind.bind, EStateM.bind, hrun]
    refine ⟨?_, fun b t'' hb => ?_⟩
    · rw [left, hbind]
      rwa [left, hrun] at honward
    · rw [hbind] at hb
      cases hb

theorem Keeps.change {f : QueryTree → Except TreeError (QueryTree × α)} (h : t.Intact)
    (hf : ∀ {t' a}, f t = .ok (t', a) → t.Onward t' ∧ Q a t') : Keeps (change f) t Q := by
  cases hrun : f t with
  | error e =>
    have hsame : Surgery.change f t = .error e t := by simp only [Surgery.change, hrun]
    refine ⟨?_, fun a t' ha => ?_⟩
    · rw [left, hsame]
      exact h.onward
    · rw [hsame] at ha
      cases ha
  | ok made =>
    obtain ⟨t₁, a₁⟩ := made
    have hmade : Surgery.change f t = .ok a₁ t₁ := by simp only [Surgery.change, hrun]
    refine ⟨?_, fun a t' ha => ?_⟩
    · rw [left, hmade]
      exact (hf hrun).1
    · rw [hmade] at ha
      cases ha
      exact (hf hrun).2

theorem Keeps.look {f : QueryTree → Except TreeError α} (h : t.Intact) :
    Keeps (look f) t fun _ _ => True := by
  refine .change h fun {t' a} hf => ⟨?_, trivial⟩
  obtain ⟨b, _, heq⟩ := map_ok hf
  cases heq
  exact h.onward

theorem Keeps.update {f : QueryTree → Except TreeError QueryTree} (h : t.Intact)
    (hf : ∀ {t'}, f t = .ok t' → t.Onward t') : Keeps (update f) t fun _ _ => True := by
  refine .change h fun {t' a} hrun => ⟨?_, trivial⟩
  obtain ⟨t₁, hmade, heq⟩ := map_ok hrun
  cases heq
  exact hf hmade

end Surgery

namespace Hop

open Surgery

variable (h : Hop) (T : Topology) {t : QueryTree} {p : Nat}

theorem attachHere_keeps (ns : List NewNode) : ∀ {t : QueryTree}, t.Intact → t.Live p →
    Keeps (h.attachHere T p ns) t fun _ _ => True := by
  induction ns with
  | nil => exact fun ht _ => .pure ht _ trivial
  | cons n ns ih =>
    intro t ht hp
    refine .bind (.change ht (ht.addChild hp)) fun id t₁ ht₁ hold hid => ?_
    refine .bind (.update ht₁ (ht₁.applyTo hid)) fun _ t₂ ht₂ hold₂ _ => ?_
    exact .bind (ih ht₂ (hold₂ (hold hp))) fun _ t₃ ht₃ _ _ => .pure ht₃ _ trivial

theorem growHere_keeps (as : List Arrival) : ∀ {t : QueryTree}, t.Intact → t.Live p →
    Keeps (h.growHere T p as) t fun _ _ => True := by
  induction as with
  | nil => exact fun ht _ => .pure ht _ trivial
  | cons a as ih =>
    intro t ht hp
    cases a with
    | direct n =>
      refine .bind (h.attachHere_keeps T [n] ht hp) fun _ t₁ ht₁ hold _ => ?_
      exact .bind (ih ht₁ (hold hp)) fun _ t₂ ht₂ _ _ => .pure ht₂ _ trivial
    | across edge targets =>
      refine .bind (.change ht (ht.addChild hp)) fun id t₁ ht₁ hold hid => ?_
      refine .bind (h.attachHere_keeps T targets ht₁ hid) fun _ t₂ ht₂ hold₂ _ => ?_
      exact .bind (ih ht₂ (hold₂ (hold hp))) fun _ t₃ ht₃ _ _ => .pure ht₃ _ trivial

/-- However far an expansion gets, it leaves an intact tree. -/
theorem expandHere_keeps (ht : t.Intact) (hp : t.Live p) :
    Keeps (h.expandHere T p) t fun _ _ => True :=
  .bind (.look ht) fun _ _ ht₁ hold₁ _ =>
    .bind (.look ht₁) fun as _ ht₂ hold₂ _ => h.growHere_keeps T as ht₂ (hold₂ (hold₁ hp))

end Hop

namespace QueryTree

/-! ## 8. Any calls -/

variable {t : QueryTree}

/-- A call at a live node leaves an intact tree, refused or not. -/
theorem Intact.call (h : t.Intact) (c : TreeCall) (hlive : ∀ id, c.node? = some id → t.Live id) :
    (c.leaves t).Intact := by
  cases c with
  | addChild p child =>
    have hp := hlive p rfl
    exact (Surgery.Keeps.change h (h.addChild hp)).1.intact
  | removeSubtree id =>
    simp only [TreeCall.leaves, Surgery.update, Surgery.left, Surgery.change]
    cases hremove : t.removeSubtree id with
    | error e => exact h
    | ok t' =>
      obtain ⟨hroot, rfl⟩ := removeSubtree_ok hremove
      exact h.dropSubtree (hlive id rfl) hroot
  | prune =>
    simp only [TreeCall.leaves, Surgery.update, Surgery.left, Surgery.change,
      pruned_eq h.toWellFormed]
    exact h.prune
  | expand T hop p => exact (hop.expandHere_keeps T h (hlive p rfl)).1.intact
  | editNode id e =>
    refine h.of_seats (fun i => ?_) rfl
    rw [TreeCall.leaves, getElem?_modify]
    split
    · rw [Option.map_map]
      rfl
    · rfl
  | setFullDepth depth => exact h.of_seats (fun _ => rfl) rfl

/-- **A tree in use stays intact.** After any calls at live nodes, refused ones among them and
expansions over any topology, the array is a tree of alternating tables, and its leaves are the live
nodes without children, each listed once. -/
theorem Handled.stays_intact (h : t.Handled) : t.Intact := by
  induction h with
  | new table properties binding => exact intact_new table properties binding
  | call _ c hlive ih => exact ih.call c hlive

/-! ## 9. A tree that was used -/

namespace InUse

/-- Friends of friends are put below the root and taken off again. Two of the calls are refused: the
root is not removed, and nobody moves from an edge along edges. -/
def calls : List TreeCall := [
  .expand People.topology (People.friends false) root,
  .expand People.topology (People.friends false) 2,
  .removeSubtree root,
  .removeSubtree 3,
  .expand People.topology (People.friends false) 1,
  .prune]

def used : QueryTree :=
  calls.foldl TreeCall.leaves (.new People.person ∅ .unconstrained)

theorem handled_used : used.Handled := by
  have hnew : (QueryTree.new People.person ∅ .unconstrained).Handled := .new _ _ _
  have hfriends := hnew.call (.expand People.topology (People.friends false) root) fun id hid => by
    cases hid
    exact ⟨_, rfl, rfl⟩
  have hmore := hfriends.call (.expand People.topology (People.friends false) 2) fun id hid => by
    cases hid
    exact ⟨_, rfl, rfl⟩
  have hroot := hmore.call (.removeSubtree root) fun id hid => by
    cases hid
    exact ⟨_, rfl, rfl⟩
  have hcut := hroot.call (.removeSubtree 3) fun id hid => by
    cases hid
    exact ⟨_, rfl, rfl⟩
  have hedge := hcut.call (.expand People.topology (People.friends false) 1) fun id hid => by
    cases hid
    exact ⟨_, rfl, rfl⟩
  exact hedge.call .prune nofun

/-- The first friends are the only leaf again. -/
theorem friends_are_leaves : used.Handled ∧ used.Intact ∧ used.leaves = [2] :=
  ⟨handled_used, handled_used.stays_intact, by decide⟩
end InUse

end QueryTree

end TraversalSql
