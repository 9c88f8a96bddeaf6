import TraversalSql.Proofs.Growth
import TraversalSql.Proofs.Pruning

/-!
# Who survives pruning

Pruning is a loop: it cuts off what is blocked, and then in rounds every leaf at which no result
ends. This file says what comes out of the loop without mentioning rounds. A node survives if
nothing blocks its way from the root, and from it an unblocked way leads down to a keeper. The
statement is about any tree that can be made by hand, with nodes added and removed and with flags,
depths and filters set at will, so it does not lean on how runs are laid out. Since no survivor is
blocked or barren, pruning once more changes nothing, not even the list of leaves.
-/

set_option autoImplicit false

namespace TraversalSql

/-! ## 1. Memberships in nothing -/

/-- The predicate is an empty membership, a conjunction with one, or a disjunction of one or more
of them. -/
inductive Predicate.EmptyMembership : Predicate → Prop
  | within : EmptyMembership (.within [])
  | and {ps : List Predicate} {p : Predicate} (hp : p ∈ ps) (h : EmptyMembership p) :
      EmptyMembership (.and ps)
  | or {ps : List Predicate} (hne : ps ≠ []) (h : ∀ p ∈ ps, EmptyMembership p) :
      EmptyMembership (.or ps)

namespace Predicate

mutual

theorem emptyMembership_of_is (p : Predicate) (h : p.isEmptyMembership = true) :
    p.EmptyMembership := by
  match p with
  | .within vs =>
    obtain rfl : vs = [] := List.isEmpty_iff.mp (by simpa [isEmptyMembership] using h)
    exact .within
  | .and ps =>
    obtain ⟨p, hp, hempty⟩ := exists_emptyMembership ps (by simpa [isEmptyMembership] using h)
    exact .and hp hempty
  | .or ps =>
    simp only [isEmptyMembership, Bool.and_eq_true, Bool.not_eq_true', List.isEmpty_eq_false_iff]
      at h
    exact .or h.1 (forall_emptyMembership ps h.2)
  | .compare _ _ | .present | .absent | .without _ | .between _ _ | .inside _ _ | .outside _ _
  | .text _ _ | .fullText _ _ | .lambda _ => simp [isEmptyMembership] at h

theorem exists_emptyMembership (ps : List Predicate) (h : anyEmptyMembership ps = true) :
    ∃ p ∈ ps, p.EmptyMembership := by
  match ps with
  | [] => cases h
  | p :: ps =>
    rcases Bool.or_eq_true_iff.mp h with h | h
    · exact ⟨p, List.mem_cons_self, emptyMembership_of_is p h⟩
    · obtain ⟨q, hq, hempty⟩ := exists_emptyMembership ps h
      exact ⟨q, List.mem_cons_of_mem _ hq, hempty⟩

theorem forall_emptyMembership (ps : List Predicate) (h : allEmptyMembership ps = true) :
    ∀ p ∈ ps, p.EmptyMembership := by
  match ps with
  | [] => exact List.forall_mem_nil _
  | p :: ps =>
    obtain ⟨hfirst, hrest⟩ := Bool.and_eq_true_iff.mp h
    exact List.forall_mem_cons.mpr
      ⟨emptyMembership_of_is p hfirst, forall_emptyMembership ps hrest⟩

end

theorem anyEmptyMembership_of_mem {ps : List Predicate} {p : Predicate} (hp : p ∈ ps)
    (h : p.isEmptyMembership = true) : anyEmptyMembership ps = true := by
  induction ps with
  | nil => cases hp
  | cons q ps ih =>
    rw [anyEmptyMembership, Bool.or_eq_true]
    rcases List.mem_cons.mp hp with rfl | hp
    · exact Or.inl h
    · exact Or.inr (ih hp)

theorem allEmptyMembership_of_forall {ps : List Predicate}
    (h : ∀ p ∈ ps, p.isEmptyMembership = true) : allEmptyMembership ps = true := by
  induction ps with
  | nil => rfl
  | cons q ps ih =>
    obtain ⟨hfirst, hrest⟩ := List.forall_mem_cons.mp h
    rw [allEmptyMembership, hfirst, ih hrest, Bool.and_self]

theorem isEmptyMembership_iff {p : Predicate} :
    p.isEmptyMembership = true ↔ p.EmptyMembership := by
  refine ⟨emptyMembership_of_is p, fun h => ?_⟩
  induction h with
  | within => rfl
  | and hp _ ih => exact anyEmptyMembership_of_mem hp ih
  | or hne _ ih =>
    rw [isEmptyMembership, allEmptyMembership_of_forall ih, Bool.and_true]
    simpa using hne

end Predicate

/-- What can be set at a node. -/
structure NodeEdit where
  depth : Nat
  emit : Bool
  leftJoin : Bool
  intermediate : Bool
  filters : List Filter
  idPredicates : List Predicate

namespace QueryNode

/-- The node with the edit made. -/
def edit (e : NodeEdit) (n : QueryNode) : QueryNode :=
  { n with
    depth := e.depth, emit := e.emit, leftJoin := e.leftJoin, intermediate := e.intermediate
    filters := e.filters, idPredicates := e.idPredicates }

/-- One of the node's predicates is an empty membership. -/
def Blocked (n : QueryNode) : Prop :=
  (∃ p ∈ n.idPredicates, p.EmptyMembership) ∨ ∃ f ∈ n.filters, f.predicate.EmptyMembership

theorem isBlocked_iff {n : QueryNode} : n.isBlocked = true ↔ n.Blocked := by
  simp only [isBlocked, Bool.or_eq_true, List.any_eq_true, Predicate.isEmptyMembership_iff, Blocked]

theorem isBlocked_eq_false_iff {n : QueryNode} : n.isBlocked = false ↔ ¬ n.Blocked := by
  rw [← isBlocked_iff, Bool.not_eq_true]

end QueryNode

namespace QueryTree

variable {t t' : QueryTree} {d k id : Nat} {n : QueryNode}

/-! ## 2. Trees made by hand -/

/-- The trees that come from a single node by adding nodes below live ones, by removing live nodes
with what is below them, and by edits of nodes and of the full depth. -/
inductive Edited : QueryTree → Prop
  | new (table : Table) (properties : Properties) (binding : RootBinding) :
      Edited (.new table properties binding)
  | addChild {t t' : QueryTree} {p id : Nat} {child : NewNode} (h : Edited t) (hp : t.Live p)
      (hadd : t.addChild p child = .ok (t', id)) : Edited t'
  | removeSubtree {t t' : QueryTree} {id : Nat} (h : Edited t) (hid : t.Live id)
      (hremove : t.removeSubtree id = .ok t') : Edited t'
  | editNode {t : QueryTree} (h : Edited t) (id : Nat) (e : NodeEdit) :
      Edited (t.modify id (QueryNode.edit e))
  | setFullDepth {t : QueryTree} (h : Edited t) (depth : Nat) : Edited { t with fullDepth := depth }

/-- What is added, and what speaks against it. -/
theorem addChild_ok {p : Nat} {child : NewNode} {pn : QueryNode}
    (hp : t.nodes[p]? = some pn) (hadd : t.addChild p child = .ok (t', id)) :
    pn.table.kind ≠ child.table.kind ∧ child.direction ≠ .both ∧ id = t.nodes.size ∧
      t.Sprouts t' p (child.node p) ∧
      t'.leaves = t.leaves.filter (· != p) ++ [t.nodes.size] := by
  by_cases halt : pn.table.kind = child.table.kind
  · simp [addChild, node, hp, halt, bind, Except.bind, throw, throwThe, MonadExceptOf.throw] at hadd
  · by_cases hres : child.direction = .both
    · simp [addChild, node, hp, halt, hres, bind, Except.bind, throw, throwThe,
        MonadExceptOf.throw] at hadd
    · obtain ⟨t₁, hadd₁, hs⟩ := addChild_sprouts hp halt hres
      rw [hadd] at hadd₁
      cases hadd₁
      refine ⟨halt, hres, rfl, hs, ?_⟩
      simp only [addChild, node, hp, bind, Except.bind, if_neg halt, if_neg hres, pure, Except.pure,
        Except.ok.injEq, Prod.mk.injEq, and_true] at hadd
      rw [← hadd]

theorem removeSubtree_ok (h : t.removeSubtree id = .ok t') :
    id ≠ root ∧ t' = t.dropSubtree id := by
  by_cases hroot : id = root
  · rw [removeSubtree, if_pos hroot] at h
    cases h
  · rw [removeSubtree, if_neg hroot] at h
    obtain ⟨_, _, h⟩ := bind_ok h
    obtain ⟨_, _, h⟩ := bind_ok h
    obtain ⟨_, _, h⟩ := bind_ok h
    cases h
    exact ⟨hroot, rfl⟩

theorem wellFormed_new (table : Table) (properties : Properties) (binding : RootBinding) :
    (new table properties binding).WellFormed :=
  (Run.full_of_single (t := new table properties binding) rfl rfl rfl rfl rfl).wellFormed

/-- Whatever is done by hand leaves a tree. -/
theorem Edited.wellFormed (h : t.Edited) : t.WellFormed := by
  induction h with
  | new table properties binding => exact wellFormed_new table properties binding
  | addChild _ hp hadd ih =>
    obtain ⟨pn, hpn, hlive⟩ := hp
    obtain ⟨_, _, _, hs, _⟩ := addChild_ok hpn hadd
    exact hs.wellFormed hpn hlive rfl rfl rfl ih
  | removeSubtree _ hid hremove ih =>
    obtain ⟨hroot, rfl⟩ := removeSubtree_ok hremove
    exact wellFormed_of_cut_below ih hroot (dropSubtree_cut ih hid hroot)
  | editNode _ id e ih =>
    refine ih.of_links fun i => ?_
    rw [getElem?_modify]
    split
    · rw [Option.map_map]
      rfl
    · rfl
  | setFullDepth _ depth ih => exact ih.of_links fun _ => rfl

/-! ## 3. Survivors -/

/-- Results can end at the node. -/
def Keeper (t : QueryTree) (n : QueryNode) : Prop :=
  n.intermediate = false ∧ (t.fullDepth ≤ n.depth ∨ n.emit = true ∨ n.leftJoin = true)

theorem isBarren_eq_false_iff : t.isBarren n = false ↔ t.Keeper n := by
  simp only [isBarren, Keeper, Bool.or_eq_false_iff, Bool.and_eq_false_iff, decide_eq_false_iff_not,
    Bool.not_eq_false', Nat.not_lt, or_assoc]

/-- `t.Open d k`: from `d`, child by child over live nodes that nothing blocks, down to `k`; both
ends are such nodes too. -/
inductive Open (t : QueryTree) : Nat → Nat → Prop
  | here {d : Nat} {n : QueryNode} (hn : t.nodes[d]? = some n) (hlive : n.removed = false)
      (hopen : ¬ n.Blocked) : Open t d d
  | down {d c k : Nat} {n : QueryNode} (hn : t.nodes[d]? = some n) (hlive : n.removed = false)
      (hopen : ¬ n.Blocked) (hc : c ∈ n.children) (h : Open t c k) : Open t d k

/-- Nothing below the root blocks the way from the root to the node, and an open way leads down
from it to a node at which results can end. -/
structure Survives (t : QueryTree) (d : Nat) : Prop where
  way : ∀ b ∈ t.path d, b ≠ root → ∀ n, t.nodes[b]? = some n → ¬ n.Blocked
  keeper : ∃ k n, t.Open d k ∧ t.nodes[k]? = some n ∧ t.Keeper n

theorem clear_iff (hw : t.WellFormed) : t.Clear d ↔
    ∀ b ∈ t.path d, b ≠ root → ∀ n, t.nodes[b]? = some n → ¬ n.Blocked := by
  simp only [Clear, mem_path_iff hw.parentLt, QueryNode.isBlocked_eq_false_iff]
  exact ⟨fun h b habove hb n hn => h habove hb hn, fun h b n habove hb hn => h b habove hb n hn⟩

theorem Open.above (hw : t.WellFormed) (h : t.Open d k) : t.Above d k := by
  induction h with
  | here => exact .refl _
  | down hn _ _ hc _ ih => exact Above.trans (.step (hw.child hn hc).2 (.refl _)) ih

theorem Open.live (h : t.Open d k) : t.Live k := by
  induction h with
  | here hn hlive _ => exact ⟨_, hn, hlive⟩
  | down _ _ _ _ _ ih => exact ih

/-- A clear way that goes on openly is clear all along. -/
theorem Open.clear (hw : t.WellFormed) (h : t.Open d k) (hd : t.Clear d) : t.Clear k := by
  induction h with
  | here => exact hd
  | down hn _ _ hc hopen ih =>
    refine ih fun {b m} habove hb hm => ?_
    have hp := (hw.child hn hc).2
    cases habove with
    | refl =>
      -- the way down starts at the child, which is therefore open
      cases hopen with
      | here hc' _ hfree | down hc' _ hfree _ _ =>
        rw [hm] at hc'
        cases hc'
        exact QueryNode.isBlocked_eq_false_iff.mpr hfree
    | step hq habove =>
      rw [hp] at hq
      cases hq
      exact hd habove hb hm

/-- Where the way to `k` is clear, it is open from any node above `k` but the root. -/
theorem open_of_clear (hw : t.WellFormed) (hd : d ≠ root) (hk : t.Live k) (hclear : t.Clear k)
    {ids : List Nat} (h : t.Descends d ids k) : t.Open d k := by
  induction h with
  | nil =>
    obtain ⟨n, hn, hlive⟩ := hk
    exact .here hn hlive (QueryNode.isBlocked_eq_false_iff.mp (hclear (.refl _) hd hn))
  | cons hn hc hdesc ih =>
    have hp := (hw.child hn hc).2
    have hcroot := Nat.ne_of_gt (Nat.zero_lt_of_lt (hw.parentLt hp))
    have habove : t.Above _ _ := Above.trans (.step hp (.refl _)) (hdesc.above hw)
    exact .down hn (hw.live_of_mem_children hn hc)
      (QueryNode.isBlocked_eq_false_iff.mp (hclear habove hd hn)) hc (ih hcroot hk hclear)

/-- What the rounds of pruning keep, said without them. -/
theorem useful_iff_survives (hw : t.WellFormed) (hd : d ≠ root) : t.Useful d ↔ t.Survives d := by
  constructor
  · rintro ⟨hclear, hroot | ⟨k, habove, hlive, hk, n, hn, hend⟩⟩
    · exact absurd hroot hd
    · obtain ⟨ids, hdesc⟩ := hw.descends habove hlive
      exact ⟨(clear_iff hw).mp hclear, k, n, open_of_clear hw hd hlive hk hdesc, hn,
        isBarren_eq_false_iff.mp hend⟩
  · rintro ⟨hway, k, n, hopen, hn, hkeeper⟩
    have hclear : t.Clear d := (clear_iff hw).mpr hway
    exact ⟨hclear, Or.inr ⟨k, hopen.above hw, hopen.live, hopen.clear hw hclear, n, hn,
      isBarren_eq_false_iff.mpr hkeeper⟩⟩

theorem useful_root (hw : t.WellFormed) : t.Useful root := by
  refine ⟨fun {b n} habove hb hn => ?_, Or.inl rfl⟩
  exact absurd (Nat.le_zero.mp (habove.le hw.parentLt)) hb

/-! ## 4. Pruning -/

/-- `t'` is `t` without what does not survive. Survivors keep their children that survive, in
their order, and lose nothing else; all others are removed, and a blocked root leaves the whole
tree without results. -/
structure IsPruned (t t' : QueryTree) : Prop where
  cut : t.CutTo t' t'.Live
  rootLive : t'.Live root
  survivor : ∀ {d}, d ≠ root → t.Live d → (t'.Live d ↔ t.Survives d)
  unsatisfiable : t'.unsatisfiable = true ↔
    t.unsatisfiable = true ∨ ∃ n, t.nodes[root]? = some n ∧ n.Blocked

theorem isPruned_prune (hw : t.WellFormed) : t.IsPruned t.prune := by
  obtain ⟨hcut, hw', _, hun⟩ := prune_cut hw
  have hkept : ∀ {d}, t.Live d → (t.prune.Live d ↔ t.Useful d) := fun hd =>
    hcut.live_iff.trans (and_iff_right hd)
  refine ⟨hcut.congr_live hw fun d hd => (hkept hd).symm, hw'.rootLive, fun hd hlive => ?_, ?_⟩
  · exact (hkept hlive).trans (useful_iff_survives hw hd)
  · simp only [hun, Bool.or_eq_true, Option.any_eq_true, QueryNode.isBlocked_iff]

/-- In a tree out of which nothing has to be cut, pruning does nothing. -/
theorem prune_eq_self (hblocked : ∀ d n, t.nodes[d]? = some n → n.removed = false →
      n.isBlocked = true → d = root ∧ t.unsatisfiable = true)
    (hleaves : t.barrenLeaves = []) : t.prune = t := by
  have hdrop : ∀ {bs : List Nat}, (∀ b ∈ bs, b = root ∧ t.unsatisfiable = true) →
      bs.foldl dropBlocked t = t := by
    intro bs
    induction bs with
    | nil => exact fun _ => rfl
    | cons b bs ih =>
      intro h
      obtain ⟨⟨rfl, hun⟩, hbs⟩ := List.forall_mem_cons.mp h
      have hsame : t.dropBlocked root = t := by
        rw [dropBlocked, if_pos rfl, ← hun]
      rw [List.foldl_cons, hsame, ih hbs]
  have hfold : (t.liveWhere fun _ n => n.isBlocked).foldl dropBlocked t = t := by
    refine hdrop fun b hb => ?_
    obtain ⟨n, hn, hlive, hbl⟩ := mem_liveWhere.mp hb
    exact hblocked b n hn hlive hbl
  simp only [prune, hfold]
  cases t.nodes.size with
  | zero => rfl
  | succ rounds => rw [dropBarren, hleaves]

/-- What pruning leaves is pruned, to the last leaf. -/
theorem prune_prune (hw : t.WellFormed) : t.prune.prune = t.prune := by
  obtain ⟨hcut, _, hleaves, hun⟩ := prune_cut hw
  refine prune_eq_self (fun d n' hn' hlive hbl => ?_) hleaves
  obtain ⟨n, hn, huseful, rfl⟩ := hcut.live_node hn' hlive
  have hblocked : n.isBlocked = true := by
    obtain ⟨removed, children, heq⟩ := n.cut_eq t.Useful d
    rwa [heq] at hbl
  by_cases hd : d = root
  · subst hd
    exact ⟨rfl, by rw [hun, hn, Option.any_some, hblocked, Bool.or_true]⟩
  · rw [huseful.1 (.refl d) hd hn] at hblocked
    cases hblocked

/-- **What pruning does.** On any tree that was made by hand it is not refused, it leaves the root
and what survives, and once it has, it has nothing left to do. -/
theorem Edited.prune_survivors (h : t.Edited) :
    t.pruned = .ok t.prune ∧ t.IsPruned t.prune ∧ t.prune.prune = t.prune :=
  ⟨pruned_eq h.wellFormed, isPruned_prune h.wellFormed, prune_prune h.wellFormed⟩

/-! ## 5. A tree with three boughs -/

namespace Boughs

def person : Table := ⟨"public", "Person", .vertex⟩

def knows : Table := ⟨"public", "knows", .edge⟩

/-- An edge table that is crossed. -/
def crossing : NewNode where
  table := knows
  direction := .outgoing
  origin := .edgeVertexHop
  depth := 1
  joinKey := ⟨person, .outgoing⟩
  properties := ∅
  intermediate := true

/-- The vertex table behind it. -/
def friend : NewNode where
  table := person
  direction := .outgoing
  origin := .vertexHop
  depth := 1
  joinKey := ⟨person, .incoming⟩
  properties := ∅
  intermediate := false

/-- A filter that nobody passes. -/
def nobody : NodeEdit where
  depth := 1
  emit := false
  leftJoin := false
  intermediate := false
  filters := []
  idPredicates := [.or [.within [], .and [.present, .within []]]]

/-- The tree with the node added, if it can be. -/
def sprout (t : QueryTree) (p : Nat) (child : NewNode) : QueryTree :=
  match t.addChild p child with
  | .ok (t', _) => t'
  | .error _ => t

theorem edited_sprout {p : Nat} (h : t.Edited) (hp : t.Live p) (child : NewNode) :
    (sprout t p child).Edited := by
  unfold sprout
  split
  · rename_i hadd
    exact h.addChild hp hadd
  · exact h

/-- The first bough leads to a friend, the second to a friend that nobody can be. -/
def friends : QueryTree :=
  sprout (sprout (sprout (sprout (.new person ∅ .unconstrained) 0 crossing) 1 friend) 0 crossing)
    3 friend

/-- The third bough ends where an edge table is crossed. -/
def grown : QueryTree :=
  { (sprout friends 0 crossing).modify 4 (QueryNode.edit nobody) with fullDepth := 1 }

theorem edited_friends : friends.Edited := by
  have hfirst := edited_sprout (p := 0) (.new person ∅ .unconstrained) ⟨_, rfl, rfl⟩ crossing
  have hfriend := edited_sprout (p := 1) hfirst ⟨_, rfl, rfl⟩ friend
  have hsecond := edited_sprout (p := 0) hfriend ⟨_, rfl, rfl⟩ crossing
  exact edited_sprout (p := 3) hsecond ⟨_, rfl, rfl⟩ friend

theorem edited_grown : grown.Edited := by
  have hthird := edited_sprout (p := 0) edited_friends ⟨_, rfl, rfl⟩ crossing
  exact (hthird.editNode 4 nobody).setFullDepth 1

/-- Only the first bough stays. -/
theorem first_bough_stays : grown.Edited ∧ grown.pruned = .ok grown.prune ∧
    grown.IsPruned grown.prune ∧ grown.prune.prune = grown.prune ∧
    grown.prune.live.map Prod.fst = [0, 1, 2] := by
  obtain ⟨hok, hpruned, hagain⟩ := edited_grown.prune_survivors
  exact ⟨edited_grown, hok, hpruned, hagain, by decide⟩

end Boughs

end QueryTree

end TraversalSql
