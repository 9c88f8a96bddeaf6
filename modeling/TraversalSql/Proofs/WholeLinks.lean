import TraversalSql.Proofs.Pruning

/-!
# Surgery that is never refused

Removing a subtree, pruning and collecting the branches of an optional part each follow the links
of a tree, and each is refused where a link leads nowhere. On a well-formed tree no link does:
children and parents are there, and the root is never asked to go. So the plain operations, about
which everything else is said, are what the refusing ones give.
-/

set_option autoImplicit false

namespace TraversalSql.QueryTree

variable {t : QueryTree} {n : QueryNode} {id : Nat}

/-- What succeeds at every node succeeds at all children of one. -/
theorem mapM_children (hw : t.WellFormed) {α : Type} {f : Nat → Except TreeError α} {k : Nat → α}
    (hf : ∀ {c : Nat} {m : QueryNode}, t.nodes[c]? = some m → f c = .ok (k c))
    (hn : t.nodes[id]? = some n) : n.children.mapM f = .ok (n.children.map k) := by
  refine mapM_ok fun c hc => ?_
  obtain ⟨m, hm⟩ := node_of_live (hw.live_of_child hn hc)
  exact hf hm

/-! ## 1. Removing a subtree -/

theorem findBelow_eq (hw : t.WellFormed) {depth : Nat} (hn : t.nodes[id]? = some n) :
    t.findBelow depth id = .ok (t.below depth id) := by
  induction depth generalizing id n with
  | zero => rfl
  | succ depth ih =>
    rw [findBelow, node_eq hn, below, hn]
    simp only [bind, Except.bind, mapM_children hw ih hn, pure, Except.pure, List.flatMap]

theorem removeSubtree_eq (hw : t.WellFormed) (hlive : t.Live id) (hid : id ≠ root) :
    t.removeSubtree id = .ok (t.dropSubtree id) := by
  obtain ⟨n, hn⟩ := node_of_live hlive
  obtain ⟨p, m, hp, hm, _, _⟩ := hw.listed hlive hid
  have hparent : n.parent.mapM t.node = .ok (some m) := by
    rw [← parent?_of_node hn, hp, Option.mapM_some, node_eq hm]
    rfl
  rw [removeSubtree, if_neg hid, node_eq hn]
  simp only [bind, Except.bind, findBelow_eq hw hn, hparent, pure, Except.pure]

/-! ## 2. Pruning -/

theorem removeBlocked_eq (hw : t.WellFormed) (hn : t.nodes[id]? = some n) :
    t.removeBlocked id = .ok (t.dropBlocked id) := by
  unfold removeBlocked dropBlocked
  split
  · rfl
  · rename_i hid
    rw [node_eq hn, hn, Option.any_some]
    cases hr : n.removed with
    | true => simp only [bind, Except.bind, hr, if_true, Bool.not_true, Bool.false_eq_true, if_false,
        pure, Except.pure]
    | false =>
      simp only [bind, Except.bind, hr, Bool.false_eq_true, if_false, Bool.not_false, if_true]
      exact removeSubtree_eq hw ⟨n, hn, hr⟩ hid

theorem foldlM_removeBlocked (hw : t.WellFormed) {bs : List Nat}
    (hbs : ∀ b ∈ bs, ∃ n, t.nodes[b]? = some n) :
    bs.foldlM removeBlocked t = .ok (bs.foldl dropBlocked t) := by
  refine foldlM_ok (I := fun bs t => t.WellFormed ∧ ∀ b ∈ bs, ∃ n, t.nodes[b]? = some n) ?_
    ⟨hw, hbs⟩
  rintro b bs t ⟨hw, hbs⟩
  obtain ⟨⟨n, hn⟩, hrest⟩ := List.forall_mem_cons.mp hbs
  obtain ⟨hcut, hw', _⟩ := dropBlocked_cut hw b
  refine ⟨removeBlocked_eq hw hn, hw', fun c hc => ?_⟩
  obtain ⟨m, hm⟩ := hrest c hc
  exact ⟨_, hcut.node hm⟩

theorem foldlM_removeSubtree (hw : t.WellFormed) {bs : List Nat} (hbs : t.Shed bs) :
    bs.foldlM removeSubtree t = .ok (bs.foldl dropSubtree t) := by
  refine foldlM_ok (I := fun bs t => t.WellFormed ∧ t.Shed bs) ?_ ⟨hw, hbs⟩
  rintro b bs t ⟨hw, hbs⟩
  obtain ⟨hroot, hleaf⟩ := hbs.leaf b List.mem_cons_self
  have hw' := wellFormed_of_cut_below hw hroot (dropSubtree_cut hw hleaf.live hroot)
  exact ⟨removeSubtree_eq hw hleaf.live hroot, hw', hbs.tail hw⟩

theorem removeBarren_eq (rounds : Nat) : ∀ {t : QueryTree}, t.WellFormed →
    removeBarren rounds t = .ok (dropBarren rounds t) := by
  induction rounds with
  | zero => exact fun _ => rfl
  | succ rounds ih =>
    intro t hw
    rw [removeBarren, dropBarren]
    split
    · rfl
    · rw [foldlM_removeSubtree hw t.shed_barrenLeaves]
      exact ih (round_cut hw).2.1

/-- **Pruning is never refused**: the root is only marked, and what is removed was there. -/
theorem pruned_eq (hw : t.WellFormed) : t.pruned = .ok t.prune := by
  have hthere : ∀ b ∈ t.liveWhere fun _ n => n.isBlocked, ∃ n, t.nodes[b]? = some n := by
    intro b hb
    obtain ⟨n, hn, _⟩ := mem_liveWhere.mp hb
    exact ⟨n, hn⟩
  rw [pruned, foldlM_removeBlocked hw hthere]
  exact removeBarren_eq _ (foldl_dropBlocked _ hw).2.1

/-! ## 3. Branches -/

theorem findBranches_ok {depth : Nat} {found : List (List Nat)}
    (h : t.findBranches depth id = .ok found) : found = t.branchesFrom depth id := by
  induction depth generalizing id found with
  | zero =>
    cases h
    rfl
  | succ depth ih =>
    rw [findBranches] at h
    obtain ⟨n, hn, h⟩ := bind_ok h
    rw [branchesFrom, node_ok hn]
    simp only at h ⊢
    split at h
    · rename_i hend
      rw [if_pos hend]
      cases h
      rfl
    · rename_i hend
      obtain ⟨below, hbelow, h⟩ := bind_ok h
      cases h
      rw [if_neg hend, mapM_eq_map (fun c _ _ hc => ih hc) hbelow, List.flatMap]

theorem findBranches_eq (hw : t.WellFormed) {depth : Nat} (hn : t.nodes[id]? = some n) :
    t.findBranches depth id = .ok (t.branchesFrom depth id) := by
  induction depth generalizing id n with
  | zero => rfl
  | succ depth ih =>
    rw [findBranches, node_eq hn, branchesFrom, hn]
    simp only [bind, Except.bind, mapM_children hw ih hn, pure, Except.pure, List.flatMap]
    split <;> rfl

theorem findBranchesBelow_ok {found : List (List Nat)} (h : t.findBranchesBelow id = .ok found) :
    found = t.branchesBelow id := by
  obtain ⟨n, hn, h⟩ := bind_ok h
  obtain ⟨below, hbelow, h⟩ := bind_ok h
  cases h
  rw [branchesBelow, node_ok hn, mapM_eq_map (fun c _ _ hc => findBranches_ok hc) hbelow]
  rfl

theorem findBranchesBelow_eq (hw : t.WellFormed) (hn : t.nodes[id]? = some n) :
    t.findBranchesBelow id = .ok (t.branchesBelow id) := by
  have hchildren := mapM_children hw (f := t.findBranches t.nodes.size) (findBranches_eq hw) hn
  rw [findBranchesBelow, node_eq hn, branchesBelow, hn]
  simp only [bind, Except.bind, hchildren, pure, Except.pure, List.flatMap]

end TraversalSql.QueryTree
