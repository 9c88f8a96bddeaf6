import Mathlib.Data.Finset.Card
import Mathlib.Data.Finset.Range
import TraversalSql.Proofs.Arena
import TraversalSql.Tree.Prune

/-!
# What pruning keeps

All surgery on a grown tree is of one kind: some nodes are cut off together with everything below
them, the others stay and lose the cut ones from their children. `CutTo` is that relation, with the
nodes that stay as a parameter; it composes, and it keeps the tree well-formed. Removing a subtree
is such a cut, hence so is each round of pruning, and `prune_cut` says which cut pruning is: what
stays are the nodes over which a result can be reached.
-/

set_option autoImplicit false

namespace TraversalSql

open Classical in
/-- What is left of a node when only the nodes of `keep` stay. -/
noncomputable def QueryNode.cut (keep : Nat → Prop) (id : Nat) (n : QueryNode) : QueryNode :=
  if keep id then { n with children := n.children.filter fun c => decide (keep c) }
  else { n with removed := true, children := [] }

theorem QueryNode.cut_eq (n : QueryNode) (keep : Nat → Prop) (id : Nat) :
    ∃ removed children, n.cut keep id = { n with removed := removed, children := children } := by
  unfold cut
  split
  · exact ⟨_, _, rfl⟩
  · exact ⟨_, _, rfl⟩

/-- A node that was removed. -/
def QueryNode.gone (n : QueryNode) : QueryNode := { n with removed := true, children := [] }

theorem QueryNode.gone_eq_self {n : QueryNode} (hr : n.removed = true) (hc : n.children = []) :
    n.gone = n := by
  cases n
  simp_all [QueryNode.gone]

theorem QueryNode.cut_eq_self {keep : Nat → Prop} {id : Nat} {n : QueryNode}
    (hr : n.removed = true) (hc : n.children = []) : n.cut keep id = n := by
  cases n
  simp_all [QueryNode.cut]

namespace QueryTree

variable {t t' t'' : QueryTree} {keep keep' : Nat → Prop} {a c d p id : Nat}

/-! ## 1. Cuts -/

/-- The tree `t'` is `t` after everything outside `keep` was cut off. -/
structure CutTo (t t' : QueryTree) (keep : Nat → Prop) : Prop where
  nodes : ∀ id, t'.nodes[id]? = t.nodes[id]?.map (QueryNode.cut keep id)
  binding : t'.binding = t.binding
  fullDepth : t'.fullDepth = t.fullDepth

theorem CutTo.refl (t : QueryTree) : t.CutTo t fun _ => True := by
  refine ⟨fun id => ?_, rfl, rfl⟩
  cases t.nodes[id]? with
  | none => rfl
  | some n => simp [QueryNode.cut]

theorem CutTo.congr (h : t.CutTo t' keep) (hk : ∀ id, keep id ↔ keep' id) :
    t.CutTo t' keep' := by
  obtain rfl : keep = keep' := funext fun id => propext (hk id)
  exact h

theorem CutTo.trans (h : t.CutTo t' keep) (h' : t'.CutTo t'' keep') :
    t.CutTo t'' fun id => keep id ∧ keep' id := by
  refine ⟨fun id => ?_, h'.binding.trans h.binding, h'.fullDepth.trans h.fullDepth⟩
  rw [h'.nodes, h.nodes, Option.map_map]
  congr 1
  funext n
  by_cases hk : keep id
  · by_cases hk' : keep' id
    · simp only [Function.comp_apply, QueryNode.cut, hk, hk', and_self, if_true, List.filter_filter]
      congr 1
      refine List.filter_congr fun c _ => ?_
      by_cases hc : keep c <;> by_cases hc' : keep' c <;> simp [hc, hc']
    · simp [QueryNode.cut, hk, hk']
  · by_cases hk' : keep' id <;> simp [QueryNode.cut, hk, hk']

theorem CutTo.parent? (h : t.CutTo t' keep) (id : Nat) : t'.parent? id = t.parent? id := by
  simp only [QueryTree.parent?, h.nodes]
  cases t.nodes[id]? with
  | none => rfl
  | some n =>
    simp only [Option.map_some, Option.bind_some, QueryNode.cut]
    split <;> rfl

theorem CutTo.above_iff (h : t.CutTo t' keep) : t'.Above a d ↔ t.Above a d :=
  above_congr h.parent?

theorem CutTo.live_iff (h : t.CutTo t' keep) : t'.Live id ↔ t.Live id ∧ keep id := by
  simp only [Live, h.nodes]
  cases t.nodes[id]? with
  | none => simp
  | some n =>
    by_cases hk : keep id <;> simp [QueryNode.cut, hk]

theorem CutTo.node (h : t.CutTo t' keep) {n : QueryNode} (hn : t.nodes[id]? = some n) :
    t'.nodes[id]? = some (n.cut keep id) := by
  rw [h.nodes, hn, Option.map_some]

/-- A node of the cut tree is an old one, up to children and removal. -/
theorem CutTo.exists_old (h : t.CutTo t' keep) {n' : QueryNode} (hn' : t'.nodes[id]? = some n') :
    ∃ n removed children, t.nodes[id]? = some n ∧
      n' = { n with removed := removed, children := children } := by
  rw [h.nodes, Option.map_eq_some_iff] at hn'
  obtain ⟨n, hn, rfl⟩ := hn'
  obtain ⟨removed, children, hcut⟩ := n.cut_eq keep id
  exact ⟨n, removed, children, hn, hcut⟩

/-- A live node of the cut tree is one that was kept. -/
theorem CutTo.live_node (h : t.CutTo t' keep) {n' : QueryNode} (hn' : t'.nodes[id]? = some n')
    (hlive : n'.removed = false) :
    ∃ n, t.nodes[id]? = some n ∧ keep id ∧ n' = n.cut keep id := by
  rw [h.nodes, Option.map_eq_some_iff] at hn'
  obtain ⟨n, hn, rfl⟩ := hn'
  refine ⟨n, hn, ?_, rfl⟩
  by_contra hk
  rw [QueryNode.cut, if_neg hk] at hlive
  cases hlive

/-- Ways down in the cut tree are ways down before the cut. -/
theorem CutTo.descends (h : t.CutTo t' keep) {ids : List Nat} (hd : t'.Descends a ids d) :
    t.Descends a ids d := by
  induction hd with
  | nil => exact .nil _
  | cons hn hc _ ih =>
    rw [h.nodes, Option.map_eq_some_iff] at hn
    obtain ⟨n, hn, rfl⟩ := hn
    refine .cons hn ?_ ih
    unfold QueryNode.cut at hc
    split at hc
    · exact List.mem_of_mem_filter hc
    · cases hc

/-- A cut that takes everything below what it takes keeps the tree a tree. -/
theorem CutTo.wellFormed (h : t.CutTo t' keep) (hw : t.WellFormed) (hroot : keep root)
    (hup : ∀ {c p}, keep c → t.parent? c = some p → keep p) : t'.WellFormed where
  rootLive := h.live_iff.mpr ⟨hw.rootLive, hroot⟩
  rootTop := (h.parent? root).trans hw.rootTop
  parentLt hp := hw.parentLt (h.parent? _ ▸ hp)
  listed := by
    intro id hlive hid
    obtain ⟨hlive, hk⟩ := h.live_iff.mp hlive
    obtain ⟨p, n, hp, hn, hnlive, hmem⟩ := hw.listed hlive hid
    have hkp : keep p := hup hk hp
    refine ⟨p, _, (h.parent? id).trans hp, h.node hn, ?_, ?_⟩
    · simp [QueryNode.cut, hkp, hnlive]
    · simp [QueryNode.cut, hkp, hmem, hk]
  child := by
    intro p c n' hn' hc
    rw [h.nodes] at hn'
    obtain ⟨n, hn, rfl⟩ := Option.map_eq_some_iff.mp hn'
    by_cases hkp : keep p
    · simp only [QueryNode.cut, hkp, if_true, List.mem_filter, decide_eq_true_eq] at hc
      obtain ⟨hlive, hp⟩ := hw.child hn hc.1
      exact ⟨h.live_iff.mpr ⟨hlive, hc.2⟩, (h.parent? c).trans hp⟩
    · simp [QueryNode.cut, hkp] at hc
  nodup := by
    intro p n' hn'
    rw [h.nodes] at hn'
    obtain ⟨n, hn, rfl⟩ := Option.map_eq_some_iff.mp hn'
    by_cases hkp : keep p
    · simp only [QueryNode.cut, hkp, if_true]
      exact (hw.nodup hn).filter _
    · simp [QueryNode.cut, hkp]

/-! ## 2. Removing a subtree -/

theorem node_of_live (h : t.Live id) : ∃ n, t.nodes[id]? = some n := by
  obtain ⟨n, hn, _⟩ := h
  exact ⟨n, hn⟩

theorem lt_size_of_node {n : QueryNode} (h : t.nodes[id]? = some n) : id < t.nodes.size :=
  (Array.getElem?_eq_some_iff.mp h).1

theorem above_of_mem_below (hw : t.WellFormed) :
    ∀ {depth id : Nat}, d ∈ t.below depth id → t.Above id d := by
  intro depth
  induction depth with
  | zero => intro id h; exact absurd h List.not_mem_nil
  | succ depth ih =>
    intro id h
    simp only [below] at h
    split at h
    · rename_i n hn
      rcases List.mem_cons.mp h with rfl | h
      · exact .refl _
      · obtain ⟨c, hc, hd⟩ := List.mem_flatMap.mp h
        exact (Above.step (hw.child hn hc).2 (.refl id)).trans (ih hd)
    · exact absurd h List.not_mem_nil

theorem mem_below_of_above (hw : t.WellFormed) (hd : t.Live d) :
    ∀ {depth id : Nat}, t.nodes.size ≤ id + depth → t.Above id d → d ∈ t.below depth id := by
  intro depth
  induction depth with
  | zero =>
    intro id hsize h
    obtain ⟨n, hn⟩ := node_of_live hd
    have := lt_size_of_node hn
    have := h.le hw.parentLt
    omega
  | succ depth ih =>
    intro id hsize h
    obtain ⟨n, hn⟩ := node_of_live (hw.live_above hd h)
    simp only [below, hn, List.mem_cons, List.mem_flatMap]
    rcases h.cases_child with rfl | ⟨c, hc, hcd⟩
    · exact Or.inl rfl
    · have hlt := hw.parentLt hc
      refine Or.inr ⟨c, ?_, ih (by omega) hcd⟩
      exact hw.mem_children_of_parent (hw.live_above hd hcd) hc hn

/-- The live nodes below a node, whichever way they are looked up. -/
theorem mem_below_iff (hw : t.WellFormed) (hd : t.Live d) :
    d ∈ t.below t.nodes.size id ↔ t.Above id d :=
  ⟨above_of_mem_below hw, mem_below_of_above hw hd (Nat.le_add_left _ _)⟩

/-- Removing a list of nodes one after the other. -/
theorem nodes_foldl_gone (doomed : List Nat) (t : QueryTree) (id : Nat) :
    (doomed.foldl (fun t i => t.modify i QueryNode.gone) t).nodes[id]?
      = if id ∈ doomed then t.nodes[id]?.map QueryNode.gone else t.nodes[id]? := by
  induction doomed generalizing t with
  | nil => simp
  | cons i doomed ih =>
    rw [List.foldl_cons, ih]
    simp only [modify, Array.getElem?_modify, List.mem_cons]
    by_cases hi : id ∈ doomed
    · by_cases hid : i = id
      · simp only [hi, hid, if_true, Option.map_map, or_true]
        congr 1
      · simp [hi, hid]
    · by_cases hid : i = id
      · simp [hi, hid]
      · simp [hi, hid, Ne.symm hid]

/-- What removing a list of nodes leaves alone. -/
theorem foldl_gone_frame (doomed : List Nat) (t : QueryTree) :
    (doomed.foldl (fun t i => t.modify i QueryNode.gone) t).binding = t.binding ∧
      (doomed.foldl (fun t i => t.modify i QueryNode.gone) t).fullDepth = t.fullDepth ∧
      (doomed.foldl (fun t i => t.modify i QueryNode.gone) t).unsatisfiable = t.unsatisfiable := by
  induction doomed generalizing t with
  | nil => exact ⟨rfl, rfl, rfl⟩
  | cons i doomed ih => exact ih (t.modify i QueryNode.gone)

theorem nodes_detach (t : QueryTree) (p id i : Nat) :
    (t.detach p id).nodes[i]?
      = if p = i then t.nodes[i]?.map fun n => { n with children := n.children.filter (· != id) }
        else t.nodes[i]? := by
  have hmod : (t.modify p fun n => { n with children := n.children.filter (· != id) }).nodes[i]?
      = if p = i then t.nodes[i]?.map fun n => { n with children := n.children.filter (· != id) }
        else t.nodes[i]? := by
    simp only [modify, Array.getElem?_modify]
  simp only [detach]
  split
  · split <;> exact hmod
  · exact hmod

theorem detach_frame (t : QueryTree) (p id : Nat) :
    (t.detach p id).binding = t.binding ∧ (t.detach p id).fullDepth = t.fullDepth ∧
      (t.detach p id).unsatisfiable = t.unsatisfiable := by
  simp only [detach]
  split
  · split <;> exact ⟨rfl, rfl, rfl⟩
  · exact ⟨rfl, rfl, rfl⟩

/-- A kept node loses at most the subtree's own top from its children. -/
theorem cut_eq_of_not_above (hw : t.WellFormed) {n : QueryNode} (hn : t.nodes[d]? = some n)
    (hd : ¬ t.Above id d) (hp : t.parent? id = some p) :
    n.cut (fun d => ¬ t.Above id d) d
      = if p = d then { n with children := n.children.filter (· != id) } else n := by
  have hchild : ∀ c ∈ n.children, (t.Above id c ↔ c = id) := by
    intro c hc
    constructor
    · intro h
      cases h with
      | refl => rfl
      | step hq h =>
        rw [(hw.child hn hc).2] at hq
        cases hq
        exact absurd h hd
    · rintro rfl
      exact .refl _
  rw [QueryNode.cut, if_pos hd]
  split
  · congr 1
    refine List.filter_congr fun c hc => ?_
    have := hchild c hc
    by_cases hcid : c = id <;> simp_all
  · rename_i hne
    have hall : ∀ c ∈ n.children, ¬ t.Above id c := by
      intro c hc h
      have hcp := (hw.child hn hc).2
      rw [(hchild c hc).mp h, hp] at hcp
      exact hne (Option.some.inj hcp)
    rw [List.filter_eq_self.mpr fun c hc => by simpa using hall c hc]

/-- **Removing a subtree is a cut**: what stays is what is not below its top. -/
theorem dropSubtree_cut (hw : t.WellFormed) (hlive : t.Live id) (hid : id ≠ root) :
    t.CutTo (t.dropSubtree id) fun d => ¬ t.Above id d := by
  obtain ⟨p, pn, hp, hpn, _, _⟩ := hw.listed hlive hid
  have hparent : t.nodes[id]?.bind QueryNode.parent = some p := hp
  have hpd : ¬ t.Above id p := fun h => absurd (h.le hw.parentLt) (Nat.not_le.mpr (hw.parentLt hp))
  let bare : QueryTree := { (t.below t.nodes.size id).foldl
    (fun t i => t.modify i QueryNode.gone) t with
      leaves := t.leaves.filter fun l => !(t.below t.nodes.size id).contains l }
  have hdrop : t.dropSubtree id = bare.detach p id := by
    simp only [dropSubtree, hparent]
    rfl
  have hframe := foldl_gone_frame (t.below t.nodes.size id) t
  have hdetach := detach_frame bare p id
  have hbare (i : Nat) : bare.nodes[i]? = if i ∈ t.below t.nodes.size id then
      t.nodes[i]?.map QueryNode.gone else t.nodes[i]? :=
    nodes_foldl_gone (t.below t.nodes.size id) t i
  rw [hdrop]
  refine ⟨fun i => ?_, hdetach.1.trans hframe.1, hdetach.2.1.trans hframe.2.1⟩
  · rw [nodes_detach, hbare]
    cases hn : t.nodes[i]? with
    | none => split <;> split <;> rfl
    | some n =>
      by_cases hr : n.removed = true
      · -- a node that was gone before has nothing left to lose
        have hnil := hw.children_eq_nil_of_removed hn hr
        have hgone : n.gone = n := QueryNode.gone_eq_self hr hnil
        have hsame : { n with children := n.children.filter (· != id) } = n := by
          rw [hnil, List.filter_nil, ← hnil]
        simp only [Option.map_some, QueryNode.cut_eq_self hr hnil, hgone, hsame, ite_self]
      · have hnlive : t.Live i := ⟨n, hn, by simpa using hr⟩
        by_cases hi : t.Above id i
        · have hip : p ≠ i := fun h => hpd (h ▸ hi)
          rw [if_neg hip, if_pos ((mem_below_iff hw hnlive).mpr hi)]
          simp [QueryNode.cut, QueryNode.gone, hi]
        · rw [if_neg (mt (mem_below_iff hw hnlive).mp hi)]
          simp only [Option.map_some, cut_eq_of_not_above hw hn hi hp]
          split <;> rfl

theorem dropSubtree_unsatisfiable (t : QueryTree) (id : Nat) :
    (t.dropSubtree id).unsatisfiable = t.unsatisfiable := by
  have hframe := foldl_gone_frame (t.below t.nodes.size id) t
  simp only [dropSubtree]
  split
  · rename_i p _
    exact (detach_frame _ p id).2.2.trans hframe.2.2
  · exact hframe.2.2

/-- A removed subtree leaves a tree behind. -/
theorem wellFormed_of_cut_below (hw : t.WellFormed) (hid : id ≠ root)
    (h : t.CutTo t' fun d => ¬ t.Above id d) : t'.WellFormed := by
  refine h.wellFormed hw ?_ ?_
  · intro habove
    exact hid (Nat.le_zero.mp (habove.le hw.parentLt))
  · intro c p hc hp habove
    exact hc (.step hp habove)

/-- Which dead nodes a cut names is immaterial. -/
theorem CutTo.congr_live (h : t.CutTo t' keep) (hw : t.WellFormed)
    (hk : ∀ id, t.Live id → (keep id ↔ keep' id)) : t.CutTo t' keep' := by
  refine ⟨fun id => ?_, h.binding, h.fullDepth⟩
  rw [h.nodes]
  cases hn : t.nodes[id]? with
  | none => rfl
  | some n =>
    rw [Option.map_some, Option.map_some]
    by_cases hr : n.removed = true
    · have hnil := hw.children_eq_nil_of_removed hn hr
      rw [QueryNode.cut_eq_self hr hnil, QueryNode.cut_eq_self hr hnil]
    · have hid := hk id ⟨n, hn, by simpa using hr⟩
      by_cases hkeep : keep id
      · rw [QueryNode.cut, QueryNode.cut, if_pos hkeep, if_pos (hid.mp hkeep)]
        congr 2
        refine List.filter_congr fun c hc => ?_
        have := hk c (hw.live_of_child hn hc)
        by_cases hkc : keep c <;> simp_all
      · rw [QueryNode.cut, QueryNode.cut, if_neg hkeep, if_neg (mt hid.mpr hkeep)]

/-! ## 3. First round: filters that let nothing through -/

/-- No filter on the way from the root to the node lets nothing through; the root's own filters
do not count. -/
def Clear (t : QueryTree) (d : Nat) : Prop :=
  ∀ {b : Nat} {n : QueryNode}, t.Above b d → b ≠ root → t.nodes[b]? = some n →
    n.isBlocked = false

/-- What one blocked node takes with it; the root takes nothing. -/
theorem dropBlocked_cut (hw : t.WellFormed) (b : Nat) :
    t.CutTo (t.dropBlocked b) (fun d => b ≠ root → ¬ t.Above b d) ∧
    (t.dropBlocked b).WellFormed ∧
    (t.dropBlocked b).unsatisfiable = (t.unsatisfiable || b == root) := by
  simp only [dropBlocked]
  split
  · rename_i hb
    subst hb
    have hsame : t.CutTo { t with unsatisfiable := true } fun _ => True :=
      ⟨(CutTo.refl t).nodes, rfl, rfl⟩
    refine ⟨hsame.congr (by simp), ?_, by simp⟩
    exact ⟨hw.rootLive, hw.rootTop, hw.parentLt, hw.listed, hw.child, hw.nodup⟩
  · rename_i hb
    split
    · rename_i hlive
      have hlive : t.Live b := by
        cases hn : t.nodes[b]? with
        | none => simp [hn] at hlive
        | some n => exact ⟨n, hn, by simpa [hn] using hlive⟩
      have hcut := dropSubtree_cut hw hlive hb
      exact ⟨hcut.congr (by simp [hb]), wellFormed_of_cut_below hw hb hcut,
        by simp [dropSubtree_unsatisfiable, hb]⟩
    · rename_i hdead
      refine ⟨(CutTo.refl t).congr_live hw fun d hd => ?_, hw, by simp [hb]⟩
      refine ⟨fun _ _ habove => hdead ?_, fun _ => trivial⟩
      obtain ⟨n, hn, hr⟩ := hw.live_above hd habove
      simp [hn, hr]

theorem foldl_dropBlocked (bs : List Nat) : ∀ {t : QueryTree}, t.WellFormed →
    t.CutTo (bs.foldl dropBlocked t) (fun d => ∀ b ∈ bs, b ≠ root → ¬ t.Above b d) ∧
    (bs.foldl dropBlocked t).WellFormed ∧
    (bs.foldl dropBlocked t).unsatisfiable = (t.unsatisfiable || bs.contains root) := by
  induction bs with
  | nil =>
    intro t hw
    exact ⟨(CutTo.refl t).congr (by simp), hw, by simp⟩
  | cons b bs ih =>
    intro t hw
    rw [List.foldl_cons]
    -- the first node gives a cut; the others are cut from what it leaves
    obtain ⟨hcut, hw', hun⟩ := dropBlocked_cut hw b
    obtain ⟨hcuts, hws, huns⟩ := ih hw'
    refine ⟨(hcut.trans hcuts).congr fun d => ?_, hws, ?_⟩
    · simp only [hcut.above_iff, List.forall_mem_cons]
    · rw [huns, hun, List.contains_cons, Bool.or_assoc]
      congr 2
      exact Bool.beq_comm

/-! ## 4. Further rounds: leaves at which no result ends -/

/-- A result can end at the node. -/
def EndsResult (t : QueryTree) (d : Nat) : Prop :=
  ∃ n, t.nodes[d]? = some n ∧ t.isBarren n = false

/-- The node is the root, or over it a node is reached at which a result can end. -/
def Bears (t : QueryTree) (d : Nat) : Prop :=
  d = root ∨ ∃ k, t.Above d k ∧ t.Live k ∧ t.EndsResult k

theorem isBarren_cut (h : t.CutTo t' keep) (n : QueryNode) :
    t'.isBarren (n.cut keep id) = t.isBarren n := by
  simp only [isBarren, QueryNode.cut, h.fullDepth]
  split <;> rfl

theorem CutTo.endsResult_iff (h : t.CutTo t' keep) : t'.EndsResult d ↔ t.EndsResult d := by
  simp only [EndsResult, h.nodes, Option.map_eq_some_iff]
  constructor
  · rintro ⟨_, ⟨n, hn, rfl⟩, hb⟩
    exact ⟨n, hn, isBarren_cut h n ▸ hb⟩
  · rintro ⟨n, hn, hb⟩
    exact ⟨_, ⟨n, hn, rfl⟩, (isBarren_cut h n).trans hb⟩

theorem CutTo.bears_of (h : t.CutTo t' keep) (hb : t'.Bears d) : t.Bears d := by
  refine hb.imp id ?_
  rintro ⟨k, hk, hlive, hend⟩
  exact ⟨k, h.above_iff.mp hk, (h.live_iff.mp hlive).1, h.endsResult_iff.mp hend⟩

/-- Below a live childless node nothing is live. -/
theorem WellFormed.eq_of_above_childless (hw : t.WellFormed) {n : QueryNode}
    (hn : t.nodes[a]? = some n) (hc : n.children = []) (hd : t.Live d) (h : t.Above a d) :
    a = d := by
  rcases h.cases_child with rfl | ⟨c, hp, hcd⟩
  · rfl
  · have := hw.mem_children_of_parent (hw.live_above hd hcd) hp hn
    rw [hc] at this
    exact absurd this List.not_mem_nil

/-- The number of a live childless node. -/
def Leaf (t : QueryTree) (id : Nat) : Prop :=
  ∃ n, t.nodes[id]? = some n ∧ n.removed = false ∧ n.children = []

theorem Leaf.live (h : t.Leaf id) : t.Live id := by
  obtain ⟨n, hn, hlive, _⟩ := h
  exact ⟨n, hn, hlive⟩

/-- With one leaf cut off, the others are still leaves. -/
theorem Leaf.dropSubtree (hw : t.WellFormed) (hid : id ≠ root) (hleaf : t.Leaf id)
    (h : t.Leaf d) (hne : id ≠ d) : (t.dropSubtree id).Leaf d := by
  obtain ⟨n, hn, hlive, hnil⟩ := hleaf
  obtain ⟨m, hm, hmlive, hmnil⟩ := h
  have hkeep : ¬ t.Above id d := fun habove =>
    hne (hw.eq_of_above_childless hn hnil ⟨m, hm, hmlive⟩ habove)
  exact ⟨_, (dropSubtree_cut hw ⟨n, hn, hlive⟩ hid).node hm,
    by simp [QueryNode.cut, hkeep, hmlive], by simp [QueryNode.cut, hkeep, hmnil]⟩

/-- Leaves to be cut off one after the other: each is listed once, and the root is not. -/
structure Shed (t : QueryTree) (bs : List Nat) : Prop where
  nodup : bs.Nodup
  leaf : ∀ b ∈ bs, b ≠ root ∧ t.Leaf b

/-- With the first cut off, the others can still be. -/
theorem Shed.tail {b : Nat} {bs : List Nat} (h : t.Shed (b :: bs)) (hw : t.WellFormed) :
    (t.dropSubtree b).Shed bs := by
  obtain ⟨⟨hb, hleaf⟩, hrest⟩ := List.forall_mem_cons.mp h.leaf
  obtain ⟨hnew, hnd⟩ := List.nodup_cons.mp h.nodup
  refine ⟨hnd, fun b' hb' => ⟨(hrest b' hb').1, ?_⟩⟩
  exact hleaf.dropSubtree hw hb (hrest b' hb').2 fun heq => hnew (heq ▸ hb')

/-- Cutting childless nodes off one after the other. -/
theorem foldl_dropSubtree (bs : List Nat) : ∀ {t : QueryTree}, t.WellFormed → t.Shed bs →
    t.CutTo (bs.foldl dropSubtree t) (fun d => ∀ b ∈ bs, ¬ t.Above b d) ∧
    (bs.foldl dropSubtree t).WellFormed := by
  induction bs with
  | nil =>
    intro t hw _
    exact ⟨(CutTo.refl t).congr (by simp), hw⟩
  | cons b bs ih =>
    intro t hw h
    obtain ⟨hb, hleaf⟩ := h.leaf b List.mem_cons_self
    have hcut := dropSubtree_cut hw hleaf.live hb
    obtain ⟨hcuts, hws⟩ := ih (wellFormed_of_cut_below hw hb hcut) (h.tail hw)
    refine ⟨(hcut.trans hcuts).congr fun d => ?_, hws⟩
    simp only [hcut.above_iff, List.forall_mem_cons]

theorem mem_barrenLeaves : id ∈ t.barrenLeaves ↔ id ≠ root ∧ ∃ n, t.nodes[id]? = some n ∧
    n.removed = false ∧ n.children = [] ∧ t.isBarren n = true := by
  simp only [barrenLeaves, mem_liveWhere, Bool.and_eq_true, bne_iff_ne, List.isEmpty_iff]
  constructor
  · rintro ⟨n, hn, hlive, ⟨hroot, hnil⟩, hb⟩
    exact ⟨hroot, n, hn, hlive, hnil, hb⟩
  · rintro ⟨hroot, n, hn, hlive, hnil, hb⟩
    exact ⟨n, hn, hlive, ⟨hroot, hnil⟩, hb⟩

theorem shed_barrenLeaves (t : QueryTree) : t.Shed t.barrenLeaves := by
  refine ⟨nodup_liveWhere _, fun b hb => ?_⟩
  obtain ⟨hroot, n, hn, hlive, hnil, _⟩ := mem_barrenLeaves.mp hb
  exact ⟨hroot, n, hn, hlive, hnil⟩

/-- One round cuts no node off over which a result is reached. -/
theorem not_above_of_bears (hw : t.WellFormed) (hd : t.Live d) (hb : t.Bears d)
    (ha : a ∈ t.barrenLeaves) : ¬ t.Above a d := by
  intro habove
  obtain ⟨hroot, n, hn, _, hnil, hbarren⟩ := mem_barrenLeaves.mp ha
  rcases hb with rfl | ⟨k, hk, hlive, m, hm, hend⟩
  · exact hroot (Nat.le_zero.mp (habove.le hw.parentLt))
  · obtain rfl := hw.eq_of_above_childless hn hnil hlive (habove.trans hk)
    rw [hn] at hm
    cases hm
    rw [hbarren] at hend
    cases hend

open Classical in
/-- The live nodes, for counting. -/
noncomputable def liveSet (t : QueryTree) : Finset Nat :=
  (Finset.range t.nodes.size).filter t.Live

theorem mem_liveSet : id ∈ t.liveSet ↔ t.Live id := by
  simp only [liveSet, Finset.mem_filter, Finset.mem_range, and_iff_right_iff_imp]
  rintro ⟨n, hn, _⟩
  exact lt_size_of_node hn

theorem card_liveSet_le (t : QueryTree) : t.liveSet.card ≤ t.nodes.size := by
  have hsub : t.liveSet ⊆ Finset.range t.nodes.size := by
    intro d hd
    obtain ⟨n, hn, _⟩ := mem_liveSet.mp hd
    exact Finset.mem_range.mpr (lt_size_of_node hn)
  have := Finset.card_le_card hsub
  rwa [Finset.card_range] at this

theorem foldl_dropSubtree_unsatisfiable (bs : List Nat) (t : QueryTree) :
    (bs.foldl dropSubtree t).unsatisfiable = t.unsatisfiable := by
  induction bs generalizing t with
  | nil => rfl
  | cons b bs ih => rw [List.foldl_cons, ih, dropSubtree_unsatisfiable]

/-- One round: a cut that spares what bears a result, and lowers the number of live nodes if there
was anything to cut off. -/
theorem round_cut (hw : t.WellFormed) :
    t.CutTo (t.barrenLeaves.foldl dropSubtree t) (fun d => ∀ b ∈ t.barrenLeaves, ¬ t.Above b d) ∧
    (t.barrenLeaves.foldl dropSubtree t).WellFormed ∧
    (∀ d, t.Live d → t.Bears d → (t.barrenLeaves.foldl dropSubtree t).Live d ∧
      (t.barrenLeaves.foldl dropSubtree t).Bears d) ∧
    (t.barrenLeaves ≠ [] →
      (t.barrenLeaves.foldl dropSubtree t).liveSet.card < t.liveSet.card) := by
  obtain ⟨hcut, hw'⟩ := foldl_dropSubtree t.barrenLeaves hw t.shed_barrenLeaves
  have hspare : ∀ d, t.Live d → t.Bears d → (t.barrenLeaves.foldl dropSubtree t).Live d :=
    fun d hd hb => hcut.live_iff.mpr ⟨hd, fun b hmem => not_above_of_bears hw hd hb hmem⟩
  refine ⟨hcut, hw', fun d hd hb => ⟨hspare d hd hb, ?_⟩, fun hne => ?_⟩
  · refine hb.imp id ?_
    rintro ⟨k, hk, hlive, hend⟩
    exact ⟨k, hcut.above_iff.mpr hk, hspare k hlive (Or.inr ⟨k, .refl k, hlive, hend⟩),
      hcut.endsResult_iff.mpr hend⟩
  · obtain ⟨b, hb⟩ := List.exists_mem_of_ne_nil _ hne
    obtain ⟨_, n, hn, hlive, _⟩ := mem_barrenLeaves.mp hb
    refine Finset.card_lt_card ⟨fun d hd => ?_, fun hsub => ?_⟩
    · exact mem_liveSet.mpr (hcut.live_iff.mp (mem_liveSet.mp hd)).1
    · have hin := hsub (mem_liveSet.mpr ⟨n, hn, hlive⟩)
      exact (hcut.live_iff.mp (mem_liveSet.mp hin)).2 b hb (.refl b)

/-- **Enough rounds cut off every leaf at which no result ends, and no node over which one is
reached.** -/
theorem dropBarren_cut : ∀ (rounds : Nat) {t : QueryTree}, t.WellFormed →
    t.liveSet.card ≤ rounds →
    (∃ keep, t.CutTo (t.dropBarren rounds) keep) ∧
    (∀ d, t.Live d → t.Bears d → (t.dropBarren rounds).Live d) ∧
    (t.dropBarren rounds).WellFormed ∧ (t.dropBarren rounds).barrenLeaves = [] ∧
    (t.dropBarren rounds).unsatisfiable = t.unsatisfiable := by
  intro rounds
  induction rounds with
  | zero =>
    intro t hw hcard
    have hroot := mem_liveSet.mpr hw.rootLive
    rw [Finset.card_eq_zero.mp (Nat.le_zero.mp hcard)] at hroot
    exact absurd hroot (Finset.notMem_empty _)
  | succ rounds ih =>
    intro t hw hcard
    rw [dropBarren]
    split
    · rename_i hnil
      exact ⟨⟨_, CutTo.refl t⟩, fun d hd _ => hd, hw, hnil, rfl⟩
    · rename_i hne
      obtain ⟨hcut, hw', hspare, hless⟩ := round_cut hw
      have hlt := hless hne
      obtain ⟨⟨keep, hcuts⟩, hspares, hws, hnil, hun⟩ := ih hw' (by omega)
      refine ⟨⟨_, hcut.trans hcuts⟩, fun d hd hb => ?_, hws, hnil, ?_⟩
      · obtain ⟨hd', hb'⟩ := hspare d hd hb
        exact hspares d hd' hb'
      · rw [hun, foldl_dropSubtree_unsatisfiable]

/-- Where no leaf is left to cut off, a result is reached over every live node. -/
theorem bears_of_no_barrenLeaves (hw : t.WellFormed) (hnil : t.barrenLeaves = []) :
    ∀ {d : Nat}, t.Live d → t.Bears d := by
  -- children have larger numbers, so go down from the end of the array
  have hdown : ∀ (rest d : Nat), t.nodes.size ≤ d + rest → t.Live d → t.Bears d := by
    intro rest
    induction rest with
    | zero =>
      intro d hsize hd
      obtain ⟨n, hn, _⟩ := hd
      exact absurd (lt_size_of_node hn) (by omega)
    | succ rest ih =>
      intro d hsize hd
      obtain ⟨n, hn, hlive⟩ := hd
      by_cases hroot : d = root
      · exact Or.inl hroot
      · cases hc : n.children with
        | nil =>
          refine Or.inr ⟨d, .refl d, ⟨n, hn, hlive⟩, n, hn, ?_⟩
          by_contra hb
          have : d ∈ t.barrenLeaves :=
            mem_barrenLeaves.mpr ⟨hroot, n, hn, hlive, hc, by simpa using hb⟩
          rw [hnil] at this
          exact absurd this List.not_mem_nil
        | cons c cs =>
          obtain ⟨hclive, hcp⟩ := hw.child hn (hc ▸ List.mem_cons_self)
          have hlt := hw.parentLt hcp
          rcases ih c (by omega) hclive with rfl | ⟨k, hk, hrest⟩
          · exact absurd hlt (Nat.not_lt_zero _)
          · exact Or.inr ⟨k, (Above.step hcp (.refl d)).trans hk, hrest⟩
  intro d hd
  exact hdown t.nodes.size d (by omega) hd

/-! ## 5. Pruning -/

/-- The node stays: nothing blocks the way to it, and it is the root or over it a node is reached,
along a way that nothing blocks, at which a result can end. -/
def Useful (t : QueryTree) (d : Nat) : Prop :=
  t.Clear d ∧ (d = root ∨ ∃ k, t.Above d k ∧ t.Live k ∧ t.Clear k ∧ t.EndsResult k)

/-- **What pruning keeps.** Pruning is the cut that leaves the useful nodes. -/
theorem prune_cut (hw : t.WellFormed) : t.CutTo t.prune t.Useful ∧ t.prune.WellFormed ∧
    t.prune.barrenLeaves = [] ∧
    t.prune.unsatisfiable = (t.unsatisfiable || t.nodes[root]?.any QueryNode.isBlocked) := by
  obtain ⟨hcut, hw₁, hun₁⟩ := foldl_dropBlocked (t.liveWhere fun _ n => n.isBlocked) hw
  have hprune : t.prune = ((t.liveWhere fun _ n => n.isBlocked).foldl dropBlocked t).dropBarren
      ((t.liveWhere fun _ n => n.isBlocked).foldl dropBlocked t).nodes.size := rfl
  rw [hprune]
  generalize (t.liveWhere fun _ n => n.isBlocked).foldl dropBlocked t = t₁ at hcut hw₁ hun₁ ⊢
  have hclear : ∀ d, t.Live d → ((∀ b ∈ t.liveWhere fun _ n => n.isBlocked, b ≠ root →
      ¬ t.Above b d) ↔ t.Clear d) := by
    intro d hd
    constructor
    · intro h b n habove hb hn
      by_contra hblocked
      obtain ⟨m, hm, hlive⟩ := hw.live_above hd habove
      rw [hn] at hm
      cases hm
      exact h b (mem_liveWhere.mpr ⟨n, hn, hlive, by simpa using hblocked⟩) hb habove
    · intro h b hb hroot habove
      obtain ⟨n, hn, _, hblocked⟩ := mem_liveWhere.mp hb
      rw [h habove hroot hn] at hblocked
      cases hblocked
  have hcard : t₁.liveSet.card ≤ t₁.nodes.size := card_liveSet_le t₁
  obtain ⟨⟨keep, hcuts⟩, hspare, hw₂, hnil, hun₂⟩ := dropBarren_cut _ hw₁ hcard
  refine ⟨(hcut.trans hcuts).congr_live hw fun d hd => ?_, hw₂, hnil, ?_⟩
  · have hlive₁ : ∀ {k}, t₁.Live k ↔ t.Live k ∧ t.Clear k := fun {k} =>
      hcut.live_iff.trans ⟨fun h => ⟨h.1, (hclear k h.1).mp h.2⟩,
        fun h => ⟨h.1, (hclear k h.1).mpr h.2⟩⟩
    have hbears : t₁.Bears d ↔
        (d = root ∨ ∃ k, t.Above d k ∧ t.Live k ∧ t.Clear k ∧ t.EndsResult k) := by
      simp only [Bears, hcut.above_iff, hlive₁, hcut.endsResult_iff, and_assoc]
    constructor
    · rintro ⟨h, hkeep⟩
      have hd₁ : t₁.Live d := hcut.live_iff.mpr ⟨hd, h⟩
      have hd₂ := hcuts.live_iff.mpr ⟨hd₁, hkeep⟩
      exact ⟨(hclear d hd).mp h,
        hbears.mp (hcuts.bears_of (bears_of_no_barrenLeaves hw₂ hnil hd₂))⟩
    · rintro ⟨h, hb⟩
      have h' := (hclear d hd).mpr h
      have hd₁ : t₁.Live d := hcut.live_iff.mpr ⟨hd, h'⟩
      exact ⟨h', (hcuts.live_iff.mp (hspare d hd₁ (hbears.mpr hb))).2⟩
  · rw [hun₂, hun₁]
    congr 1
    obtain ⟨n, hn, hlive⟩ := hw.rootLive
    rw [hn, Option.any_some, Bool.eq_iff_iff, List.contains_iff_mem, mem_liveWhere]
    constructor
    · rintro ⟨m, hm, _, hb⟩
      rw [hn] at hm
      cases hm
      exact hb
    · intro hb
      exact ⟨n, hn, hlive, hb⟩

end QueryTree

end TraversalSql
