import Mathlib.Data.List.Basic
import Mathlib.Data.List.Nodup
import TraversalSql.Proofs.Results
import TraversalSql.Tree.Paths

/-!
# The tree behind the numbers

A query tree keeps its nodes in an array and names them by their numbers. What makes the array a
tree is `WellFormed`: parents have smaller numbers, a live node is listed once by its parent, which
is live as well, and whoever is listed points back. Going up is a matter of parents alone, and
parents never change, so everything that is said of a node's way from the root (`Above`, `path`)
is said once and survives all surgery on children.
-/

set_option autoImplicit false

namespace TraversalSql

/-- What ties a node to others, and whether it is there. -/
def QueryNode.links (n : QueryNode) : Option Nat × List Nat × Bool :=
  (n.parent, n.children, n.removed)

namespace QueryTree

variable {t t' : QueryTree} {a b c d p id : Nat}

/-! ## 1. Going up -/

/-- The node is there and was not removed. -/
def Live (t : QueryTree) (id : Nat) : Prop := ∃ n, t.nodes[id]? = some n ∧ n.removed = false

def parent? (t : QueryTree) (id : Nat) : Option Nat := t.nodes[id]?.bind QueryNode.parent

/-- `t.Above a d`: the node `a` is `d` itself or stands above it. -/
inductive Above (t : QueryTree) : Nat → Nat → Prop
  | refl (d : Nat) : Above t d d
  | step {a p d : Nat} : t.parent? d = some p → Above t a p → Above t a d

/-- The array is a tree. -/
structure WellFormed (t : QueryTree) : Prop where
  rootLive : t.Live root
  rootTop : t.parent? root = none
  parentLt : ∀ {id p}, t.parent? id = some p → p < id
  listed : ∀ {id}, t.Live id → id ≠ root → ∃ p n, t.parent? id = some p ∧
    t.nodes[p]? = some n ∧ n.removed = false ∧ id ∈ n.children
  child : ∀ {p c : Nat} {n : QueryNode}, t.nodes[p]? = some n → c ∈ n.children →
    t.Live c ∧ t.parent? c = some p
  nodup : ∀ {p : Nat} {n : QueryNode}, t.nodes[p]? = some n → n.children.Nodup

theorem parent?_of_node {n : QueryNode} (h : t.nodes[id]? = some n) : t.parent? id = n.parent := by
  rw [parent?, h, Option.bind_some]

theorem Above.trans (h : t.Above a b) (h' : t.Above b c) : t.Above a c := by
  induction h' with
  | refl => exact h
  | step hp _ ih => exact .step hp ih

theorem Above.le (hw : ∀ {id p}, t.parent? id = some p → p < id) (h : t.Above a d) : a ≤ d := by
  induction h with
  | refl => exact Nat.le_refl _
  | step hp _ ih => exact Nat.le_trans ih (Nat.le_of_lt (hw hp))

/-- What stands above depends on parents only. -/
theorem Above.congr (hp : ∀ id, t.parent? id = t'.parent? id) (h : t.Above a d) :
    t'.Above a d := by
  induction h with
  | refl => exact .refl _
  | step hd _ ih => exact .step (hp _ ▸ hd) ih

theorem above_congr (hp : ∀ id, t.parent? id = t'.parent? id) : t.Above a d ↔ t'.Above a d :=
  ⟨.congr hp, .congr fun id => (hp id).symm⟩

/-- Below a node stand the node itself and what is below one of its children. -/
theorem Above.cases_child (h : t.Above a d) :
    a = d ∨ ∃ c, t.parent? c = some a ∧ t.Above c d := by
  induction h with
  | refl => exact Or.inl rfl
  | step hp _ ih =>
    rcases ih with rfl | ⟨c, hc, hcd⟩
    · exact Or.inr ⟨_, hp, .refl _⟩
    · exact Or.inr ⟨c, hc, .step hp hcd⟩

/-! ## 2. The way from the root -/

/-- The nodes from the root to a node, both included. -/
def path (t : QueryTree) (id : Nat) : List Nat := (t.ancestors (id + 1) id).reverse

theorem node_eq {n : QueryNode} (h : t.nodes[id]? = some n) : t.node id = .ok n := by
  rw [node, h]

theorem node_ok {n : QueryNode} (h : t.node id = .ok n) : t.nodes[id]? = some n := by
  unfold node at h
  split at h
  · rename_i hn
    rw [hn, Except.ok.inj h]
  · cases h

theorem findAncestors_ok {steps : Nat} {ids : List Nat} (h : t.findAncestors steps id = .ok ids) :
    ids = t.ancestors steps id := by
  induction steps generalizing id ids with
  | zero =>
    cases h
    rfl
  | succ steps ih =>
    obtain ⟨n, hn, h⟩ := bind_ok h
    rw [ancestors, show t.nodes[id]?.bind QueryNode.parent = n.parent from
      congrArg (Option.bind · QueryNode.parent) (node_ok hn)]
    cases hp : n.parent with
    | none =>
      rw [hp] at h
      cases h
      rfl
    | some p =>
      rw [hp] at h
      obtain ⟨above, habove, h⟩ := bind_ok h
      cases h
      rw [ih habove]

theorem pathTo_ok {ids : List Nat} (h : t.pathTo id = .ok ids) : ids = t.path id := by
  obtain ⟨above, habove, h⟩ := bind_ok h
  cases h
  rw [findAncestors_ok habove, path]

/-- Steps in hand beyond what the way up needs make no difference. -/
theorem ancestors_of_lt (hw : ∀ {id p}, t.parent? id = some p → p < id) {steps steps' : Nat}
    (h : id < steps) (h' : id < steps') : t.ancestors steps id = t.ancestors steps' id := by
  induction id using Nat.strongRecOn generalizing steps steps' with
  | ind id ih =>
    obtain ⟨steps, rfl⟩ := Nat.exists_eq_succ_of_ne_zero (Nat.ne_of_gt (Nat.zero_lt_of_lt h))
    obtain ⟨steps', rfl⟩ := Nat.exists_eq_succ_of_ne_zero (Nat.ne_of_gt (Nat.zero_lt_of_lt h'))
    simp only [ancestors]
    split
    · rename_i p hp
      have hlt : p < id := hw hp
      rw [ih p hlt (show p < steps by omega) (show p < steps' by omega)]
    · rfl

theorem path_of_top (h : t.parent? id = none) : t.path id = [id] := by
  simp only [path, ancestors]
  rw [show t.nodes[id]?.bind QueryNode.parent = none from h]
  rfl

theorem path_of_parent (hw : ∀ {id p}, t.parent? id = some p → p < id)
    (h : t.parent? id = some p) : t.path id = t.path p ++ [id] := by
  have hlt := hw h
  simp only [path]
  rw [ancestors, show t.nodes[id]?.bind QueryNode.parent = some p from h]
  simp only [List.reverse_cons]
  rw [ancestors_of_lt hw hlt (Nat.lt_succ_self p)]

theorem mem_path_iff (hw : ∀ {id p}, t.parent? id = some p → p < id) :
    ∀ {d : Nat}, a ∈ t.path d ↔ t.Above a d := by
  intro d
  induction d using Nat.strongRecOn with
  | ind d ih =>
    cases hp : t.parent? d with
    | none =>
      rw [path_of_top hp, List.mem_singleton]
      constructor
      · rintro rfl
        exact .refl _
      · intro h
        cases h with
        | refl => rfl
        | step h _ => rw [hp] at h; cases h
    | some p =>
      rw [path_of_parent hw hp, List.mem_append, List.mem_singleton, ih p (hw hp)]
      constructor
      · rintro (h | rfl)
        · exact .step hp h
        · exact .refl _
      · intro h
        cases h with
        | refl => exact Or.inr rfl
        | step h h' => rw [hp] at h; cases h; exact Or.inl h'

theorem path_congr (hp : ∀ id, t.parent? id = t'.parent? id)
    (hw : ∀ {id p}, t.parent? id = some p → p < id) (id : Nat) : t.path id = t'.path id := by
  have hw' : ∀ {id p}, t'.parent? id = some p → p < id := fun h => hw (hp _ ▸ h)
  induction id using Nat.strongRecOn with
  | ind id ih =>
    cases h : t.parent? id with
    | none => rw [path_of_top h, path_of_top (hp id ▸ h)]
    | some p => rw [path_of_parent hw h, path_of_parent hw' (hp id ▸ h), ih p (hw h)]

/-- A parent has a smaller number, so it is there and the way up is not refused. -/
theorem findAncestors_eq (hw : ∀ {id p}, t.parent? id = some p → p < id) {steps : Nat}
    (hid : id < t.nodes.size) : t.findAncestors steps id = .ok (t.ancestors steps id) := by
  induction steps generalizing id with
  | zero => rfl
  | succ steps ih =>
    have hn : t.nodes[id]? = some t.nodes[id] := Array.getElem?_eq_getElem hid
    rw [findAncestors, node_eq hn, ancestors, hn, Option.bind_some]
    cases hp : t.nodes[id].parent with
    | none => simp only [bind, Except.bind, hp, pure, Except.pure]
    | some p =>
      have hlt : p < id := hw ((parent?_of_node hn).trans hp)
      simp only [bind, Except.bind, hp, ih (Nat.lt_trans hlt hid), pure, Except.pure]

theorem pathTo_eq (hw : ∀ {id p}, t.parent? id = some p → p < id) (hid : id < t.nodes.size) :
    t.pathTo id = .ok (t.path id) := by
  rw [pathTo, findAncestors_eq hw hid, path]
  rfl

-- from here on a path is known by its parents only
attribute [irreducible] path

/-! ## 3. Live nodes -/

theorem mem_liveWhere {f : Nat → QueryNode → Bool} :
    id ∈ t.liveWhere f ↔ ∃ n, t.nodes[id]? = some n ∧ n.removed = false ∧ f id n = true := by
  simp only [liveWhere, live, List.mem_map, List.mem_filter, Prod.exists, Bool.not_eq_true',
    Prod.mk.injEq]
  constructor
  · rintro ⟨_, n, ⟨⟨m, j, ⟨hmem, hlive⟩, rfl, rfl⟩, hf⟩, rfl⟩
    have := List.mem_zipIdx_iff_getElem?.mp hmem
    exact ⟨m, by simpa using this, hlive, hf⟩
  · rintro ⟨n, hn, hlive, hf⟩
    refine ⟨id, n, ⟨⟨n, id, ⟨?_, hlive⟩, rfl, rfl⟩, hf⟩, rfl⟩
    exact List.mem_zipIdx_iff_getElem?.mpr (by simpa using hn)

theorem nodup_liveWhere (f : Nat → QueryNode → Bool) : (t.liveWhere f).Nodup := by
  have hidx : (t.nodes.toList.zipIdx.map Prod.snd).Nodup := by
    rw [List.zipIdx_map_snd]
    exact List.nodup_range'
  have hsub : (t.liveWhere f).Sublist (t.nodes.toList.zipIdx.map Prod.snd) := by
    simp only [liveWhere, live, List.filter_map, List.map_map]
    exact (List.filter_sublist.trans List.filter_sublist).map _
  exact hsub.nodup hidx

namespace WellFormed

variable (hw : t.WellFormed)
include hw

theorem live_of_child {n : QueryNode} (hn : t.nodes[p]? = some n) (hc : c ∈ n.children) :
    t.Live c := (hw.child hn hc).1

/-- Listing children means being live: what a removed node listed went with it. -/
theorem live_of_mem_children {n : QueryNode} (hn : t.nodes[p]? = some n) (hc : c ∈ n.children) :
    n.removed = false := by
  obtain ⟨hlive, hp⟩ := hw.child hn hc
  have hroot : c ≠ root := by
    rintro rfl
    rw [hw.rootTop] at hp
    cases hp
  obtain ⟨q, m, hq, hm, hmlive, _⟩ := hw.listed hlive hroot
  rw [hp] at hq
  cases hq
  rw [hn] at hm
  cases hm
  exact hmlive

theorem children_eq_nil_of_removed {n : QueryNode} (hn : t.nodes[p]? = some n)
    (h : n.removed = true) : n.children = [] := by
  refine List.eq_nil_iff_forall_not_mem.mpr fun c hc => ?_
  rw [hw.live_of_mem_children hn hc] at h
  cases h

theorem live_parent (h : t.Live d) (hp : t.parent? d = some p) : t.Live p := by
  have hroot : d ≠ root := by
    rintro rfl
    rw [hw.rootTop] at hp
    cases hp
  obtain ⟨q, n, hq, hn, hlive, _⟩ := hw.listed h hroot
  rw [hp] at hq
  cases hq
  exact ⟨n, hn, hlive⟩

theorem live_above (h : t.Live d) (ha : t.Above a d) : t.Live a := by
  induction ha with
  | refl => exact h
  | step hp _ ih => exact ih (hw.live_parent h hp)

theorem mem_children_of_parent {n : QueryNode} (h : t.Live d) (hp : t.parent? d = some p)
    (hn : t.nodes[p]? = some n) : d ∈ n.children := by
  have hroot : d ≠ root := by
    rintro rfl
    rw [hw.rootTop] at hp
    cases hp
  obtain ⟨q, m, hq, hm, _, hmem⟩ := hw.listed h hroot
  rw [hp] at hq
  cases hq
  rw [hn] at hm
  cases hm
  exact hmem

theorem root_above (h : t.Live d) : t.Above root d := by
  induction d using Nat.strongRecOn with
  | ind d ih =>
    by_cases hd : d = root
    · exact hd ▸ .refl _
    · obtain ⟨p, n, hp, hn, hlive, _⟩ := hw.listed h hd
      exact .step hp (ih p (hw.parentLt hp) ⟨n, hn, hlive⟩)

theorem path_root : t.path root = [root] := path_of_top hw.rootTop

end WellFormed

/-! ## 4. Going down -/

/-- `t.Descends p ids d`: from `p`, child by child over the nodes `ids`, down to `d`. -/
inductive Descends (t : QueryTree) : Nat → List Nat → Nat → Prop
  | nil (p : Nat) : Descends t p [] p
  | cons {p c d : Nat} {ids : List Nat} {n : QueryNode} : t.nodes[p]? = some n →
      c ∈ n.children → Descends t c ids d → Descends t p (c :: ids) d

theorem Descends.append {ids ids' : List Nat} (h : t.Descends a ids b) (h' : t.Descends b ids' d) :
    t.Descends a (ids ++ ids') d := by
  induction h with
  | nil => exact h'
  | cons hn hc _ ih => exact .cons hn hc (ih h')

theorem Descends.end_eq {ids : List Nat} (h : t.Descends a ids d) (h' : t.Descends a ids b) :
    d = b := by
  induction h with
  | nil =>
    cases h'
    rfl
  | cons _ _ _ ih =>
    cases h' with
    | cons _ _ h' => exact ih h'

/-- The way from the root to a node that was descended to. -/
theorem Descends.path_eq (hw : t.WellFormed) {ids : List Nat} (h : t.Descends a ids d) :
    t.path d = t.path a ++ ids := by
  induction h with
  | nil => exact (List.append_nil _).symm
  | cons hn hc _ ih =>
    rw [ih, path_of_parent hw.parentLt (hw.child hn hc).2, List.append_assoc]
    rfl

theorem Descends.above (hw : t.WellFormed) {ids : List Nat} (h : t.Descends a ids d) :
    t.Above a d := by
  induction h with
  | nil => exact .refl _
  | cons hn hc _ ih => exact Above.trans (.step (hw.child hn hc).2 (.refl _)) ih

theorem Descends.live (hw : t.WellFormed) {ids : List Nat} (h : t.Descends a ids d)
    (ha : t.Live a) : t.Live d := by
  induction h with
  | nil => exact ha
  | cons hn hc _ ih => exact ih (hw.child hn hc).1

/-- Whatever stands above a live node descends to it. -/
theorem WellFormed.descends (hw : t.WellFormed) (h : t.Above a d) (hd : t.Live d) :
    ∃ ids, t.Descends a ids d := by
  induction h with
  | refl => exact ⟨[], .nil _⟩
  | step hp _ ih =>
    obtain ⟨n, hn, hlive⟩ := hw.live_parent hd hp
    obtain ⟨ids, hids⟩ := ih ⟨n, hn, hlive⟩
    exact ⟨ids ++ [_], hids.append (.cons hn (hw.mem_children_of_parent hd hp hn) (.nil _))⟩

/-! ## 5. The same links -/

/-- Where the nodes of two trees agree in something, each has a counterpart. -/
theorem exists_node_of_map_eq {α : Type} {f : QueryNode → α}
    (h : ∀ i : Nat, t'.nodes[i]?.map f = t.nodes[i]?.map f) {n : QueryNode}
    (hn : t.nodes[id]? = some n) : ∃ n', t'.nodes[id]? = some n' ∧ f n' = f n := by
  have hi := h id
  rwa [hn, Option.map_some, Option.map_eq_some_iff] at hi

/-- An array is a tree by the links of its nodes alone. -/
theorem WellFormed.of_links (hw : t.WellFormed)
    (hlinks : ∀ i : Nat, t'.nodes[i]?.map QueryNode.links = t.nodes[i]?.map QueryNode.links) :
    t'.WellFormed := by
  have hnode : ∀ {s s' : QueryTree},
      (∀ i : Nat, s'.nodes[i]?.map QueryNode.links = s.nodes[i]?.map QueryNode.links) →
      ∀ {i : Nat} {n : QueryNode}, s.nodes[i]? = some n → ∃ n', s'.nodes[i]? = some n' ∧
        n'.parent = n.parent ∧ n'.children = n.children ∧ n'.removed = n.removed := by
    intro s s' hsame i n hn
    obtain ⟨n', hn', heq⟩ := exists_node_of_map_eq hsame hn
    simp only [QueryNode.links, Prod.mk.injEq] at heq
    exact ⟨n', hn', heq⟩
  have hback := @hnode t' t fun i => (hlinks i).symm
  have hparent : ∀ i, t'.parent? i = t.parent? i := by
    intro i
    cases hn : t.nodes[i]? with
    | some n =>
      obtain ⟨n', hn', hp, _⟩ := hnode hlinks hn
      rw [parent?_of_node hn', parent?_of_node hn, hp]
    | none =>
      have hi := hlinks i
      rw [hn, Option.map_none, Option.map_eq_none_iff] at hi
      rw [parent?, parent?, hn, hi]
  have hlive : ∀ {i}, t.Live i → t'.Live i := by
    rintro i ⟨n, hn, hlive⟩
    obtain ⟨n', hn', _, _, hr⟩ := hnode hlinks hn
    exact ⟨n', hn', hr.trans hlive⟩
  constructor
  · exact hlive hw.rootLive
  · rw [hparent, hw.rootTop]
  · intro i p hp
    exact hw.parentLt (hparent i ▸ hp)
  · rintro i ⟨n', hn', hr⟩ hroot
    obtain ⟨n, hn, _, _, hremoved⟩ := hback hn'
    obtain ⟨p, m, hp, hm, hmlive, hmem⟩ := hw.listed ⟨n, hn, hremoved.trans hr⟩ hroot
    obtain ⟨m', hm', _, hchildren, hmr⟩ := hnode hlinks hm
    exact ⟨p, m', (hparent i).trans hp, hm', hmr.trans hmlive, hchildren ▸ hmem⟩
  · intro p c n' hn' hmem
    obtain ⟨n, hn, _, hchildren, _⟩ := hback hn'
    obtain ⟨hl, hp⟩ := hw.child hn (hchildren ▸ hmem)
    exact ⟨hlive hl, (hparent c).trans hp⟩
  · intro p n' hn'
    obtain ⟨n, hn, _, hchildren, _⟩ := hback hn'
    exact hchildren ▸ hw.nodup hn

end QueryTree

end TraversalSql
