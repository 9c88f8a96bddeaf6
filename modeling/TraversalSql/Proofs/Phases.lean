import TraversalSql.Proofs.Composing
import TraversalSql.Proofs.Survivors

/-!
# Phases do not overlap

The three phases filter the nodes of a tree separately, by flags that may be set in any combination.
A node that two phases end at would return its rows twice, and a leaf that none ends at would lose
them. Neither happens, because which phase ends at a live node is a function of the node
(`phase?`): where an optional part begins it is the optional phase, else at a leaf of full depth the
regular one, else at an emitted node the emit phase. For every leaf that pruning leaves below the
root there is such a phase. The main theorem is about any tree that was made by hand and pruned, and
says what its stacks hold.
-/

set_option autoImplicit false

namespace TraversalSql.QueryTree

variable {t : QueryTree} {c d id : Nat} {n : QueryNode} {phase : Phase} {b : List Nat}
  {s : PathStack}

/-! ## 1. The phase that ends at a node -/

/-- The phase that ends at a live node, if one does. -/
def phase? (t : QueryTree) (n : QueryNode) : Option Phase :=
  if n.leftJoin then some .optional
  else if n.children.isEmpty && n.depth == t.fullDepth then some .regular
  else if n.emit then some .emit
  else none

theorem phase?_eq_optional_iff : t.phase? n = some .optional ↔ n.leftJoin = true := by
  unfold phase?
  cases n.leftJoin <;> cases n.children.isEmpty && n.depth == t.fullDepth <;> cases n.emit <;> simp

theorem phase?_eq_regular_iff : t.phase? n = some .regular ↔
    (n.children.isEmpty && n.depth == t.fullDepth && !n.leftJoin) = true := by
  unfold phase?
  cases n.leftJoin <;> cases n.children.isEmpty && n.depth == t.fullDepth <;> cases n.emit <;> simp

theorem phase?_eq_emit_iff : t.phase? n = some .emit ↔
    (n.emit && !n.leftJoin) = true ∧ t.phase? n ≠ some .regular := by
  unfold phase?
  cases n.leftJoin <;> cases n.children.isEmpty && n.depth == t.fullDepth <;> cases n.emit <;> simp

theorem mem_regularLeaves_iff : id ∈ t.regularLeaves ↔
    ∃ n, t.nodes[id]? = some n ∧ n.removed = false ∧ t.phase? n = some .regular := by
  simp only [regularLeaves, mem_liveWhere, phase?_eq_regular_iff]

theorem mem_frontiers_iff : id ∈ t.frontiers ↔
    ∃ n, t.nodes[id]? = some n ∧ n.removed = false ∧ t.phase? n = some .optional := by
  simp only [frontiers, mem_liveWhere, phase?_eq_optional_iff]

theorem mem_emitted_iff : id ∈ t.emitted ↔
    ∃ n, t.nodes[id]? = some n ∧ n.removed = false ∧ t.phase? n = some .emit := by
  rw [emitted, mem_liveWhere]
  refine exists_congr fun n => and_congr_right fun hn => and_congr_right fun hlive => ?_
  have hregular : t.regularLeaves.contains id = true ↔ t.phase? n = some .regular := by
    rw [List.contains_iff_mem, mem_regularLeaves_iff, hn]
    simp [hlive]
  rw [Bool.and_eq_true, Bool.not_eq_true', ← Bool.not_eq_true, hregular, phase?_eq_emit_iff]

/-- **A phase ends where its node says so.** -/
theorem mem_ends_iff : id ∈ t.ends phase ↔
    ∃ n, t.nodes[id]? = some n ∧ n.removed = false ∧ t.phase? n = some phase := by
  cases phase with
  | regular => exact mem_regularLeaves_iff
  | optional => exact mem_frontiers_iff
  | emit => exact mem_emitted_iff

theorem phase_eq_of_mem_ends {phase' : Phase} (h : id ∈ t.ends phase) (h' : id ∈ t.ends phase') :
    phase = phase' := by
  obtain ⟨n, hn, _, hphase⟩ := mem_ends_iff.mp h
  obtain ⟨n', hn', _, hphase'⟩ := mem_ends_iff.mp h'
  rw [hn] at hn'
  cases hn'
  rw [hphase] at hphase'
  exact Option.some.inj hphase'

theorem nodup_all_ends (t : QueryTree) : (Phase.all.flatMap t.ends).Nodup := by
  refine List.nodup_flatMap.mpr ⟨fun phase _ => t.nodup_ends phase, ?_⟩
  have hne : Phase.all.Pairwise (· ≠ ·) := by decide
  exact hne.imp fun hne id h h' => hne (phase_eq_of_mem_ends h h')

/-- No leaf below the root is without a phase, unless it is barren or too deep. -/
theorem exists_phase (hleaves : t.barrenLeaves = []) (hn : t.nodes[id]? = some n)
    (hlive : n.removed = false) (hnil : n.children = []) (hid : id ≠ root)
    (hdepth : n.depth ≤ t.fullDepth) : ∃ phase, t.phase? n = some phase := by
  have hends : t.Keeper n := by
    rw [← isBarren_eq_false_iff, ← Bool.not_eq_true]
    intro hbarren
    have hmem := mem_barrenLeaves.mpr ⟨hid, n, hn, hlive, hnil, hbarren⟩
    rw [hleaves] at hmem
    cases hmem
  unfold phase?
  split
  · exact ⟨_, rfl⟩
  · rename_i hleft
    split
    · exact ⟨_, rfl⟩
    · rename_i hshort
      rw [hnil, List.isEmpty_nil, Bool.true_and, beq_iff_eq] at hshort
      rcases hends.2 with hfull | hemit | hleft'
      · exact absurd (Nat.le_antisymm hdepth hfull) hshort
      · exact ⟨.emit, if_pos hemit⟩
      · exact absurd hleft' hleft

/-! ## 2. Branches, each once -/

theorem head?_of_mem_branchesFrom {depth : Nat} (h : b ∈ t.branchesFrom depth c) :
    b.head? = some c := by
  cases depth with
  | zero => cases h
  | succ depth =>
    rw [branchesFrom] at h
    split at h
    · cases h
    · split at h
      · rw [List.mem_singleton.mp h]
        rfl
      · obtain ⟨b', _, rfl⟩ := List.mem_map.mp h
        rfl

/-- Lists that start with different nodes differ. -/
theorem nodup_flatMap_branchesFrom {depth : Nat} {cs : List Nat} (hcs : cs.Nodup)
    (h : ∀ c ∈ cs, (t.branchesFrom depth c).Nodup) :
    (cs.flatMap (t.branchesFrom depth)).Nodup := by
  refine List.nodup_flatMap.mpr ⟨h, hcs.imp fun {c c'} hne => ?_⟩
  intro b hb hb'
  have hhead := (head?_of_mem_branchesFrom hb).symm.trans (head?_of_mem_branchesFrom hb')
  exact hne (Option.some.inj hhead)

theorem nodup_branchesFrom (hw : t.WellFormed) (depth : Nat) :
    ∀ c, (t.branchesFrom depth c).Nodup := by
  induction depth with
  | zero => exact fun _ => List.nodup_nil
  | succ depth ih =>
    intro c
    rw [branchesFrom]
    split
    · exact List.nodup_nil
    · rename_i n hn
      split
      · exact List.nodup_singleton _
      · exact (nodup_flatMap_branchesFrom (hw.nodup hn) fun c' _ => ih c').map
          (List.cons_injective)

theorem nodup_branchesBelow (hw : t.WellFormed) (c : Nat) : (t.branchesBelow c).Nodup := by
  rw [branchesBelow]
  split
  · rename_i n hn
    exact nodup_flatMap_branchesFrom (hw.nodup hn) fun c' _ => nodup_branchesFrom hw _ c'
  · exact List.nodup_nil

/-! ## 3. Stacks -/

/-- What the stacks of a tree, phase by phase, have to hold between them. -/
structure Partition (t : QueryTree) (stacksOf : Phase → List PathStack) : Prop where
  /-- Over all phases, no node is the terminal of two stacks. -/
  once : ((Phase.all.flatMap stacksOf).map PathStack.terminal?).Nodup
  /-- Every leaf below the root is the terminal of one stack. -/
  leaf : ∀ {id : Nat}, t.Leaf id → id ≠ root →
    ∃! s, s ∈ Phase.all.flatMap stacksOf ∧ s.terminal? = some id
  /-- Every node at which an optional part begins is the terminal of an optional stack. -/
  optional : ∀ {id : Nat} {n : QueryNode}, t.nodes[id]? = some n → n.removed = false →
    n.leftJoin = true → ∃ s ∈ stacksOf .optional, s.terminal? = some id
  /-- It is the terminal of no other. -/
  onlyOptional : ∀ {id : Nat} {n : QueryNode} {phase : Phase} {s : PathStack},
    t.nodes[id]? = some n → n.leftJoin = true → s ∈ stacksOf phase → s.terminal? = some id →
    phase = .optional
  /-- Every other emitted node is the terminal of a regular or an emit stack. -/
  emitted : ∀ {id : Nat} {n : QueryNode}, t.nodes[id]? = some n → n.removed = false →
    n.emit = true → n.leftJoin = false →
    ∃ s ∈ stacksOf .regular ++ stacksOf .emit, s.terminal? = some id
  /-- A stack goes from the root down to its terminal, from parent to child over live nodes. -/
  chain : ∀ {phase : Phase} {s : PathStack}, s ∈ stacksOf phase → s.phase = phase ∧
    (∃ id, s.terminal? = some id) ∧ s.nodes.head? = some root ∧ t.GoesDown s.nodes
  /-- The branches of an optional stack go down from the children of its terminal, each to the first
  node that is childless or begins an optional part. -/
  branches : ∀ {s : PathStack} {id : Nat} {n : QueryNode}, s ∈ stacksOf .optional →
    s.terminal? = some id → t.nodes[id]? = some n →
    s.branches.Nodup ∧ ∀ b, b ∈ s.branches ↔ ∃ c ∈ n.children, t.Branch c b

section Stacks

variable (hw : t.WellFormed)
include hw

theorem terminal?_stack (hid : t.Live id) : (t.stack phase id).terminal? = some id :=
  (hw.path_goesDown hid).2.2

theorem mem_stacks_terminal (hs : s ∈ (t.ends phase).map (t.stack phase))
    (hid : s.terminal? = some id) : id ∈ t.ends phase ∧ s = t.stack phase id := by
  obtain ⟨c, hc, rfl⟩ := List.mem_map.mp hs
  rw [terminal?_stack hw (live_of_mem_ends hc)] at hid
  cases hid
  exact ⟨hc, rfl⟩

theorem exists_stack (h : id ∈ t.ends phase) :
    ∃ s ∈ (t.ends phase).map (t.stack phase), s.terminal? = some id :=
  ⟨_, List.mem_map_of_mem h, terminal?_stack hw (live_of_mem_ends h)⟩

theorem terminals_eq : ((Phase.all.flatMap fun phase => (t.ends phase).map (t.stack phase)).map
    PathStack.terminal?) = (Phase.all.flatMap t.ends).map some := by
  rw [List.map_flatMap, List.map_flatMap]
  refine List.flatMap_congr fun phase _ => ?_
  rw [List.map_map]
  exact List.map_congr_left fun id hid => terminal?_stack hw (live_of_mem_ends hid)

/-- Without barren leaves and below the full depth, the stacks divide the work. -/
theorem partition_stacks (hleaves : t.barrenLeaves = [])
    (hdepth : ∀ {id : Nat} {n : QueryNode}, t.nodes[id]? = some n → n.removed = false →
      n.depth ≤ t.fullDepth) :
    t.Partition fun phase => (t.ends phase).map (t.stack phase) where
  once := by
    rw [terminals_eq hw]
    exact t.nodup_all_ends.map (Option.some_injective _)
  leaf := by
    rintro id ⟨n, hn, hlive, hnil⟩ hid
    obtain ⟨phase, hphase⟩ := exists_phase hleaves hn hlive hnil hid (hdepth hn hlive)
    have hend : id ∈ t.ends phase := mem_ends_iff.mpr ⟨n, hn, hlive, hphase⟩
    refine ⟨t.stack phase id, ⟨?_, terminal?_stack hw ⟨n, hn, hlive⟩⟩, ?_⟩
    · exact List.mem_flatMap.mpr ⟨phase, by cases phase <;> decide, List.mem_map_of_mem hend⟩
    · rintro s ⟨hs, hterminal⟩
      obtain ⟨phase', _, hs⟩ := List.mem_flatMap.mp hs
      obtain ⟨hend', rfl⟩ := mem_stacks_terminal hw hs hterminal
      rw [phase_eq_of_mem_ends hend hend']
  optional := by
    intro id n hn hlive hleft
    exact exists_stack hw (mem_ends_iff.mpr ⟨n, hn, hlive, phase?_eq_optional_iff.mpr hleft⟩)
  onlyOptional := by
    intro id n phase s hn hleft hs hterminal
    obtain ⟨hend, _⟩ := mem_stacks_terminal hw hs hterminal
    obtain ⟨n', hn', hlive, _⟩ := mem_ends_iff.mp hend
    rw [hn] at hn'
    cases hn'
    exact phase_eq_of_mem_ends hend
      (mem_ends_iff.mpr ⟨n, hn, hlive, phase?_eq_optional_iff.mpr hleft⟩)
  emitted := by
    intro id n hn hlive hemit hleft
    simp only [List.mem_append]
    by_cases hphase : t.phase? n = some .regular
    · obtain ⟨s, hs, hterminal⟩ := exists_stack hw (mem_ends_iff.mpr ⟨n, hn, hlive, hphase⟩)
      exact ⟨s, Or.inl hs, hterminal⟩
    · have hphase : t.phase? n = some .emit :=
        phase?_eq_emit_iff.mpr ⟨by simp [hemit, hleft], hphase⟩
      obtain ⟨s, hs, hterminal⟩ := exists_stack hw (mem_ends_iff.mpr ⟨n, hn, hlive, hphase⟩)
      exact ⟨s, Or.inr hs, hterminal⟩
  chain := by
    intro phase s hs
    obtain ⟨id, hid, rfl⟩ := List.mem_map.mp hs
    have hlive := live_of_mem_ends hid
    obtain ⟨hdown, hhead, _⟩ := hw.path_goesDown hlive
    exact ⟨rfl, ⟨id, terminal?_stack hw hlive⟩, hhead, hdown⟩
  branches := by
    intro s id n hs hterminal hn
    obtain ⟨_, rfl⟩ := mem_stacks_terminal hw hs hterminal
    exact ⟨nodup_branchesBelow hw id, fun b => mem_branchesBelow_iff hw hn⟩

end Stacks

/-- **Phases partition the terminals.** In any tree that was made by hand, with flags and filters
set at will and no node deeper than the full depth, pruning leaves stacks that end at every leaf
once and at no node twice, unless it finds that there are no results. -/
theorem Edited.phases_partition (h : t.Edited)
    (hdepth : ∀ {id : Nat} {n : QueryNode}, t.nodes[id]? = some n → n.removed = false →
      n.depth ≤ t.fullDepth)
    (hsatisfiable : t.prune.unsatisfiable = false) :
    ∃ stacksOf : Phase → List PathStack,
      (∀ phase, t.prune.pathStacks phase = .ok (stacksOf phase)) ∧ t.prune.Partition stacksOf := by
  obtain ⟨hcut, hw, hleaves, _⟩ := prune_cut h.wellFormed
  refine ⟨_, fun phase => ?_, partition_stacks hw hleaves fun {id n'} hn' hlive => ?_⟩
  · rw [pathStacks_eq hw, hsatisfiable]
    rfl
  · obtain ⟨⟨n, hn, hnlive⟩, _⟩ := hcut.live_iff.mp ⟨n', hn', hlive⟩
    rw [hcut.node hn] at hn'
    cases hn'
    obtain ⟨removed, children, heq⟩ := n.cut_eq t.Useful id
    rw [heq, hcut.fullDepth]
    exact (hdepth hn hnlive :)

/-! ## 4. All three phases in one tree -/

namespace Boughs

/-- An optional part begins at the root's first friend, and the second is emitted. Behind the first
stands another friend. -/
def phased : QueryTree :=
  let grown := sprout (sprout friends 2 crossing) 5 friend
  let plain : NodeEdit := { nobody with idPredicates := [] }
  let optional := grown.modify 2 (QueryNode.edit { plain with leftJoin := true })
  let emitted := optional.modify 4 (QueryNode.edit { plain with emit := true })
  { emitted.modify 6 (QueryNode.edit { plain with depth := 2 }) with fullDepth := 2 }

theorem edited_phased : phased.Edited := by
  have hthird := edited_sprout (p := 2) edited_friends ⟨_, rfl, rfl⟩ crossing
  have hfourth := edited_sprout (p := 5) hthird ⟨_, rfl, rfl⟩ friend
  exact (((hfourth.editNode 2 _).editNode 4 _).editNode 6 _).setFullDepth 2

theorem depth_phased : ∀ {id : Nat} {n : QueryNode}, phased.nodes[id]? = some n →
    n.removed = false → n.depth ≤ phased.fullDepth := by
  have hall : ∀ n ∈ phased.nodes.toList, n.depth ≤ phased.fullDepth := by decide
  intro id n hn _
  exact hall n (Array.mem_toList_iff.mpr (Array.mem_of_getElem? hn))

/-- Each phase has one stack. -/
theorem one_stack_each : phased.Edited ∧ phased.prune.unsatisfiable = false ∧
    ∃ stacksOf : Phase → List PathStack,
      (∀ phase, phased.prune.pathStacks phase = .ok (stacksOf phase)) ∧
      phased.prune.Partition stacksOf ∧
      stacksOf .regular = [⟨.regular, [0, 1, 2, 5, 6], []⟩] ∧
      stacksOf .optional = [⟨.optional, [0, 1, 2], [[5, 6]]⟩] ∧
      stacksOf .emit = [⟨.emit, [0, 3, 4], []⟩] := by
  have hsatisfiable : phased.prune.unsatisfiable = false := rfl
  obtain ⟨stacksOf, hstacks, hpartition⟩ :=
    edited_phased.phases_partition depth_phased hsatisfiable
  exact ⟨edited_phased, hsatisfiable, stacksOf, hstacks, hpartition,
    Except.ok.inj (hstacks .regular).symm, Except.ok.inj (hstacks .optional).symm,
    Except.ok.inj (hstacks .emit).symm⟩

end Boughs

end TraversalSql.QueryTree
