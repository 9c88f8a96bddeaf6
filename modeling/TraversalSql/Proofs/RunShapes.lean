import TraversalSql.Proofs.HopEdits
import TraversalSql.Proofs.TerminalNames

/-!
# The shape of fused runs

What comes behind fusion takes a good deal for granted: that a hop can be told by its depth, that
there is one slice at most and it is the last hop's, that no path belongs to an emitted turn and an
optional part at once, and that elements are deleted only where the run ends. All of it follows from
what the edits of a run are like, edit by edit and in their order.
-/

set_option autoImplicit false

namespace TraversalSql

/-! ## 1. Hops -/

namespace Hop

/-- The run can go on behind the hop. -/
def IsUncut (h : Hop) : Prop := h.range = none ∧ h.drop = false

/-- The labels of the hop are at its depth. -/
def OwnsLabels (h : Hop) : Prop := ∀ l ∈ h.labels, l.depth = h.depth

end Hop

namespace HopEdit

variable {d : HopEdit} {fullText : Bool} {h : Hop}

theorem ownsLabels_change (hh : h.OwnsLabels) : (d.change fullText h).OwnsLabels := by
  cases d with
  | name names =>
    have hlabels := Hop.labels_addUserLabels hh names.toList
    simp only [change]
    rw [Hop.addUserLabels_eq] at hlabels ⊢
    exact hlabels
  | emit =>
    intro l hl
    rcases Hop.mem_labels_markEmit.mp hl with rfl | hl
    · rfl
    · exact hh l hl
  | _ => exact hh

theorem isUncut_change (hd : d.ends = false) (hh : h.IsUncut) :
    (d.change fullText h).IsUncut := by
  cases d with
  | name names =>
    simp only [change]
    rw [Hop.addUserLabels_eq]
    exact hh
  | slice | drop => cases hd
  | _ => exact hh

theorem emit_change (hd : d ≠ .emit) (hh : h.emit = false) :
    (d.change fullText h).emit = false := by
  cases d with
  | name names =>
    simp only [change]
    rw [Hop.addUserLabels_eq]
    exact hh
  | emit => exact absurd rfl hd
  | _ => exact hh

theorem leftJoin_change : (d.change fullText h).leftJoin = h.leftJoin := by
  cases d with
  | name names =>
    simp only [change]
    rw [Hop.addUserLabels_eq]
  | _ => rfl

theorem drop_change (hd : d ≠ .drop) (hh : h.drop = false) :
    (d.change fullText h).drop = false := by
  cases d with
  | name names =>
    simp only [change]
    rw [Hop.addUserLabels_eq]
    exact hh
  | drop => exact absurd rfl hd
  | _ => exact hh

end HopEdit

/-! ## 2. Runs -/

theorem dropLast_onLast (f : Hop → Hop) (hops : List Hop) :
    (onLast f hops).dropLast = hops.dropLast := by
  cases hops with
  | nil => rfl
  | cons first rest =>
    obtain ⟨init, last, heq⟩ := exists_concat (List.cons_ne_nil first rest)
    rw [heq, onLast_concat, List.dropLast_concat, List.dropLast_concat]

namespace Reader

variable {r : Reader} {root : Hop} {ds : List HopEdit}

theorem ownsLabels_edited (hroot : root.IsFresh) : ∀ h ∈ r.edited ds [root], h.OwnsLabels :=
  forall_edited
    (fun m names _ _ place _ => (isFresh_hop (r := r) (.move m) place names).labels)
    (fun _ _ _ hh => HopEdit.ownsLabels_change hh) (List.forall_mem_singleton.mpr hroot.labels)

theorem isUncut_edited (hroot : root.IsFresh) (hds : ∀ d ∈ ds, d.ends = false) :
    ∀ h ∈ r.edited ds [root], h.IsUncut :=
  forall_edited
    (fun m names _ _ place _ =>
      have hfresh := isFresh_hop (r := r) (.move m) place names
      ⟨hfresh.range, hfresh.drop⟩)
    (fun d hd _ hh => HopEdit.isUncut_change (hds d hd) hh)
    (List.forall_mem_singleton.mpr ⟨hroot.range, hroot.drop⟩)

theorem emit_edited (hroot : root.IsFresh) (hds : ∀ d ∈ ds, d ≠ .emit) :
    ∀ h ∈ r.edited ds [root], h.emit = false :=
  forall_edited (fun m names _ _ place _ => (isFresh_hop (r := r) (.move m) place names).emit)
    (fun d hd _ hh => HopEdit.emit_change (hds d hd) hh) (List.forall_mem_singleton.mpr hroot.emit)

theorem leftJoin_edited (hroot : root.IsFresh) (hds : ∀ d ∈ ds, d.opensJoin = false) :
    ∀ h ∈ r.edited ds [root], h.leftJoin = false :=
  forall_edited (fun _ _ _ _ _ hmem => hds _ hmem)
    (fun _ _ _ hh => HopEdit.leftJoin_change.trans hh)
    (List.forall_mem_singleton.mpr hroot.leftJoin)

theorem drop_edited (hroot : root.IsFresh) (hds : .drop ∉ ds) :
    ∀ h ∈ r.edited ds [root], h.drop = false :=
  forall_edited (fun m names _ _ place _ => (isFresh_hop (r := r) (.move m) place names).drop)
    (fun _ hd _ hh => HopEdit.drop_change (fun heq => hds (heq ▸ hd)) hh)
    (List.forall_mem_singleton.mpr hroot.drop)

/-- Only the last hop can be cut, since another one comes before all that ends a run. -/
theorem isUncut_dropLast_edited (hroot : root.IsFresh) (hds : ds.Pairwise HopEdit.Precedes) :
    ∀ h ∈ (r.edited ds [root]).dropLast, h.IsUncut := by
  induction ds using List.reverseRecOn with
  | nil => exact List.forall_mem_nil _
  | append_singleton ds d ih =>
    obtain ⟨hds, -, hlater⟩ := List.pairwise_append.mp hds
    rw [edited_append]
    cases hmove : d.isMove with
    | true =>
      have hnone : ∀ e ∈ ds, e.ends = false := by
        intro e he
        by_contra hends
        have hnot := hlater e he d (List.mem_singleton_self d) (Bool.not_eq_false _ ▸ hends)
        rw [hmove] at hnot
        cases hnot
      cases d with
      | move m names untilFirst leftJoin =>
        rw [edited_cons, edited_nil, edit, List.dropLast_concat]
        exact isUncut_edited hroot hnone
      | _ => cases hmove
    | false =>
      rw [edited_cons, edited_nil, edit_of_not_move hmove, dropLast_onLast]
      exact ih hds

end Reader

/-- What can be relied on in a fused run. -/
structure Run.Shaped (run : Run) : Prop where
  nonempty : run.hops ≠ []
  root : ∀ {i : Nat} {h : Hop}, run.hops[i]? = some h → (h.kind.isRoot = true ↔ i = 0)
  depth : ∀ {i : Nat} {h : Hop}, run.hops[i]? = some h → h.depth = i
  labels : ∀ {i : Nat} {h : Hop}, run.hops[i]? = some h → ∀ l ∈ h.labels, l.depth = i
  /-- Only the last hop has a slice or is deleted. -/
  last : ∀ {i : Nat} {h : Hop}, run.hops[i]? = some h → h.range.isSome = true ∨ h.drop = true →
    i + 1 = run.hops.length
  /-- No run has both an emitted hop and an optional part. -/
  apart : ¬ ((∃ h ∈ run.hops, h.emit = true) ∧ ∃ h ∈ run.hops, h.leftJoin = true)

/-- Past the last but one, only the last hop is left. -/
theorem last_of_forall_dropLast {hops : List Hop} (hcut : ∀ h ∈ hops.dropLast, h.IsUncut) {i : Nat}
    {h : Hop} (hi : hops[i]? = some h) (hend : h.range.isSome = true ∨ h.drop = true) :
    i + 1 = hops.length := by
  have hlt := (List.getElem?_eq_some_iff.mp hi).1
  by_contra hne
  have hmem : h ∈ hops.dropLast := by
    refine List.mem_of_getElem? (i := i) ?_
    rw [List.getElem?_dropLast, if_pos (by omega)]
    exact hi
  obtain ⟨hrange, hdrop⟩ := hcut h hmem
  rcases hend with hsome | hdeleted
  · rw [hrange] at hsome
    cases hsome
  · rw [hdrop] at hdeleted
    cases hdeleted

section Fused

variable {o : FusionOptions} {listener : Bool} {node : StepNode} {rest : List StepNode}
  {f : FusedRun}

theorem fuseRun_shaped (h : fuseRun? o listener node rest = some f) : f.run.Shaped := by
  obtain ⟨hw, -⟩ := fuseRun_wellRead h
  obtain ⟨root, hroot, hhops, horderly⟩ := fuseRun_edited h
  refine ⟨hw.nonempty, ?_, fun hi => (hw.hop hi).depth, ?_, ?_, ?_⟩
  · intro i k hi
    rw [(hw.hop hi).kind, beq_iff_eq]
  · intro i k hi l hl
    have hown := Reader.ownsLabels_edited hroot k (hhops ▸ List.mem_of_getElem? hi)
    rw [hown l hl, (hw.hop hi).depth]
  · intro i k hi hend
    have hcut := Reader.isUncut_dropLast_edited (r := .of o listener node rest) hroot horderly.last
    rw [← hhops] at hcut
    exact last_of_forall_dropLast hcut hi hend
  · rintro ⟨⟨k, hk, hemit⟩, k', hk', hjoin⟩
    rw [hhops] at hk hk'
    rcases horderly.apart with hds | hds
    · rw [Reader.emit_edited hroot hds k hk] at hemit
      cases hemit
    · rw [Reader.leftJoin_edited hroot hds k' hk'] at hjoin
      cases hjoin

/-- With a listener no hop is deleted. -/
theorem fuseRun_spares (h : fuseRun? o true node rest = some f) :
    ∀ k ∈ f.run.hops, k.drop = false := by
  obtain ⟨root, hroot, hhops, horderly⟩ := fuseRun_edited h
  rw [hhops]
  exact Reader.drop_edited hroot (horderly.spared rfl)

/-! ## 3. Deletions -/

/-- The step deletes what arrives at it. -/
def Step.deletes : Step → Bool
  | .drop => true
  | _ => false

/-- With a listener no step that deletes is taken into a run. -/
theorem fuseRun_takes_no_drop (h : fuseRun? o true node rest = some f) :
    ∀ n ∈ (node :: rest).take f.consumed, n.step.deletes = false := by
  obtain ⟨root, -, -, horderly⟩ := fuseRun_edited h
  intro n hn
  by_contra hdeletes
  refine horderly.spared rfl (List.mem_flatMap.mpr ⟨n, hn, ?_⟩)
  cases hstep : n.step with
  | drop =>
    rw [StepNode.edits, hstep]
    exact List.mem_singleton_self _
  | _ => simp [Step.deletes, hstep] at hdeletes

theorem filter_deletes_leftBy (fullText : Bool) (block : List StepNode) :
    (leftBy fullText block).filter (fun n => n.step.deletes) = [] := by
  refine List.filter_eq_nil_iff.mpr ?_
  intro n hn
  obtain ⟨fs, hhas⟩ := has_of_leftBy hn
  simp [hhas, Step.deletes]

/-- With a listener the steps that delete stay in the chain, in their order. -/
theorem Divided.filter_deletes {steps out : List StepNode} (h : Divided o true steps out) :
    out.filter (fun n => n.step.deletes) = steps.filter fun n => n.step.deletes := by
  induction h with
  | nil => rfl
  | @keep kept _ _ _ _ ih => rw [List.filter_cons, List.filter_cons, ih]
  | @fuse first block steps out f hn hf hlen _ ih =>
    have htaken : (first :: block).filter (fun n => n.step.deletes) = [] := by
      have htake : (first :: (block ++ steps)).take f.consumed = first :: block := by
        rw [hlen, List.take_succ_cons, List.take_left]
      refine List.filter_eq_nil_iff.mpr fun n hmem => ?_
      rw [fuseRun_takes_no_drop hf n (htake ▸ hmem)]
      exact Bool.false_ne_true
    have hrun : (StepNode.plain (.fused f.run)).step.deletes = false := rfl
    rw [List.filter_cons_of_neg (by rw [hrun]; exact Bool.false_ne_true), List.filter_append,
      filter_deletes_leftBy, List.nil_append, ih, ← List.cons_append, List.filter_append, htaken,
      List.nil_append]

end Fused

/-- **The shape of fused runs.** In a traversal in which nothing is fused before, every fused run
begins with its only root, has every hop and the labels of every hop at the hop's place, ends at
whatever is sliced or deleted, and never both emits and joins optionally. With a mutation listener
no run deletes, and the steps of the chain that delete are all still there, in their order. -/
theorem Traversal.fuse_shapes (t : Traversal) (ht : ∀ n ∈ t.steps, ∀ run, n.step ≠ .fused run)
    (o : FusionOptions) :
    (∀ run ∈ (t.fuse o).runs, run.Shaped) ∧
    (t.mutationListener = true →
      (∀ run ∈ (t.fuse o).runs, ∀ h ∈ run.hops, h.drop = false) ∧
      (t.fuse o).traversal.steps.filter (fun n => n.step.deletes)
        = t.steps.filter fun n => n.step.deletes) := by
  constructor
  · intro run hrun
    obtain ⟨f, last, ⟨before, node, rest, -, hf, -⟩, rfl⟩ := Traversal.exists_readFrom ht hrun
    exact fuseRun_shaped hf
  · intro hlistener
    refine ⟨fun run hrun => ?_, ?_⟩
    · obtain ⟨f, last, ⟨before, node, rest, -, hf, -⟩, rfl⟩ := Traversal.exists_readFrom ht hrun
      rw [hlistener] at hf
      exact fuseRun_spares hf
    · have hdivided : Divided o t.mutationListener t.steps (t.fuse o).traversal.steps :=
        divided_fuseChain [] 0 0 t.steps
      rw [hlistener] at hdivided
      exact hdivided.filter_deletes

namespace People

/-- Whoever can be reached by two acquaintances is deleted, and something listens. -/
def forgotten : Traversal where
  steps := [.plain (.graph .vertex []),
    .plain (.loop ⟨[.plain (.move (.follow .outgoing [] .vertex))], some 2, none, none, false⟩),
    .plain .drop]
  mutationListener := true

/-- The loop is written out as two hops, and the deletion is left in the chain. -/
theorem forgotten_shaped :
    ((forgotten.fuse ({} : Settings).fusion).runs.map fun run => run.hops.length) = [3] ∧
    (∀ run ∈ (forgotten.fuse ({} : Settings).fusion).runs,
      run.Shaped ∧ ∀ h ∈ run.hops, h.drop = false) ∧
    (forgotten.fuse ({} : Settings).fusion).traversal.steps.filter (fun n => n.step.deletes)
      = [.plain .drop] := by
  have hplain : ∀ n ∈ forgotten.steps, ∀ run, n.step ≠ .fused run := by
    simp [forgotten, StepNode.plain]
  obtain ⟨hshaped, hlistener⟩ := forgotten.fuse_shapes hplain ({} : Settings).fusion
  obtain ⟨hspared, hkept⟩ := hlistener rfl
  exact ⟨by decide +kernel, fun run hrun => ⟨hshaped run hrun, hspared run hrun⟩, hkept⟩

end People

end TraversalSql
