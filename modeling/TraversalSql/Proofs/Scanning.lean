import Mathlib.Logic.Relation
import Mathlib.Data.List.TakeDrop
import Mathlib.Order.WellFounded
import TraversalSql.Fusion.Chain
import TraversalSql.Proofs.Reading

/-!
# Fusing a chain in place

A chain is fused in one pass. The same can be done in place: look at one step after the other,
replace a block by its fused step where one begins, and go on or start over from the front. This
file has the scan in place as a relation, with a choice of starting over after every fused run. It
ends whatever is chosen, and always with the chain and the reports of the one pass.

Also here is what the chain in the end has to do with the one in the beginning: it is divided into
blocks, of which each stands for itself or for one run, and no step gets lost between them.
-/

set_option autoImplicit false

namespace TraversalSql

/-! ## 1. Blocks -/

/-- What a block leaves in the chain. A filter step at its end, of which a hop carries some filters
but not all, leaves the others under its names. -/
def leftBy (fullText : Bool) (block : List StepNode) : List StepNode :=
  match block.getLast? with
  | some ⟨.has fs, names⟩ =>
    let carried := fs.filter fun f => (f.bucket? fullText).isSome
    let left := fs.filter fun f => (f.bucket? fullText).isNone
    if carried.isEmpty || left.isEmpty then [] else [⟨.has left, names⟩]
  | _ => []

/-- A chain, block by block, and what becomes of it: a step at which no run can begin stays, and a
block that begins with one at which a run can is replaced by the run and what the block leaves. -/
inductive Divided (o : FusionOptions) (mutationListener : Bool) :
    List StepNode → List StepNode → Prop
  | nil : Divided o mutationListener [] []
  | keep {node : StepNode} {steps out : List StepNode} (hn : node.step.startsRun = false)
      (h : Divided o mutationListener steps out) :
      Divided o mutationListener (node :: steps) (node :: out)
  | fuse {node : StepNode} {block steps out : List StepNode} {f : FusedRun}
      (hn : node.step.startsRun = true)
      (hf : fuseRun? o mutationListener node (block ++ steps) = some f)
      (hlen : f.consumed = block.length + 1)
      (h : Divided o mutationListener steps out) :
      Divided o mutationListener (node :: (block ++ steps))
        (.plain (.fused f.run) :: (leftBy o.fullText (node :: block) ++ out))

theorem leftBy_cons_cons (fullText : Bool) (a b : StepNode) (block : List StepNode) :
    leftBy fullText (a :: b :: block) = leftBy fullText (b :: block) := by
  simp only [leftBy, List.getLast?_cons_cons]

/-- Only a filter step leaves something, and that is a filter step. -/
theorem has_of_leftBy {fullText : Bool} {block : List StepNode} {node : StepNode}
    (h : node ∈ leftBy fullText block) : ∃ fs, node.step = .has fs := by
  simp only [leftBy] at h
  split at h
  · split at h
    · cases h
    · rw [List.mem_singleton] at h
      exact ⟨_, congrArg StepNode.step h⟩
  · cases h

theorem not_starts_of_leftBy {fullText : Bool} {block : List StepNode} {node : StepNode}
    (h : node ∈ leftBy fullText block) : node.step.startsRun = false := by
  obtain ⟨fs, hhas⟩ := has_of_leftBy h
  rw [hhas]
  rfl

theorem leftBy_of_starts (fullText : Bool) {node : StepNode} (h : node.step.startsRun = true) :
    leftBy fullText [node] = [] := by
  obtain ⟨step, names⟩ := node
  cases step with
  | has fs => cases h
  | _ => rfl

theorem SortedFilters.isEmpty_ofFilters (fullText : Bool) (fs : List Filter) :
    (SortedFilters.ofFilters fullText fs).isEmpty
      = (fs.filter fun f => (f.bucket? fullText).isSome).isEmpty := by
  rw [Bool.eq_iff_iff]
  simp only [SortedFilters.isEmpty, SortedFilters.ofFilters, Bool.and_eq_true, List.isEmpty_iff,
    List.map_eq_nil_iff, List.filter_eq_nil_iff]
  constructor
  · intro h f hf
    have hl := h.1.1 f hf
    have hi := h.1.2 f hf
    have hp := h.2 f hf
    simp_all
  · intro h
    refine ⟨⟨?_, ?_⟩, ?_⟩
    · intro f hf
      have := h f hf
      simp_all
    · intro f hf
      have := h f hf
      simp_all
    · intro f hf
      have := h f hf
      simp_all

theorem leftBy_has (fullText : Bool) (fs : List Filter) (names : SortedSet String) :
    leftBy fullText [⟨.has fs, names⟩]
      = if (SortedFilters.ofFilters fullText fs).isEmpty
          || (SortedFilters.ofFilters fullText fs).isComplete then []
        else [⟨.has (SortedFilters.ofFilters fullText fs).remaining, names⟩] := by
  rw [SortedFilters.isEmpty_ofFilters]
  rfl

/-! ## 2. What a run takes -/

namespace Reader

variable {r : Reader} {node : StepNode} {hops hops' : List Hop}

/-- A step behind which the run goes on leaves nothing. -/
theorem leftBy_of_goesOn (h : r.top node hops = .goesOn hops') :
    leftBy r.options.fullText [node] = [] := by
  obtain ⟨step, names⟩ := node
  cases step with
  | has fs =>
    rw [leftBy_has]
    simp only [top] at h
    split at h
    · rename_i hc
      simp [hc]
    · split at h <;> cases h
  | _ => rfl

theorem leftBy_of_endsWith {leftover : Option StepNode}
    (h : r.top node hops = .endsWith hops' leftover) :
    leftBy r.options.fullText [node] = leftover.toList := by
  obtain ⟨step, names⟩ := node
  cases step with
  | has fs =>
    rw [leftBy_has]
    simp only [top] at h
    split at h
    · cases h
    · rename_i hc
      split at h
      · cases h
      · rename_i he
        cases h
        simp [hc, he]
  | _ =>
    simp only [top] at h
    repeat' split at h
    all_goals cases h
    all_goals rfl

/-- A run takes the steps up to some point, and what goes back into the chain is what they leave. -/
theorem chain_takes (prev : StepNode) (hprev : leftBy r.options.fullText [prev] = [])
    (steps : List StepNode) (hops : List Hop) (taken : Nat) :
    ∃ k ≤ steps.length, (r.chain steps hops taken).consumed = taken + k
      ∧ (r.chain steps hops taken).leftover.toList
        = leftBy r.options.fullText (prev :: steps.take k) := by
  induction steps generalizing prev hops taken with
  | nil => exact ⟨0, Nat.le_refl _, rfl, hprev.symm⟩
  | cons node rest ih =>
    rw [chain]
    cases ht : r.top node hops with
    | goesOn hops' =>
      -- the step itself is now the one before the rest
      obtain ⟨k, hk, hconsumed, hleft⟩ := ih node (leftBy_of_goesOn ht) hops' (taken + 1)
      refine ⟨k + 1, Nat.succ_le_succ hk, ?_, ?_⟩
      · rw [hconsumed]
        omega
      · rw [List.take_succ_cons, leftBy_cons_cons]
        exact hleft
    | endsWith hops' leftover =>
      refine ⟨1, by simp, rfl, ?_⟩
      rw [List.take_succ_cons, List.take_zero, leftBy_cons_cons, leftBy_of_endsWith ht]
    | endsBefore obstacle => exact ⟨0, Nat.zero_le _, rfl, hprev.symm⟩

end Reader

variable {o : FusionOptions} {listener : Bool} {node : StepNode} {rest : List StepNode}
  {f : FusedRun}

theorem fuseRun_eq_none_iff : fuseRun? o listener node rest = none ↔ node.step.startsRun = false := by
  obtain ⟨step, names⟩ := node
  cases step <;> simp [fuseRun?, OpenRun.start?, Step.startsRun]

theorem starts_of_fuseRun (h : fuseRun? o listener node rest = some f) :
    node.step.startsRun = true := by
  cases hn : node.step.startsRun with
  | true => rfl
  | false =>
    rw [fuseRun_eq_none_iff.mpr hn] at h
    cases h

/-- A run is what the reader says of the chain behind its first step. -/
theorem chain_of_fuseRun (h : fuseRun? o listener node rest = some f) :
    ∃ hops : List Hop, (Reader.of o listener node rest).chain rest hops 1 = f := by
  obtain ⟨step, names⟩ := node
  cases step with
  | graph kind ids =>
    rw [fuseRun_graph] at h
    exact ⟨_, Option.some.inj h⟩
  | move mv =>
    rw [fuseRun_move] at h
    exact ⟨_, Option.some.inj h⟩
  | _ => cases h

/-- A run takes its first step and a block behind it. -/
theorem fuseRun_takes (h : fuseRun? o listener node rest = some f) :
    ∃ k ≤ rest.length, f.consumed = k + 1
      ∧ f.leftover.toList = leftBy o.fullText (node :: rest.take k) := by
  have hnode := leftBy_of_starts o.fullText (starts_of_fuseRun h)
  obtain ⟨hops, rfl⟩ := chain_of_fuseRun h
  obtain ⟨k, hk, hconsumed, hleft⟩ :=
    Reader.chain_takes (r := .of o listener node rest) node hnode rest hops 1
  exact ⟨k, hk, by rw [hconsumed]; omega, hleft⟩

/-! ## 3. The pass over a chain -/

theorem fuseChain_skip (fallbacks : List Fallback) (position skip : Nat) (steps : List StepNode) :
    fuseChain o listener fallbacks position skip steps
      = fuseChain o listener fallbacks position 0 (steps.drop skip) := by
  induction skip generalizing steps with
  | zero => rfl
  | succ skip ih =>
    cases steps with
    | nil => simp [fuseChain]
    | cons node rest =>
      rw [fuseChain, List.drop_succ_cons]
      exact ih rest

theorem fuseChain_fused (h : fuseRun? o listener node rest = some f) (fallbacks : List Fallback)
    (position : Nat) :
    fuseChain o listener fallbacks position 0 (node :: rest)
      = (let replacement := .plain (.fused f.run) :: f.leftover.toList
         let (steps, fallbacks) := fuseChain o listener (f.report position (node :: rest) fallbacks)
          (position + replacement.length) 0 (rest.drop (f.consumed - 1))
         (replacement ++ steps, fallbacks)) := by
  rw [fuseChain, h]
  simp only [fuseChain_skip _ _ (f.consumed - 1)]

/-- Steps at which no run can begin stay as they are. -/
theorem fuseChain_kept {kept : List StepNode} (hk : ∀ n ∈ kept, n.step.startsRun = false)
    (fallbacks : List Fallback) (position : Nat) (steps : List StepNode) :
    fuseChain o listener fallbacks position 0 (kept ++ steps)
      = (let (out, fallbacks) := fuseChain o listener fallbacks (position + kept.length) 0 steps
         (kept ++ out, fallbacks)) := by
  induction kept generalizing position with
  | nil => simp
  | cons node kept ih =>
    have hnone : fuseRun? o listener node (kept ++ steps) = none :=
      fuseRun_eq_none_iff.mpr (hk node (List.mem_cons_self ..))
    rw [List.cons_append, fuseChain, hnone]
    simp only
    rw [ih (fun n hn => hk n (List.mem_cons_of_mem _ hn))]
    simp [Nat.add_assoc, Nat.add_comm 1]

/-- The pass divides the chain into blocks. -/
theorem divided_fuseChain (fallbacks : List Fallback) (position skip : Nat)
    (steps : List StepNode) :
    Divided o listener (steps.drop skip)
      (fuseChain o listener fallbacks position skip steps).1 := by
  induction steps generalizing fallbacks position skip with
  | nil =>
    simp only [List.drop_nil, fuseChain]
    exact .nil
  | cons node rest ih =>
    cases skip with
    | succ skip =>
      rw [List.drop_succ_cons, fuseChain]
      exact ih fallbacks position skip
    | zero =>
      rw [List.drop_zero, fuseChain]
      cases hf : fuseRun? o listener node rest with
      | none => exact .keep (fuseRun_eq_none_iff.mp hf) (ih fallbacks (position + 1) 0)
      | some f =>
        obtain ⟨k, hk, hconsumed, hleft⟩ := fuseRun_takes hf
        have hrest : rest.take k ++ rest.drop k = rest := List.take_append_drop k rest
        have hdrop : f.consumed - 1 = k := by omega
        have hblock : Divided o listener (node :: (rest.take k ++ rest.drop k)) _ :=
          .fuse (starts_of_fuseRun hf) (by rw [hrest]; exact hf)
            (by rw [List.length_take, Nat.min_eq_left hk, hconsumed])
            (ih (f.report position (node :: rest) fallbacks)
              (position + (StepNode.plain (.fused f.run) :: f.leftover.toList).length) k)
        rw [hrest] at hblock
        simp only [hdrop, hleft] at hblock ⊢
        exact hblock

/-- No step at which a run can begin is left. -/
theorem Divided.not_starts {steps out : List StepNode} (h : Divided o listener steps out) :
    ∀ n ∈ out, n.step.startsRun = false := by
  induction h with
  | nil =>
    intro n hn
    cases hn
  | keep hn _ ih =>
    intro n hmem
    rcases List.mem_cons.mp hmem with rfl | hmem
    · exact hn
    · exact ih n hmem
  | fuse _ _ _ _ ih =>
    intro n hmem
    rcases List.mem_cons.mp hmem with rfl | hmem
    · rfl
    · rcases List.mem_append.mp hmem with hleft | hout
      · exact not_starts_of_leftBy hleft
      · exact ih n hout

theorem fuseChain_of_not_starts {steps : List StepNode}
    (h : ∀ n ∈ steps, n.step.startsRun = false) (fallbacks : List Fallback) :
    fuseChain o listener fallbacks 0 0 steps = (steps, fallbacks) := by
  have hkept : fuseChain o listener fallbacks 0 0 (steps ++ []) = _ :=
    fuseChain_kept h fallbacks 0 []
  rw [List.append_nil] at hkept
  rw [hkept]
  simp [fuseChain]

theorem Traversal.fuse_of_not_starts {t : Traversal}
    (h : ∀ n ∈ t.steps, n.step.startsRun = false) (o : FusionOptions) : t.fuse o = ⟨t, []⟩ := by
  simp only [Traversal.fuse, fuseChain_of_not_starts h]

/-! ## 4. The scan in place -/

/-- A scan: the chain as it is now, the position of the step it looks at, and what was reported. -/
structure Scan where
  steps : List StepNode
  index : Nat
  fallbacks : List Fallback

namespace Scan

def start (steps : List StepNode) : Scan := ⟨steps, 0, []⟩

/-- The scan with a run in place of the steps it took, looking at another position. -/
def splice (s : Scan) (f : FusedRun) (index : Nat) : Scan where
  steps := s.steps.take s.index ++ (.plain (.fused f.run) :: f.leftover.toList)
    ++ s.steps.drop (s.index + f.consumed)
  index := index
  fallbacks := f.report s.index (s.steps.drop s.index) s.fallbacks

/-- One step of a scan. It passes a step at which no run can begin; a run is put in place of its
steps, and the scan goes on behind it or from the front. -/
inductive Goes (o : FusionOptions) (listener : Bool) : Scan → Scan → Prop
  | pass {s : Scan} {node : StepNode} {rest : List StepNode}
      (hs : s.steps.drop s.index = node :: rest) (hn : node.step.startsRun = false) :
      Goes o listener s { s with index := s.index + 1 }
  | on {s : Scan} {node : StepNode} {rest : List StepNode} {f : FusedRun}
      (hs : s.steps.drop s.index = node :: rest) (hf : fuseRun? o listener node rest = some f) :
      Goes o listener s (s.splice f (s.index + 1))
  | again {s : Scan} {node : StepNode} {rest : List StepNode} {f : FusedRun}
      (hs : s.steps.drop s.index = node :: rest) (hf : fuseRun? o listener node rest = some f) :
      Goes o listener s (s.splice f 0)

variable {s s' : Scan}

theorem steps_eq (hs : s.steps.drop s.index = node :: rest) :
    s.steps = s.steps.take s.index ++ node :: rest := by
  rw [← hs, List.take_append_drop]

theorem index_lt (hs : s.steps.drop s.index = node :: rest) : s.index < s.steps.length := by
  have hlen := congrArg List.length hs
  rw [List.length_drop, List.length_cons] at hlen
  omega

theorem length_passed (hs : s.steps.drop s.index = node :: rest) :
    (s.steps.take s.index).length = s.index := by
  rw [List.length_take]
  exact Nat.min_eq_left (Nat.le_of_lt (index_lt hs))

theorem drop_consumed (hs : s.steps.drop s.index = node :: rest)
    (hf : fuseRun? o listener node rest = some f) :
    s.steps.drop (s.index + f.consumed) = rest.drop (f.consumed - 1) := by
  obtain ⟨k, -, hconsumed, -⟩ := fuseRun_takes hf
  rw [← List.drop_drop, hs, hconsumed, List.drop_succ_cons, Nat.add_sub_cancel]

/-- No run begins at what stands in place of a block. -/
theorem not_starts_replacement (hf : fuseRun? o listener node rest = some f) :
    ∀ n ∈ StepNode.plain (.fused f.run) :: f.leftover.toList, n.step.startsRun = false := by
  obtain ⟨k, -, -, hleft⟩ := fuseRun_takes hf
  intro n hn
  rcases List.mem_cons.mp hn with rfl | hn
  · rfl
  · rw [hleft] at hn
    exact not_starts_of_leftBy hn

/-! ## 5. A scan ends -/

/-- How many steps can begin a run, and how far the scan has to go. -/
def rank (s : Scan) : Nat × Nat :=
  (s.steps.countP fun n => n.step.startsRun, s.steps.length - s.index)

/-- A run that is put in place takes a step away at which a run can begin. -/
theorem countP_splice (hs : s.steps.drop s.index = node :: rest)
    (hf : fuseRun? o listener node rest = some f) (index : Nat) :
    (s.splice f index).rank.1 < s.rank.1 := by
  have hreplaced : (StepNode.plain (.fused f.run) :: f.leftover.toList).countP
      (fun n => n.step.startsRun) = 0 := by
    rw [List.countP_eq_zero]
    intro n hn
    simp [not_starts_replacement hf n hn]
  have hbehind : (rest.drop (f.consumed - 1)).countP (fun n => n.step.startsRun)
      ≤ rest.countP (fun n => n.step.startsRun) :=
    (List.drop_sublist _ _).countP_le
  have hnow : s.steps.countP (fun n => n.step.startsRun)
      = (s.steps.take s.index).countP (fun n => n.step.startsRun)
        + (rest.countP (fun n => n.step.startsRun) + 1) := by
    conv_lhs => rw [steps_eq hs]
    rw [List.countP_append, List.countP_cons, if_pos (starts_of_fuseRun hf)]
  simp only [rank, splice, List.countP_append, hreplaced, drop_consumed hs hf, hnow]
  omega

theorem Goes.rank_lt (h : Goes o listener s s') :
    Prod.Lex (· < ·) (· < ·) s'.rank s.rank := by
  cases h with
  | pass hs hn =>
    refine Prod.Lex.right _ ?_
    have := index_lt hs
    simp only
    omega
  | on hs hf => exact Prod.Lex.left _ _ (countP_splice hs hf _)
  | again hs hf => exact Prod.Lex.left _ _ (countP_splice hs hf _)

/-- No scan goes on for ever, however often it starts over. -/
theorem wellFounded_goes (o : FusionOptions) (listener : Bool) :
    WellFounded fun s' s : Scan => Goes o listener s s' :=
  Subrelation.wf Goes.rank_lt
    (InvImage.wf rank (WellFounded.prod_lex Nat.lt_wfRel.wf Nat.lt_wfRel.wf))

/-- A scan goes on as long as there is a step to look at. -/
theorem exists_goes_iff : (∃ s', Goes o listener s s') ↔ s.index < s.steps.length := by
  constructor
  · rintro ⟨s', h⟩
    cases h with
    | pass hs _ => exact index_lt hs
    | on hs _ => exact index_lt hs
    | again hs _ => exact index_lt hs
  · intro h
    have hs := List.drop_eq_getElem_cons h
    cases hf : fuseRun? o listener s.steps[s.index] (s.steps.drop (s.index + 1)) with
    | none => exact ⟨_, .pass hs (fuseRun_eq_none_iff.mp hf)⟩
    | some f => exact ⟨_, .on hs hf⟩

/-! ## 6. What a scan ends with -/

/-- A scan is under way to what the one pass makes of a chain: no run can begin at a step it
passed, and what it holds comes to the same. -/
structure Toward (o : FusionOptions) (listener : Bool) (steps : List StepNode) (s : Scan) :
    Prop where
  passed : ∀ n ∈ s.steps.take s.index, n.step.startsRun = false
  fuses : fuseChain o listener s.fallbacks 0 0 s.steps = fuseChain o listener [] 0 0 steps

theorem Toward.start (steps : List StepNode) : Toward o listener steps (.start steps) :=
  ⟨by simp [Scan.start], rfl⟩

/-- Putting a run in place does not change what the chain comes to. -/
theorem fuseChain_splice (hp : ∀ n ∈ s.steps.take s.index, n.step.startsRun = false)
    (hs : s.steps.drop s.index = node :: rest) (hf : fuseRun? o listener node rest = some f)
    (index : Nat) :
    fuseChain o listener (s.splice f index).fallbacks 0 0 (s.splice f index).steps
      = fuseChain o listener s.fallbacks 0 0 s.steps := by
  have hlen := length_passed hs
  have hkept : ∀ n ∈ s.steps.take s.index ++ (StepNode.plain (.fused f.run) :: f.leftover.toList),
      n.step.startsRun = false := by
    intro n hn
    rcases List.mem_append.mp hn with hn | hn
    · exact hp n hn
    · exact not_starts_replacement hf n hn
  conv_rhs => rw [steps_eq hs, fuseChain_kept hp, hlen, Nat.zero_add, fuseChain_fused hf]
  simp only [splice]
  rw [fuseChain_kept hkept, drop_consumed hs hf, hs, List.length_append, hlen, Nat.zero_add]
  simp only [List.append_assoc]

theorem take_passed {passed steps : List StepNode} {index : Nat} (hlen : passed.length = index)
    (hs : steps = passed ++ node :: rest) : steps.take (index + 1) = passed ++ [node] := by
  subst hs hlen
  simp [List.take_append]

theorem Toward.goes {steps : List StepNode} (h : Toward o listener steps s)
    (hg : Goes o listener s s') : Toward o listener steps s' := by
  cases hg with
  | pass hs hn =>
    refine ⟨?_, h.fuses⟩
    have htake := take_passed (length_passed hs) (steps_eq hs)
    intro n hmem
    rw [htake] at hmem
    rcases List.mem_append.mp hmem with hmem | hmem
    · exact h.passed n hmem
    · rw [List.mem_singleton.mp hmem]
      exact hn
  | on hs hf =>
    refine ⟨?_, (fuseChain_splice h.passed hs hf _).trans h.fuses⟩
    intro n hmem
    simp only [splice, List.append_assoc, List.cons_append] at hmem
    rw [take_passed (length_passed hs) rfl] at hmem
    rcases List.mem_append.mp hmem with hmem | hmem
    · exact h.passed n hmem
    · rw [List.mem_singleton.mp hmem]
      rfl
  | again hs hf => exact ⟨by simp [splice], (fuseChain_splice h.passed hs hf _).trans h.fuses⟩

theorem Toward.reaches {steps : List StepNode}
    (h : Relation.ReflTransGen (Goes o listener) (.start steps) s) :
    Toward o listener steps s := by
  induction h with
  | refl => exact .start steps
  | tail _ hg ih => exact ih.goes hg

/-- A scan that has come to the end of its chain holds what the one pass gives. -/
theorem Toward.ended {steps : List StepNode} (h : Toward o listener steps s)
    (hend : s.steps.length ≤ s.index) :
    (s.steps, s.fallbacks) = fuseChain o listener [] 0 0 steps := by
  have hpassed := h.passed
  rw [List.take_of_length_le hend] at hpassed
  rw [← h.fuses, fuseChain_of_not_starts hpassed]

end Scan

/-- **Fusing a chain ends, loses no step, and is done once.** In place it ends, wherever it starts
over, and always with the same chain and the same reports. The chain is divided into blocks, of
which each stays or becomes a run. In the end no run can begin any more, so that fusing once again
changes nothing and reports nothing. -/
theorem Traversal.fuse_divides (t : Traversal) (o : FusionOptions) :
    (WellFounded fun s' s : Scan => s.Goes o t.mutationListener s')
      ∧ (∀ s : Scan, Relation.ReflTransGen (Scan.Goes o t.mutationListener) (.start t.steps) s →
        (¬ ∃ s', s.Goes o t.mutationListener s') →
        s.steps = (t.fuse o).traversal.steps ∧ s.fallbacks = (t.fuse o).fallbacks)
      ∧ Divided o t.mutationListener t.steps (t.fuse o).traversal.steps
      ∧ (∀ n ∈ (t.fuse o).traversal.steps, n.step.startsRun = false)
      ∧ ∀ o' : FusionOptions, (t.fuse o).traversal.fuse o' = ⟨(t.fuse o).traversal, []⟩ := by
  have hdivided : Divided o t.mutationListener t.steps (t.fuse o).traversal.steps :=
    divided_fuseChain [] 0 0 t.steps
  refine ⟨Scan.wellFounded_goes o t.mutationListener, ?_, hdivided, hdivided.not_starts, ?_⟩
  · intro s hreach hend
    rw [Scan.exists_goes_iff, Nat.not_lt] at hend
    have h := (Scan.Toward.reaches hreach).ended hend
    exact ⟨congrArg Prod.fst h, congrArg Prod.snd h⟩
  · intro o'
    exact Traversal.fuse_of_not_starts hdivided.not_starts o'

end TraversalSql
