import TraversalSql.Proofs.RunShapes

/-!
# Steps that sort

Every `order()` step of a chain is taken over by the hop that stands last when it is read, and a hop
appends its keys to those it has. So of two steps at one hop the first has the first keys, and what
a hop is sorted by is what its steps say, in the order of the chain. Read from the last hop to the
first, as statements read them, the steps of a run come in the reverse order of the chain only as
far as they stand at different hops.
-/

set_option autoImplicit false

namespace TraversalSql

/-! ## 1. Steps and their hops -/

/-- A step that sorts: the place of the hop that takes it over, and its keys. -/
structure SortStep where
  place : Nat
  specs : List SortSpec
deriving DecidableEq, Repr

/-- The steps among edits that sort, in their order; the hop that stands last is at `place`. -/
def sortSteps : Nat → List HopEdit → List SortStep
  | _, [] => []
  | place, .move .. :: ds => sortSteps (place + 1) ds
  | place, .sort specs :: ds => ⟨place, specs⟩ :: sortSteps place ds
  | place, _ :: ds => sortSteps place ds

/-- Those of one hop. -/
def stepsAt (place : Nat) (steps : List SortStep) : List SortStep :=
  steps.filter fun s => s.place == place

/-- The keys of the hop at a place. -/
def orderAt (hops : List Hop) (place : Nat) : List SortSpec :=
  (hops[place]?.map Hop.order).getD []

theorem place_le_sortSteps (place : Nat) (ds : List HopEdit) :
    ∀ s ∈ sortSteps place ds, place ≤ s.place := by
  induction ds generalizing place with
  | nil => exact List.forall_mem_nil _
  | cons d ds ih =>
    cases d with
    | move => exact fun s hs => Nat.le_of_succ_le (ih (place + 1) s hs)
    | sort specs => exact List.forall_mem_cons.mpr ⟨Nat.le_refl _, ih place⟩
    | _ => exact ih place

/-- Steps come hop by hop. -/
theorem pairwise_sortSteps (place : Nat) (ds : List HopEdit) :
    (sortSteps place ds).Pairwise fun a b => a.place ≤ b.place := by
  induction ds generalizing place with
  | nil => exact .nil
  | cons d ds ih =>
    cases d with
    | move => exact ih (place + 1)
    | sort specs => exact List.pairwise_cons.mpr ⟨place_le_sortSteps place ds, ih place⟩
    | _ => exact ih place

/-! ## 2. The keys of hops -/

theorem getElem?_onLast (f : Hop → Hop) (hops : List Hop) (i : Nat) :
    (onLast f hops)[i]? = if i + 1 = hops.length then hops[i]?.map f else hops[i]? := by
  cases hops with
  | nil => simp [onLast]
  | cons first rest =>
    obtain ⟨init, last, heq⟩ := exists_concat (List.cons_ne_nil first rest)
    rw [heq, onLast_concat]
    simp only [List.length_append, List.length_singleton, Nat.add_right_cancel_iff]
    rcases Nat.lt_trichotomy i init.length with hlt | rfl | hgt
    · rw [if_neg (Nat.ne_of_lt hlt), List.getElem?_append_left hlt, List.getElem?_append_left hlt]
    · simp
    · have hout : ∀ h : Hop, (init ++ [h])[i]? = none := by
        intro h
        refine List.getElem?_eq_none ?_
        rw [List.length_append, List.length_singleton]
        omega
      rw [if_neg (Nat.ne_of_gt hgt), hout, hout]

namespace HopEdit

/-- The keys that the edit brings. -/
def specs : HopEdit → List SortSpec
  | .sort specs => specs
  | _ => []

theorem order_change (d : HopEdit) (fullText : Bool) (h : Hop) :
    (d.change fullText h).order = h.order ++ d.specs := by
  cases d with
  | sort specs => rfl
  | name names =>
    simp only [change, specs, List.append_nil]
    rw [Hop.addUserLabels_eq]
  | _ => exact (List.append_nil _).symm

end HopEdit

theorem orderAt_onLast {f : Hop → Hop} {specs : List SortSpec}
    (hf : ∀ h : Hop, (f h).order = h.order ++ specs) (hops : List Hop) (i : Nat) :
    orderAt (onLast f hops) i
      = orderAt hops i ++ if i + 1 = hops.length then specs else [] := by
  unfold orderAt
  rw [getElem?_onLast]
  split
  · rename_i hi
    have hlt : i < hops.length := by omega
    rw [List.getElem?_eq_getElem hlt]
    exact hf _
  · rw [List.append_nil]

theorem orderAt_concat (hops : List Hop) {h : Hop} (hh : h.order = []) (i : Nat) :
    orderAt (hops ++ [h]) i = orderAt hops i := by
  unfold orderAt
  by_cases hlt : i < hops.length
  · rw [List.getElem?_append_left hlt]
  · rw [List.getElem?_append_right (Nat.not_lt.mp hlt), List.getElem?_singleton,
      List.getElem?_eq_none (Nat.not_lt.mp hlt)]
    split
    · exact hh
    · rfl

/-- Edits put on a hop what its steps say, one after the other. -/
theorem Reader.orderAt_edited (r : Reader) {hops : List Hop} (hne : hops ≠ []) (ds : List HopEdit)
    (i : Nat) : orderAt (r.edited ds hops) i
      = orderAt hops i ++ (stepsAt i (sortSteps (hops.length - 1) ds)).flatMap SortStep.specs := by
  induction ds generalizing hops with
  | nil => exact (List.append_nil _).symm
  | cons d ds ih =>
    have hpos := List.length_pos_iff.mpr hne
    rw [edited_cons]
    cases hmove : d.isMove with
    | true =>
      cases d with
      | move m names untilFirst leftJoin =>
        -- the new hop has no keys yet, and later steps stand one place further on
        have hfresh : (r.newHop m names untilFirst leftJoin hops.length).order = [] :=
          (isFresh_hop (.move m) hops.length names).order
        rw [edit, ih (List.append_ne_nil_of_right_ne_nil _ (List.cons_ne_nil _ _)),
          orderAt_concat _ hfresh, List.length_append, List.length_singleton, sortSteps,
          show hops.length + 1 - 1 = hops.length - 1 + 1 by omega]
      | _ => cases hmove
    | false =>
      -- the hops stay as many, and only the last of them gets keys
      have hlength : (onLast (d.change r.options.fullText) hops).length = hops.length := by
        obtain ⟨init, last, rfl⟩ := exists_concat hne
        rw [onLast_concat, List.length_append, List.length_append]
        rfl
      have hchanged : onLast (d.change r.options.fullText) hops ≠ [] :=
        List.ne_nil_of_length_pos (hlength ▸ hpos)
      rw [edit_of_not_move hmove, ih hchanged, hlength, orderAt_onLast (d.order_change _),
        List.append_assoc]
      congr 1
      cases d with
      | move => cases hmove
      | sort specs =>
        have hplace : (i + 1 = hops.length) ↔ (hops.length - 1 = i) := by omega
        simp only [sortSteps, stepsAt, List.filter_cons, HopEdit.specs, hplace, beq_iff_eq]
        split
        · rw [List.flatMap_cons]
        · rw [List.nil_append]
      | _ => simp only [HopEdit.specs, ite_self, List.nil_append, sortSteps]

/-- A hop of a run is sorted by what its steps say, the first step first. -/
theorem fuseRun_orderAt {o : FusionOptions} {listener : Bool} {node : StepNode}
    {rest : List StepNode} {f : FusedRun} (h : fuseRun? o listener node rest = some f)
    (place : Nat) : orderAt f.run.hops place = (stepsAt place (sortSteps 0
      (chainEdits o.fullText ((node :: rest).take f.consumed)))).flatMap SortStep.specs := by
  obtain ⟨root, hroot, hhops, -⟩ := fuseRun_edited h
  have hnone : orderAt [root] place = [] := orderAt_concat [] hroot.order place
  rw [hhops, Reader.orderAt_edited _ (List.cons_ne_nil _ _), hnone, List.nil_append]
  rfl

/-! ## 3. Hop by hop -/

theorem flatMap_filter_of_nil {α β : Type} {f : β → List α} {l : List β} {p : β → Bool}
    (h : ∀ x ∈ l, p x = false → f x = []) : (l.filter p).flatMap f = l.flatMap f := by
  induction l with
  | nil => rfl
  | cons x l ih =>
    have hrest := ih fun y hy => h y (List.mem_cons_of_mem _ hy)
    cases hp : p x with
    | true => rw [List.filter_cons_of_pos hp, List.flatMap_cons, List.flatMap_cons, hrest]
    | false =>
      rw [List.filter_cons_of_neg (by rw [hp]; exact Bool.false_ne_true), List.flatMap_cons,
        h x List.mem_cons_self hp, hrest, List.nil_append]

section Grouping

variable {α : Type} {f : SortStep → List α} {steps : List SortStep}

/-- Behind the steps of the first hops come those of the next one. -/
theorem filter_place_succ (hsteps : steps.Pairwise fun a b => a.place ≤ b.place) (n : Nat) :
    (steps.filter fun s => s.place < n) ++ stepsAt n steps
      = steps.filter fun s => s.place < n + 1 := by
  unfold stepsAt
  induction hsteps with
  | nil => rfl
  | @cons s steps hle _ ih =>
    rcases Nat.lt_trichotomy s.place n with hlt | heq | hgt
    · have hlt' : s.place < n + 1 := by omega
      simp only [List.filter_cons, hlt, hlt', decide_true, if_true, List.cons_append, ih,
        beq_false_of_ne (Nat.ne_of_lt hlt), Bool.false_eq_true, if_false]
    · -- everything behind stands at this hop or further on
      have hnone : steps.filter (fun s => decide (s.place < n)) = [] := by
        refine List.filter_eq_nil_iff.mpr fun x hx => ?_
        have := hle x hx
        simp only [decide_eq_true_eq]
        omega
      rw [hnone, List.nil_append] at ih
      simp [heq, hnone, ih]
    · have hge : ¬ s.place < n ∧ ¬ s.place < n + 1 := by omega
      simp only [List.filter_cons, hge.1, hge.2, decide_false, Bool.false_eq_true, if_false, ih,
        beq_false_of_ne (Nat.ne_of_gt hgt)]

/-- The steps of the first hops, hop by hop. -/
theorem flatMap_stepsAt (hsteps : steps.Pairwise fun a b => a.place ≤ b.place) (n : Nat) :
    ((List.range n).flatMap fun place => stepsAt place steps)
      = steps.filter fun s => s.place < n := by
  induction n with
  | zero => exact (List.filter_eq_nil_iff.mpr (by simp)).symm
  | succ n ih =>
    rw [List.range_succ, List.flatMap_append, List.flatMap_singleton, ih, filter_place_succ hsteps]

/-- What all steps say, the last step first, where those from the `n`-th hop on say nothing. -/
theorem flatMap_reverse_eq (hsteps : steps.Pairwise fun a b => a.place ≤ b.place) {n : Nat}
    (hnone : ∀ s ∈ steps, n ≤ s.place → f s = []) :
    steps.reverse.flatMap f = (List.range n).reverse.flatMap fun place =>
      (stepsAt place steps).reverse.flatMap f := by
  have hfirst : steps.reverse.flatMap f
      = (steps.filter fun s => s.place < n).reverse.flatMap f := by
    rw [← List.filter_reverse, flatMap_filter_of_nil]
    intro s hs hlt
    exact hnone s (List.mem_reverse.mp hs) (Nat.not_lt.mp (of_decide_eq_false hlt))
  rw [hfirst, ← flatMap_stepsAt hsteps, List.reverse_flatMap, List.flatMap_assoc]
  rfl

/-- Where no two steps stand at one hop, each hop has one step at most. -/
theorem reverse_stepsAt (hplaces : (steps.map SortStep.place).Nodup) (place : Nat) :
    (stepsAt place steps).reverse = stepsAt place steps := by
  have hall : (stepsAt place steps).map SortStep.place
      = List.replicate (stepsAt place steps).length place := by
    rw [List.eq_replicate_iff, List.length_map]
    refine ⟨rfl, List.forall_mem_map.mpr fun s hs => ?_⟩
    exact beq_iff_eq.mp (List.mem_filter.mp hs).2
  have hsub : (stepsAt place steps).Sublist steps := List.filter_sublist
  have hnodup := hplaces.sublist (hsub.map SortStep.place)
  rw [hall, List.nodup_replicate] at hnodup
  rcases Nat.le_one_iff_eq_zero_or_eq_one.mp hnodup with hnone | hone
  · rw [List.length_eq_zero_iff.mp hnone]
    rfl
  · obtain ⟨s, hs⟩ := List.length_eq_one_iff.mp hone
    rw [hs]
    rfl

/-- Lists put together from parts of equal lengths are equal part by part. -/
theorem flatMap_inj_iff {β : Type} {l : List β} {a b : β → List α}
    (hlength : ∀ x ∈ l, (a x).length = (b x).length) :
    l.flatMap a = l.flatMap b ↔ ∀ x ∈ l, a x = b x := by
  refine ⟨fun heq => ?_, fun heq => List.flatMap_congr heq⟩
  induction l with
  | nil => exact List.forall_mem_nil _
  | cons x l ih =>
    rw [List.flatMap_cons, List.flatMap_cons] at heq
    obtain ⟨hhead, htail⟩ := List.append_inj heq (hlength x List.mem_cons_self)
    exact List.forall_mem_cons.mpr
      ⟨hhead, ih (fun y hy => hlength y (List.mem_cons_of_mem _ hy)) htail⟩

/-- **Hop by hop, or step by step.** To read the hops from the last to the first, and the steps of
each in their order, is to read the steps from the last to the first exactly if it makes no
difference at any hop which of its steps comes first. -/
theorem flatMap_stepsAt_eq_iff (hsteps : steps.Pairwise fun a b => a.place ≤ b.place) {n : Nat}
    (hnone : ∀ s ∈ steps, n ≤ s.place → f s = []) :
    ((List.range n).reverse.flatMap fun place => (stepsAt place steps).flatMap f)
        = steps.reverse.flatMap f ↔
      ∀ place < n, (stepsAt place steps).flatMap f = (stepsAt place steps).reverse.flatMap f := by
  rw [flatMap_reverse_eq hsteps hnone, flatMap_inj_iff]
  · simp only [List.mem_reverse, List.mem_range]
  · intro place _
    exact ((List.reverse_perm _).symm.flatMap_right f).length_eq

end Grouping

end TraversalSql
