import TraversalSql.Fusion.Chain
import TraversalSql.Proofs.Reading
import TraversalSql.Tree.Ids

/-!
# The runs that fusion makes

Planning takes a run apart without asking whether it hangs together: it relies on a root in front,
on moves behind it, on every hop being at its place, and on filters and sort keys that a statement
can express. The type of a run promises none of this. `WellRead` does, and the runs of a fused
chain have it, because no step that is read ever breaks it.

The steps are those of `Reader`, which the machine is known to compute.
-/

set_option autoImplicit false

namespace TraversalSql

/-! ## 1. Filters on ids -/

namespace Predicate

/-- Against any table, the predicate comes down to a comparison with ids. -/
def ResolvesToIds (p : Predicate) : Prop :=
  ∀ table q, p.resolveIds? table = some q → q.testsIds = true

theorem all_isIdLiteral_idsIn (table : Table) (vs : List Value) :
    (idsIn table vs).all Value.isIdLiteral = true := by
  rw [idsIn, List.all_map, List.all_eq_true]
  intro i _
  rfl

theorem resolvesToIds_compare (op : Comparison) (v : Value) : (compare op v).ResolvesToIds := by
  intro table q h
  cases hv : v.idIn? table with
  | none => cases op <;> simp only [resolveIds?, hv, Option.map_none, reduceCtorEq] at h <;>
      cases h <;> rfl
  | some i => cases op <;> simp only [resolveIds?, hv, Option.map_some] at h <;> cases h <;> rfl

theorem resolvesToIds_within (vs : List Value) : (within vs).ResolvesToIds := by
  intro table q h
  cases h
  exact all_isIdLiteral_idsIn table vs

theorem resolvesToIds_without (vs : List Value) : (without vs).ResolvesToIds := by
  intro table q h
  simp only [resolveIds?] at h
  split at h
  · cases h
  · cases h
    exact all_isIdLiteral_idsIn table vs

mutual

theorem resolvesToIds_of_testsIds (p : Predicate) (hp : p.testsIds = true) : p.ResolvesToIds := by
  match p with
  | .compare op v => exact resolvesToIds_compare op v
  | .within vs => exact resolvesToIds_within vs
  | .without vs => exact resolvesToIds_without vs
  | .and ps =>
    intro table q h
    have hps := allTestIds_resolveSome table ps hp
    simp only [resolveIds?] at h
    split at h
    · cases h
    · cases h
      exact hps
  | .or ps =>
    intro table q h
    obtain ⟨qs, hqs, rfl⟩ := Option.map_eq_some_iff.mp h
    exact allTestIds_resolveEach table ps hp hqs
  | .between _ _ | .inside _ _ | .outside _ _ =>
    intro table q h
    cases h
    exact hp
  | .present | .absent | .text _ _ | .fullText _ _ | .lambda _ => cases hp

theorem allTestIds_resolveSome (table : Table) (ps : List Predicate) (hp : allTestIds ps = true) :
    allTestIds (resolveSome table ps) = true := by
  match ps with
  | [] => rfl
  | p :: ps =>
    obtain ⟨hfirst, hrest⟩ := Bool.and_eq_true_iff.mp hp
    simp only [resolveSome]
    split
    · rename_i q hq
      simp [allTestIds, resolvesToIds_of_testsIds p hfirst table q hq,
        allTestIds_resolveSome table ps hrest]
    · exact allTestIds_resolveSome table ps hrest

theorem allTestIds_resolveEach (table : Table) (ps : List Predicate) (hp : allTestIds ps = true)
    {qs : List Predicate} (h : resolveEach? table ps = some qs) : allTestIds qs = true := by
  match ps with
  | [] =>
    cases h
    rfl
  | p :: ps =>
    obtain ⟨hfirst, hrest⟩ := Bool.and_eq_true_iff.mp hp
    simp only [resolveEach?] at h
    split at h
    · cases h
    · rename_i q hq
      obtain ⟨qs, hqs, rfl⟩ := Option.map_eq_some_iff.mp h
      simp [allTestIds, resolvesToIds_of_testsIds p hfirst table q hq,
        allTestIds_resolveEach table ps hrest hqs]

end

end Predicate

/-! ## 2. Hops at their places -/

section Buckets

variable {fullText : Bool} {f : Filter}

theorem Filter.testsIds_of_bucket (h : f.bucket? fullText = some .id) :
    f.predicate.testsIds = true := by
  unfold bucket? at h
  split at h
  · split at h
    · assumption
    · cases h
  · split at h
    · split at h <;> cases h
    · split at h
      · cases hp : f.predicate <;> simp [hp, Predicate.shape?] at h
        split at h <;> cases h
      · cases h

/-- A property filter that a hop carries can be expressed. -/
theorem Filter.isTranslatable_of_bucket (h : (f.bucket? fullText).isSome = true)
    (hlabel : f.bucket? fullText ≠ some .label) (hid : f.bucket? fullText ≠ some .id) :
    f.predicate.isTranslatable fullText = true := by
  unfold bucket? at h hlabel hid
  split at h
  · split at h <;> simp_all
  · split at h
    · split at h <;> simp_all
    · split at h
      · assumption
      · cases h

end Buckets

/-- What planning relies on at one place of a run. -/
structure Hop.ReadAt (fullText : Bool) (place : Nat) (h : Hop) : Prop where
  kind : h.kind.isRoot = (place == 0)
  depth : h.depth = place
  filters : ∀ f ∈ h.filters, f.predicate.isTranslatable fullText = true
  ids : ∀ p ∈ h.idPredicates, p.ResolvesToIds
  order : ∀ s ∈ h.order, s.key.isComputed = false

namespace Hop.ReadAt

variable {fullText : Bool} {place : Nat} {h : Hop}

theorem fresh {kind : HopKind} (hk : kind.isRoot = (place == 0)) :
    ({ kind := kind, depth := place } : Hop).ReadAt fullText place :=
  ⟨hk, rfl, List.forall_mem_nil _, List.forall_mem_nil _, List.forall_mem_nil _⟩

/-- Slices, flags and labels are no matter here. -/
theorem marked (hr : h.ReadAt fullText place) {range : Option Slice}
    {emit untilFirst leftJoin drop : Bool} {labels : SortedSet ResultLabel} :
    ({ h with
      range := range, emit := emit, untilFirst := untilFirst, leftJoin := leftJoin, drop := drop
      labels := labels } : Hop).ReadAt fullText place :=
  ⟨hr.kind, hr.depth, hr.filters, hr.ids, hr.order⟩

theorem addUserLabels (hr : h.ReadAt fullText place) (names : List String) :
    (h.addUserLabels names).ReadAt fullText place := by
  rw [Hop.addUserLabels_eq]
  exact hr.marked

theorem markEmit (hr : h.ReadAt fullText place) : h.markEmit.ReadAt fullText place := by
  rw [Hop.markEmit_eq]
  exact hr.marked

/-- What a hop carries is what its buckets admit; the rest of the filters is not taken over. -/
theorem carrying (hr : h.ReadAt fullText place) (fs : List Filter) :
    (h.carrying (.ofFilters fullText fs)).ReadAt fullText place where
  kind := hr.kind
  depth := hr.depth
  filters := by
    intro f hf
    rcases List.mem_append.mp hf with hf | hf
    · exact hr.filters f hf
    · simp only [SortedFilters.ofFilters, List.mem_filter, Bool.and_eq_true, bne_iff_ne] at hf
      obtain ⟨_, ⟨hsome, hlabel⟩, hid⟩ := hf
      exact Filter.isTranslatable_of_bucket hsome hlabel hid
  ids := by
    intro p hp
    rcases List.mem_append.mp hp with hp | hp
    · exact hr.ids p hp
    · simp only [SortedFilters.ofFilters, List.mem_map, List.mem_filter, beq_iff_eq] at hp
      obtain ⟨f, ⟨_, hbucket⟩, rfl⟩ := hp
      exact Predicate.resolvesToIds_of_testsIds _ (Filter.testsIds_of_bucket hbucket)
  order := hr.order

theorem sorted (hr : h.ReadAt fullText place) {specs : List SortSpec}
    (hs : checkOrder specs = .ok ()) :
    ({ h with order := h.order ++ specs } : Hop).ReadAt fullText place := by
  refine ⟨hr.kind, hr.depth, hr.filters, hr.ids, ?_⟩
  intro s hmem
  rcases List.mem_append.mp hmem with hmem | hmem
  · exact hr.order s hmem
  · unfold checkOrder at hs
    split at hs
    · cases hs
    · rename_i hnone
      simpa using List.find?_eq_none.mp hnone s hmem

end Hop.ReadAt

/-- The hops of a run that can be planned. -/
structure WellRead (fullText : Bool) (hops : List Hop) : Prop where
  nonempty : hops ≠ []
  hop : ∀ {i : Nat} {h : Hop}, hops[i]? = some h → h.ReadAt fullText i

namespace WellRead

variable {fullText : Bool} {hops : List Hop} {f : Hop → Hop}

theorem singleton {h : Hop} (hr : h.ReadAt fullText 0) : WellRead fullText [h] := by
  refine ⟨List.cons_ne_nil _ _, ?_⟩
  intro i h' hi
  cases i with
  | zero =>
    cases hi
    exact hr
  | succ i => cases hi

theorem push (hw : WellRead fullText hops) {h : Hop} (hr : h.ReadAt fullText hops.length) :
    WellRead fullText (hops ++ [h]) := by
  refine ⟨by simp, ?_⟩
  intro i h' hi
  by_cases hlt : i < hops.length
  · rw [List.getElem?_append_left hlt] at hi
    exact hw.hop hi
  · rw [List.getElem?_append_right (Nat.not_lt.mp hlt), List.getElem?_singleton] at hi
    split at hi
    · obtain rfl : i = hops.length := by omega
      cases hi
      exact hr
    · cases hi

/-- A change of the last hop that is harmless at every place is harmless. -/
theorem onLast (hw : WellRead fullText hops)
    (hf : ∀ {i : Nat} {h : Hop}, h.ReadAt fullText i → (f h).ReadAt fullText i) :
    WellRead fullText (onLast f hops) := by
  obtain ⟨init, last, rfl⟩ : ∃ init last, hops = init ++ [last] :=
    ⟨_, _, (List.dropLast_concat_getLast hw.nonempty).symm⟩
  rw [onLast_concat]
  refine ⟨by simp, ?_⟩
  intro i h hi
  by_cases hlt : i < init.length
  · rw [List.getElem?_append_left hlt] at hi
    exact hw.hop (by rw [List.getElem?_append_left hlt]; exact hi)
  · rw [List.getElem?_append_right (Nat.not_lt.mp hlt), List.getElem?_singleton] at hi
    split at hi
    · obtain rfl : i = init.length := by omega
      cases hi
      exact hf (hw.hop (by simp))
    · cases hi

theorem named (hw : WellRead fullText hops) (names : SortedSet String) :
    WellRead fullText (named names hops) :=
  hw.onLast fun hr => hr.addUserLabels names.toList

theorem markEmit (hw : WellRead fullText hops) :
    WellRead fullText (TraversalSql.onLast Hop.markEmit hops) :=
  hw.onLast Hop.ReadAt.markEmit

end WellRead

/-! ## 3. Steps -/

namespace Reader

variable {r : Reader} {hops : List Hop} {mark : Hop → Hop}

/-- What is put on a new hop does no harm to it. -/
def Harmless (fullText : Bool) (mark : Hop → Hop) : Prop :=
  ∀ {i : Nat} {h : Hop}, h.ReadAt fullText i → (mark h).ReadAt fullText i

theorem readAt_hop {fullText : Bool} {kind : HopKind} {place : Nat}
    (hk : kind.isRoot = (place == 0)) (names : SortedSet String) :
    (r.hop kind place names).ReadAt fullText place := by
  rw [hop_eq]
  exact (Hop.ReadAt.fresh hk).marked

theorem wellRead_move (hm : Harmless r.options.fullText mark)
    (hw : WellRead r.options.fullText hops) (m : Move) (names : SortedSet String) :
    WellRead r.options.fullText (r.one mark names (.move m) hops) := by
  rw [Reader.one]
  apply hw.push
  apply hm
  apply readAt_hop
  have hpos := List.length_pos_iff.mpr hw.nonempty
  simp only [HopKind.isRoot, Bool.false_eq, beq_eq_false_iff_ne]
  omega

theorem wellRead_simple (last : Bool) (step : Step) (hs : step.isSimple r.options.fullText last)
    (hm : Harmless r.options.fullText mark) (hw : WellRead r.options.fullText hops)
    (names : SortedSet String) :
    WellRead r.options.fullText (r.one mark names step hops) := by
  cases step with
  | move m => exact wellRead_move hm hw m names
  | has fs =>
    rw [Reader.one]
    exact (hw.onLast fun hr => hr.carrying fs).named names
  | order specs =>
    rw [Reader.one]
    exact (hw.onLast fun hr => hr.sorted hs).named names
  | range slice =>
    rw [Reader.one]
    exact (hw.onLast fun hr => hr.marked).named names
  | identity =>
    rw [Reader.one]
    exact hw.named names
  | _ => cases hs

mutual

theorem wellRead_part (steps : List StepNode) (hops : List Hop)
    (h : checkOptional r.rooted r.options.fullText steps = .ok ())
    (hw : WellRead r.options.fullText hops) :
    WellRead r.options.fullText (r.part steps hops) := by
  obtain ⟨m, names, rest, text, rfl, hrest⟩ := checkOptional_cases h
  rw [Reader.part]
  apply wellRead_rest rest _ hrest
  exact wellRead_move (fun hr => hr.marked) hw m names
termination_by sizeOf steps

theorem wellRead_rest (steps : List StepNode) (hops : List Hop) {text : String} {position : Nat}
    (h : checkBody r.rooted r.options.fullText text position steps = .ok ())
    (hw : WellRead r.options.fullText hops) :
    WellRead r.options.fullText (r.all id steps hops) := by
  match steps with
  | [] =>
    rw [Reader.all]
    exact hw
  | ⟨step, names⟩ :: rest =>
    rw [checkBody] at h
    cases hi : checkInner r.rooted r.options.fullText text position rest.isEmpty step with
    | error e => simp [hi, bind, Except.bind] at h
    | ok u =>
      simp only [hi, bind, Except.bind] at h
      rw [Reader.all]
      refine wellRead_rest rest _ h ?_
      rcases checkInner_cases hi with hs | ⟨inner, rfl, _, hin⟩
      · exact wellRead_simple _ step hs (fun hr => hr) hw names
      · rw [Reader.one]
        exact (wellRead_part inner hops hin hw).named names
termination_by sizeOf steps

end

theorem wellRead_body {body : List StepNode}
    (hs : ∀ n ∈ body, n.step.fitsLoop r.options.fullText = true)
    (hm : Harmless r.options.fullText mark) (hw : WellRead r.options.fullText hops) :
    WellRead r.options.fullText (r.all mark body hops) := by
  induction body generalizing hops with
  | nil =>
    rw [Reader.all]
    exact hw
  | cons node body ih =>
    obtain ⟨step, names⟩ := node
    rw [Reader.all]
    apply ih fun n hn => hs n (List.mem_cons_of_mem _ hn)
    have hsimple := Step.isSimple_of_fitsLoop true (hs _ List.mem_cons_self)
    exact wellRead_simple true step hsimple hm hw names

theorem wellRead_turns {l : Loop} (hs : ∀ n ∈ l.body, n.step.fitsLoop r.options.fullText = true)
    (turns : Nat) (hw : WellRead r.options.fullText hops) :
    WellRead r.options.fullText (r.turns l turns hops) := by
  induction turns generalizing hops with
  | zero =>
    rw [Reader.turns]
    exact hw
  | succ left ih =>
    rw [Reader.turns]
    apply ih
    have hbody : WellRead r.options.fullText
        (r.all (fun h => { h with untilFirst := l.controlFirst }) l.body hops) :=
      wellRead_body hs (fun hr => hr.marked) hw
    split
    · exact hbody.markEmit
    · exact hbody

theorem wellRead_loop {l : Loop} (hs : ∀ n ∈ l.body, n.step.fitsLoop r.options.fullText = true)
    (turns : Nat) (hw : WellRead r.options.fullText hops) :
    WellRead r.options.fullText (r.loop l turns hops) := by
  unfold Reader.loop
  apply wellRead_turns hs
  split
  · exact hw.markEmit
  · exact hw

/-! ## 4. Chains -/

/-- The hops are well read, and what goes back into the chain is a filter. -/
def Outcome.WellRead (fullText : Bool) : Outcome → Prop
  | .goesOn hops => TraversalSql.WellRead fullText hops
  | .endsWith hops leftover => TraversalSql.WellRead fullText hops ∧
      ∀ node ∈ leftover, ∃ fs, node.step = .has fs
  | .endsBefore _ => True

theorem nothing_left : ∀ node ∈ (none : Option StepNode), ∃ fs, node.step = .has fs := by
  intro node hnode
  cases hnode

theorem wellRead_top (node : StepNode) (hw : WellRead r.options.fullText hops) :
    (r.top node hops).WellRead r.options.fullText := by
  obtain ⟨step, names⟩ := node
  have hid : Harmless r.options.fullText id := fun hr => hr
  cases step with
  | move m => exact wellRead_move hid hw m names
  | identity =>
    exact wellRead_simple true .identity trivial hid hw names
  | has fs =>
    simp only [Reader.top]
    split
    · rename_i hcomplete
      exact wellRead_simple true (.has fs) hcomplete hid hw names
    · split
      · trivial
      · refine ⟨hw.onLast fun hr => hr.carrying fs, ?_⟩
        intro node hnode
        cases hnode
        exact ⟨_, rfl⟩
  | order specs =>
    simp only [Reader.top]
    split
    · rename_i hcheck
      exact wellRead_simple true (.order specs) hcheck hid hw names
    · trivial
  | range slice =>
    exact ⟨wellRead_simple true (.range slice) rfl hid hw names, nothing_left⟩
  | loop l =>
    simp only [Reader.top]
    split
    · rename_i n hturns
      have hloop := (wellRead_loop (Loop.turns_ok hturns).2 n hw).named names
      split
      · exact ⟨hloop, nothing_left⟩
      · exact hloop
    · trivial
  | optional body =>
    simp only [Reader.top]
    split
    · rename_i hcheck
      exact ⟨(wellRead_part body hops hcheck hw).named names, nothing_left⟩
    · trivial
  | choose condition yes no =>
    simp only [Reader.top]
    split
    · rename_i hcheck
      cases hbranch : chosenBranch condition yes no with
      | error e => simp [hbranch, bind, Except.bind] at hcheck
      | ok branch =>
        simp only [hbranch, bind, Except.bind] at hcheck
        rw [chosenBranch_ok hbranch] at hcheck
        exact ⟨(wellRead_part yes hops hcheck hw).named names, nothing_left⟩
    · trivial
  | drop =>
    simp only [Reader.top]
    split
    · trivial
    · exact ⟨hw.onLast fun hr => hr.marked, nothing_left⟩
  | _ => trivial

theorem wellRead_chain {steps : List StepNode} {taken : Nat}
    (hw : WellRead r.options.fullText hops) :
    WellRead r.options.fullText (r.chain steps hops taken).run.hops ∧
      ∀ node ∈ (r.chain steps hops taken).leftover, ∃ fs, node.step = .has fs := by
  induction steps generalizing hops taken with
  | nil => exact ⟨hw, nothing_left⟩
  | cons node rest ih =>
    have htop := wellRead_top node hw
    rw [Reader.chain]
    split
    · rename_i hops' hgoes
      rw [hgoes] at htop
      exact ih htop
    · rename_i hops' leftover hends
      rw [hends] at htop
      exact htop
    · exact ⟨hw, nothing_left⟩

theorem wellRead_start {node : StepNode} (h : r.start? node = some hops) :
    WellRead r.options.fullText hops := by
  unfold Reader.start? at h
  split at h
  · rename_i kind ids _
    cases h
    apply WellRead.singleton
    have hr : (r.hop (.graphRoot kind) 0 node.labels).ReadAt r.options.fullText 0 :=
      readAt_hop rfl node.labels
    refine ⟨hr.kind, hr.depth, hr.filters, ?_, hr.order⟩
    intro p hp
    split at hp
    · cases hp
    · rw [List.mem_singleton.mp hp]
      exact Predicate.resolvesToIds_compare .eq _
    · rw [List.mem_singleton.mp hp]
      exact Predicate.resolvesToIds_within _
  · rename_i m _
    cases h
    have hroot : WellRead r.options.fullText [{ kind := .incomingRoot m.source, depth := 0 }] :=
      WellRead.singleton (Hop.ReadAt.fresh rfl)
    exact hroot.push (readAt_hop rfl node.labels)
  · cases h

end Reader

theorem readRun_wellRead {o : FusionOptions} {mutationListener : Bool} {node : StepNode}
    {rest : List StepNode} {f : FusedRun} (h : readRun? o mutationListener node rest = some f) :
    WellRead o.fullText f.run.hops ∧ ∀ n ∈ f.leftover, ∃ fs, n.step = .has fs := by
  obtain ⟨hops, hstart, rfl⟩ := Option.map_eq_some_iff.mp h
  exact Reader.wellRead_chain (Reader.wellRead_start hstart)

/-- A run that fusion reads from the front of a chain is well read. -/
theorem fuseRun_wellRead {o : FusionOptions} {mutationListener : Bool} {node : StepNode}
    {rest : List StepNode} {f : FusedRun} (h : fuseRun? o mutationListener node rest = some f) :
    WellRead o.fullText f.run.hops ∧ ∀ n ∈ f.leftover, ∃ fs, n.step = .has fs := by
  obtain ⟨step, names⟩ := node
  cases step with
  | graph kind ids =>
    rw [fuseRun_graph] at h
    exact readRun_wellRead h
  | move m =>
    rw [fuseRun_move] at h
    exact readRun_wellRead h
  | _ => cases h

/-! ## 5. Fused chains -/

/-- The step is not fused, or its run is well read. -/
def StepNode.WellRead (fullText : Bool) (n : StepNode) : Prop :=
  ∀ run, n.step = .fused run → TraversalSql.WellRead fullText run.hops

theorem fuseChain_wellRead {o : FusionOptions} {mutationListener : Bool} :
    ∀ (steps : List StepNode) (fallbacks : List Fallback) (position skip : Nat),
    (∀ n ∈ steps, n.WellRead o.fullText) →
    ∀ n ∈ (fuseChain o mutationListener fallbacks position skip steps).1,
      n.WellRead o.fullText := by
  intro steps
  induction steps with
  | nil =>
    intro fallbacks position skip _ n hn
    rw [fuseChain] at hn
    cases hn
  | cons node rest ih =>
    intro fallbacks position skip hsteps n hn
    have hrest : ∀ n ∈ rest, n.WellRead o.fullText :=
      fun n hn => hsteps n (List.mem_cons_of_mem _ hn)
    cases skip with
    | succ skip =>
      rw [fuseChain] at hn
      exact ih _ _ _ hrest n hn
    | zero =>
      rw [fuseChain] at hn
      split at hn
      · rcases List.mem_cons.mp hn with rfl | hn
        · exact hsteps _ List.mem_cons_self
        · exact ih _ _ _ hrest n hn
      · rename_i f hf
        obtain ⟨hrun, hleftover⟩ := fuseRun_wellRead hf
        rcases List.mem_append.mp hn with hn | hn
        · rcases List.mem_cons.mp hn with rfl | hn
          · intro run hstep
            cases hstep
            exact hrun
          · intro run hstep
            obtain ⟨fs, hhas⟩ := hleftover n (Option.mem_toList.mp hn)
            rw [hhas] at hstep
            cases hstep
        · exact ih _ _ _ hrest n hn

/-- **Fusion makes runs that can be planned**, as long as nothing in the chain is fused before. -/
theorem Traversal.fuse_wellRead {t : Traversal} (ht : ∀ n ∈ t.steps, ∀ run, n.step ≠ .fused run)
    (o : FusionOptions) : ∀ run ∈ (t.fuse o).runs, WellRead o.fullText run.hops := by
  intro run hrun
  obtain ⟨n, hn, hstep⟩ := List.mem_filterMap.mp hrun
  have hsteps : ∀ n ∈ t.steps, n.WellRead o.fullText :=
    fun n hn run hstep => absurd hstep (ht n hn run)
  have hread := fuseChain_wellRead t.steps [] 0 0 hsteps n hn
  split at hstep
  · rename_i run' heq
    cases hstep
    exact hread run heq
  · cases hstep

end TraversalSql
