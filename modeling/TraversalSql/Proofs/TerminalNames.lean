import TraversalSql.Proofs.Executions
import TraversalSql.Proofs.FusedRuns
import TraversalSql.Proofs.Refusals
import TraversalSql.Proofs.Scanning

/-!
# The names that results carry

The name of a step goes to the hop that the run stands on when the step is read, and a statement
shows the names of the hops that it goes through. So a name on the last step of a run is carried by
the statements that end at the last hop. Behind an optional part or a loop with emitted elements a
run has others, which end earlier: they carry the name only if the hop they end at was given it by
a step before.
-/

set_option autoImplicit false

namespace TraversalSql

/-! ## 1. Names of hops -/

theorem ResultLabel.mem_userNames {labels : SortedSet ResultLabel} {x : String} :
    x ∈ userNames labels ↔ ∃ l ∈ labels, l.isUser = true ∧ l.name = x := by
  simp only [userNames, List.mem_map, List.mem_filter, SortedSet.mem_toList, and_assoc]

/-- The user gave the hop the name. -/
def Hop.IsNamed (h : Hop) (x : String) : Prop := x ∈ ResultLabel.userNames h.labels

namespace Hop

variable {h : Hop} {x : String}

theorem isNamed_addUserLabels {names : List String} :
    (h.addUserLabels names).IsNamed x ↔ x ∈ names ∨ h.IsNamed x := by
  simp only [IsNamed, ResultLabel.mem_userNames, mem_labels_addUserLabels, or_and_right, exists_or]
  refine or_congr_left ⟨?_, fun hx => ⟨_, ⟨x, hx, rfl⟩, rfl, rfl⟩⟩
  rintro ⟨_, ⟨name, hname, rfl⟩, _, rfl⟩
  exact hname

/-- Neither flag is set, so results end here only if the hop is the last. -/
def IsPlain (h : Hop) : Prop := h.emit = false ∧ h.leftJoin = false

theorem isPlain_addUserLabels {names : List String} (hh : h.IsPlain) :
    (h.addUserLabels names).IsPlain := by
  rw [addUserLabels_eq]
  exact hh

end Hop

/-- The last hop has all of the names. -/
def LastNamed (names : SortedSet String) (hops : List Hop) : Prop :=
  ∃ h, hops.getLast? = some h ∧ ∀ x ∈ names, h.IsNamed x

/-- Results end at the last hop only. -/
def AllPlain (hops : List Hop) : Prop := ∀ h ∈ hops, h.IsPlain

/-- The step lets results end before the last hop: where an optional part finds nothing, or behind
a turn of a loop. -/
def Step.forks : Step → Bool
  | .optional _ | .choose .. => true
  | .loop l => l.emit.isSome
  | _ => false

variable {hops : List Hop} {f : Hop → Hop} {names : SortedSet String}

theorem exists_concat (h : hops ≠ []) : ∃ init last, hops = init ++ [last] :=
  ⟨_, _, (List.dropLast_concat_getLast h).symm⟩

theorem lastNamed_concat (init : List Hop) {h : Hop} (hh : ∀ x ∈ names, h.IsNamed x) :
    LastNamed names (init ++ [h]) :=
  ⟨h, List.getLast?_concat, hh⟩

theorem lastNamed_named (h : hops ≠ []) (names : SortedSet String) :
    LastNamed names (named names hops) := by
  obtain ⟨init, last, rfl⟩ := exists_concat h
  rw [named, onLast_concat]
  exact lastNamed_concat _ fun x hx => Hop.isNamed_addUserLabels.mpr (Or.inl hx)

theorem allPlain_append {more : List Hop} (h : AllPlain hops) (hmore : AllPlain more) :
    AllPlain (hops ++ more) :=
  List.forall_mem_append.mpr ⟨h, hmore⟩

theorem AllPlain.onLast (h : AllPlain hops) (hf : ∀ {k : Hop}, k.IsPlain → (f k).IsPlain) :
    AllPlain (onLast f hops) := by
  cases hops with
  | nil => exact List.forall_mem_nil _
  | cons first rest =>
    obtain ⟨init, last, heq⟩ := exists_concat (List.cons_ne_nil first rest)
    rw [heq] at h ⊢
    obtain ⟨hinit, hlast⟩ := List.forall_mem_append.mp h
    rw [onLast_concat]
    exact allPlain_append hinit (List.forall_mem_singleton.mpr
      (hf (hlast last (List.mem_singleton_self _))))

theorem AllPlain.named (h : AllPlain hops) (names : SortedSet String) :
    AllPlain (named names hops) :=
  h.onLast Hop.isPlain_addUserLabels

/-! ## 2. Names of runs -/

namespace Reader

variable {r : Reader} {mark : Hop → Hop}

theorem isNamed_hop {kind : HopKind} {depth : Nat} {x : String} (hx : x ∈ names) :
    (r.hop kind depth names).IsNamed x := by
  have hne : names.isEmpty = false := by
    rw [SortedSet.isEmpty, List.isEmpty_eq_false_iff]
    exact List.ne_nil_of_mem hx
  simp only [hop, hne, Bool.false_eq_true, if_false]
  exact Hop.isNamed_addUserLabels.mpr (Or.inl hx)

theorem isPlain_hop {kind : HopKind} {depth : Nat} : (r.hop kind depth names).IsPlain := by
  rw [hop_eq]
  exact ⟨rfl, rfl⟩

/-- A simple step names the last hop. -/
theorem lastNamed_simple (last : Bool) (step : Step) (hs : step.isSimple r.options.fullText last)
    (hne : hops ≠ []) : LastNamed names (r.one id names step hops) := by
  have honLast : ∀ f : Hop → Hop, onLast f hops ≠ [] := by
    intro f
    obtain ⟨init, h, rfl⟩ := exists_concat hne
    rw [onLast_concat]
    exact List.append_ne_nil_of_right_ne_nil _ (List.cons_ne_nil _ _)
  cases step with
  | move m =>
    rw [one]
    exact lastNamed_concat _ fun x hx => isNamed_hop hx
  | has fs | order specs | range slice =>
    rw [one]
    exact lastNamed_named (honLast _) names
  | identity =>
    rw [one]
    exact lastNamed_named hne names
  | _ => cases hs

/-- A simple step sets neither flag. -/
theorem allPlain_simple (last : Bool) (step : Step) (hs : step.isSimple r.options.fullText last)
    (hm : ∀ {k : Hop}, k.IsPlain → (mark k).IsPlain) (h : AllPlain hops) :
    AllPlain (r.one mark names step hops) := by
  cases step with
  | move m =>
    rw [one]
    exact allPlain_append h (List.forall_mem_singleton.mpr (hm isPlain_hop))
  | has fs =>
    rw [one]
    refine AllPlain.named ?_ names
    exact h.onLast fun hk => hk
  | order specs =>
    rw [one]
    refine AllPlain.named ?_ names
    exact h.onLast fun hk => hk
  | range slice =>
    rw [one]
    refine AllPlain.named ?_ names
    exact h.onLast fun hk => hk
  | identity =>
    rw [one]
    exact h.named names
  | _ => cases hs

theorem allPlain_body {body : List StepNode}
    (hs : ∀ n ∈ body, n.step.fitsLoop r.options.fullText = true)
    (hm : ∀ {k : Hop}, k.IsPlain → (mark k).IsPlain) (h : AllPlain hops) :
    AllPlain (r.all mark body hops) := by
  induction body generalizing hops with
  | nil =>
    rw [all]
    exact h
  | cons node body ih =>
    obtain ⟨step, names⟩ := node
    rw [all]
    apply ih fun n hn => hs n (List.mem_cons_of_mem _ hn)
    have hsimple := Step.isSimple_of_fitsLoop true (hs _ List.mem_cons_self)
    exact allPlain_simple true step hsimple hm h

/-- A loop that emits nothing sets neither flag. -/
theorem allPlain_loop {l : Loop} (hs : ∀ n ∈ l.body, n.step.fitsLoop r.options.fullText = true)
    (hemit : l.emit = none) (turns : Nat) (h : AllPlain hops) : AllPlain (r.loop l turns hops) := by
  have hturns : ∀ (turns : Nat) {hops : List Hop}, AllPlain hops →
      AllPlain (r.turns l turns hops) := by
    intro turns
    induction turns with
    | zero =>
      intro hops h
      rw [Reader.turns]
      exact h
    | succ left ih =>
      intro hops h
      have hquiet : emitsTurn l left = false := by rw [emitsTurn, hemit]; rfl
      rw [Reader.turns, hquiet]
      exact ih (allPlain_body hs (fun hk => hk) h)
  rw [Reader.loop, hemit]
  exact hturns turns h

/-- What a step that was read leaves behind: its names on the last hop, and no flag unless it is a
step that forks. -/
structure Leaves (node : StepNode) (hops : List Hop) : Prop where
  named : node.step ≠ .drop → LastNamed node.labels hops
  plain : node.step.forks = false → AllPlain hops

/-- What is said of the hops of an outcome if the step is the last of its run and read as a
whole. -/
def Outcome.Leaves (node : StepNode) : Outcome → Prop
  | .goesOn hops => LastNamed node.labels hops ∧ AllPlain hops
  | .endsWith hops none => Reader.Leaves node hops
  | .endsWith _ (some _) | .endsBefore _ => True

theorem leaves_top (node : StepNode) (hw : WellRead r.options.fullText hops) (h : AllPlain hops) :
    (r.top node hops).Leaves node := by
  obtain ⟨step, names⟩ := node
  have hid : ∀ {k : Hop}, k.IsPlain → (id k : Hop).IsPlain := fun hk => hk
  cases step with
  | move m =>
    exact ⟨lastNamed_simple true (.move m) trivial hw.nonempty,
      allPlain_simple true (.move m) trivial hid h⟩
  | identity =>
    exact ⟨lastNamed_simple true .identity trivial hw.nonempty,
      allPlain_simple true .identity trivial hid h⟩
  | has fs =>
    simp only [top]
    split
    · rename_i hcomplete
      exact ⟨lastNamed_simple true (.has fs) hcomplete hw.nonempty,
        allPlain_simple true (.has fs) hcomplete hid h⟩
    · split <;> trivial
  | order specs =>
    simp only [top]
    split
    · rename_i hcheck
      exact ⟨lastNamed_simple true (.order specs) hcheck hw.nonempty,
        allPlain_simple true (.order specs) hcheck hid h⟩
    · trivial
  | range slice =>
    exact ⟨fun _ => lastNamed_simple true (.range slice) rfl hw.nonempty,
      fun _ => allPlain_simple true (.range slice) rfl hid h⟩
  | loop l =>
    simp only [top]
    split
    · rename_i n hturns
      have hbody := (Loop.turns_ok hturns).2
      have hnamed := lastNamed_named (wellRead_loop hbody n hw).nonempty names
      split
      · rename_i hemit
        refine ⟨fun _ => hnamed, fun hforks => ?_⟩
        rw [Step.forks, hemit] at hforks
        cases hforks
      · rename_i hemit
        exact ⟨hnamed, (allPlain_loop hbody (by simpa using hemit) n h).named names⟩
    · trivial
  | optional body =>
    simp only [top]
    split
    · rename_i hcheck
      exact ⟨fun _ => lastNamed_named (wellRead_part body hops hcheck hw).nonempty names,
        fun hforks => by cases hforks⟩
    · trivial
  | choose condition yes no =>
    simp only [top]
    split
    · rename_i hcheck
      cases hbranch : chosenBranch condition yes no with
      | error e => simp [hbranch, bind, Except.bind] at hcheck
      | ok branch =>
        simp only [hbranch, bind, Except.bind] at hcheck
        rw [chosenBranch_ok hbranch] at hcheck
        exact ⟨fun _ => lastNamed_named (wellRead_part yes hops hcheck hw).nonempty names,
          fun hforks => by cases hforks⟩
    · trivial
  | drop =>
    simp only [top]
    split
    · trivial
    · exact ⟨fun hdrop => absurd rfl hdrop, fun _ => h.onLast fun hk => hk⟩
  | _ => trivial

/-- The last step that a chain takes, `prev` being the one before it, leaves this behind. -/
theorem leaves_chain {steps : List StepNode} {prev last : StepNode} {taken : Nat}
    (hw : WellRead r.options.fullText hops)
    (hprev : LastNamed prev.labels hops ∧ AllPlain hops)
    (hwhole : (r.chain steps hops taken).leftover = none)
    (hlast : (prev :: steps)[(r.chain steps hops taken).consumed - taken]? = some last) :
    Leaves last (r.chain steps hops taken).run.hops := by
  have hstay : ∀ {node : StepNode}, LastNamed node.labels hops ∧ AllPlain hops →
      Leaves node hops := fun h => ⟨fun _ => h.1, fun _ => h.2⟩
  induction steps generalizing prev hops taken with
  | nil =>
    simp only [chain, Nat.sub_self, List.getElem?_cons_zero, Option.some.injEq] at hlast
    exact hlast ▸ hstay hprev
  | cons node rest ih =>
    have htop := leaves_top node hw hprev.2
    have hread := wellRead_top node hw
    rw [chain] at hwhole hlast ⊢
    cases ht : r.top node hops with
    | goesOn hops' =>
      rw [ht] at htop hread
      simp only [ht] at hwhole hlast ⊢
      obtain ⟨k, _, hconsumed, _⟩ := chain_takes node (leftBy_of_goesOn ht) rest hops' (taken + 1)
      refine ih hread htop hwhole ?_ fun h => ⟨fun _ => h.1, fun _ => h.2⟩
      rw [hconsumed] at hlast ⊢
      rwa [show taken + 1 + k - taken = (taken + 1 + k - (taken + 1)) + 1 by omega,
        List.getElem?_cons_succ] at hlast
    | endsWith hops' leftover =>
      simp only [ht] at hwhole hlast ⊢
      subst hwhole
      rw [ht] at htop
      rw [Nat.add_sub_cancel_left, List.getElem?_cons_succ, List.getElem?_cons_zero,
        Option.some.injEq] at hlast
      exact hlast ▸ htop
    | endsBefore obstacle =>
      simp only [ht, Nat.sub_self, List.getElem?_cons_zero, Option.some.injEq] at hlast ⊢
      exact hlast ▸ hstay hprev

theorem leaves_start {node : StepNode} (h : r.start? node = some hops) :
    LastNamed node.labels hops ∧ AllPlain hops := by
  unfold start? at h
  split at h
  · cases h
    exact ⟨lastNamed_concat [] fun x hx => isNamed_hop hx,
      List.forall_mem_singleton.mpr isPlain_hop⟩
  · cases h
    refine ⟨lastNamed_concat [_] fun x hx => isNamed_hop hx, ?_⟩
    exact List.forall_mem_cons.mpr ⟨⟨rfl, rfl⟩, List.forall_mem_singleton.mpr isPlain_hop⟩
  · cases h

end Reader

section Fused

variable {o : FusionOptions} {listener : Bool} {node last : StepNode} {rest : List StepNode}
  {f : FusedRun}

/-- What the last step of a run leaves behind, if it was read as a whole. -/
theorem fuseRun_leaves (hf : fuseRun? o listener node rest = some f) (hwhole : f.leftover = none)
    (hlast : (node :: rest)[f.consumed - 1]? = some last) : Reader.Leaves last f.run.hops := by
  rw [fuseRun_eq_readRun] at hf
  obtain ⟨hops, hstart, rfl⟩ := Option.map_eq_some_iff.mp hf
  exact Reader.leaves_chain (Reader.wellRead_start hstart) (Reader.leaves_start hstart) hwhole hlast

/-- The run was read from the traversal, and the step is the last that it took. -/
def FusedRun.ReadFrom (f : FusedRun) (o : FusionOptions) (t : Traversal) (last : StepNode) : Prop :=
  ∃ before node rest, t.steps = before ++ node :: rest ∧
    fuseRun? o t.mutationListener node rest = some f ∧
    (node :: rest)[f.consumed - 1]? = some last

theorem exists_last (hf : fuseRun? o listener node rest = some f) :
    ∃ last, (node :: rest)[f.consumed - 1]? = some last := by
  obtain ⟨k, hk, hconsumed, _⟩ := fuseRun_takes hf
  exact ⟨_, List.getElem?_eq_getElem (by rw [hconsumed, List.length_cons]; omega)⟩

/-- Whatever is fused in a divided chain was read from it. -/
theorem Divided.read {steps out : List StepNode} (h : Divided o listener steps out)
    (hplain : ∀ n ∈ steps, ∀ run, n.step ≠ .fused run) {n : StepNode} {run : Run} (hn : n ∈ out)
    (hrun : n.step = .fused run) : ∃ before node rest f, steps = before ++ node :: rest ∧
      fuseRun? o listener node rest = some f ∧ f.run = run := by
  induction h with
  | nil => cases hn
  | @keep kept steps _ _ _ ih =>
    rcases List.mem_cons.mp hn with rfl | hn
    · exact absurd hrun (hplain _ List.mem_cons_self run)
    · obtain ⟨before, node, rest, f, rfl, hf⟩ :=
        ih (fun n hn => hplain n (List.mem_cons_of_mem _ hn)) hn
      exact ⟨kept :: before, node, rest, f, rfl, hf⟩
  | @fuse first block steps _ f _ hf _ _ ih =>
    rcases List.mem_cons.mp hn with rfl | hn
    · exact ⟨[], first, block ++ steps, f, rfl, hf, Step.fused.inj hrun⟩
    · rcases List.mem_append.mp hn with hleft | hn
      · obtain ⟨fs, hhas⟩ := has_of_leftBy hleft
        rw [hhas] at hrun
        cases hrun
      · have hsteps : ∀ n ∈ steps, ∀ run, n.step ≠ .fused run := fun n hn =>
          hplain n (List.mem_cons_of_mem _ (List.mem_append_right _ hn))
        obtain ⟨before, node, rest, f', rfl, hread⟩ := ih hsteps hn
        exact ⟨first :: (block ++ before), node, rest, f', by simp, hread⟩

/-- The fused runs of a traversal were read from it. -/
theorem Traversal.exists_readFrom {t : Traversal}
    (hplain : ∀ n ∈ t.steps, ∀ run, n.step ≠ .fused run) {run : Run} (hrun : run ∈ (t.fuse o).runs) :
    ∃ (f : FusedRun) (last : StepNode), f.ReadFrom o t last ∧ f.run = run := by
  obtain ⟨n, hn, hstep⟩ := List.mem_filterMap.mp hrun
  have hdivided : Divided o t.mutationListener t.steps (t.fuse o).traversal.steps :=
    divided_fuseChain [] 0 0 t.steps
  have hfused : n.step = .fused run := by
    split at hstep
    · rename_i run' heq
      rw [heq, Option.some.inj hstep]
    · cases hstep
  obtain ⟨before, node, rest, f, hsteps, hf, heq⟩ := hdivided.read hplain hn hfused
  obtain ⟨last, hlast⟩ := exists_last hf
  exact ⟨f, last, ⟨before, node, rest, hsteps, hf, hlast⟩, heq⟩

end Fused

/-! ## 3. Names of statements -/

namespace Run

open QueryTree

variable {T : Topology} {hop : Hop} {rest : List Hop} {table : Table} {binding : RootBinding}
  {t : QueryTree} {c : Nat} {m : QueryNode} {settings : Settings} {run : Run} {n : Numbering}
  {plan : Plan} {s : Statement}

/-- A node has the names of the hop that ends there. -/
theorem Planted.isNamed_iff (hc : T.Consistent) (hp : Planted T hop rest table binding t)
    (hdepths : ∀ {k : Nat} {h : Hop}, rest[k]? = some h → h.depth = k + 1)
    (hm : t.nodes[c]? = some m) (hi : m.intermediate = false) :
    ∃ h, (hop :: rest)[m.depth]? = some h ∧
      ∀ x, x ∈ ResultLabel.userNames m.labels ↔ h.IsNamed x := by
  have hnames : ∀ {h : Hop}, m.labels = (∅ : SortedSet ResultLabel).insertAll h.labels.toList →
      ∀ x, x ∈ ResultLabel.userNames m.labels ↔ h.IsNamed x := by
    intro h hlabels x
    simp only [hlabels, Hop.IsNamed, ResultLabel.mem_userNames, SortedSet.mem_insertAll,
      SortedSet.not_mem_empty, or_false, SortedSet.mem_toList]
  by_cases hroot : c = root
  · subst hroot
    obtain ⟨m', hm', hcore⟩ := hp.rootNode
    rw [hm] at hm'
    cases hm'
    have hdepth : m.depth = 0 := congrArg QueryNode.depth hcore
    exact ⟨hop, by rw [hdepth]; rfl, hnames (congrArg QueryNode.labels hcore)⟩
  · obtain ⟨k, h, q, nn, hh, hdepth, m', hm', hcore⟩ := hp.stop_cases hc hdepths hm hi hroot
    rw [hm] at hm'
    cases hm'
    exact ⟨h, by rw [hdepth]; exact hh, hnames (congrArg QueryNode.labels hcore)⟩

/-- Where the stacks of a phase end, and what is named there. -/
theorem named_at_ends (hc : T.Consistent)
    (hdepths : ∀ {i : Nat} {h : Hop}, run.hops[i]? = some h → h.depth = i) {trees : List QueryTree}
    (htrees : run.trees settings T = .ok trees) (ht : t ∈ trees) {phase : Phase}
    (hid : c ∈ t.ends phase) : EndsAt run.hops (t.nodeAt c).depth phase ∧
      ∃ h, run.hops[(t.nodeAt c).depth]? = some h ∧
        ∀ x, x ∈ ResultLabel.userNames (t.nodeAt c).labels ↔ h.IsNamed x := by
  cases hhops : run.hops with
  | nil =>
    rw [Run.trees, hhops] at htrees
    cases htrees
    cases ht
  | cons hop rest =>
    obtain ⟨_, _, t₀, rfl, hp⟩ := exists_of_mem_right (trees_planted hc hhops hdepths htrees) ht
    have hrest : ∀ {k : Nat} {h : Hop}, rest[k]? = some h → h.depth = k + 1 := by
      intro k h hk
      exact hdepths (by rw [hhops]; exact hk)
    obtain ⟨_, m, hm, hi, hend⟩ := (hp.mem_ends_iff hc hrest phase).mp hid
    obtain ⟨n', hn', hlive⟩ := live_of_mem_ends hid
    obtain ⟨m', cs, hm', _, rfl⟩ := hp.live_node hn' hlive
    rw [hm] at hm'
    cases hm'
    rw [nodeAt_eq hn']
    obtain ⟨h, hh, hnames⟩ := hp.isNamed_iff hc hrest hm hi
    exact ⟨hend, h, hh, hnames⟩

/-- **The terminal of a statement.** It stands at a place where statements of the phase end, and has
the names of the hop that ends there. -/
theorem terminal_of_plan (hc : T.Consistent)
    (hdepths : ∀ {i : Nat} {h : Hop}, run.hops[i]? = some h → h.depth = i)
    (hok : run.plan settings T n = .ok plan) (hs : s ∈ plan.statements) :
    ∃ key h, s.terminal? = some key ∧ EndsAt run.hops key.depth s.phase ∧
      run.hops[key.depth]? = some h ∧
      ∀ x, x ∈ ResultLabel.userNames key.labels ↔ h.IsNamed x := by
  obtain ⟨i, hi⟩ := List.mem_iff_getElem?.mp hs
  obtain ⟨trees, queue, t, phase, id, root, active, outputs, sort, htrees, hqueue, hstack, ht, hid,
    hsound, hstatement⟩ := statement_of_plan hc hok hi
  have hphase : s.phase = phase := by
    obtain ⟨trees', queue', htrees', hqueue', hfrom⟩ := plan_from hok
    obtain rfl : trees = trees' := Except.ok.inj (htrees.symm.trans htrees')
    obtain rfl : queue = queue' := Except.ok.inj (hqueue.symm.trans hqueue')
    obtain ⟨x, hx, hframes⟩ := getElem?_of_forall₂ hfrom.statements hi
    rw [hstack] at hx
    cases hx
    exact hframes.phase
  obtain ⟨_, _, hlast⟩ := hsound.wellFormed.path_goesDown (live_of_mem_ends hid)
  obtain ⟨init, hpath⟩ : ∃ init, t.path id = init ++ [id] := List.getLast?_eq_some_iff.mp hlast
  obtain ⟨hend, h, hh, hnames⟩ := named_at_ends hc hdepths htrees ht hid
  refine ⟨(t.nodeAt id).fragmentKey, h, ?_, hphase ▸ hend, hh, hnames⟩
  -- the last node of the path is shown whatever it is called
  have hshown : (⟨t, settings⟩ : Composer).shownAt (t.path id)
      = (init.filter fun a => some a == (t.path id).getLast? || !(t.nodeAt a).labels.isEmpty)
        ++ [id] := by
    simp only [Composer.shownAt, hlast]
    rw [hpath, List.filter_append]
    simp
  have hfragments := hstatement.fragments
  rw [show (t.stack phase id).nodes = t.path id from rfl, hshown, List.map_append] at hfragments
  rw [Statement.terminal?, hfragments]
  exact List.getLast?_concat

end Run

/-- What a statement of the run carries of the names of the run's last step: all of them if it ends
at the last hop, and otherwise those that the hop it ends at has. It ends at the last hop unless the
step forks. -/
structure Statement.CarriesNames (s : Statement) (run : Run) (last : StepNode) (key : FragmentKey)
    (h : Hop) : Prop where
  terminal : s.terminal? = some key
  hop : run.hops[key.depth]? = some h
  names : ∀ x ∈ last.labels,
    x ∈ ResultLabel.userNames key.labels ↔ s.phase = .regular ∨ h.IsNamed x
  regular : last.step.forks = false → s.phase = .regular

/-- **The names of the last step.** Every run of a traversal was read from it, and the statements of
a run carry the names of its last step, except those behind an optional part or a loop with emitted
elements that end at a hop without the name. -/
theorem Traversal.terminal_names (t : Traversal)
    (hplain : ∀ n ∈ t.steps, ∀ run, n.step ≠ .fused run) {T : Topology} (hT : T.Built)
    (o : FusionOptions) :
    (∀ run ∈ (t.fuse o).runs,
      ∃ (f : FusedRun) (last : StepNode), f.ReadFrom o t last ∧ f.run = run) ∧
    ∀ {f : FusedRun} {last : StepNode}, f.ReadFrom o t last → f.leftover = none →
      last.step ≠ .drop → ∀ {settings : Settings} {n : Numbering} {plan : Plan},
      f.run.plan settings T n = .ok plan →
        ∀ s ∈ plan.statements, ∃ key h, s.CarriesNames f.run last key h := by
  refine ⟨fun run hrun => Traversal.exists_readFrom hplain hrun, ?_⟩
  rintro f last ⟨before, node, rest, _, hf, hlast⟩ hwhole hdrop settings n plan hok s hs
  have hw := (fuseRun_wellRead hf).1
  have hleaves := fuseRun_leaves hf hwhole hlast
  obtain ⟨key, h, hterminal, hend, hh, hnames⟩ :=
    Run.terminal_of_plan hT.consistent (fun hi => (hw.hop hi).depth) hok hs
  refine ⟨key, h, hterminal, hh, fun x hx => ?_, fun hforks => ?_⟩
  · rw [hnames x, Iff.comm, or_iff_right_iff_imp]
    intro hregular
    rw [hregular] at hend
    obtain ⟨h', hlast', hall⟩ := hleaves.named hdrop
    have hdepth : key.depth = f.run.hops.length - 1 := by
      simp only [Run.EndsAt] at hend
      omega
    rw [List.getLast?_eq_getElem?, ← hdepth, hh] at hlast'
    cases hlast'
    exact hall x hx
  · have hplain := hleaves.plain hforks
    cases hphase : s.phase with
    | regular => rfl
    | optional =>
      rw [hphase] at hend
      obtain ⟨h', hh', hleft⟩ := hend
      rw [(hplain h' (List.mem_of_getElem? hh')).2] at hleft
      cases hleft
    | emit =>
      rw [hphase] at hend
      obtain ⟨_, ⟨h', hh', hemit⟩, _⟩ := hend
      rw [(hplain h' (List.mem_of_getElem? hh')).1] at hemit
      cases hemit

namespace People

/-- The friends of a person, or the person if there are none, by a name. -/
def friendsOrSelf : StepNode :=
  ⟨.optional [.plain (.move (.follow .outgoing [] .vertex))], .ofList ["x"]⟩

def everyoneOrFriends : Traversal := ⟨[.plain (.graph .vertex []), friendsOrSelf], false⟩

/-- The run reads both steps and has two statements, of which one ends at a named hop. -/
theorem plan_everyoneOrFriends : ∃ (f : FusedRun) (plan : Plan),
    f.ReadFrom ({} : Settings).fusion everyoneOrFriends friendsOrSelf ∧ f.leftover = none ∧
    f.run.plan {} topology {} = .ok plan ∧
    plan.statements.map (fun s => (s.phase, s.terminal?.map fun key =>
      ResultLabel.userNames key.labels)) = [(.regular, some ["x"]), (.optional, some [])] := by
  have htaken : (fuseRun? ({} : Settings).fusion false (.plain (.graph .vertex []))
      [friendsOrSelf]).map (fun f => (f.consumed, f.leftover.isNone)) = some (2, true) := by
    decide +kernel
  have hplanned : (fuseRun? ({} : Settings).fusion false (.plain (.graph .vertex []))
      [friendsOrSelf]).bind (fun f => (f.run.plan {} topology {}).toOption.map fun plan =>
        plan.statements.map fun s => (s.phase,
          s.terminal?.map fun key => ResultLabel.userNames key.labels))
      = some [(.regular, some ["x"]), (.optional, some [])] := by
    decide +kernel
  obtain ⟨f, hf, hplan⟩ := Option.bind_eq_some_iff.mp hplanned
  obtain ⟨plan, hok, hstatements⟩ := Option.map_eq_some_iff.mp hplan
  rw [hf, Option.map_some, Option.some.injEq, Prod.mk.injEq] at htaken
  exact ⟨f, plan, ⟨[], _, _, rfl, hf, by rw [htaken.1]; rfl⟩,
    Option.isNone_iff_eq_none.mp htaken.2, eq_ok_of_toOption hok, hstatements⟩

/-- Whoever has no friends is a result without the name. -/
theorem loners_unnamed : ∃ (f : FusedRun) (plan : Plan),
    f.ReadFrom ({} : Settings).fusion everyoneOrFriends friendsOrSelf ∧ f.leftover = none ∧
    f.run.plan {} topology {} = .ok plan ∧ ¬ ∀ s ∈ plan.statements, ∀ x ∈ friendsOrSelf.labels,
      ∃ key, s.terminal? = some key ∧ x ∈ ResultLabel.userNames key.labels := by
  obtain ⟨f, plan, hread, hwhole, hok, hstatements⟩ := plan_everyoneOrFriends
  refine ⟨f, plan, hread, hwhole, hok, fun hall => ?_⟩
  have hmem : (Phase.optional, some []) ∈ plan.statements.map (fun s => (s.phase,
      s.terminal?.map fun key => ResultLabel.userNames key.labels)) := by
    rw [hstatements]
    exact List.mem_cons_of_mem _ (List.mem_singleton_self _)
  obtain ⟨s, hs, heq⟩ := List.mem_map.mp hmem
  obtain ⟨key, hkey, hx⟩ := hall s hs "x" (List.mem_singleton_self _)
  rw [hkey, Option.map_some, Prod.mk.injEq, Option.some.injEq] at heq
  rw [heq.2] at hx
  cases hx

/-- Whoever has friends is not one. -/
theorem friends_named : ∃ (f : FusedRun) (plan : Plan),
    f.ReadFrom ({} : Settings).fusion everyoneOrFriends friendsOrSelf ∧ f.leftover = none ∧
    f.run.plan {} topology {} = .ok plan ∧ plan.statements.map Statement.phase = [.regular, .optional] ∧
    ∀ s ∈ plan.statements, ∃ key h, s.CarriesNames f.run friendsOrSelf key h := by
  obtain ⟨f, plan, hread, hwhole, hok, hstatements⟩ := plan_everyoneOrFriends
  have hplain : ∀ n ∈ everyoneOrFriends.steps, ∀ run, n.step ≠ .fused run := by
    intro n hn run
    rcases List.mem_cons.mp hn with rfl | hn
    · nofun
    · rw [List.mem_singleton.mp hn]
      nofun
  have hphases := congrArg (List.map Prod.fst) hstatements
  rw [List.map_map] at hphases
  exact ⟨f, plan, hread, hwhole, hok, hphases,
    (Traversal.terminal_names everyoneOrFriends hplain built _).2 hread hwhole nofun hok⟩

end People

end TraversalSql
