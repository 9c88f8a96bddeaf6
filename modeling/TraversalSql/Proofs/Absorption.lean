import TraversalSql.Proofs.Scanning

/-!
# What is entered is read to its end

Loops, optional parts and choices are looked through before the machine enters them, and the
machine is ready to take everything back when a step inside one cannot be read. It never does. The
checks let a body in only if every step of it can be read where it stands, and this stays so for
what is left of every open body, however deep, while the machine goes on.

So a run can only be refused a step of the chain itself. Such a step is unsupported, no run begins
at it, and it is still there when the whole chain is fused.
-/

set_option autoImplicit false

namespace TraversalSql

/-! ## 1. Refusals -/

/-- The error is an ordinary outcome of a check. -/
def FusionError.IsUnsupported (e : FusionError) : Prop :=
  ∃ obstacle step, e = .unsupported obstacle step

theorem checkOrder_unsupported {specs : List SortSpec} {e : FusionError}
    (h : checkOrder specs = .error e) : e.IsUnsupported := by
  simp only [checkOrder] at h
  split at h <;> cases h
  exact ⟨_, _, rfl⟩

theorem Loop.turns_unsupported {l : Loop} {limit : Nat} {fullText : Bool} {e : FusionError}
    (h : l.turns limit fullText = .error e) : e.IsUnsupported := by
  simp only [Loop.turns] at h
  split at h <;> cases h
  exact ⟨_, _, rfl⟩

theorem chosenBranch_unsupported {condition yes no : List StepNode} {e : FusionError}
    (h : chosenBranch condition yes no = .error e) : e.IsUnsupported := by
  simp only [chosenBranch] at h
  split at h
  · cases h
    exact ⟨_, _, rfl⟩
  · split at h <;> cases h
    exact ⟨_, _, rfl⟩

section

variable {rooted fullText : Bool} {e : FusionError}

mutual

theorem checkOptional_unsupported (steps : List StepNode)
    (h : checkOptional rooted fullText steps = .error e) : e.IsUnsupported := by
  match steps with
  | [] =>
    rw [checkOptional] at h
    cases h
    exact ⟨_, _, rfl⟩
  | ⟨step, labels⟩ :: rest =>
    rw [checkOptional] at h
    split at h
    · exact checkBody_unsupported _ _ rest h
    · cases h
      exact ⟨_, _, rfl⟩

theorem checkBody_unsupported (text : String) (position : Nat) (steps : List StepNode)
    (h : checkBody rooted fullText text position steps = .error e) : e.IsUnsupported := by
  match steps with
  | [] =>
    rw [checkBody] at h
    cases h
  | ⟨step, labels⟩ :: rest =>
    rw [checkBody] at h
    cases hi : checkInner rooted fullText text position rest.isEmpty step with
    | error e' =>
      rw [hi] at h
      cases h
      exact checkInner_unsupported _ _ _ step hi
    | ok u =>
      rw [hi] at h
      exact checkBody_unsupported _ _ rest h

theorem checkInner_unsupported (text : String) (position : Nat) (last : Bool) (step : Step)
    (h : checkInner rooted fullText text position last step = .error e) : e.IsUnsupported := by
  match step with
  | .move _ | .identity =>
    rw [checkInner] at h
    cases h
  | .has fs =>
    rw [checkInner] at h
    split at h <;> cases h
    exact ⟨_, _, rfl⟩
  | .order specs =>
    rw [checkInner] at h
    cases ho : checkOrder specs with
    | error e' =>
      rw [ho] at h
      cases h
      exact checkOrder_unsupported ho
    | ok u =>
      rw [ho] at h
      split at h <;> cases h
      exact ⟨_, _, rfl⟩
  | .range _ =>
    rw [checkInner] at h
    split at h <;> cases h
    exact ⟨_, _, rfl⟩
  | .optional body =>
    rw [checkInner] at h
    split at h
    · exact checkOptional_unsupported body h
    · cases h
      exact ⟨_, _, rfl⟩
  | .graph .. | .loop _ | .choose .. | .drop | .hasNext | .path | .tree | .interpreted _
  | .fused _ =>
    cases h
    exact ⟨_, _, rfl⟩

end

end

/-! ## 2. Bodies that can be read -/

/-- Every step can be read where it stands: it is simple, or an optional part at the end that
passes its check. -/
def Readable (rooted fullText : Bool) : List StepNode → Prop
  | [] => True
  | node :: rest =>
    (node.step.isSimple fullText rest.isEmpty
      ∨ ∃ inner, node.step = .optional inner ∧ rest.isEmpty = true
        ∧ checkOptional rooted fullText inner = .ok ())
      ∧ Readable rooted fullText rest

variable {rooted fullText : Bool} {o : FusionOptions}

theorem readable_of_checkBody {text : String} {position : Nat} {steps : List StepNode}
    (h : checkBody rooted fullText text position steps = .ok ()) :
    Readable rooted fullText steps := by
  induction steps generalizing position with
  | nil => trivial
  | cons node rest ih =>
    obtain ⟨step, names⟩ := node
    rw [checkBody] at h
    cases hi : checkInner rooted fullText text position rest.isEmpty step with
    | error e =>
      rw [hi] at h
      cases h
    | ok u =>
      rw [hi] at h
      exact ⟨checkInner_cases hi, ih h⟩

theorem readable_of_checkOptional {steps : List StepNode}
    (h : checkOptional rooted fullText steps = .ok ()) : Readable rooted fullText steps := by
  obtain ⟨m, names, rest, text, rfl, hrest⟩ := checkOptional_cases h
  exact ⟨.inl trivial, readable_of_checkBody hrest⟩

theorem readable_of_fitsLoop {steps : List StepNode}
    (h : ∀ node ∈ steps, node.step.fitsLoop fullText = true) :
    Readable rooted fullText steps := by
  induction steps with
  | nil => trivial
  | cons node rest ih =>
    obtain ⟨hnode, hrest⟩ := List.forall_mem_cons.mp h
    exact ⟨.inl (Step.isSimple_of_fitsLoop _ hnode), ih hrest⟩

/-- What is entered from the chain passed its check. -/
theorem OpenRun.readable_of_entered {run : OpenRun} {node : StepNode} {last : Bool}
    {kind : FrameKind} {body : List StepNode}
    (h : run.absorb o .top node last = .ok (.entered kind body)) :
    kind.isTop = false ∧ Readable run.rooted o.fullText body := by
  obtain ⟨step, names⟩ := node
  cases step <;> simp only [absorb] at h
  case loop l =>
    cases ht : l.turns o.maxTurns o.fullText with
    | error e =>
      rw [ht] at h
      cases h
    | ok n =>
      rw [ht] at h
      cases h
      exact ⟨rfl, readable_of_fitsLoop (Loop.turns_ok ht).2⟩
  case optional inner =>
    cases hc : checkOptional run.rooted o.fullText inner with
    | error e =>
      rw [hc] at h
      cases h
    | ok u =>
      rw [hc] at h
      cases h
      exact ⟨rfl, readable_of_checkOptional hc⟩
  case choose condition yes no =>
    cases hb : chosenBranch condition yes no with
    | error e =>
      rw [hb] at h
      cases h
    | ok branch =>
      rw [hb] at h
      cases hc : checkOptional run.rooted o.fullText branch with
      | error e =>
        simp only [bind, Except.bind, hc] at h
        cases h
      | ok u =>
        simp only [bind, Except.bind, hc] at h
        cases h
        exact ⟨rfl, readable_of_checkOptional hc⟩
  case has fs =>
    repeat' split at h
    all_goals cases h
  case order specs =>
    cases ho : checkOrder specs <;> rw [ho] at h <;> cases h
  case drop =>
    repeat' split at h
    all_goals cases h
  all_goals cases h

/-- What comes of the next step of an open body. -/
inductive Absorbed.Inside (rooted fullText : Bool) : Absorbed → Prop
  | consumed {run : OpenRun} {kind : FrameKind} (hrooted : run.rooted = rooted)
      (hkind : kind.isTop = false) : Inside rooted fullText (.consumed run kind)
  | entered {body : List StepNode} (h : Readable rooted fullText body) :
      Inside rooted fullText (.entered (.optional true) body)

theorem FrameKind.isTop_after {kind : FrameKind} (h : kind.isTop = false) (step : Step) :
    (kind.after step).isTop = false := by
  unfold after
  split
  · cases kind <;> first | rfl | cases h
  · exact h

/-- The next step of a body that can be read is read. -/
theorem OpenRun.absorb_inside (run : OpenRun) {kind : FrameKind} (hk : kind.isTop = false)
    {node : StepNode} {rest : List StepNode}
    (h : Readable run.rooted o.fullText (node :: rest)) :
    ∃ a, run.absorb o kind node rest.isEmpty = .ok a ∧ a.Inside run.rooted o.fullText := by
  obtain ⟨step, names⟩ := node
  obtain hsimple | ⟨inner, rfl, hlast, hc⟩ := h.1
  · let r : Reader := ⟨o, run.pathRequested, run.rooted, run.mutationListener⟩
    have hat : run.At r run.hops := ⟨rfl, rfl, rfl, rfl⟩
    obtain ⟨run', ha, hat'⟩ := hat.absorb hk hsimple names
    exact ⟨_, ha, .consumed hat'.rooted_eq (kind.isTop_after hk step)⟩
  · refine ⟨_, ?_, .entered (readable_of_checkOptional hc)⟩
    simp only [absorb, hk, hlast, hc]
    rfl

/-! ## 3. The machine -/

/-- An open body can be read from where it stands, and again from its start. -/
structure Frame.Sound (rooted fullText : Bool) (f : Frame) : Prop where
  nested : f.kind.isTop = false
  rest : Readable rooted fullText f.rest
  body : Readable rooted fullText f.body

namespace Machine

variable {m m' : Machine} {frame : Frame} {frames : List Frame}

/-- Every open body can be read. -/
def Sound (o : FusionOptions) (m : Machine) : Prop :=
  ∀ f ∈ m.frames, f.Sound m.run.rooted o.fullText

theorem Sound.of_frames_eq_nil (h : m.frames = []) : m.Sound o := by
  intro f hf
  rw [h] at hf
  cases hf

/-- Entering a body that can be read keeps all of them so. -/
theorem Sound.enter (h : m.Sound o) {kind : FrameKind} (hk : kind.isTop = false)
    {body : List StepNode} (hbody : Readable m.run.rooted o.fullText body)
    (labels : SortedSet String) : (m.enter kind body labels).Sound o := by
  have hrooted : (m.enter kind body labels).run.rooted = m.run.rooted := by
    unfold Machine.enter
    split <;> rfl
  intro f hf
  rw [hrooted]
  rcases List.mem_cons.mp hf with rfl | hf
  · exact ⟨hk, hbody, hbody⟩
  · exact h f hf

/-- What a step inside a composite may come to: it goes on with bodies that can be read, or the run
ends with the outermost composite. It neither moves along the chain nor gives up. -/
inductive Inside (o : FusionOptions) (m : Machine) : Machine ⊕ FusedRun → Prop
  | goesOn {m' : Machine} (hsound : m'.Sound o) (hchain : m'.chain = m.chain)
      (htaken : m'.taken = m.taken) : Inside o m (.inl m')
  | ends {frame : Frame} (hopen : m.frames = [frame]) (hrest : frame.rest = [])
      (run : OpenRun) : Inside o m (.inr ⟨⟨run.hops⟩, m.taken, none, none⟩)

section

variable (hf : m.frames = frame :: frames)
include hf

theorem Sound.innermost (h : m.Sound o) : frame.Sound m.run.rooted o.fullText :=
  h frame (hf ▸ List.mem_cons_self)

theorem Sound.below (h : m.Sound o) : ∀ f ∈ frames, f.Sound m.run.rooted o.fullText :=
  fun f hmem => h f (hf ▸ List.mem_cons_of_mem _ hmem)

variable (hrest : frame.rest = [])
include hrest

theorem Sound.close (h : m.Sound o) (hrooted : m'.run.rooted = m.run.rooted)
    (hchain : m'.chain = m.chain) (htaken : m'.taken = m.taken) (labels : SortedSet String)
    (closing : Bool) : Inside o m (m'.close labels frames closing) := by
  unfold Machine.close
  split
  · rename_i hend
    obtain rfl : frames = [] := List.isEmpty_iff.mp (Bool.and_eq_true_iff.mp hend).1
    simp only [finish, htaken]
    exact .ends hf hrest _
  · refine .goesOn (fun f hmem => ?_) hchain htaken
    rw [show (m'.run.label labels).rooted = m.run.rooted from hrooted]
    exact h.below hf f hmem

theorem Sound.endOfBody (h : m.Sound o) : Inside o m (m.endOfBody frame frames) := by
  have hframe := h.innermost hf
  unfold Machine.endOfBody
  split
  · rename_i turnsLeft emit controlFirst hk
    -- marking the hop that the turn ended at changes nothing that reading depends on
    have hmarked (m' : Machine) (hrooted : m'.run.rooted = m.run.rooted)
        (hchain : m'.chain = m.chain) (htaken : m'.taken = m.taken) :
        Inside o m (if turnsLeft > 1 then
            .inl { m' with frames := { frame with
              kind := .loop (turnsLeft - 1) emit controlFirst, rest := frame.body } :: frames }
          else m'.close frame.labels frames emit.isSome) := by
      split
      · refine .goesOn (fun f hmem => ?_) hchain htaken
        simp only [hrooted]
        rcases List.mem_cons.mp hmem with rfl | hmem
        · exact ⟨rfl, hframe.body, hframe.body⟩
        · exact h.below hf f hmem
      · exact h.close hf hrest hrooted hchain htaken _ _
    have hsame (emits : Bool) :
        let m' := if emits then { m with run := m.run.modify Hop.markEmit } else m
        m'.run.rooted = m.run.rooted ∧ m'.chain = m.chain ∧ m'.taken = m.taken := by
      cases emits <;> exact ⟨rfl, rfl, rfl⟩
    exact hmarked _ (hsame _).1 (hsame _).2.1 (hsame _).2.2
  · exact h.close hf hrest rfl rfl rfl _ _

end

/-- **Inside a composite every step is read.** -/
theorem Sound.inside (h : m.Sound o) (hf : m.frames = frame :: frames) :
    Inside o m (m.step o) := by
  have hframe := h.innermost hf
  have hread := hframe.rest
  simp only [step, hf]
  split
  · rename_i hrest
    exact h.endOfBody hf hrest
  · rename_i node rest hrest
    rw [hrest] at hread
    obtain ⟨a, ha, hinside⟩ := m.run.absorb_inside hframe.nested hread
    cases hinside with
    | consumed hrooted hkind =>
      simp only [readInner, ha]
      refine .goesOn (fun f hmem => ?_) rfl rfl
      simp only [hrooted]
      rcases List.mem_cons.mp hmem with rfl | hmem
      · exact ⟨hkind, hread.2, hframe.body⟩
      · exact h.below hf f hmem
    | entered hbody =>
      simp only [readInner, ha]
      have hsound : Sound o { m with frames := { frame with rest := rest } :: frames } := by
        intro f hmem
        rcases List.mem_cons.mp hmem with rfl | hmem
        · exact ⟨hframe.nested, hread.2, hframe.body⟩
        · exact h.below hf f hmem
      exact .goesOn (hsound.enter rfl hbody _) rfl rfl

/-- A step of the chain opens only what can be read. -/
theorem Sound.step (h : m.Sound o) (hs : m.step o = .inl m') : m'.Sound o := by
  cases hf : m.frames with
  | cons frame frames =>
    have hinside := h.inside hf
    rw [hs] at hinside
    cases hinside with
    | goesOn hsound => exact hsound
  | nil =>
    simp only [Machine.step, hf] at hs
    split at hs
    · cases hs
    · rename_i node rest hchain
      simp only [readTop] at hs
      split at hs
      · cases hs
        exact .of_frames_eq_nil hf
      · cases hs
      · cases hs
      · cases hs
      · rename_i kind body ha
        cases hs
        obtain ⟨hk, hbody⟩ := OpenRun.readable_of_entered ha
        exact (Sound.of_frames_eq_nil hf).enter hk hbody _
      · cases hs

/-- The machine comes from one state to another. -/
abbrev Reaches (o : FusionOptions) : Machine → Machine → Prop :=
  Relation.ReflTransGen fun m m' => m.step o = .inl m'

theorem Sound.reaches (h : m.Sound o) (hr : Reaches o m m') : m'.Sound o := by
  induction hr with
  | refl => exact h
  | tail _ hs ih => exact ih.step hs

/-- What is open is read to its end. The machine comes back to the chain where it left it, or the
run ends with the outermost composite; then nothing goes back and nothing stood in the way. -/
inductive ReadsOut (o : FusionOptions) (m : Machine) : Prop
  | back {m' : Machine} (hr : Reaches o m m') (hclosed : m'.frames = [])
      (hchain : m'.chain = m.chain) (htaken : m'.taken = m.taken)
  | ends {m' : Machine} {frame : Frame} {f : FusedRun} (hr : Reaches o m m')
      (hopen : m'.frames = [frame]) (hrest : frame.rest = []) (hend : m'.step o = .inr f)
      (hconsumed : f.consumed = m.taken) (hleft : f.leftover = none) (hobstacle : f.obstacle = none)

/-- A step inside a composite does not change what the machine comes to. -/
theorem ReadsOut.of_step (h : m'.ReadsOut o) (hs : m.step o = .inl m')
    (hchain : m'.chain = m.chain) (htaken : m'.taken = m.taken) : m.ReadsOut o := by
  cases h with
  | back hr hclosed hc ht => exact .back (.head hs hr) hclosed (hc.trans hchain) (ht.trans htaken)
  | ends hr hopen hrest hend hconsumed hleft hobstacle =>
    exact .ends (.head hs hr) hopen hrest hend (hconsumed.trans htaken) hleft hobstacle

theorem Sound.readsOut {m : Machine} (h : m.Sound o) (hopen : m.frames ≠ []) : m.ReadsOut o := by
  obtain ⟨frame, frames, hf⟩ := List.exists_cons_of_ne_nil hopen
  have hinside := h.inside hf
  cases hs : m.step o with
  | inr f =>
    rw [hs] at hinside
    cases hinside with
    | ends hone hrest run => exact .ends .refl hone hrest hs rfl rfl rfl
  | inl m' =>
    rw [hs] at hinside
    cases hinside with
    | goesOn hsound hchain htaken =>
      by_cases hclosed : m'.frames = []
      · exact .back (.single hs) hclosed hchain htaken
      · exact (hsound.readsOut hclosed).of_step hs hchain htaken
termination_by m.work
decreasing_by exact work_step hs

end Machine

/-! ## 4. Steps that are refused -/

namespace Reader

variable {r : Reader} {node : StepNode} {hops : List Hop} {e : FusionError}

/-- A step of the chain that is refused is unsupported, and no run begins at it. -/
theorem top_refused (h : r.top node hops = .endsBefore (some e)) :
    e.IsUnsupported ∧ node.step.startsRun = false := by
  obtain ⟨step, names⟩ := node
  cases step <;> simp only [top] at h
  case order specs =>
    split at h
    · cases h
    · rename_i ho
      cases h
      exact ⟨checkOrder_unsupported ho, rfl⟩
  case loop l =>
    split at h
    · split at h <;> cases h
    · rename_i ht
      cases h
      exact ⟨Loop.turns_unsupported ht, rfl⟩
  case optional body =>
    split at h
    · cases h
    · rename_i hc
      cases h
      exact ⟨checkOptional_unsupported body hc, rfl⟩
  case choose condition yes no =>
    split at h
    · cases h
    · rename_i hc
      cases h
      cases hb : chosenBranch condition yes no with
      | error e' =>
        rw [hb] at hc
        cases hc
        exact ⟨chosenBranch_unsupported hb, rfl⟩
      | ok branch =>
        rw [hb] at hc
        exact ⟨checkOptional_unsupported branch hc, rfl⟩
  case drop =>
    split at h <;> cases h
    exact ⟨⟨_, _, rfl⟩, rfl⟩
  case has fs =>
    repeat' split at h
    all_goals cases h
  all_goals cases h

/-- What a run was refused is the step behind it. -/
theorem chain_refused {steps : List StepNode} {taken : Nat}
    (h : (r.chain steps hops taken).obstacle = some e) :
    ∃ k node, (r.chain steps hops taken).consumed = taken + k ∧ steps[k]? = some node
      ∧ e.IsUnsupported ∧ node.step.startsRun = false := by
  induction steps generalizing hops taken with
  | nil => cases h
  | cons first rest ih =>
    rw [chain] at h ⊢
    cases ht : r.top first hops with
    | goesOn hops' =>
      rw [ht] at h
      obtain ⟨k, node, hconsumed, hnode, hrefused⟩ := ih h
      exact ⟨k + 1, node, by simp only [hconsumed]; omega, hnode, hrefused⟩
    | endsWith hops' leftover =>
      rw [ht] at h
      cases h
    | endsBefore obstacle =>
      rw [ht] at h
      obtain rfl : obstacle = some e := h
      exact ⟨0, first, rfl, rfl, top_refused ht⟩

end Reader

variable {listener : Bool} {node : StepNode} {rest : List StepNode} {f : FusedRun}
  {e : FusionError}

theorem fuseRun_refused (hf : fuseRun? o listener node rest = some f)
    (he : f.obstacle = some e) :
    ∃ n, rest[f.consumed - 1]? = some n ∧ e.IsUnsupported ∧ n.step.startsRun = false := by
  obtain ⟨hops, rfl⟩ := chain_of_fuseRun hf
  obtain ⟨k, n, hconsumed, hn, hrefused⟩ := Reader.chain_refused he
  refine ⟨n, ?_, hrefused⟩
  rw [hconsumed, Nat.add_sub_cancel_left]
  exact hn

/-! ## 5. Fallbacks -/

/-- The fallback is an ordinary outcome, and its step is one of the chain. -/
def Fallback.Stands (f : Fallback) (steps : List StepNode) : Prop :=
  f.reason.IsUnsupported ∧ ∃ n ∈ steps, n.step.text = f.step

theorem Fallback.Stands.mono {f : Fallback} {steps steps' : List StepNode} (h : f.Stands steps)
    (hs : steps ⊆ steps') : f.Stands steps' :=
  h.imp_right fun ⟨n, hn, htext⟩ => ⟨n, hs hn, htext⟩

/-- The step that the pass goes on with stays in the chain if no run begins at it. -/
theorem mem_fuseChain_of_not_starts {fallbacks : List Fallback} {position skip : Nat}
    {steps : List StepNode} {n : StepNode} (hn : steps[skip]? = some n)
    (hstart : n.step.startsRun = false) :
    n ∈ (fuseChain o listener fallbacks position skip steps).1 := by
  obtain ⟨hlt, hget⟩ := List.getElem?_eq_some_iff.mp hn
  rw [fuseChain_skip, List.drop_eq_getElem_cons hlt, hget, fuseChain,
    fuseRun_eq_none_iff.mpr hstart]
  exact List.mem_cons_self

/-- What is reported of a run is the step behind it. -/
theorem FusedRun.mem_report {position : Nat} {chain : List StepNode} {fallbacks : List Fallback}
    {b : Fallback} (h : b ∈ f.report position chain fallbacks) :
    b ∈ fallbacks ∨ f.obstacle = some b.reason ∧
      ∃ n, chain[f.consumed]? = some n ∧ n.step.text = b.step := by
  unfold FusedRun.report at h
  split at h
  · rename_i reason n hobstacle hn
    unfold TraversalSql.report at h
    split at h
    · exact .inl h
    · rcases List.mem_append.mp h with h | h
      · exact .inl h
      · rw [List.mem_singleton.mp h]
        exact .inr ⟨hobstacle, n, hn, rfl⟩
  · exact .inl h

theorem fuseChain_fallbacks (fallbacks : List Fallback) (position skip : Nat)
    (steps : List StepNode) :
    ∀ b ∈ (fuseChain o listener fallbacks position skip steps).2,
      b ∈ fallbacks ∨ b.Stands (fuseChain o listener fallbacks position skip steps).1 := by
  induction steps generalizing fallbacks position skip with
  | nil =>
    intro b hb
    rw [fuseChain] at hb
    exact .inl hb
  | cons node rest ih =>
    cases skip with
    | succ skip =>
      rw [fuseChain]
      exact ih fallbacks position skip
    | zero =>
      rw [fuseChain]
      cases hf : fuseRun? o listener node rest with
      | none =>
        intro b hb
        exact (ih fallbacks (position + 1) 0 b hb).imp_right fun h =>
          h.mono (List.subset_cons_self _ _)
      | some f =>
        intro b hb
        simp only at hb ⊢
        rcases ih _ _ _ b hb with hreport | hstands
        · rcases FusedRun.mem_report hreport with hold | ⟨hobstacle, n, hn, htext⟩
          · exact .inl hold
          · -- the step behind the run is the one that the pass goes on with
            obtain ⟨n', hn', hunsupported, hstart⟩ := fuseRun_refused hf hobstacle
            obtain ⟨k, -, hconsumed, -⟩ := fuseRun_takes hf
            rw [hconsumed, List.getElem?_cons_succ] at hn
            rw [hconsumed, Nat.add_sub_cancel, hn] at hn'
            obtain rfl := Option.some.inj hn'
            refine .inr ⟨hunsupported, n, List.mem_append_right _ ?_, htext⟩
            refine mem_fuseChain_of_not_starts ?_ hstart
            rw [hconsumed, Nat.add_sub_cancel]
            exact hn
        · exact .inr (hstands.mono (List.subset_append_right _ _))

/-- The machine passes through the state when the chain is fused. -/
def Traversal.Passes (t : Traversal) (o : FusionOptions) (m : Machine) : Prop :=
  ∃ node rest run, node :: rest <:+ t.steps
    ∧ OpenRun.start? node ((node :: rest).any fun n => n.step.isPathLike) t.mutationListener
      = some run
    ∧ Machine.Reaches o { run := run, chain := rest, taken := 1 } m

/-- **What is entered is read to its end.** When a chain is fused, no composite that was entered is
given up: the machine comes to its end and ends no run with an obstacle before. What is reported
are steps of the chain, unsupported, which are still there afterwards. -/
theorem Traversal.fuse_absorbs (t : Traversal) (o : FusionOptions) :
    (∀ m, t.Passes o m → m.frames ≠ [] →
      m.ReadsOut o ∧ ∀ f, m.step o = .inr f → f.obstacle = none)
    ∧ ∀ b ∈ (t.fuse o).fallbacks,
      (∃ obstacle step, b.reason = .unsupported obstacle step)
        ∧ ∃ n ∈ (t.fuse o).traversal.steps, n.step.text = b.step := by
  constructor
  · rintro m ⟨node, rest, run, -, -, hreach⟩ hopen
    have hsound : m.Sound o := (Machine.Sound.of_frames_eq_nil rfl).reaches hreach
    refine ⟨hsound.readsOut hopen, fun f hend => ?_⟩
    obtain ⟨frame, frames, hf⟩ := List.exists_cons_of_ne_nil hopen
    have hinside := hsound.inside hf
    rw [hend] at hinside
    cases hinside
    rfl
  · intro b hb
    rcases fuseChain_fallbacks [] 0 0 t.steps b hb with h | h
    · cases h
    · exact h

end TraversalSql
