import TraversalSql.Fusion.Machine
import TraversalSql.Proofs.Sorted

/-!
# What a chain says, read from left to right

The fusing machine has a stack of open composites, a countdown per loop, and a state to go back to.
This file says what a chain means without any of these: by recursion on the steps, each of which
changes a plain list of hops. A loop is its body read so many times, an optional part is its body
read once. That the machine computes this reading is the last theorem; it holds because the checks
let a composite in only if every step of its body can be read, so that nothing is ever taken back.
-/

set_option autoImplicit false

namespace TraversalSql

/-! ## 1. Hops -/

/-- Change the last hop. -/
def onLast (f : Hop → Hop) (hops : List Hop) : List Hop :=
  hops.dropLast ++ hops.getLast?.toList.map f

def named (names : SortedSet String) : List Hop → List Hop :=
  onLast fun h => h.addUserLabels names.toList

/-- The hop with the filters that it can carry. -/
def Hop.carrying (s : SortedFilters) (h : Hop) : Hop :=
  { h with
    labelPredicates := h.labelPredicates ++ s.labels
    idPredicates := h.idPredicates ++ s.ids
    filters := h.filters ++ s.properties }

namespace Hop

variable {h : Hop} {l : ResultLabel} {names : List String}

/-- An emitted hop has the flag and one label more, which no user can give. -/
theorem markEmit_eq (h : Hop) : h.markEmit
    = { h with emit := true, labels := h.labels.insert ⟨h.depth, "_emit", .emit⟩ } := rfl

theorem mem_labels_markEmit :
    l ∈ h.markEmit.labels ↔ l = ⟨h.depth, "_emit", .emit⟩ ∨ l ∈ h.labels :=
  SortedSet.mem_insert

/-- A named hop has a label more for each name, at its own depth, and is otherwise the same. -/
theorem addUserLabels_eq (h : Hop) (names : List String) : h.addUserLabels names
    = { h with labels := h.labels.insertAll (names.map fun name => ⟨h.depth, name, .user⟩) } := by
  unfold addUserLabels
  induction names generalizing h with
  | nil => rfl
  | cons name names ih =>
    rw [List.foldl_cons, ih]
    rfl

theorem mem_labels_addUserLabels : l ∈ (h.addUserLabels names).labels ↔
    (∃ name ∈ names, l = ⟨h.depth, name, .user⟩) ∨ l ∈ h.labels := by
  rw [addUserLabels_eq]
  simp only [SortedSet.mem_insertAll, List.mem_map, eq_comm]

end Hop

/-- What a reader knows before the first step. -/
structure Reader where
  options : FusionOptions
  /-- A path step follows, so every hop is asked for. -/
  pathRequested : Bool
  /-- The run starts at the graph. -/
  rooted : Bool
  mutationListener : Bool

namespace Reader

variable (r : Reader)

/-- A new hop with the names of its step; without any, it is labelled for a path step. -/
def hop (kind : HopKind) (depth : Nat) (names : SortedSet String) : Hop :=
  let fresh : Hop := { kind := kind, depth := depth }
  if names.isEmpty then
    if r.pathRequested then fresh.addLabel Hop.pathLabel .path else fresh
  else fresh.addUserLabels names.toList

/-- A new hop has nothing but its labels: one for each name, or else the one of a path step. -/
theorem hop_eq (kind : HopKind) (depth : Nat) (names : SortedSet String) :
    r.hop kind depth names =
      { kind := kind, depth := depth
        labels :=
          if names.isEmpty then
            if r.pathRequested then SortedSet.insert ∅ ⟨depth, "_path", .path⟩ else ∅
          else .ofList (names.toList.map fun name => ⟨depth, name, .user⟩) } := by
  unfold hop
  split
  · split <;> rfl
  · exact Hop.addUserLabels_eq _ _

/-! ## 2. Bodies of composites -/

mutual

/-- The hops after all steps of a body; `mark` is put on every new hop. -/
def all (mark : Hop → Hop) : List StepNode → List Hop → List Hop
  | [], hops => hops
  | ⟨step, names⟩ :: rest, hops => all mark rest (one mark names step hops)

/-- The hops after one step with its names. -/
def one (mark : Hop → Hop) (names : SortedSet String) : Step → List Hop → List Hop
  | .move m, hops => hops ++ [mark (r.hop (.move m) hops.length names)]
  | .has fs, hops =>
    named names (onLast (Hop.carrying (.ofFilters r.options.fullText fs)) hops)
  | .order specs, hops => named names (onLast (fun h => { h with order := h.order ++ specs }) hops)
  | .range slice, hops => named names (onLast (fun h => { h with range := some slice }) hops)
  | .identity, hops => named names hops
  | .optional body, hops => named names (part body hops)
  | _, hops => hops

/-- The hops after an optional part: its first move opens the optional join. -/
def part : List StepNode → List Hop → List Hop
  | [], hops => hops
  | ⟨step, names⟩ :: rest, hops =>
    all id rest (one (fun h => { h with leftJoin := true }) names step hops)

end

/-- The last hop of a turn is emitted, with `left` turns to come: where the loop emits behind its
body, after every turn, and where it emits in front of it, if another turn starts there. -/
def emitsTurn (l : Loop) (left : Nat) : Bool :=
  match l.emit.map Emit.position with
  | some .after => true
  | some .before => left > 0
  | none => false

/-- The hops after so many turns of a loop. -/
def turns (l : Loop) : Nat → List Hop → List Hop
  | 0, hops => hops
  | left + 1, hops =>
    let hops := r.all (fun h => { h with untilFirst := l.controlFirst }) l.body hops
    turns l left (if emitsTurn l left then onLast Hop.markEmit hops else hops)

/-- The hops after a loop. One that emits in front of its body emits what it starts from. -/
def loop (l : Loop) (n : Nat) (hops : List Hop) : List Hop :=
  r.turns l n (if l.emit.map Emit.position = some .before then onLast Hop.markEmit hops else hops)

/-! ## 3. Chains -/

/-- What becomes of a run at a step of the chain. -/
inductive Outcome where
  | goesOn (hops : List Hop)
  /-- The step is the last; a part of it may go back into the chain. -/
  | endsWith (hops : List Hop) (leftover : Option StepNode)
  /-- The step is not part of the run; it may have been tried. -/
  | endsBefore (obstacle : Option FusionError)

def top (node : StepNode) (hops : List Hop) : Outcome :=
  match node.step with
  | .move _ | .identity => .goesOn (r.one id node.labels node.step hops)
  | .has fs =>
    let s := SortedFilters.ofFilters r.options.fullText fs
    if s.isComplete then .goesOn (r.one id node.labels node.step hops)
    else if s.isEmpty then .endsBefore none
    else .endsWith (onLast (Hop.carrying s) hops) (some ⟨.has s.remaining, node.labels⟩)
  | .order specs =>
    match checkOrder specs with
    | .ok _ => .goesOn (r.one id node.labels node.step hops)
    | .error e => .endsBefore (some e)
  | .range _ => .endsWith (r.one id node.labels node.step hops) none
  | .loop l =>
    match l.turns r.options.maxTurns r.options.fullText with
    | .ok n =>
      let hops := named node.labels (r.loop l n hops)
      if l.emit.isSome then .endsWith hops none else .goesOn hops
    | .error e => .endsBefore (some e)
  | .optional body =>
    match checkOptional r.rooted r.options.fullText body with
    | .ok _ => .endsWith (named node.labels (r.part body hops)) none
    | .error e => .endsBefore (some e)
  | .choose condition yes no =>
    match chosenBranch condition yes no >>= checkOptional r.rooted r.options.fullText with
    | .ok _ => .endsWith (named node.labels (r.part yes hops)) none
    | .error e => .endsBefore (some e)
  | .drop =>
    if r.mutationListener then .endsBefore (some (.unsupported .mutationListener node.step.text))
    else .endsWith (onLast (fun h => { h with drop := true }) hops) none
  | _ => .endsBefore none

/-- The chain behind the first step, with the hops and the number of steps taken so far. -/
def chain : List StepNode → List Hop → Nat → FusedRun
  | [], hops, taken => ⟨⟨hops⟩, taken, none, none⟩
  | node :: rest, hops, taken =>
    match r.top node hops with
    | .goesOn hops => chain rest hops (taken + 1)
    | .endsWith hops leftover => ⟨⟨hops⟩, taken + 1, leftover, none⟩
    | .endsBefore obstacle => ⟨⟨hops⟩, taken, none, obstacle⟩

/-- The hops of the first step: a root with its ids, or the incoming root with the first move. -/
def start? (node : StepNode) : Option (List Hop) :=
  match node.step with
  | .graph kind ids =>
    some [{ r.hop (.graphRoot kind) 0 node.labels with
      idPredicates := match ids with
        | [] => []
        | [id] => [.compare .eq id]
        | ids => [.within ids] }]
  | .move m =>
    some [{ kind := .incomingRoot m.source, depth := 0 }, r.hop (.move m) 1 node.labels]
  | _ => none

def of (o : FusionOptions) (mutationListener : Bool) (node : StepNode) (rest : List StepNode) :
    Reader where
  options := o
  pathRequested := (node :: rest).any fun n => n.step.isPathLike
  rooted := match node.step with
    | .graph .. => true
    | _ => false
  mutationListener := mutationListener

end Reader

/-- Read a run from the front of a chain, if its first step opens one. -/
def readRun? (o : FusionOptions) (mutationListener : Bool) (node : StepNode)
    (rest : List StepNode) : Option FusedRun :=
  let r := Reader.of o mutationListener node rest
  (r.start? node).map fun hops => r.chain rest hops 1

/-! ## 4. Runs of the machine as lists of hops -/

/-- A run holds these hops and was opened with what the reader knows. -/
structure OpenRun.At (run : OpenRun) (r : Reader) (hops : List Hop) : Prop where
  hops_eq : run.hops = hops
  path_eq : run.pathRequested = r.pathRequested
  rooted_eq : run.rooted = r.rooted
  listener_eq : run.mutationListener = r.mutationListener

theorem onLast_concat (f : Hop → Hop) (hops : List Hop) (h : Hop) :
    onLast f (hops ++ [h]) = hops ++ [f h] := by
  simp [onLast]

namespace OpenRun

theorem hops_modify (run : OpenRun) (f : Hop → Hop) :
    (run.modify f).hops = onLast f run.hops := by
  simp only [hops, modify, List.reverse_cons, onLast_concat]

theorem freshHop_eq (r : Reader) (kind : HopKind) (depth : Nat) (names : SortedSet String) :
    freshHop kind depth names r.pathRequested = r.hop kind depth names := by
  simp only [freshHop, Reader.hop]
  cases hn : names.isEmpty with
  | true =>
    have hl : names.toList = [] := by simpa [SortedSet.isEmpty] using hn
    simp [hl, Hop.addUserLabels]
  | false => simp

namespace At

variable {run : OpenRun} {r : Reader} {hops : List Hop}

theorem modify (h : run.At r hops) (f : Hop → Hop) : (run.modify f).At r (onLast f hops) :=
  ⟨by rw [hops_modify, h.hops_eq], h.path_eq, h.rooted_eq, h.listener_eq⟩

theorem label (h : run.At r hops) (names : SortedSet String) :
    (run.label names).At r (named names hops) :=
  h.modify _

theorem attach (h : run.At r hops) (s : SortedFilters) :
    (run.attach s).At r (onLast (Hop.carrying s) hops) :=
  h.modify _

theorem emitting (h : run.At r hops) (emits : Bool) :
    (if emits then run.modify Hop.markEmit else run).At r
      (if emits then onLast Hop.markEmit hops else hops) := by
  cases emits with
  | true => exact h.modify Hop.markEmit
  | false => exact h

theorem push (h : run.At r hops) (kind : HopKind) (names : SortedSet String) :
    (run.push kind names).At r (hops ++ [r.hop kind hops.length names]) := by
  have hlen : run.earlier.length + 1 = hops.length := by
    rw [← h.hops_eq, OpenRun.hops, List.length_reverse, List.length_cons]
  refine ⟨?_, h.path_eq, h.rooted_eq, h.listener_eq⟩
  rw [← hlen, ← freshHop_eq, ← h.path_eq, ← h.hops_eq]
  simp only [OpenRun.push, OpenRun.hops, List.reverse_cons]

end At

end OpenRun

/-! ## 5. Steps inside a composite -/

/-- The step can be read anywhere in a composite without opening another one. -/
def Step.isSimple (fullText last : Bool) : Step → Prop
  | .move _ | .identity => True
  | .has fs => allCarried fullText fs = true
  | .order specs => checkOrder specs = .ok ()
  | .range _ => last = true
  | _ => False

theorem Step.isSimple_of_fitsLoop {fullText : Bool} {step : Step} (last : Bool)
    (h : step.fitsLoop fullText = true) : step.isSimple fullText last := by
  cases step <;> simp_all [Step.fitsLoop, Step.isSimple]

/-- A loop that is unrolled has a turn, and its body only simple steps. -/
theorem Loop.turns_ok {l : Loop} {limit n : Nat} {fullText : Bool}
    (h : l.turns limit fullText = .ok n) :
    0 < n ∧ ∀ node ∈ l.body, node.step.fitsLoop fullText = true := by
  have hn := Machine.turns_eq h
  have hnone : l.obstacle? limit fullText = none := by
    simp only [Loop.turns] at h
    split at h
    · cases h
    · assumption
  simp only [Loop.obstacle?] at hnone
  repeat' split at hnone
  all_goals first | cases hnone | skip
  rename_i _ _ _ hzero _ _
  refine ⟨by omega, fun node hnode => ?_⟩
  rw [Option.map_eq_none_iff, List.find?_eq_none] at hnone
  simpa using hnone node hnode

theorem chosenBranch_ok {condition yes no branch : List StepNode}
    (h : chosenBranch condition yes no = .ok branch) : branch = yes := by
  simp only [chosenBranch] at h
  split at h
  · cases h
  · split at h
    · cases h
    · cases h
      rfl

/-- An optional part that passes its check starts with a move. -/
theorem checkOptional_cases {rooted fullText : Bool} {steps : List StepNode}
    (h : checkOptional rooted fullText steps = .ok ()) :
    ∃ (m : Move) (names : SortedSet String) (rest : List StepNode) (text : String),
      steps = ⟨.move m, names⟩ :: rest ∧ checkBody rooted fullText text 1 rest = .ok () := by
  cases steps with
  | nil =>
    rw [checkOptional] at h
    cases h
  | cons node rest =>
    obtain ⟨step, names⟩ := node
    rw [checkOptional] at h
    split at h
    · rename_i hmove
      cases step with
      | move m => exact ⟨m, names, rest, _, rfl, h⟩
      | _ => cases hmove
    · cases h

/-- A step behind the first is simple, or an optional part at the end. -/
theorem checkInner_cases {rooted fullText last : Bool} {text : String} {position : Nat}
    {step : Step} (h : checkInner rooted fullText text position last step = .ok ()) :
    step.isSimple fullText last
      ∨ ∃ inner : List StepNode, step = .optional inner ∧ last = true
        ∧ checkOptional rooted fullText inner = .ok () := by
  cases step with
  | move m => exact .inl trivial
  | identity => exact .inl trivial
  | has fs =>
    rw [checkInner] at h
    split at h
    · rename_i hfs
      exact .inl hfs
    · cases h
  | order specs =>
    rw [checkInner] at h
    cases ho : checkOrder specs with
    | error e => simp [ho, bind, Except.bind] at h
    | ok u => exact .inl ho
  | range slice =>
    rw [checkInner] at h
    split at h
    · rename_i hl
      exact .inl (Bool.and_eq_true_iff.mp hl).1
    · cases h
  | optional inner =>
    rw [checkInner] at h
    split at h
    · rename_i hl
      exact .inr ⟨inner, rfl, hl, h⟩
    · cases h
  | _ => simp [checkInner] at h

def FrameKind.after (kind : FrameKind) (step : Step) : FrameKind :=
  if step.isMove then kind.moved else kind

/-- Reading a simple step of a body is what the reader does. -/
theorem OpenRun.At.absorb {run : OpenRun} {r : Reader} {hops : List Hop} (h : run.At r hops)
    {kind : FrameKind} (hk : kind.isTop = false) {step : Step} {last : Bool}
    (hs : step.isSimple r.options.fullText last) (names : SortedSet String) :
    ∃ run' : OpenRun,
      run.absorb r.options kind ⟨step, names⟩ last = .ok (.consumed run' (kind.after step))
        ∧ run'.At r (r.one kind.mark names step hops) := by
  cases step with
  | move m =>
    refine ⟨_, rfl, ?_⟩
    rw [Reader.one, ← onLast_concat]
    exact (h.push (.move m) names).modify kind.mark
  | has fs =>
    have hs : (SortedFilters.ofFilters r.options.fullText fs).isComplete = true := hs
    refine ⟨(run.attach (.ofFilters r.options.fullText fs)).label names, ?_, ?_⟩
    · simp only [OpenRun.absorb]
      rw [if_pos hs]
      rfl
    · rw [Reader.one]
      exact (h.attach _).label names
  | order specs =>
    have hs : checkOrder specs = .ok () := hs
    refine ⟨(run.modify fun h => { h with order := h.order ++ specs }).label names, ?_, ?_⟩
    · simp only [OpenRun.absorb, hs]
      rfl
    · rw [Reader.one]
      exact (h.modify _).label names
  | range slice =>
    have hs : last = true := hs
    refine ⟨(run.modify fun h => { h with range := some slice }).label names, ?_, ?_⟩
    · simp only [OpenRun.absorb, hk, hs]
      rfl
    · rw [Reader.one]
      exact (h.modify _).label names
  | identity =>
    refine ⟨run.label names, rfl, ?_⟩
    rw [Reader.one]
    exact h.label names
  | _ => exact hs.elim

namespace Machine

variable {o : FusionOptions}

theorem result_of_step {m m' : Machine} (h : m.step o = .inl m') : m.result o = m'.result o := by
  rw [result]
  split
  · rename_i next hn
    rw [h] at hn
    cases hn
    rfl
  · rename_i run hn
    rw [h] at hn
    cases hn

theorem result_of_end {m : Machine} {run : FusedRun} (h : m.step o = .inr run) :
    m.result o = run := by
  rw [result]
  split
  · rename_i next hn
    rw [h] at hn
    cases hn
  · rename_i run' hn
    rw [h] at hn
    cases hn
    rfl

/-- The machine with another run and other open composites. -/
def on (m : Machine) (run : OpenRun) (frames : List Frame) : Machine :=
  { m with run := run, frames := frames }

end Machine

/-- From `frame` as the innermost composite and these hops, a machine comes to `frame'` and
`hops'`, whatever else it holds. -/
def Reader.Reads (r : Reader) (frame : Frame) (hops : List Hop) (frame' : Frame)
    (hops' : List Hop) : Prop :=
  ∀ (m : Machine) (run : OpenRun) (frames : List Frame), run.At r hops →
    ∃ run' : OpenRun, run'.At r hops'
      ∧ (m.on run (frame :: frames)).result r.options
        = (m.on run' (frame' :: frames)).result r.options

namespace Reader

variable {r : Reader} {hops hops₁ hops₂ : List Hop} {frame frame₁ frame₂ : Frame}
  {kind : FrameKind} {body rest : List StepNode} {names labels : SortedSet String}

theorem Reads.refl : r.Reads frame hops frame hops :=
  fun _ run _ h => ⟨run, h, rfl⟩

theorem Reads.trans (h₁ : r.Reads frame hops frame₁ hops₁)
    (h₂ : r.Reads frame₁ hops₁ frame₂ hops₂) : r.Reads frame hops frame₂ hops₂ := by
  intro m run frames h
  obtain ⟨run₁, hrun₁, e₁⟩ := h₁ m run frames h
  obtain ⟨run₂, hrun₂, e₂⟩ := h₂ m run₁ frames hrun₁
  exact ⟨run₂, hrun₂, e₁.trans e₂⟩

theorem reads_simple (kind : FrameKind) (hk : kind.isTop = false) {step : Step}
    (hs : step.isSimple r.options.fullText rest.isEmpty) :
    r.Reads ⟨kind, body, ⟨step, names⟩ :: rest, labels⟩ hops
      ⟨kind.after step, body, rest, labels⟩ (r.one kind.mark names step hops) := by
  intro m run frames h
  obtain ⟨run', ha, hrun'⟩ := h.absorb hk hs names
  refine ⟨run', hrun', Machine.result_of_step ?_⟩
  simp only [Machine.step, Machine.on, Machine.readInner, ha]

/-! ## 6. Bodies of composites -/

/-- The body of a loop, read once. -/
theorem reads_turn {left : Nat} {emit : Option EmitPosition} {first : Bool}
    (hs : ∀ n ∈ rest, n.step.fitsLoop r.options.fullText = true) :
    r.Reads ⟨.loop left emit first, body, rest, labels⟩ hops
      ⟨.loop left emit first, body, [], labels⟩
      (r.all (fun h => { h with untilFirst := first }) rest hops) := by
  induction rest generalizing hops with
  | nil =>
    rw [Reader.all]
    exact .refl
  | cons node rest ih =>
    obtain ⟨step, names⟩ := node
    have hn := Step.isSimple_of_fitsLoop rest.isEmpty (hs _ (List.mem_cons_self ..))
    have hone : r.Reads ⟨.loop left emit first, body, ⟨step, names⟩ :: rest, labels⟩ hops
        ⟨.loop left emit first, body, rest, labels⟩
        (r.one (fun h => { h with untilFirst := first }) names step hops) := by
      have hkind : (FrameKind.loop left emit first).after step = .loop left emit first := by
        simp [FrameKind.after, FrameKind.moved]
      have h := @reads_simple r hops body rest names labels (.loop left emit first) rfl step hn
      rwa [hkind] at h
    rw [Reader.all]
    exact hone.trans (ih fun n hn => hs n (List.mem_cons_of_mem _ hn))

/-- An optional part at the end of another one: its body, and its names at the hop it ends at. -/
theorem reads_nested {inner : List StepNode} {hops' : List Hop}
    (hc : checkOptional r.rooted r.options.fullText inner = .ok ())
    (h : r.Reads ⟨.optional true, inner, inner, names⟩ hops ⟨.optional false, inner, [], names⟩
      hops') :
    r.Reads ⟨.optional false, body, [⟨.optional inner, names⟩], labels⟩ hops
      ⟨.optional false, body, [], labels⟩ (named names hops') := by
  intro m run frames hrun
  let outer : Frame := ⟨.optional false, body, [], labels⟩
  have henter : (m.on run (⟨.optional false, body, [⟨.optional inner, names⟩], labels⟩
        :: frames)).step r.options
      = .inl (m.on run (⟨.optional true, inner, inner, names⟩ :: outer :: frames)) := by
    have ha : run.absorb r.options (.optional false) ⟨.optional inner, names⟩ true
        = .ok (.entered (.optional true) inner) := by
      simp only [OpenRun.absorb, hrun.rooted_eq, hc]
      rfl
    simp only [Machine.step, Machine.on, Machine.readInner, List.isEmpty_nil, ha, Machine.enter,
      outer]
  obtain ⟨run', hrun', e⟩ := h m run (outer :: frames) hrun
  -- an inner part does not end the run: the level below is still open
  have hclose : (m.on run' (⟨.optional false, inner, [], names⟩ :: outer :: frames)).step r.options
      = .inl (m.on (run'.label names) (outer :: frames)) := rfl
  refine ⟨run'.label names, hrun'.label names, ?_⟩
  rw [Machine.result_of_step henter, e, Machine.result_of_step hclose]

mutual

theorem reads_part (steps body : List StepNode) (labels : SortedSet String) (hops : List Hop)
    (h : checkOptional r.rooted r.options.fullText steps = .ok ()) :
    r.Reads ⟨.optional true, body, steps, labels⟩ hops ⟨.optional false, body, [], labels⟩
      (r.part steps hops) := by
  obtain ⟨m, names, rest, text, rfl, hrest⟩ := checkOptional_cases h
  rw [Reader.part]
  have hfirst := @reads_simple r hops body rest names labels (.optional true) rfl (.move m) trivial
  exact hfirst.trans (reads_rest rest body labels _ hrest)
termination_by sizeOf steps

theorem reads_rest (steps body : List StepNode) (labels : SortedSet String) (hops : List Hop)
    {text : String} {position : Nat}
    (h : checkBody r.rooted r.options.fullText text position steps = .ok ()) :
    r.Reads ⟨.optional false, body, steps, labels⟩ hops ⟨.optional false, body, [], labels⟩
      (r.all id steps hops) := by
  match steps with
  | [] =>
    rw [Reader.all]
    exact .refl
  | ⟨step, names⟩ :: rest =>
    rw [checkBody] at h
    cases hi : checkInner r.rooted r.options.fullText text position rest.isEmpty step with
    | error e => simp [hi, bind, Except.bind] at h
    | ok u =>
      simp only [hi, bind, Except.bind] at h
      rw [Reader.all]
      refine Reads.trans ?_ (reads_rest rest body labels _ h)
      -- the one step that is not simple is an optional part, and then nothing stands behind it
      rcases checkInner_cases hi with hs | ⟨inner, rfl, hlast, hin⟩
      · have hone := @reads_simple r hops body rest names labels (.optional false) rfl step hs
        have hkind : (FrameKind.optional false).after step = .optional false := by
          simp [FrameKind.after, FrameKind.moved]
        rwa [hkind] at hone
      · obtain rfl : rest = [] := List.isEmpty_iff.mp hlast
        rw [Reader.one]
        exact reads_nested hin (reads_part inner inner names hops hin)
termination_by sizeOf steps

end

theorem step_turn_end (l : Loop) (left : Nat) (m : Machine) (run : OpenRun)
    (labels : SortedSet String) (o : FusionOptions) :
    (m.on run [⟨.loop (left + 1) (l.emit.map Emit.position) l.controlFirst, l.body, [],
        labels⟩]).step o
      = (let run := if emitsTurn l left then run.modify Hop.markEmit else run
         if left = 0 then
          if l.emit.isSome then .inr (m.on (run.label labels) []).finish
          else .inl (m.on (run.label labels) [])
         else .inl (m.on run [⟨.loop left (l.emit.map Emit.position) l.controlFirst, l.body,
          l.body, labels⟩])) := by
  obtain ⟨body, times, stopWhen, emit, controlFirst⟩ := l
  cases left with
  | zero =>
    cases emit with
    | none => rfl
    | some e =>
      obtain ⟨position, condition⟩ := e
      cases position <;> rfl
  | succ left =>
    cases emit with
    | none => rfl
    | some e =>
      obtain ⟨position, condition⟩ := e
      cases position <;> rfl

/-- All turns of a loop of the chain. Behind the last one the names of the loop go to the hop it
ended at, and the run ends there if the loop emits. -/
theorem reads_turns (l : Loop) (hs : ∀ n ∈ l.body, n.step.fitsLoop r.options.fullText = true)
    (labels : SortedSet String) (left : Nat) (m : Machine) {run : OpenRun} {hops : List Hop}
    (h : run.At r hops) :
    ∃ run' : OpenRun, run'.At r (named labels (r.turns l (left + 1) hops))
      ∧ (m.on run [⟨.loop (left + 1) (l.emit.map Emit.position) l.controlFirst, l.body, l.body,
          labels⟩]).result r.options
        = if l.emit.isSome then (m.on run' []).finish else (m.on run' []).result r.options := by
  induction left generalizing run hops with
  | zero =>
    obtain ⟨run₁, h₁, e₁⟩ := reads_turn hs m run [] h
    have h₂ := h₁.emitting (emitsTurn l 0)
    refine ⟨_, h₂.label labels, e₁.trans ?_⟩
    have hstep := step_turn_end l 0 m run₁ labels r.options
    simp only [if_pos] at hstep
    cases he : l.emit.isSome with
    | true => 
      rw [he] at hstep
      exact Machine.result_of_end hstep
    | false => 
      rw [he] at hstep
      exact Machine.result_of_step hstep
  | succ left ih =>
    obtain ⟨run₁, h₁, e₁⟩ := reads_turn hs m run [] h
    have hstep := step_turn_end l (left + 1) m run₁ labels r.options
    obtain ⟨run₂, h₂, e₂⟩ := ih (h₁.emitting (emitsTurn l (left + 1)))
    exact ⟨run₂, h₂, e₁.trans ((Machine.result_of_step hstep).trans e₂)⟩

/-! ## 7. Chains -/

/-- The machine stands on the chain, with `steps` before it and `taken` steps behind it. -/
structure Stands (r : Reader) (m : Machine) (steps : List StepNode) (taken : Nat)
    (hops : List Hop) : Prop where
  run_at : m.run.At r hops
  frames_eq : m.frames = []
  chain_eq : m.chain = steps
  taken_eq : m.taken = taken

/-- What a machine comes to, if the reader says this of the step before it. -/
def Outcome.Holds (r : Reader) (m : Machine) (rest : List StepNode) (taken : Nat)
    (hops : List Hop) : Outcome → Prop
  | .goesOn hops' => ∃ m' : Machine, r.Stands m' rest (taken + 1) hops'
      ∧ m.result r.options = m'.result r.options
  | .endsWith hops' leftover => m.result r.options = ⟨⟨hops'⟩, taken + 1, leftover, none⟩
  | .endsBefore obstacle => m.result r.options = ⟨⟨hops⟩, taken, none, obstacle⟩

section

variable {m : Machine} {node : StepNode} {taken : Nat}

theorem Stands.step_eq (h : r.Stands m (node :: rest) taken hops) (o : FusionOptions) :
    m.step o = m.readTop o node rest := by
  simp only [Machine.step, h.frames_eq, h.chain_eq]

theorem Stands.consumed (h : r.Stands m (node :: rest) taken hops) {run : OpenRun}
    {kind : FrameKind} {hops' : List Hop}
    (ha : m.run.absorb r.options .top node rest.isEmpty = .ok (.consumed run kind))
    (hrun : run.At r hops') : (Outcome.goesOn hops').Holds r m rest taken hops := by
  refine ⟨{ m with run := run, chain := rest, taken := m.taken + 1 },
    ⟨hrun, h.frames_eq, rfl, congrArg (· + 1) h.taken_eq⟩, Machine.result_of_step ?_⟩
  rw [h.step_eq]
  simp only [Machine.readTop, ha]

theorem Stands.ended (h : r.Stands m (node :: rest) taken hops) {run : OpenRun}
    {hops' : List Hop}
    (ha : m.run.absorb r.options .top node rest.isEmpty = .ok (.ended run))
    (hrun : run.At r hops') : (Outcome.endsWith hops' none).Holds r m rest taken hops := by
  refine Machine.result_of_end ?_
  rw [h.step_eq]
  simp only [Machine.readTop, ha, Machine.finish, hrun.hops_eq, h.taken_eq]

theorem Stands.leftover (h : r.Stands m (node :: rest) taken hops) {run : OpenRun}
    {left : StepNode} {hops' : List Hop}
    (ha : m.run.absorb r.options .top node rest.isEmpty = .ok (.leftover run left))
    (hrun : run.At r hops') : (Outcome.endsWith hops' (some left)).Holds r m rest taken hops := by
  refine Machine.result_of_end ?_
  rw [h.step_eq]
  simp only [Machine.readTop, ha, Machine.finish, hrun.hops_eq, h.taken_eq]

theorem Stands.stopped (h : r.Stands m (node :: rest) taken hops)
    (ha : m.run.absorb r.options .top node rest.isEmpty = .ok .stopped) :
    (Outcome.endsBefore none).Holds r m rest taken hops := by
  refine Machine.result_of_end ?_
  rw [h.step_eq]
  simp only [Machine.readTop, ha, Machine.finish, h.run_at.hops_eq, h.taken_eq]

theorem Stands.refused (h : r.Stands m (node :: rest) taken hops) {e : FusionError}
    (ha : m.run.absorb r.options .top node rest.isEmpty = .error e) :
    (Outcome.endsBefore (some e)).Holds r m rest taken hops := by
  refine Machine.result_of_end ?_
  rw [h.step_eq]
  simp only [Machine.readTop, ha, Machine.giveUp, h.frames_eq, Machine.finish, h.run_at.hops_eq,
    h.taken_eq]

theorem Stands.entered (h : r.Stands m (node :: rest) taken hops) {kind : FrameKind}
    {body : List StepNode}
    (ha : m.run.absorb r.options .top node rest.isEmpty = .ok (.entered kind body)) :
    ∃ m' : Machine, r.Stands m' rest (taken + 1) hops
      ∧ m.result r.options = (m'.enter kind body node.labels).result r.options := by
  refine ⟨{ m with chain := rest, taken := m.taken + 1, saved := some (m.run, m.taken) },
    ⟨h.run_at, h.frames_eq, rfl, congrArg (· + 1) h.taken_eq⟩, Machine.result_of_step ?_⟩
  rw [h.step_eq]
  simp only [Machine.readTop, ha]

/-- An optional part of the chain ends the run. -/
theorem Stands.optional (h : r.Stands m (node :: rest) taken hops) {body : List StepNode}
    (ha : m.run.absorb r.options .top node rest.isEmpty = .ok (.entered (.optional true) body))
    (hc : checkOptional r.rooted r.options.fullText body = .ok ()) :
    (Outcome.endsWith (named node.labels (r.part body hops)) none).Holds r m rest taken hops := by
  obtain ⟨m', hm', e⟩ := h.entered ha
  obtain ⟨run', hrun', e'⟩ := reads_part body body node.labels hops hc m' m'.run [] hm'.run_at
  have hrun' := hrun'.label node.labels
  have henter : m'.enter (.optional true) body node.labels
      = m'.on m'.run [⟨.optional true, body, body, node.labels⟩] := by
    simp only [Machine.enter, Machine.on, hm'.frames_eq]
  have hclose : (m'.on run' [⟨.optional false, body, [], node.labels⟩]).step r.options
      = .inr (m'.on (run'.label node.labels) []).finish := rfl
  show m.result r.options = _
  rw [e, henter, e', Machine.result_of_end hclose]
  simp only [Machine.finish, Machine.on, hrun'.hops_eq, hm'.taken_eq]

/-- A loop that emits its input marks the hop it starts from. -/
theorem Stands.enter_loop {steps : List StepNode} (h : r.Stands m steps taken hops) (l : Loop)
    (n : Nat) (labels : SortedSet String) :
    ∃ run : OpenRun,
      run.At r (if l.emit.map Emit.position = some .before then onLast Hop.markEmit hops else hops)
      ∧ m.enter (.loop n (l.emit.map Emit.position) l.controlFirst) l.body labels
        = m.on run [⟨.loop n (l.emit.map Emit.position) l.controlFirst, l.body, l.body, labels⟩] := by
  cases hp : l.emit.map Emit.position with
  | none => exact ⟨m.run, h.run_at, by simp only [Machine.enter, Machine.on, h.frames_eq]⟩
  | some position =>
    cases position with
    | before =>
      exact ⟨m.run.modify Hop.markEmit, h.run_at.modify _,
        by simp only [Machine.enter, Machine.on, h.frames_eq]⟩
    | after => exact ⟨m.run, h.run_at, by simp only [Machine.enter, Machine.on, h.frames_eq]⟩

theorem Stands.loop (h : r.Stands m (node :: rest) taken hops) {l : Loop} {n : Nat}
    (ha : m.run.absorb r.options .top node rest.isEmpty
      = .ok (.entered (.loop n (l.emit.map Emit.position) l.controlFirst) l.body))
    (hn : l.turns r.options.maxTurns r.options.fullText = .ok n) :
    (if l.emit.isSome then Outcome.endsWith (named node.labels (r.loop l n hops)) none
      else Outcome.goesOn (named node.labels (r.loop l n hops))).Holds r m rest taken hops := by
  obtain ⟨hpos, hs⟩ := Loop.turns_ok hn
  obtain ⟨left, rfl⟩ : ∃ left, n = left + 1 := ⟨n - 1, by omega⟩
  obtain ⟨m', hm', e⟩ := h.entered ha
  obtain ⟨run₀, hrun₀, henter⟩ := hm'.enter_loop l (left + 1) node.labels
  obtain ⟨run', hrun', e'⟩ := reads_turns l hs node.labels left m' hrun₀
  rw [henter, e'] at e
  cases hemit : l.emit.isSome with
  | true =>
    rw [hemit] at e
    refine e.trans ?_
    simp only [↓reduceIte, Machine.finish, Machine.on, hrun'.hops_eq, hm'.taken_eq, Reader.loop]
  | false =>
    rw [hemit] at e
    exact ⟨m'.on run' [], ⟨hrun', rfl, hm'.chain_eq, hm'.taken_eq⟩, e⟩

theorem Stands.has {fs : List Filter} {names : SortedSet String}
    (h : r.Stands m (⟨.has fs, names⟩ :: rest) taken hops) :
    (r.top ⟨.has fs, names⟩ hops).Holds r m rest taken hops := by
  simp only [top]
  cases hcomplete : (SortedFilters.ofFilters r.options.fullText fs).isComplete with
  | true =>
    have ha : m.run.absorb r.options .top ⟨.has fs, names⟩ rest.isEmpty
        = .ok (.consumed ((m.run.attach (.ofFilters r.options.fullText fs)).label names) .top) := by
      simp only [OpenRun.absorb, hcomplete]
      rfl
    refine h.consumed ha ?_
    rw [one]
    exact (h.run_at.attach _).label names
  | false =>
    cases hempty : (SortedFilters.ofFilters r.options.fullText fs).isEmpty with
    | true =>
      refine h.stopped ?_
      simp only [OpenRun.absorb, hcomplete, hempty]
      rfl
    | false =>
      refine h.leftover ?_ (h.run_at.attach _)
      simp only [OpenRun.absorb, hcomplete, hempty]
      rfl

/-- A choice is read as the optional part it is in disguise. -/
theorem Stands.choose {condition yes no : List StepNode} {names : SortedSet String}
    (h : r.Stands m (⟨.choose condition yes no, names⟩ :: rest) taken hops) :
    (r.top ⟨.choose condition yes no, names⟩ hops).Holds r m rest taken hops := by
  simp only [top]
  cases hb : chosenBranch condition yes no with
  | error e =>
    refine h.refused ?_
    simp only [OpenRun.absorb, hb]
    rfl
  | ok branch =>
    obtain rfl := chosenBranch_ok hb
    simp only [bind, Except.bind]
    cases hc : checkOptional r.rooted r.options.fullText branch with
    | error e =>
      refine h.refused ?_
      simp only [OpenRun.absorb, h.run_at.rooted_eq, hb, hc, bind, Except.bind]
      rfl
    | ok u =>
      refine h.optional ?_ hc
      simp only [OpenRun.absorb, h.run_at.rooted_eq, hb, hc, bind, Except.bind]
      rfl

/-- What the reader says of a step of the chain is what the machine does. -/
theorem Stands.top (h : r.Stands m (node :: rest) taken hops) :
    (r.top node hops).Holds r m rest taken hops := by
  obtain ⟨step, names⟩ := node
  have hrun := h.run_at
  cases step with
  | move mv =>
    refine h.consumed rfl ?_
    rw [one, ← onLast_concat]
    exact (hrun.push (.move mv) names).modify FrameKind.top.mark
  | identity =>
    refine h.consumed rfl ?_
    rw [one]
    exact hrun.label names
  | has fs => exact h.has
  | order specs =>
    simp only [top]
    cases ho : checkOrder specs with
    | error e =>
      refine h.refused ?_
      simp only [OpenRun.absorb, ho]
      rfl
    | ok u =>
      have ha : m.run.absorb r.options .top ⟨.order specs, names⟩ rest.isEmpty
          = .ok (.consumed ((m.run.modify fun h => { h with order := h.order ++ specs }).label names)
            .top) := by
        simp only [OpenRun.absorb, ho]
        rfl
      refine h.consumed ha ?_
      rw [one]
      exact (hrun.modify _).label names
  | range slice =>
    refine h.ended rfl ?_
    rw [one]
    exact (hrun.modify _).label names
  | loop l =>
    simp only [top]
    cases hn : l.turns r.options.maxTurns r.options.fullText with
    | error e =>
      refine h.refused ?_
      simp only [OpenRun.absorb, hn]
      rfl
    | ok n =>
      refine h.loop ?_ hn
      simp only [OpenRun.absorb, hn]
      rfl
  | optional body =>
    simp only [top]
    cases hc : checkOptional r.rooted r.options.fullText body with
    | error e =>
      refine h.refused ?_
      simp only [OpenRun.absorb, hrun.rooted_eq, hc]
      rfl
    | ok u =>
      refine h.optional ?_ hc
      simp only [OpenRun.absorb, hrun.rooted_eq, hc]
      rfl
  | choose condition yes no => exact h.choose
  | drop =>
    simp only [top]
    cases hl : r.mutationListener with
    | true =>
      refine h.refused ?_
      simp only [OpenRun.absorb, hrun.listener_eq, hl]
      rfl
    | false =>
      have ha : m.run.absorb r.options .top ⟨.drop, names⟩ rest.isEmpty
          = .ok (.ended (m.run.modify fun h => { h with drop := true })) := by
        simp only [OpenRun.absorb, hrun.listener_eq, hl]
        rfl
      exact h.ended ha (hrun.modify _)
  | _ => exact h.stopped rfl

end

/-- From a state on the chain, the machine computes the reading of what stands before it. -/
theorem Stands.result_eq {steps : List StepNode} {m : Machine} {taken : Nat} {hops : List Hop}
    (h : r.Stands m steps taken hops) : m.result r.options = r.chain steps hops taken := by
  induction steps generalizing m taken hops with
  | nil =>
    refine Machine.result_of_end ?_
    simp only [Machine.step, h.frames_eq, h.chain_eq, Machine.finish, h.run_at.hops_eq, h.taken_eq,
      chain]
  | cons node rest ih =>
    have htop := h.top
    rw [chain]
    cases ho : r.top node hops with
    | goesOn hops' =>
      rw [ho] at htop
      obtain ⟨m', hm', e⟩ := htop
      exact e.trans (ih hm')
    | endsWith hops' leftover =>
      rw [ho] at htop
      exact htop
    | endsBefore obstacle =>
      rw [ho] at htop
      exact htop

end Reader

section

variable (o : FusionOptions) (mutationListener : Bool) (names : SortedSet String)
  (rest : List StepNode)

theorem result_eq_chain {node : StepNode} {run : OpenRun} {hops : List Hop}
    (h : run.At (.of o mutationListener node rest) hops) :
    Machine.result o { run := run, chain := rest, taken := 1 }
      = (Reader.of o mutationListener node rest).chain rest hops 1 :=
  Reader.Stands.result_eq (r := .of o mutationListener node rest) ⟨h, rfl, rfl, rfl⟩

theorem fuseRun_graph (kind : ElementKind) (ids : List Value) :
    fuseRun? o mutationListener ⟨.graph kind ids, names⟩ rest
      = readRun? o mutationListener ⟨.graph kind ids, names⟩ rest := by
  refine congrArg some (result_eq_chain o mutationListener rest ⟨?_, rfl, rfl, rfl⟩)
  rw [← OpenRun.freshHop_eq]
  rfl

theorem fuseRun_move (mv : Move) :
    fuseRun? o mutationListener ⟨.move mv, names⟩ rest
      = readRun? o mutationListener ⟨.move mv, names⟩ rest := by
  let r := Reader.of o mutationListener ⟨.move mv, names⟩ rest
  have hroot : OpenRun.At ⟨{ kind := .incomingRoot mv.source, depth := 0 }, [], r.pathRequested,
      false, mutationListener⟩ r [{ kind := .incomingRoot mv.source, depth := 0 }] :=
    ⟨rfl, rfl, rfl, rfl⟩
  exact congrArg some (result_eq_chain o mutationListener rest (hroot.push (.move mv) names))

/-- **The machine computes the reading of the chain**: the hops, the number of steps taken, what
goes back, and what stopped it. -/
theorem fuseRun_eq_readRun (node : StepNode) :
    fuseRun? o mutationListener node rest = readRun? o mutationListener node rest := by
  obtain ⟨step, names⟩ := node
  cases step with
  | graph kind ids => exact fuseRun_graph o mutationListener names rest kind ids
  | move mv => exact fuseRun_move o mutationListener names rest mv
  | _ => rfl

end

-- two turns that emit in front of their body: the last hop is a result anyway, and the run ends
example :
    (readRun? ⟨32, false⟩ false (.plain (.graph .vertex []))
      [.plain (.loop ⟨[.plain (.move (.follow .outgoing [] .vertex))], some 2, none,
        some ⟨.before, none⟩, false⟩), .plain .identity]).map
      (fun f => (f.consumed, f.run.hops.map fun h => (h.depth, h.emit)))
      = some (2, [(0, true), (1, true), (2, false)]) := by
  rfl

end TraversalSql
