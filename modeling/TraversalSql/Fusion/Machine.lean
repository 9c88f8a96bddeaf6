import TraversalSql.Fusion.Feasibility

/-!
# The fusing machine

A run is read from a chain by a machine with a stack of open composites. The machine reads one
step at a time into the hop it stands on; a loop puts its body on the stack and rewinds it for
every turn, an optional part puts its body there once. When the stack is empty again the machine
goes on with the chain, except behind an optional part or a loop with emitted elements, where the
run ends. A step that cannot be read inside a composite takes back everything since the composite
was entered.

Every step of the machine lowers `Machine.work`, so reading ends.
-/

set_option autoImplicit false

namespace TraversalSql

/-- What the reader of a chain is told. -/
structure FusionOptions where
  /-- The most turns a loop is unrolled into. -/
  maxTurns : Nat
  /-- The dialect has full-text search. -/
  fullText : Bool

/-- A run being read: the hop that steps are folded into, and the hops before it. -/
structure OpenRun where
  current : Hop
  /-- The hops before the current one, nearest first. -/
  earlier : List Hop := []
  /-- A path step follows, so every hop is asked for. -/
  pathRequested : Bool
  /-- The run starts at the graph. -/
  rooted : Bool
  mutationListener : Bool

namespace OpenRun

def hops (r : OpenRun) : List Hop := (r.current :: r.earlier).reverse

/-- Change the current hop. -/
def modify (r : OpenRun) (f : Hop → Hop) : OpenRun := { r with current := f r.current }

/-- Give names to the current hop. -/
def label (r : OpenRun) (names : SortedSet String) : OpenRun :=
  r.modify fun h => h.addUserLabels names.toList

/-- A fresh hop with its names. A hop without any is asked for when a path step follows. -/
def freshHop (kind : HopKind) (depth : Nat) (names : SortedSet String) (pathRequested : Bool) :
    Hop :=
  let hop := { kind := kind, depth := depth : Hop }.addUserLabels names.toList
  if pathRequested && names.isEmpty then hop.addLabel Hop.pathLabel .path else hop

/-- Go one hop further. -/
def push (r : OpenRun) (kind : HopKind) (names : SortedSet String) : OpenRun :=
  { r with
    current := freshHop kind (r.earlier.length + 1) names r.pathRequested
    earlier := r.current :: r.earlier }

/-- Fold filters into the current hop. -/
def attach (r : OpenRun) (s : SortedFilters) : OpenRun :=
  r.modify fun h =>
    { h with
      labelPredicates := h.labelPredicates ++ s.labels
      idPredicates := h.idPredicates ++ s.ids
      filters := h.filters ++ s.properties }

/-- The filter that the ids of a source stand for. -/
def sourceIds : List Value → List Predicate
  | [] => []
  | [id] => [.compare .eq id]
  | ids => [.within ids]

/-- The run that a chain's first step opens; steps that open none have no run. -/
def start? (node : StepNode) (pathRequested mutationListener : Bool) : Option OpenRun :=
  match node.step with
  | .graph kind ids =>
    let root := freshHop (.graphRoot kind) 0 node.labels pathRequested
    some {
      current := { root with idPredicates := sourceIds ids }
      pathRequested := pathRequested, rooted := true, mutationListener := mutationListener }
  | .move m =>
    let root : OpenRun := {
      current := { kind := .incomingRoot m.source, depth := 0 }
      pathRequested := pathRequested, rooted := false, mutationListener := mutationListener }
    some (root.push (.move m) node.labels)
  | _ => none

end OpenRun

/-- What a level of the stack is. -/
inductive FrameKind where
  /-- The chain itself. -/
  | top
  | loop (turnsLeft : Nat) (emit : Option EmitPosition) (controlFirst : Bool)
  /-- `atStart` until the first move of the part, which opens the optional join. -/
  | optional (atStart : Bool)
deriving DecidableEq, Repr

namespace FrameKind

def isTop : FrameKind → Bool
  | top => true
  | _ => false

/-- How often the body is still to be read after the present reading. -/
def rewinds : FrameKind → Nat
  | loop n _ _ => n - 1
  | top | optional _ => 0

end FrameKind

/-- An open composite. -/
structure Frame where
  kind : FrameKind
  body : List StepNode
  /-- What is left of the body in the present reading. -/
  rest : List StepNode
  /-- The names of the composite, which go to the hop it ends at. -/
  labels : SortedSet String

/-- What reading one step does. -/
inductive Absorbed where
  /-- The step is part of the run. -/
  | consumed (run : OpenRun) (kind : FrameKind)
  /-- The step is the last of the run. -/
  | ended (run : OpenRun)
  /-- The run ends before the step. -/
  | stopped
  /-- The run ends with a part of the step; the rest of it goes back into the chain. -/
  | leftover (run : OpenRun) (node : StepNode)
  /-- The step is a composite whose body comes next. -/
  | entered (kind : FrameKind) (body : List StepNode)

/-- A move inside a composite: a loop passes on whether its bound came first, and the first move
of an optional part opens the optional join. -/
def FrameKind.mark : FrameKind → Hop → Hop
  | top, h => h
  | loop _ _ controlFirst, h => { h with untilFirst := controlFirst }
  | optional atStart, h => if atStart then { h with leftJoin := true } else h

/-- The level after a move. -/
def FrameKind.moved : FrameKind → FrameKind
  | optional _ => optional false
  | kind => kind

/-- Read one step into a run, on a level of the stack; `last` says that the level's body ends with
the step. -/
def OpenRun.absorb (o : FusionOptions) (r : OpenRun) (kind : FrameKind) (node : StepNode)
    (last : Bool) : Except FusionError Absorbed :=
  let nested := !kind.isTop
  match node.step with
  | .move m => .ok (.consumed ((r.push (.move m) node.labels).modify kind.mark) kind.moved)
  | .has fs =>
    let s := SortedFilters.ofFilters o.fullText fs
    if s.isComplete then .ok (.consumed ((r.attach s).label node.labels) kind)
    else if nested then .error (.unsupported .nestedFilter node.step.text)
    -- a filter of which nothing can be carried is simply the end of the run
    else if s.isEmpty then .ok .stopped
    else .ok (.leftover (r.attach s) ⟨.has s.remaining, node.labels⟩)
  | .order specs => do
    checkOrder specs
    return .consumed
      ((r.modify fun h => { h with order := h.order ++ specs }).label node.labels) kind
  | .range slice =>
    -- cutting rows in the middle of a body would cut those of every turn
    if nested && !last then .error (.earlyRange node.step.text)
    else
      let r := (r.modify fun h => { h with range := some slice }).label node.labels
      .ok (if nested then .consumed r kind else .ended r)
  | .identity => .ok (.consumed (r.label node.labels) kind)
  | .loop l =>
    if nested then .error (.strayStep node.step.text)
    else do
      let turns ← l.turns o.maxTurns o.fullText
      return .entered (.loop turns (l.emit.map Emit.position) l.controlFirst) l.body
  | .optional body =>
    if nested && !last then .error (.strayStep node.step.text)
    else do
      checkOptional r.rooted o.fullText body
      return .entered (.optional true) body
  | .choose condition yes no =>
    if nested then .error (.strayStep node.step.text)
    else do
      let branch ← chosenBranch condition yes no
      checkOptional r.rooted o.fullText branch
      return .entered (.optional true) branch
  | .drop =>
    if nested then .error (.strayStep node.step.text)
    else if r.mutationListener then .error (.unsupported .mutationListener node.step.text)
    else .ok (.ended (r.modify fun h => { h with drop := true }))
  | _ => if nested then .error (.strayStep node.step.text) else .ok .stopped

/-- A run that was read from the front of a chain. -/
structure FusedRun where
  run : Run
  /-- How many steps of the chain it took over. -/
  consumed : Nat
  /-- The part of the last step that goes back into the chain. -/
  leftover : Option StepNode := none
  /-- Why the step behind the run is not part of it, if it was tried. -/
  obstacle : Option FusionError := none

/-- The machine's state: the run so far, the chain behind it, and the open composites. -/
structure Machine where
  run : OpenRun
  /-- The chain behind what was taken. -/
  chain : List StepNode
  /-- How many steps of the chain were taken. -/
  taken : Nat
  /-- Open composites, innermost first. -/
  frames : List Frame := []
  /-- The run and the steps taken when the outermost open composite was entered. -/
  saved : Option (OpenRun × Nat) := none

namespace Machine

def finish (m : Machine) : FusedRun := ⟨⟨m.run.hops⟩, m.taken, none, none⟩

/-- End the run at a step that cannot be read. Inside a composite, everything since the composite
was entered is taken back. -/
def giveUp (m : Machine) (e : FusionError) : FusedRun :=
  match m.frames, m.saved with
  | _ :: _, some (run, taken) => { run := ⟨run.hops⟩, consumed := taken, obstacle := some e }
  | _, _ => { m.finish with obstacle := some e }

/-- Enter a composite. A loop that emits its input marks the hop it starts from. -/
def enter (m : Machine) (kind : FrameKind) (body : List StepNode) (labels : SortedSet String) :
    Machine :=
  let run := match kind with
    | .loop _ (some .before) _ => m.run.modify Hop.markEmit
    | _ => m.run
  { m with run := run, frames := ⟨kind, body, body, labels⟩ :: m.frames }

/-- One step of the chain itself. -/
def readTop (o : FusionOptions) (m : Machine) (node : StepNode) (rest : List StepNode) :
    Machine ⊕ FusedRun :=
  let next := { m with chain := rest, taken := m.taken + 1 }
  match m.run.absorb o .top node rest.isEmpty with
  | .ok (.consumed run _) => .inl { next with run := run }
  | .ok (.ended run) => .inr { next with run := run }.finish
  | .ok .stopped => .inr m.finish
  | .ok (.leftover run node) => .inr { { next with run := run }.finish with leftover := some node }
  | .ok (.entered kind body) =>
    .inl ({ next with saved := some (m.run, m.taken) }.enter kind body node.labels)
  | .error e => .inr (m.giveUp e)

/-- One step of the body of the innermost composite. -/
def readInner (o : FusionOptions) (m : Machine) (frame : Frame) (frames : List Frame)
    (node : StepNode) (rest : List StepNode) : Machine ⊕ FusedRun :=
  match m.run.absorb o frame.kind node rest.isEmpty with
  | .ok (.consumed run kind) =>
    .inl { m with run := run, frames := { frame with kind := kind, rest := rest } :: frames }
  | .ok (.entered kind body) =>
    .inl ({ m with frames := { frame with rest := rest } :: frames }.enter kind body node.labels)
  | .ok (.ended run) | .ok (.leftover run _) => .inr { m with run := run }.finish
  | .ok .stopped => .inr m.finish
  | .error e => .inr (m.giveUp e)

/-- A composite was read to its end: its names go to the current hop. The run ends with it if it
was the outermost one and `closing` says so. -/
def close (m : Machine) (labels : SortedSet String) (frames : List Frame) (closing : Bool) :
    Machine ⊕ FusedRun :=
  let m := { m with run := m.run.label labels, frames := frames }
  if frames.isEmpty && closing then .inr m.finish else .inl m

/-- The body of the innermost composite was read to its end. Each turn of a loop marks the hop it
ended at if the loop emits; only a loop that emits its input leaves out the last turn. -/
def endOfBody (m : Machine) (frame : Frame) (frames : List Frame) : Machine ⊕ FusedRun :=
  match frame.kind with
  | .loop turnsLeft emit controlFirst =>
    let emits := match emit with
      | some .after => true
      | some .before => turnsLeft > 1
      | none => false
    let m := if emits then { m with run := m.run.modify Hop.markEmit } else m
    if turnsLeft > 1 then
      let again := { frame with kind := .loop (turnsLeft - 1) emit controlFirst, rest := frame.body }
      .inl { m with frames := again :: frames }
    else m.close frame.labels frames emit.isSome
  | _ => m.close frame.labels frames true

/-- One step of the machine: a further state, or the run that was read. -/
def step (o : FusionOptions) (m : Machine) : Machine ⊕ FusedRun :=
  match m.frames with
  | [] =>
    match m.chain with
    | [] => .inr m.finish
    | node :: rest => m.readTop o node rest
  | frame :: frames =>
    match frame.rest with
    | [] => m.endOfBody frame frames
    | node :: rest => m.readInner o frame frames node rest

end Machine

/-! ## Reading ends -/

mutual

/-- A bound on the machine's steps for one step of a chain. -/
def Step.work : Step → Nat
  | .loop l => l.work + 1
  | .optional body => chainWork body + 2
  | .choose _ yes _ => chainWork yes + 2
  | _ => 1

def Loop.work : Loop → Nat
  | ⟨body, times, _, _, _⟩ => max (times.getD 1) 1 * (chainWork body + 1)

def StepNode.work : StepNode → Nat
  | ⟨step, _⟩ => step.work

/-- A bound on the machine's steps for a chain. -/
def chainWork : List StepNode → Nat
  | [] => 0
  | n :: ns => n.work + chainWork ns

end

/-- A bound on the machine's steps for an open composite: what is left of the present reading,
and the readings still to come. -/
def Frame.work (f : Frame) : Nat :=
  chainWork f.rest + f.kind.rewinds * (chainWork f.body + 1) + 1

/-- A bound on the machine's steps for all open composites. -/
def framesWork : List Frame → Nat
  | [] => 0
  | f :: fs => f.work + framesWork fs

/-- A bound on the machine's steps from a state on. -/
def Machine.work (m : Machine) : Nat := chainWork m.chain + framesWork m.frames

namespace Machine

theorem turns_eq {l : Loop} {limit : Nat} {fullText : Bool} {n : Nat}
    (h : l.turns limit fullText = .ok n) : n = l.turnCount := by
  simp only [Loop.turns] at h
  split at h
  · cases h
  · cases h
    rfl

theorem turnCount_le (l : Loop) : l.turnCount ≤ max (l.times.getD 1) 1 := by
  simp only [Loop.turnCount]
  cases l.times <;> simp <;> split <;> omega

theorem loop_work (l : Loop) :
    l.work = max (l.times.getD 1) 1 * (chainWork l.body + 1) := by
  obtain ⟨body, times, stopWhen, emit, controlFirst⟩ := l
  simp only [Loop.work]

/-- A composite that is entered has less work in it than its step. -/
theorem work_entered {o : FusionOptions} {r : OpenRun} {kind k : FrameKind} {node : StepNode}
    {last : Bool} {body : List StepNode}
    (h : r.absorb o kind node last = .ok (.entered k body)) (labels : SortedSet String) :
    (Frame.mk k body body labels).work < node.work := by
  obtain ⟨step, names⟩ := node
  cases step <;> simp only [OpenRun.absorb] at h
  case loop l =>
    split at h
    · cases h
    · cases ht : l.turns o.maxTurns o.fullText with
      | error e => simp [ht, bind, Except.bind] at h
      | ok n =>
        simp only [ht, bind, Except.bind, pure, Except.pure, Except.ok.injEq,
          Absorbed.entered.injEq] at h
        obtain ⟨rfl, rfl⟩ := h
        have hn : n ≤ max (l.times.getD 1) 1 := turns_eq ht ▸ turnCount_le l
        have hone : 1 ≤ max (l.times.getD 1) 1 := by omega
        simp only [Frame.work, FrameKind.rewinds, StepNode.work, Step.work, loop_work]
        generalize max (l.times.getD 1) 1 = k at hn hone ⊢
        have := Nat.mul_le_mul_right (chainWork l.body + 1) hn
        have := Nat.mul_le_mul_right (chainWork l.body + 1) hone
        cases n with
        | zero => omega
        | succ n => simp only [Nat.add_sub_cancel, Nat.succ_mul] at *; omega
  case optional inner =>
    split at h
    · cases h
    · cases hc : checkOptional r.rooted o.fullText inner with
      | error e => simp [hc, bind, Except.bind] at h
      | ok u =>
        simp only [hc, bind, Except.bind, pure, Except.pure, Except.ok.injEq,
          Absorbed.entered.injEq] at h
        obtain ⟨rfl, rfl⟩ := h
        simp only [Frame.work, FrameKind.rewinds, StepNode.work, Step.work]
        omega
  case choose c yes no =>
    split at h
    · cases h
    · cases hb : chosenBranch c yes no with
      | error e => simp [hb, bind, Except.bind] at h
      | ok branch =>
        have hyes : branch = yes := by
          simp only [chosenBranch] at hb
          split at hb
          · cases hb
          · split at hb
            · cases hb
            · cases hb
              rfl
        subst hyes
        cases hc : checkOptional r.rooted o.fullText branch with
        | error e => simp [hb, hc, bind, Except.bind] at h
        | ok u =>
          simp only [hb, hc, bind, Except.bind, pure, Except.pure, Except.ok.injEq,
            Absorbed.entered.injEq] at h
          obtain ⟨rfl, rfl⟩ := h
          simp only [Frame.work, FrameKind.rewinds, StepNode.work, Step.work]
          omega
  case order specs =>
    cases hc : checkOrder specs <;> simp [hc, bind, Except.bind, pure, Except.pure] at h
  all_goals repeat' split at h
  all_goals cases h

theorem rewinds_moved (k : FrameKind) : k.moved.rewinds = k.rewinds := by
  cases k <;> rfl

/-- Reading a step keeps the turns that are left. -/
theorem rewinds_consumed {o : FusionOptions} {r run : OpenRun} {kind k : FrameKind}
    {node : StepNode} {last : Bool} (h : r.absorb o kind node last = .ok (.consumed run k)) :
    k.rewinds = kind.rewinds := by
  obtain ⟨step, names⟩ := node
  cases step <;> simp only [OpenRun.absorb] at h
  case order specs =>
    cases hc : checkOrder specs <;>
      simp [hc, bind, Except.bind, pure, Except.pure] at h
    exact h.2 ▸ rfl
  case loop l =>
    cases ht : l.turns o.maxTurns o.fullText <;>
      simp [ht, bind, Except.bind, pure, Except.pure] at h <;> split at h <;> cases h
  case optional inner =>
    cases hc : checkOptional r.rooted o.fullText inner <;>
      simp [hc, bind, Except.bind, pure, Except.pure] at h <;> split at h <;> cases h
  case choose c yes no =>
    cases hb : chosenBranch c yes no with
    | error e => simp [hb, bind, Except.bind] at h; split at h <;> cases h
    | ok branch =>
      cases hc : checkOptional r.rooted o.fullText branch <;>
        simp [hb, hc, bind, Except.bind, pure, Except.pure] at h <;> split at h <;> cases h
  case move m =>
    cases h
    exact rewinds_moved kind
  all_goals repeat' split at h
  all_goals cases h
  all_goals rfl

theorem work_node_pos (node : StepNode) : 0 < node.work := by
  obtain ⟨step, labels⟩ := node
  cases step <;> simp [StepNode.work, Step.work]

theorem work_enter (m : Machine) (kind : FrameKind) (body : List StepNode)
    (labels : SortedSet String) :
    (m.enter kind body labels).work = (Frame.mk kind body body labels).work + m.work := by
  simp only [enter, work, framesWork]
  omega

/-- Closing a composite leaves the work of the levels below it. -/
theorem work_close {m m' : Machine} {labels : SortedSet String} {frames : List Frame}
    {closing : Bool} (h : m.close labels frames closing = .inl m') :
    m'.work = chainWork m.chain + framesWork frames := by
  simp only [close] at h
  split at h
  · cases h
  · cases h
    rfl

/-- Every step of the machine lowers its work. -/
theorem work_step {o : FusionOptions} {m m' : Machine} (h : m.step o = .inl m') :
    m'.work < m.work := by
  simp only [step] at h
  split at h
  · rename_i hf
    split at h
    · cases h
    · rename_i node rest hc
      have hw : m.work = node.work + chainWork rest := by simp [work, hf, hc, chainWork, framesWork]
      have hp := work_node_pos node
      simp only [readTop] at h
      split at h
      · cases h
        rw [hw]
        simp only [work, hf, framesWork]
        omega
      · cases h
      · cases h
      · cases h
      · rename_i kind body ha
        cases h
        rw [work_enter, hw]
        have := work_entered ha node.labels
        simp only [work, hf, framesWork]
        omega
      · cases h
  · rename_i frame frames hf
    have hw : m.work = chainWork m.chain + (frame.work + framesWork frames) := by
      simp [work, hf, framesWork]
    split at h
    · rename_i hr
      simp only [endOfBody] at h
      have hpos : 0 < frame.work := by simp [Frame.work]
      split at h
      · rename_i turnsLeft emit controlFirst hk
        have hchain (b : Bool) (r : OpenRun) :
            (if b then { m with run := r } else m).chain = m.chain := by cases b <;> rfl
        split at h
        · cases h
          rw [hw]
          simp only [work, hchain, framesWork, Frame.work, hk, hr, chainWork,
            FrameKind.rewinds]
          obtain ⟨t, rfl⟩ : ∃ t, turnsLeft = t + 2 := ⟨turnsLeft - 2, by omega⟩
          have : (t + 2 - 1) * (chainWork frame.body + 1)
              = (t + 2 - 1 - 1) * (chainWork frame.body + 1) + (chainWork frame.body + 1) := by
            rw [show t + 2 - 1 = t + 2 - 1 - 1 + 1 by omega, Nat.succ_mul]
            rfl
          omega
        · rw [work_close h, hw]
          simp only [hchain]
          omega
      · rw [work_close h, hw]
        omega
    · rename_i node rest hr
      simp only [readInner] at h
      have hp := work_node_pos node
      split at h
      · rename_i run kind ha
        cases h
        have hk := rewinds_consumed ha
        rw [hw]
        simp only [work, framesWork, Frame.work, hk, hr, chainWork]
        omega
      · rename_i kind body ha
        cases h
        rw [work_enter, hw]
        have := work_entered ha node.labels
        simp only [work, framesWork]
        simp only [Frame.work, hr, chainWork] at *
        omega
      all_goals cases h

/-- Run the machine to its end. -/
def result (o : FusionOptions) (m : Machine) : FusedRun :=
  match _h : m.step o with
  | .inl next => next.result o
  | .inr run => run
termination_by m.work
decreasing_by exact work_step _h

end Machine

/-- Read a run from the front of a chain, if its first step opens one. -/
def fuseRun? (o : FusionOptions) (mutationListener : Bool) (node : StepNode)
    (rest : List StepNode) : Option FusedRun :=
  let pathRequested := (node :: rest).any fun n => n.step.isPathLike
  (OpenRun.start? node pathRequested mutationListener).map fun run =>
    Machine.result o { run := run, chain := rest, taken := 1 }

end TraversalSql
