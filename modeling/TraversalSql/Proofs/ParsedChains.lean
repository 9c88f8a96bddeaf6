import TraversalSql.Proofs.Results
import TraversalSql.Proofs.Sorted
import TraversalSql.Proofs.Spelling
import TraversalSql.Traversal.Parser

/-!
# What reading a text yields

Not every chain of steps comes out of a text. Loops and optional parts have bodies, an `order()`
has keys, counts fit into 64 bits, a loop is ended by a count or by a condition but not by both,
and a source stands at the front only. `Step.Written` lists this, and the last theorem finds it at
every step of a traversal that was read, however deep the step is nested.

The bookkeeping follows the two passes. The grammar fills every nested chain with at least one
call; the reader then holds its steps on a stack, and each call leaves a stack of written steps
behind. Only legible steps are looked at: what a loop took over from before its body, and what a
choice holds, is of no interest to anyone who reads the text again.
-/

set_option autoImplicit false

namespace TraversalSql

/-! ## 1. Steps at any nesting level -/

mutual

/-- The node and all nodes nested in it satisfy `P`. -/
def StepNode.Everywhere (P : StepNode → Prop) : StepNode → Prop
  | ⟨step, labels⟩ => P ⟨step, labels⟩ ∧ step.Within P

/-- All nodes nested in the step satisfy `P`. -/
def Step.Within (P : StepNode → Prop) : Step → Prop
  | .loop l => l.Within P
  | .optional body => chainEverywhere P body
  | .choose condition yes no =>
    chainEverywhere P condition ∧ chainEverywhere P yes ∧ chainEverywhere P no
  | .graph .. | .move _ | .has _ | .order _ | .range _ | .drop | .identity | .hasNext | .path
  | .tree | .interpreted _ | .fused _ => True

def chainEverywhere (P : StepNode → Prop) : List StepNode → Prop
  | [] => True
  | n :: ns => n.Everywhere P ∧ chainEverywhere P ns

def Loop.Within (P : StepNode → Prop) : Loop → Prop
  | ⟨body, _, stopWhen, emit, _⟩ =>
    chainEverywhere P body ∧ conditionEverywhere P stopWhen ∧ emitEverywhere P emit

def conditionEverywhere (P : StepNode → Prop) : Option (List StepNode) → Prop
  | some c => chainEverywhere P c
  | none => True

def emitEverywhere (P : StepNode → Prop) : Option Emit → Prop
  | some e => e.Within P
  | none => True

def Emit.Within (P : StepNode → Prop) : Emit → Prop
  | ⟨_, condition⟩ => conditionEverywhere P condition

end

theorem chainEverywhere_iff {P : StepNode → Prop} {ns : List StepNode} :
    chainEverywhere P ns ↔ ∀ n ∈ ns, n.Everywhere P := by
  induction ns with
  | nil => simp [chainEverywhere]
  | cons n ns ih => simp [chainEverywhere, ih]

/-! ## 2. Legible steps and written steps -/

def Value.Legible : Value → Prop
  | .float _ => False
  | .string s => Unquoted s
  | .null | .bool _ | .int _ | .record _ => True

def Move.Legible : Move → Prop
  | .follow _ labels _ => ∀ label ∈ labels, Unquoted label
  | .endpoint _ => True

def SortKey.Legible : SortKey → Prop
  | .id => True
  | .property p => Unquoted p
  | .select label member => Unquoted label ∧ ∀ p ∈ member, Unquoted p
  | .aggregate _ | .lambda _ => False

/-- The step, apart from what is nested in it, is one that a text can be read back to: no filter,
choice or interpreted step, no loop whose controls stood before it, no computed sort key, no double
and no quote in a string. -/
def Step.Legible : Step → Prop
  | .has _ | .choose .. | .interpreted _ => False
  | .loop ⟨_, _, _, emit, controlFirst⟩ =>
    controlFirst = false ∧ ∀ e ∈ emit, e.position ≠ .before
  | .graph _ ids => ∀ v ∈ ids, v.Legible
  | .move m => m.Legible
  | .order specs => ∀ s ∈ specs, s.key.Legible
  | .range _ | .optional _ | .drop | .identity | .hasNext | .path | .tree | .fused _ => True

def StepNode.Legible (n : StepNode) : Prop :=
  n.step.Legible ∧ ∀ name ∈ n.labels, Unquoted name

/-- The step, apart from what is nested in it, is one that calls can write behind a source. -/
def Step.Written : Step → Prop
  | .graph .. | .hasNext | .fused _ => False
  | .order specs => specs ≠ []
  | .range s => s.low ≤ Reading.largest ∧ ∀ high ∈ s.high, s.low ≤ high ∧ high ≤ Reading.largest
  | .loop ⟨body, times, stopWhen, emit, _⟩ =>
    body ≠ [] ∧ (∀ n ∈ times, n ≤ Reading.largest) ∧ (times = none ∨ stopWhen = none) ∧
      (∀ c ∈ stopWhen, c ≠ []) ∧ ∀ e ∈ emit, ∀ c ∈ e.condition, c ≠ []
  | .optional body => body ≠ []
  | .move _ | .has _ | .choose .. | .drop | .identity | .path | .tree | .interpreted _ => True

/-- The node is legible, and it is what calls can write. -/
structure StepNode.Readable (n : StepNode) : Prop where
  legible : n.Legible
  written : n.step.Written
  ascending : n.labels.Ascending

/-! ## 3. The grammar fills chains -/

mutual

/-- Every chain in the argument has a call. -/
def Argument.Filled : Argument → Prop
  | .chain calls => calls ≠ [] ∧ callsFilled calls
  | .string _ | .int _ | .float _ | .keyword _ | .lambda _ => True

def argumentsFilled : List Argument → Prop
  | [] => True
  | a :: as => a.Filled ∧ argumentsFilled as

def Call.Filled : Call → Prop
  | ⟨_, arguments⟩ => argumentsFilled arguments

def callsFilled : List Call → Prop
  | [] => True
  | c :: cs => c.Filled ∧ callsFilled cs

end

theorem argumentsFilled_iff {as : List Argument} : argumentsFilled as ↔ ∀ a ∈ as, a.Filled := by
  induction as with
  | nil => simp [argumentsFilled]
  | cons a as ih => simp [argumentsFilled, ih]

theorem Call.filled_iff {c : Call} : c.Filled ↔ ∀ a ∈ c.arguments, a.Filled := by
  obtain ⟨name, as⟩ := c
  exact argumentsFilled_iff

theorem callsFilled_iff {cs : List Call} : callsFilled cs ↔ ∀ c ∈ cs, c.Filled := by
  induction cs with
  | nil => simp [callsFilled]
  | cons c cs ih => simp [callsFilled, ih]

theorem Argument.Phrase.filled {a : Argument} (h : a.Phrase) : a.Filled := by
  induction h with
  | string _ | int _ | float _ | keyword _ | lambda _ _ => trivial
  | chain hne _ _ ih =>
    exact ⟨hne, callsFilled_iff.mpr fun c hc => Call.filled_iff.mpr (ih c hc)⟩

theorem Call.Phrase.filled {c : Call} (h : c.Phrase) : c.Filled :=
  Call.filled_iff.mpr fun a ha => (h.arguments a ha).filled

/-! ## 4. Written steps on the stack -/

/-- Where the step and all that is nested in it are legible, they are what calls can write. -/
def Step.Sound (s : Step) : Prop :=
  s.Legible → s.Within StepNode.Legible → s.Written ∧ s.Within StepNode.Readable

def StepNode.Sound (n : StepNode) : Prop := n.step.Sound ∧ n.labels.Ascending

theorem StepNode.Sound.everywhere {n : StepNode} (h : n.Sound) (hn : n.Everywhere Legible) :
    n.Everywhere Readable := by
  obtain ⟨step, labels⟩ := n
  obtain ⟨hlegible, hwithin⟩ := hn
  obtain ⟨hwritten, hreadable⟩ := h.1 hlegible.1 hwithin
  exact ⟨⟨hlegible, hwritten, h.2⟩, hreadable⟩

theorem chainEverywhere_of_sound {ns : List StepNode} (h : ∀ n ∈ ns, n.Sound)
    (hns : chainEverywhere StepNode.Legible ns) : chainEverywhere StepNode.Readable ns :=
  chainEverywhere_iff.mpr fun n hn => (h n hn).everywhere (chainEverywhere_iff.mp hns n hn)

/-- A nested chain that was read. -/
def Faithful (ns : List StepNode) : Prop := ns ≠ [] ∧ ∀ n ∈ ns, n.Sound

theorem sound_optional {body : List StepNode} (h : Faithful body) : (Step.optional body).Sound :=
  fun _ hbody => ⟨h.1, chainEverywhere_of_sound h.2 hbody⟩

theorem sound_range {s : Slice} (hlow : s.low ≤ Reading.largest)
    (hhigh : ∀ high ∈ s.high, s.low ≤ high ∧ high ≤ Reading.largest) : (Step.range s).Sound :=
  fun _ _ => ⟨⟨hlow, hhigh⟩, trivial⟩

/-- A loop that took over controls from before its body is not legible, so only the body counts. -/
theorem sound_pushLoop (p : PendingLoop) {body : List StepNode} (h : Faithful body) :
    (Step.loop (p.loop body)).Sound := by
  rintro ⟨hfirst, hemit⟩ ⟨hbody, -⟩
  obtain ⟨htimes, hstop⟩ : p.times.isSome = false ∧ p.stopWhen.isSome = false :=
    Bool.or_eq_false_iff.mp hfirst
  obtain ⟨times, stopWhen, emit⟩ := p
  obtain rfl : times = none := by simpa using htimes
  obtain rfl : stopWhen = none := by simpa using hstop
  obtain rfl : emit = none := by
    cases emit with
    | none => rfl
    | some condition => exact absurd rfl (hemit _ rfl)
  exact ⟨⟨h.1, nofun, Or.inl rfl, nofun, nofun⟩, chainEverywhere_of_sound h.2 hbody, trivial,
    trivial⟩

section Controls

variable {l : Loop}

theorem sound_times (h : (Step.loop l).Sound) {n : Nat} (hn : n ≤ Reading.largest)
    (hstop : l.stopWhen = none) : (Step.loop { l with times := some n }).Sound := by
  obtain ⟨body, times, stopWhen, emit, controlFirst⟩ := l
  intro hlegible hwithin
  obtain ⟨⟨hbody, -, -, hcondition, hemit⟩, hwritten⟩ := h hlegible hwithin
  exact ⟨⟨hbody, fun m hm => Option.some.inj hm ▸ hn, Or.inr hstop, hcondition, hemit⟩, hwritten⟩

theorem sound_stopWhen (h : (Step.loop l).Sound) {c : List StepNode} (hc : Faithful c)
    (htimes : l.times = none) (hstop : l.stopWhen = none) :
    (Step.loop { l with stopWhen := some c }).Sound := by
  obtain ⟨body, times, stopWhen, emit, controlFirst⟩ := l
  rintro hlegible ⟨hbody, hcondition, hemit⟩
  obtain rfl : stopWhen = none := hstop
  obtain ⟨⟨hne, hcount, -, -, hfilled⟩, hb, -, he⟩ := h hlegible ⟨hbody, trivial, hemit⟩
  exact ⟨⟨hne, hcount, Or.inl htimes, fun d hd => Option.some.inj hd ▸ hc.1, hfilled⟩,
    hb, chainEverywhere_of_sound hc.2 hcondition, he⟩

theorem sound_emit (h : (Step.loop l).Sound) {c : Option (List StepNode)}
    (hc : ∀ ns ∈ c, Faithful ns) (hnone : l.emit = none) :
    (Step.loop { l with emit := some ⟨.after, c⟩ }).Sound := by
  obtain ⟨body, times, stopWhen, emit, controlFirst⟩ := l
  rintro ⟨hfirst, -⟩ ⟨hbody, hcondition, hemit⟩
  obtain rfl : emit = none := hnone
  obtain ⟨⟨hne, hcount, hend, hfilled, -⟩, hb, hs, -⟩ :=
    h ⟨hfirst, nofun⟩ ⟨hbody, hcondition, trivial⟩
  refine ⟨⟨hne, hcount, hend, hfilled, ?_⟩, hb, hs, ?_⟩
  · rintro e he ns hns
    cases Option.some.inj he
    exact (hc ns hns).1
  · cases c with
    | none => trivial
    | some ns => exact chainEverywhere_of_sound (hc ns rfl).2 hemit

end Controls

/-! ## 5. Reading a call -/

namespace ChainBuilder

variable {b b' : ChainBuilder} {nested : List Nested}

/-- The steps on the stack, the last one first: at the bottom the source, if there is one, and on
top of it sound steps. -/
inductive Stacked (source : Option (ElementKind × List Value)) : List StepNode → Prop
  | empty (h : source = none) : Stacked source []
  | source {kind : ElementKind} {ids : List Value} {labels : SortedSet String}
      (h : source = some (kind, ids)) (hlabels : labels.Ascending) :
      Stacked source [⟨.graph kind ids, labels⟩]
  | step {n : StepNode} {ns : List StepNode} (h : Stacked source ns) (hn : n.Sound) :
      Stacked source (n :: ns)

/-- A call was read: there is a step, or a control that waits for a loop. -/
def Started (b : ChainBuilder) : Prop := b.steps ≠ [] ∨ b.pending.dangling? ≠ none

/-- A control goes to the loop before if that has room for it, and is put off otherwise. -/
def control (b : ChainBuilder) (hasRoom : Loop → Bool) (change : Loop → Loop)
    (wait : PendingLoop → PendingLoop) : ChainBuilder :=
  match b.lastLoop? with
  | some (l, put) => if hasRoom l then put (change l) else b.postpone wait
  | none => b.postpone wait

theorem control_cases (b : ChainBuilder) (hasRoom : Loop → Bool) (change : Loop → Loop)
    (wait : PendingLoop → PendingLoop) :
    b.control hasRoom change wait = b.postpone wait ∨
      ∃ l labels before, b.steps = ⟨.loop l, labels⟩ :: before ∧ hasRoom l = true ∧
        b.control hasRoom change wait =
          { b with steps := ⟨.loop (change l), labels⟩ :: before, ordering := false } := by
  unfold control
  split
  · rename_i l put hlast
    split
    · rename_i hroom
      unfold lastLoop? at hlast
      split at hlast
      · rename_i l' labels before hsteps
        cases hlast
        exact Or.inr ⟨l, labels, before, hsteps, hroom, rfl⟩
      · cases hlast
    · exact Or.inl rfl
  · exact Or.inl rfl

/-- What a call does to a chain under construction, given the chains among its arguments. -/
inductive Takes (b : ChainBuilder) (nested : List Nested) : ChainBuilder → Prop
  /-- A sort key that was read with its `order()`. -/
  | known (h : b.ordering = true) : Takes b nested b
  | step {s : Step} {ordering : Bool} (h : s.Sound) : Takes b nested { b.push s with ordering }
  | label {names : List String} {b' : ChainBuilder} (h : b.label names = .ok b') :
      Takes b nested b'
  | loop {body : List StepNode} (h : Faithful body) : Takes b nested (b.pushLoop body)
  | times {n : Nat} (h : n ≤ Reading.largest) : Takes b nested (b.times n)
  | stopWhen {c : List StepNode} (h : Faithful c) : Takes b nested (b.stopWhen c)
  | emit {c : Option (List StepNode)} (h : ∀ ns ∈ c, Faithful ns) : Takes b nested (b.emit c)

theorem times_eq (b : ChainBuilder) (n : Nat) : b.times n =
    b.control (fun l => l.times.isNone && l.stopWhen.isNone) (fun l => { l with times := some n })
      fun p => { p with times := some n } := rfl

theorem stopWhen_eq (b : ChainBuilder) (c : List StepNode) : b.stopWhen c =
    b.control (fun l => l.times.isNone && l.stopWhen.isNone)
      (fun l => { l with stopWhen := some c }) fun p => { p with stopWhen := some c } := rfl

theorem emit_eq (b : ChainBuilder) (c : Option (List StepNode)) : b.emit c =
    b.control (fun l => l.emit.isNone) (fun l => { l with emit := some ⟨.after, c⟩ })
      fun p => { p with emit := some c } := rfl

section Source

variable {source : Option (ElementKind × List Value)}

theorem Stacked.label {names : List String} (hb : Stacked source b.steps)
    (h : b.label names = .ok b') : Stacked source b'.steps := by
  unfold ChainBuilder.label at h
  split at h
  · rename_i last before hsteps
    cases h
    rw [hsteps] at hb
    cases hb with
    | source hsource hlabels => exact .source hsource (hlabels.insertAll names)
    | step hbefore hn => exact .step hbefore ⟨hn.1, hn.2.insertAll names⟩
  · cases h

theorem Stacked.control {hasRoom : Loop → Bool} {change : Loop → Loop}
    {wait : PendingLoop → PendingLoop} (hb : Stacked source b.steps)
    (hsound : ∀ l : Loop, hasRoom l = true → (Step.loop l).Sound → (Step.loop (change l)).Sound) :
    Stacked source (b.control hasRoom change wait).steps := by
  rcases b.control_cases hasRoom change wait with heq | ⟨l, labels, before, hsteps, hroom, heq⟩
  · rw [heq]
    exact hb
  · rw [heq]
    rw [hsteps] at hb
    cases hb with
    | step hbefore hn => exact .step hbefore ⟨hsound l hroom hn.1, hn.2⟩

theorem Takes.stacked (h : b.Takes nested b') (hb : Stacked source b.steps) :
    Stacked source b'.steps := by
  cases h with
  | known _ => exact hb
  | step hs => exact .step hb ⟨hs, SortedSet.ascending_empty⟩
  | loop hbody => exact .step hb ⟨sound_pushLoop _ hbody, SortedSet.ascending_empty⟩
  | label h => exact hb.label h
  | times hn =>
    rw [times_eq]
    refine hb.control fun l hroom hl => ?_
    simp only [Bool.and_eq_true, Option.isNone_iff_eq_none] at hroom
    exact sound_times hl hn hroom.2
  | stopWhen hc =>
    rw [stopWhen_eq]
    refine hb.control fun l hroom hl => ?_
    simp only [Bool.and_eq_true, Option.isNone_iff_eq_none] at hroom
    exact sound_stopWhen hl hc hroom.1 hroom.2
  | emit hc =>
    rw [emit_eq]
    refine hb.control fun l hroom hl => ?_
    exact sound_emit hl hc (Option.isNone_iff_eq_none.mp hroom)

end Source

theorem started_control {hasRoom : Loop → Bool} {change : Loop → Loop}
    {wait : PendingLoop → PendingLoop} (hwait : (wait b.pending).dangling? ≠ none) :
    (b.control hasRoom change wait).Started := by
  rcases b.control_cases hasRoom change wait with heq | ⟨l, labels, before, -, -, heq⟩
  · rw [heq]
    exact Or.inr hwait
  · rw [heq]
    exact Or.inl (List.cons_ne_nil _ _)

theorem Takes.started (h : b.Takes nested b') (hb : b.ordering = true → b.Started) :
    b'.Started := by
  cases h with
  | known hordering => exact hb hordering
  | step _ | loop _ => exact Or.inl (List.cons_ne_nil _ _)
  | label h =>
    unfold ChainBuilder.label at h
    split at h
    · cases h
      exact Or.inl (List.cons_ne_nil _ _)
    · cases h
  | times _ => exact started_control (by simp [PendingLoop.dangling?])
  | stopWhen _ =>
    refine started_control ?_
    unfold PendingLoop.dangling?
    split <;> simp
  | emit _ =>
    refine started_control ?_
    unfold PendingLoop.dangling?
    split
    · simp
    · split <;> simp

/-! ### the cases of a call -/

theorem countAt_le {c : Call} {index n : Nat} (h : c.countAt index = .ok n) :
    n ≤ Reading.largest := by
  unfold Call.countAt at h
  split at h
  · rename_i i hi
    split at h
    · cases h
      have := Int64.toInt_lt i
      unfold Reading.largest
      omega
    · cases h
  · cases h

theorem sound_slice {c : Call} {s : Slice} (h : c.slice = .ok s) : (Step.range s).Sound := by
  unfold Call.slice at h
  obtain ⟨low, hlow, h⟩ := bind_ok h
  split at h
  · cases h
    exact sound_range (countAt_le hlow) nofun
  · obtain ⟨high, hhigh, h⟩ := bind_ok h
    obtain ⟨n, hn, rfl⟩ := map_ok hhigh
    dsimp only at h
    split at h
    · cases h
    · rename_i hle
      cases h
      refine sound_range (countAt_le hlow) fun m hm => ?_
      cases Option.some.inj hm
      exact ⟨by simpa using hle, countAt_le hn⟩

theorem sortSpecs_ne_nil {following : List Call} {specs : List SortSpec}
    (h : sortSpecs following = .ok specs) : specs ≠ [] := by
  unfold sortSpecs at h
  obtain ⟨found, -, h⟩ := bind_ok h
  split at h
  · cases h
    exact List.cons_ne_nil _ _
  · rename_i hne
    cases h
    exact hne

theorem mem_of_chainAt {c : Call} {index : Nat} {ns : List StepNode}
    (h : c.chainAt nested index = .ok ns) : some (.ok ns) ∈ nested := by
  unfold Call.chainAt at h
  split at h
  · rename_i r hr
    exact h ▸ List.mem_of_getElem? hr
  · cases h

/-- Every case of reading a call does one of the listed things. -/
theorem takes_of_read {c : Call} {following : List Call}
    (hnested : ∀ ns, some (.ok ns) ∈ nested → Faithful ns)
    (h : b.read c nested following = .ok b') : b.Takes nested b' := by
  have hchain {index : Nat} {ns : List StepNode} (h : c.chainAt nested index = .ok ns) :=
    hnested ns (mem_of_chainAt h)
  unfold read at h
  split at h
  · rename_i hknown
    cases h
    exact .known (Bool.and_eq_true_iff.mp hknown).1
  split at h
  · obtain ⟨m, -, h⟩ := bind_ok h
    cases h
    exact .step fun _ _ => ⟨trivial, trivial⟩
  split at h
  case h_1 | h_2 | h_3 =>
    -- a filter is not legible
    obtain ⟨fs, -, h⟩ := bind_ok h
    cases h
    exact .step nofun
  case h_4 =>
    obtain ⟨keys, -, h⟩ := bind_ok h
    split at h
    · cases h
      exact .step nofun
    · cases h
  case h_5 =>
    obtain ⟨names, -, h⟩ := bind_ok h
    exact .label h
  case h_6 =>
    obtain ⟨specs, hspecs, h⟩ := bind_ok h
    cases h
    exact .step fun _ _ => ⟨sortSpecs_ne_nil hspecs, trivial⟩
  case h_7 =>
    obtain ⟨n, hn, h⟩ := bind_ok h
    cases h
    refine .step (sound_range (Nat.zero_le _) fun high hhigh => ?_)
    cases Option.some.inj hhigh
    exact ⟨Nat.zero_le _, countAt_le hn⟩
  case h_8 =>
    obtain ⟨n, hn, h⟩ := bind_ok h
    cases h
    exact .step (sound_range (countAt_le hn) nofun)
  case h_9 =>
    obtain ⟨s, hs, h⟩ := bind_ok h
    cases h
    exact .step (sound_slice hs)
  case h_10 =>
    obtain ⟨body, hbody, h⟩ := bind_ok h
    cases h
    exact .loop (hchain hbody)
  case h_11 =>
    obtain ⟨n, hn, h⟩ := bind_ok h
    cases h
    exact .times (countAt_le hn)
  case h_12 =>
    obtain ⟨condition, hcondition, h⟩ := bind_ok h
    cases h
    exact .stopWhen (hchain hcondition)
  case h_13 =>
    split at h
    · cases h
      exact .emit nofun
    · obtain ⟨condition, hcondition, h⟩ := bind_ok h
      cases h
      exact .emit fun ns hns => Option.some.inj hns ▸ hchain hcondition
  case h_14 =>
    obtain ⟨body, hbody, h⟩ := bind_ok h
    cases h
    exact .step (sound_optional (hchain hbody))
  case h_15 | h_16 | h_17 | h_18 =>
    cases h
    exact .step fun _ _ => ⟨trivial, trivial⟩
  case h_19 =>
    split at h
    · obtain ⟨condition, -, h⟩ := bind_ok h
      obtain ⟨yes, -, h⟩ := bind_ok h
      obtain ⟨no, -, h⟩ := bind_ok h
      cases h
      exact .step nofun
    · cases h
      exact .step nofun
  case h_20 =>
    cases h
    exact .step nofun

end ChainBuilder

/-! ## 6. Reading a chain -/

open ChainBuilder

theorem finish_ok {b : ChainBuilder} {ns : List StepNode} (h : b.finish = .ok ns) :
    b.pending.dangling? = none ∧ ns = b.steps.reverse := by
  unfold finish at h
  split at h
  · cases h
  · rename_i hnone
    cases h
    exact ⟨hnone, rfl⟩

theorem ChainBuilder.Stacked.sound_of_none {ns : List StepNode} (h : Stacked none ns) :
    ∀ n ∈ ns, n.Sound := by
  induction h with
  | empty _ => exact nofun
  | source h _ => cases h
  | step _ hn ih => exact List.forall_mem_cons.mpr ⟨hn, ih⟩

mutual

/-- Calls leave sound steps on the stack, and one of them at least starts the chain. -/
theorem readCalls_stacked {source : Option (ElementKind × List Value)} :
    ∀ (cs : List Call), callsFilled cs → ∀ {b b' : ChainBuilder}, Stacked source b.steps →
      (b.ordering = true → b.Started) → readCalls b cs = .ok b' →
      Stacked source b'.steps ∧ (b.Started ∨ cs ≠ [] → b'.Started)
  | [], _, _, _, hb, _, h => by
    cases h
    exact ⟨hb, fun h => h.resolve_right (absurd rfl)⟩
  | ⟨name, arguments⟩ :: rest, hfilled, b, b', hb, hordering, h => by
    obtain ⟨b₁, hread, hrest⟩ := bind_ok h
    have htakes := takes_of_read (nestedChains_faithful arguments hfilled.1) hread
    have hstarted := htakes.started hordering
    obtain ⟨hstacked, hends⟩ :=
      readCalls_stacked rest hfilled.2 (htakes.stacked hb) (fun _ => hstarted) hrest
    exact ⟨hstacked, fun _ => hends (Or.inl hstarted)⟩

theorem nestedChains_faithful : ∀ (as : List Argument), argumentsFilled as →
    ∀ ns, some (.ok ns) ∈ nestedChains as → Faithful ns
  | [], _, _, h => by cases h
  | a :: as, hfilled, ns, h => by
    rcases List.mem_cons.mp h with h | h
    · exact nested_faithful a hfilled.1 ns h.symm
    · exact nestedChains_faithful as hfilled.2 ns h

theorem nested_faithful : ∀ (a : Argument), a.Filled → ∀ ns, a.nested = some (.ok ns) → Faithful ns
  | .chain calls, hfilled, ns, h => by
    obtain ⟨b, hb, hfinish⟩ := bind_ok (Option.some.inj h)
    obtain ⟨hstacked, hstarted⟩ :=
      readCalls_stacked calls hfilled.2 (.empty rfl) (fun h => by cases h) hb
    obtain ⟨hdone, rfl⟩ := finish_ok hfinish
    have hne : b.steps ≠ [] := (hstarted (Or.inr hfilled.1)).resolve_right fun h => h hdone
    exact ⟨by simpa using hne, fun n hn => hstacked.sound_of_none n (List.mem_reverse.mp hn)⟩
  | .string _, _, _, h => by cases h
  | .int _, _, _, h => by cases h
  | .float _, _, _, h => by cases h
  | .keyword _, _, _, h => by cases h
  | .lambda _, _, _, h => by cases h

end

/-- An id of a source is a literal: no text spells a stored record. -/
def Value.Literal : Value → Prop
  | .record _ => False
  | .null | .bool _ | .int _ | .float _ | .string _ => True

theorem literal_of_value {step : String} {a : Argument} {v : Value} (h : a.value step = .ok v) :
    v.Literal := by
  unfold Argument.value at h
  split at h <;> cases h <;> trivial

theorem literal_of_values {c : Call} {vs : List Value} (h : c.values = .ok vs) :
    ∀ v ∈ vs, v.Literal := by
  intro v hv
  obtain ⟨a, -, ha⟩ := exists_of_mem_right (forall₂_of_mapM h) hv
  exact literal_of_value ha

theorem ChainBuilder.Stacked.reverse_eq {kind : ElementKind} {ids : List Value}
    {steps : List StepNode} (h : Stacked (some (kind, ids)) steps) :
    ∃ labels ns, steps.reverse = ⟨.graph kind ids, labels⟩ :: ns ∧ labels.Ascending ∧
      ∀ n ∈ ns, n.Sound := by
  induction h with
  | empty h => cases h
  | source h hlabels =>
    cases h
    exact ⟨_, [], rfl, hlabels, nofun⟩
  | @step n _ _ hn ih =>
    obtain ⟨labels, ns, heq, hlabels, hsound⟩ := ih
    refine ⟨labels, ns ++ [n], by rw [List.reverse_cons, heq]; rfl, hlabels, ?_⟩
    exact List.forall_mem_append.mpr ⟨hsound, List.forall_mem_singleton.mpr hn⟩

/-- **What reading yields.** A traversal that was read is a source with literal ids, and sound steps
behind it. -/
theorem Traversal.parse_sound {text : String} {t : Traversal} (h : parse text = .ok t) :
    ∃ kind ids labels ns, t = ⟨⟨.graph kind ids, labels⟩ :: ns, false⟩ ∧
      (∀ v ∈ ids, v.Literal) ∧ labels.Ascending ∧ ∀ n ∈ ns, n.Sound := by
  unfold parse at h
  split at h
  · cases h
  · rename_i calls rest hsource
    have hfilled := callsFilled_iff.mpr fun c hc => (Grammar.phrase_of_source hsource c hc).filled
    dsimp only at h
    split at h
    · cases h
    split at h
    · cases h
    · rename_i first calls
      split at h
      · rename_i kind hkind
        obtain ⟨ids, hids, h⟩ := bind_ok h
        obtain ⟨built, hbuilt, h⟩ := bind_ok h
        obtain ⟨steps, hsteps, h⟩ := bind_ok h
        cases h
        obtain ⟨-, rfl⟩ := finish_ok hsteps
        have hsource : Stacked (some (kind, ids)) [.plain (.graph kind ids)] :=
          .source rfl SortedSet.ascending_empty
        obtain ⟨hstacked, -⟩ :=
          readCalls_stacked calls hfilled.2 hsource (fun h => by cases h) hbuilt
        obtain ⟨labels, ns, heq, hlabels, hsound⟩ := hstacked.reverse_eq
        exact ⟨kind, ids, labels, ns, by rw [heq], literal_of_values hids, hlabels, hsound⟩
      · cases h

end TraversalSql
