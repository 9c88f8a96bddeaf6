import TraversalSql.Proofs.ParsedChains

/-!
# Where the controls of a loop go

A loop is controlled by a count of turns, by a condition that ends it and by an emit, and the calls
for them may stand on either side of it. A call behind a loop is taken by the loop, if that has room
for it; any other call waits for the loop that comes next. Which of the two happens depends on the
names of the calls before alone, and section 1 says how (`waits`, `hasRoom`).

The rest follows the reader call by call and keeps accounts: each call for a control is one that a
loop has, or it waits, or it was replaced. The last is a loss. While a call waits, another one of its
name takes its place, and nobody hears of it. There is no other: a loop keeps a control that it has,
and a chain with controls that still wait at its end is refused.
-/

set_option autoImplicit false

namespace TraversalSql

/-! ## 1. Controls, by the names of calls -/

/-- The step is a loop with the property. -/
def StepNode.isLoopThat (p : Loop → Bool) (n : StepNode) : Bool :=
  match n.step with
  | .loop l => p l
  | _ => false

theorem StepNode.isLoopThat_eq_false {p : Loop → Bool} {n : StepNode}
    (h : ∀ l, n.step ≠ .loop l) : n.isLoopThat p = false := by
  obtain ⟨s, labels⟩ := n
  cases s with
  | loop l => exact absurd rfl (h l)
  | _ => rfl

/-- What controls a loop besides its body. -/
inductive LoopControl where
  | times
  | stopWhen
  | emit
deriving DecidableEq

namespace LoopControl

/-- The name of the calls for the control. -/
def word : LoopControl → String
  | times => "times"
  | stopWhen => "until"
  | emit => "emit"

def ofName? : String → Option LoopControl
  | "times" => some times
  | "until" => some stopWhen
  | "emit" => some emit
  | _ => none

/-- The call is one for the control. -/
def names (x : LoopControl) (c : Call) : Bool := c.name == x.word

/-- The controls of which a loop takes one only: it is ended by a count or by a condition. -/
def rivals : LoopControl → List LoopControl
  | times | stopWhen => [times, stopWhen]
  | emit => [emit]

mutual

/-- Behind these calls, the last one first, a call for the control waits for the next loop. -/
def waits (x : LoopControl) : List Call → Bool
  | [] => false
  | c :: before =>
    if c.name = "repeat" then false
    else x.names c && !x.hasRoom before || x.waits before

/-- Behind these calls, the last one first, the last step is a loop that has room for the control: no
rival waited for it, and none was given to it since. Names do not come between a loop and its
controls, every other call does. -/
def hasRoom (x : LoopControl) : List Call → Bool
  | [] => false
  | c :: before =>
    if c.name = "repeat" then x.rivals.all fun y => !y.waits before
    else if c.name = "as" then x.hasRoom before
    else match ofName? c.name with
      | some y => !x.rivals.contains y && x.hasRoom before
      | none => false

end

/-- The number of calls for the control that came, the last call first, while another one waited. -/
def replaced (x : LoopControl) : List Call → Nat
  | [] => 0
  | c :: before => x.replaced before + if x.names c && x.waits before then 1 else 0

/-- The loop has the control. -/
def isIn : LoopControl → Loop → Bool
  | times, l => l.times.isSome
  | stopWhen, l => l.stopWhen.isSome
  | emit, l => l.emit.isSome

/-- The step is a loop that has the control. -/
def isAt (x : LoopControl) (n : StepNode) : Bool := n.isLoopThat x.isIn

def isPending : LoopControl → PendingLoop → Bool
  | times, p => p.times.isSome
  | stopWhen, p => p.stopWhen.isSome
  | emit, p => p.emit.isSome

/-- The loop has room for the control. -/
def fits (x : LoopControl) (l : Loop) : Bool := x.rivals.all fun y => !y.isIn l

variable {x y : LoopControl} {c : Call} {before : List Call}

theorem ofName?_word (x : LoopControl) : ofName? x.word = some x := by
  cases x <;> rfl

theorem mem_rivals_self (x : LoopControl) : x ∈ x.rivals := by
  cases x <;> decide

theorem rivals_eq (h : x ∈ y.rivals) : x.rivals = y.rivals := by
  revert h
  cases x <;> cases y <;> decide

theorem names_of_word (h : c.name = x.word) : y.names c = decide (y = x) := by
  cases x <;> cases y <;> simp [names, h, word]

theorem names_eq_false (h : ofName? c.name = none) : x.names c = false := by
  rw [names, beq_eq_false_iff_ne]
  intro hname
  rw [hname, ofName?_word] at h
  cases h

theorem waits_cons_other (hrepeat : c.name ≠ "repeat") (h : x.names c = false) :
    x.waits (c :: before) = x.waits before := by
  simp [waits, hrepeat, h]

/-- Calls of the name have nothing to do with loops. -/
def IsAside (name : String) : Prop := name ≠ "repeat" ∧ name ≠ "as" ∧ ofName? name = none

instance (name : String) : Decidable (IsAside name) := inferInstanceAs (Decidable (_ ∧ _ ∧ _))

theorem IsAside.names (h : IsAside c.name) : x.names c = false := names_eq_false h.2.2

theorem IsAside.waits (h : IsAside c.name) : x.waits (c :: before) = x.waits before :=
  waits_cons_other h.1 h.names

theorem IsAside.hasRoom (h : IsAside c.name) : x.hasRoom (c :: before) = false := by
  simp [LoopControl.hasRoom, h.1, h.2.1, h.2.2]

theorem word_ne (x : LoopControl) : x.word ≠ "repeat" ∧ x.word ≠ "as" := by
  cases x <;> decide

theorem waits_cons_word (h : c.name = x.word) :
    y.waits (c :: before) = (decide (y = x) && !y.hasRoom before || y.waits before) := by
  rw [waits, if_neg (h ▸ x.word_ne.1), names_of_word h]

theorem hasRoom_cons_word (h : c.name = x.word) :
    y.hasRoom (c :: before) = (!y.rivals.contains x && y.hasRoom before) := by
  rw [hasRoom, if_neg (h ▸ x.word_ne.1), if_neg (h ▸ x.word_ne.2), h, ofName?_word]

/-- A loop that has room for a control does not have it. -/
theorem isIn_of_fits {l : Loop} (h : x.fits l = true) : x.isIn l = false := by
  simpa using List.all_eq_true.mp h x x.mem_rivals_self

/-- What waits does so since the last loop, which had no room for it and has none since. -/
theorem hasRoom_of_waits (h : x.waits before = true) : x.hasRoom before = false := by
  induction before with
  | nil => rfl
  | cons c before ih =>
    by_cases hrepeat : c.name = "repeat"
    · rw [waits, if_pos hrepeat] at h
      cases h
    · by_cases hx : x.names c = true
      · -- a control is a rival of itself
        rw [hasRoom_cons_word (beq_iff_eq.mp hx), Bool.and_eq_false_iff]
        exact Or.inl (by simp [mem_rivals_self])
      · rw [waits_cons_other hrepeat (by simpa using hx)] at h
        simp only [hasRoom, hrepeat, if_false, ih h, Bool.and_false]
        split
        · rfl
        · split <;> rfl

end LoopControl

/-! ## 2. What a call does -/

namespace ChainBuilder

open LoopControl

variable {b b' : ChainBuilder} {nested : List Nested} {following : List Call}

/-- The last step is a loop with room for the control. -/
def roomFor (b : ChainBuilder) (x : LoopControl) : Bool :=
  b.steps.head?.any (StepNode.isLoopThat x.fits)

/-- The changes give the control to a loop, or to what is pending, and nothing else. -/
structure Gives (x : LoopControl) (change : Loop → Loop) (wait : PendingLoop → PendingLoop) :
    Prop where
  toLoop : ∀ l y, y.isIn (change l) = (decide (y = x) || y.isIn l)
  toPending : ∀ p y, y.isPending (wait p) = (decide (y = x) || y.isPending p)

/-- What reading a call means for loops, by its name. -/
inductive Reads (b : ChainBuilder) (name : String) : ChainBuilder → Prop
  /-- A sort key that was read with its `order()`. -/
  | known (h : b.ordering = true) (hname : IsAside name) : Reads b name b
  | label {names : List String} {b' : ChainBuilder} (h : b.label names = .ok b')
      (hname : name = "as") : Reads b name b'
  | loop (body : List StepNode) (hname : name = "repeat") : Reads b name (b.pushLoop body)
  | control {x : LoopControl} {change : Loop → Loop} {wait : PendingLoop → PendingLoop}
      (h : Gives x change wait) (hname : name = x.word) : Reads b name (b.control x.fits change wait)
  | step {s : Step} {ordering : Bool} (h : ∀ l, s ≠ .loop l) (hname : IsAside name) :
      Reads b name { b.push s with ordering }

theorem reads_control {x : LoopControl} {hasRoom : Loop → Bool} {change : Loop → Loop}
    {wait : PendingLoop → PendingLoop} (hroom : ∀ l, hasRoom l = x.fits l)
    (h : Gives x change wait) : Reads b x.word (b.control hasRoom change wait) := by
  obtain rfl : hasRoom = x.fits := funext hroom
  exact .control h rfl

theorem reads_times (n : Nat) : Reads b "times" (b.times n) := by
  refine times_eq b n ▸ reads_control (x := .times) (fun l => ?_) ⟨fun l y => ?_, fun p y => ?_⟩
  · simp [fits, rivals, isIn]
  · cases y <;> simp [isIn]
  · cases y <;> simp [isPending]

theorem reads_stopWhen (condition : List StepNode) : Reads b "until" (b.stopWhen condition) := by
  refine stopWhen_eq b condition ▸
    reads_control (x := .stopWhen) (fun l => ?_) ⟨fun l y => ?_, fun p y => ?_⟩
  · simp [fits, rivals, isIn]
  · cases y <;> simp [isIn]
  · cases y <;> simp [isPending]

theorem reads_emit (condition : Option (List StepNode)) : Reads b "emit" (b.emit condition) := by
  refine emit_eq b condition ▸
    reads_control (x := .emit) (fun l => ?_) ⟨fun l y => ?_, fun p y => ?_⟩
  · simp [fits, rivals, isIn]
  · cases y <;> simp [isIn]
  · cases y <;> simp [isPending]

theorem isAside_of_move {c : Call} {m : Except ParseError Move} (h : c.move? = some m) :
    IsAside c.name := by
  unfold Call.move? at h
  split at h
  case h_10 => cases h
  all_goals
    rename_i hname
    rw [hname]
    decide

/-- Every case of reading a call does one of the listed things. -/
theorem reads_of_read {name : String} {as : List Argument}
    (h : b.read ⟨name, as⟩ nested following = .ok b') : b.Reads name b' := by
  unfold read at h
  split at h
  · rename_i hknown
    cases h
    obtain ⟨hordering, rfl⟩ : b.ordering = true ∧ name = "by" := by simpa using hknown
    exact .known hordering (by decide)
  split at h
  · rename_i hmove
    obtain ⟨m, -, h⟩ := bind_ok h
    cases h
    exact .step nofun (isAside_of_move hmove)
  split at h
  case h_1 | h_2 | h_3 | h_6 | h_7 | h_8 | h_9 | h_14 =>
    rename_i hname
    obtain ⟨x, -, h⟩ := bind_ok h
    cases h
    obtain rfl : name = _ := hname
    exact .step nofun (by decide)
  case h_4 =>
    rename_i hname
    obtain rfl : name = _ := hname
    obtain ⟨keys, -, h⟩ := bind_ok h
    split at h
    · cases h
      exact .step nofun (by decide)
    · cases h
  case h_5 =>
    rename_i hname
    obtain ⟨names, -, h⟩ := bind_ok h
    exact .label h hname
  case h_10 =>
    rename_i hname
    obtain ⟨body, -, h⟩ := bind_ok h
    cases h
    exact .loop body hname
  case h_11 =>
    rename_i hname
    obtain ⟨n, -, h⟩ := bind_ok h
    cases h
    obtain rfl : name = _ := hname
    exact reads_times n
  case h_12 =>
    rename_i hname
    obtain ⟨condition, -, h⟩ := bind_ok h
    cases h
    obtain rfl : name = _ := hname
    exact reads_stopWhen condition
  case h_13 =>
    rename_i hname
    obtain rfl : name = _ := hname
    split at h
    · cases h
      exact reads_emit none
    · obtain ⟨condition, -, h⟩ := bind_ok h
      cases h
      exact reads_emit (some condition)
  case h_15 | h_16 | h_17 | h_18 =>
    rename_i hname
    cases h
    obtain rfl : name = _ := hname
    exact .step nofun (by decide)
  case h_19 =>
    rename_i hname
    obtain rfl : name = _ := hname
    split at h
    · obtain ⟨condition, -, h⟩ := bind_ok h
      obtain ⟨yes, -, h⟩ := bind_ok h
      obtain ⟨no, -, h⟩ := bind_ok h
      cases h
      exact .step nofun (by decide)
    · cases h
      exact .step nofun (by decide)
  case h_20 =>
    cases h
    refine .step nofun ⟨‹_›, ‹_›, ?_⟩
    unfold ofName?
    split
    case h_4 => rfl
    all_goals contradiction

/-! ## 3. Accounts -/

/-- What the names of the calls say of the chain that was built, and where the calls for each
control have gone. -/
structure Accounts (before : List Call) (b : ChainBuilder) : Prop where
  waits : ∀ x : LoopControl, x.isPending b.pending = x.waits before
  room : ∀ x : LoopControl, b.roomFor x = x.hasRoom before
  /-- Behind an `order()` and its keys the last step is no loop. -/
  sorting : b.ordering = true → ∀ x : LoopControl, x.hasRoom before = false
  count : ∀ x : LoopControl, before.countP x.names =
    b.steps.countP x.isAt + x.replaced before + if x.waits before then 1 else 0

section Accounts

variable {before : List Call} {c : Call} {x y : LoopControl}

theorem roomFor_eq_of_mem_rivals (h : x ∈ y.rivals) : b.roomFor y = b.roomFor x := by
  have hfits : y.fits = x.fits := by
    funext l
    rw [fits, fits, rivals_eq h]
  rw [roomFor, roomFor, hfits]

/-- A call that is none for the control changes no account of it. -/
theorem Accounts.count_aside (h : Accounts before b) (hc : x.names c = false)
    (hwaits : x.waits (c :: before) = x.waits before) : (c :: before).countP x.names =
      b.steps.countP x.isAt + x.replaced (c :: before) +
        if x.waits (c :: before) then 1 else 0 := by
  rw [hwaits, List.countP_cons_of_neg (by simp [hc]), h.count x]
  simp [replaced, hc]

theorem Accounts.known (h : Accounts before b) (hordering : b.ordering = true)
    (hc : IsAside c.name) : Accounts (c :: before) b where
  waits x := (h.waits x).trans hc.waits.symm
  room x := ((h.room x).trans (h.sorting hordering x)).trans hc.hasRoom.symm
  sorting _ _ := hc.hasRoom
  count _ := h.count_aside hc.names hc.waits

theorem Accounts.step (h : Accounts before b) {s : Step} {ordering : Bool}
    (hs : ∀ l, s ≠ .loop l) (hc : IsAside c.name) :
    Accounts (c :: before) { b.push s with ordering } where
  waits x := (h.waits x).trans hc.waits.symm
  room _ := (StepNode.isLoopThat_eq_false hs).trans hc.hasRoom.symm
  sorting _ _ := hc.hasRoom
  count x := by
    have hat : x.isAt (.plain s) = false := StepNode.isLoopThat_eq_false hs
    rw [h.count_aside hc.names hc.waits]
    simp [push, hat]

theorem Accounts.label (h : Accounts before b) {names : List String} (hb : b.label names = .ok b')
    (hc : c.name = "as") : Accounts (c :: before) b' := by
  have hnames (x : LoopControl) : x.names c = false := names_eq_false (by rw [hc]; rfl)
  have hwaits (x : LoopControl) : x.waits (c :: before) = x.waits before :=
    waits_cons_other (by rw [hc]; decide) (hnames x)
  unfold ChainBuilder.label at hb
  split at hb
  · rename_i last rest hsteps
    cases hb
    refine ⟨fun x => (h.waits x).trans (hwaits x).symm, fun x => ?_, nofun, fun x => ?_⟩
    · have hlast : b.roomFor x = last.isLoopThat x.fits := by
        rw [roomFor, hsteps]
        rfl
      show last.isLoopThat x.fits = x.hasRoom (c :: before)
      simp [hasRoom, hc, ← hlast, h.room x]
    · rw [h.count_aside (hnames x) (hwaits x), hsteps, List.countP_cons, List.countP_cons]
      rfl
  · cases hb

theorem isIn_loop {p : PendingLoop} {body : List StepNode} :
    x.isIn (p.loop body) = x.isPending p := by
  cases x <;> simp [isIn, isPending, PendingLoop.loop]

theorem Accounts.loop (h : Accounts before b) (body : List StepNode) (hc : c.name = "repeat") :
    Accounts (c :: before) (b.pushLoop body) := by
  have hnames (x : LoopControl) : x.names c = false := names_eq_false (by rw [hc]; rfl)
  have hwaits (x : LoopControl) : x.waits (c :: before) = false := by
    rw [LoopControl.waits, if_pos hc]
  refine ⟨fun x => ?_, fun x => ?_, nofun, fun x => ?_⟩
  · rw [hwaits x]
    cases x <;> rfl
  · show x.fits (b.pending.loop body) = x.hasRoom (c :: before)
    simp only [fits, isIn_loop, h.waits, hasRoom, hc, if_true]
  · -- what waited is now what the new loop has
    rw [hwaits x, List.countP_cons_of_neg (by simp [hnames x]), h.count x]
    have hat : x.isAt (.plain (.loop (b.pending.loop body))) = x.waits before :=
      isIn_loop.trans (h.waits x)
    simp only [pushLoop, List.countP_cons, hat, replaced, hnames x]
    simp
    omega

/-- A control goes to the loop before if that has room for it, and waits otherwise. -/
theorem control_eq (b : ChainBuilder) (x : LoopControl) (change : Loop → Loop)
    (wait : PendingLoop → PendingLoop) :
    (b.roomFor x = false ∧ b.control x.fits change wait = b.postpone wait) ∨
      b.roomFor x = true ∧ ∃ l labels rest, b.steps = ⟨.loop l, labels⟩ :: rest ∧
        b.control x.fits change wait =
          { b with steps := ⟨.loop (change l), labels⟩ :: rest, ordering := false } := by
  obtain ⟨steps, pending, ordering⟩ := b
  rcases steps with _ | ⟨⟨s, labels⟩, rest⟩
  · exact Or.inl ⟨rfl, rfl⟩
  · cases s with
    | loop l =>
      cases hfits : x.fits l with
      | false => exact Or.inl ⟨hfits, by simp [ChainBuilder.control, lastLoop?, hfits]⟩
      | true =>
        exact Or.inr ⟨hfits, l, labels, rest, rfl, by simp [ChainBuilder.control, lastLoop?, hfits]⟩
    | _ => exact Or.inl ⟨rfl, rfl⟩

theorem Gives.fits {change : Loop → Loop} {wait : PendingLoop → PendingLoop}
    (h : Gives x change wait) (l : Loop) :
    y.fits (change l) = (!y.rivals.contains x && y.fits l) := by
  simp only [LoopControl.fits, h.toLoop]
  cases x <;> cases y <;> simp [rivals]

/-- A call waits, in the place of another one of its name if that waits already. -/
theorem Accounts.postpone (h : Accounts before b) {change : Loop → Loop}
    {wait : PendingLoop → PendingLoop} (hgives : Gives x change wait) (hc : c.name = x.word)
    (hfull : b.roomFor x = false) : Accounts (c :: before) (b.postpone wait) := by
  have hx : x.hasRoom before = false := (h.room x).symm.trans hfull
  refine ⟨fun y => ?_, fun y => ?_, nofun, fun y => ?_⟩
  · show y.isPending (wait b.pending) = y.waits (c :: before)
    rw [hgives.toPending, waits_cons_word hc, h.waits]
    by_cases hy : y = x
    · simp [hy, hx]
    · simp [hy]
  · show b.roomFor y = y.hasRoom (c :: before)
    rw [hasRoom_cons_word hc]
    by_cases hy : x ∈ y.rivals
    · -- a rival has no more room than the control itself
      simp [hy, roomFor_eq_of_mem_rivals hy, hfull]
    · simp [hy, h.room y]
  · show _ = b.steps.countP y.isAt + _ + _
    rw [List.countP_cons, h.count y, waits_cons_word hc, LoopControl.replaced, names_of_word hc]
    by_cases hy : y = x
    · subst hy
      cases hwaits : y.waits before <;> simp [hx]
      omega
    · simp [hy]

/-- The loop before takes a call that it has room for. -/
theorem Accounts.take (h : Accounts before b) {change : Loop → Loop}
    {wait : PendingLoop → PendingLoop} (hgives : Gives x change wait) (hc : c.name = x.word)
    {l : Loop} {labels : SortedSet String} {rest : List StepNode}
    (hsteps : b.steps = ⟨.loop l, labels⟩ :: rest) (hfree : b.roomFor x = true) :
    Accounts (c :: before)
      { b with steps := ⟨.loop (change l), labels⟩ :: rest, ordering := false } := by
  have hbefore (y : LoopControl) : y.hasRoom before = y.fits l := by
    rw [← h.room y, roomFor, hsteps]
    rfl
  have hx : x.hasRoom before = true := (h.room x).symm.trans hfree
  have hquiet : x.waits before = false := by
    by_contra hwaits
    rw [hasRoom_of_waits (by simpa using hwaits)] at hx
    cases hx
  have hsame (y : LoopControl) : y.waits (c :: before) = y.waits before := by
    rw [waits_cons_word hc]
    by_cases hy : y = x
    · simp [hy, hx]
    · simp [hy]
  have hat (y : LoopControl) : y.isAt ⟨.loop (change l), labels⟩ =
      (decide (y = x) || y.isAt ⟨.loop l, labels⟩) := hgives.toLoop l y
  have hnone : x.isAt ⟨.loop l, labels⟩ = false := isIn_of_fits ((hbefore x).symm.trans hx)
  refine ⟨fun y => (h.waits y).trans (hsame y).symm, fun y => ?_, nofun, fun y => ?_⟩
  · show y.fits (change l) = y.hasRoom (c :: before)
    rw [hgives.fits, hasRoom_cons_word hc, hbefore]
  · show _ = (⟨.loop (change l), labels⟩ :: rest).countP y.isAt + _ + _
    rw [List.countP_cons, h.count y, hsteps, List.countP_cons, List.countP_cons, hat, hsame,
      LoopControl.replaced, names_of_word hc]
    by_cases hy : y = x
    · subst hy
      simp [hquiet, hnone]
      omega
    · simp [hy]

theorem Accounts.control (h : Accounts before b) {change : Loop → Loop}
    {wait : PendingLoop → PendingLoop} (hgives : Gives x change wait) (hc : c.name = x.word) :
    Accounts (c :: before) (b.control x.fits change wait) := by
  rcases control_eq b x change wait with ⟨hfull, heq⟩ | ⟨hfree, l, labels, rest, hsteps, heq⟩
  · exact heq ▸ h.postpone hgives hc hfull
  · exact heq ▸ h.take hgives hc hsteps hfree

/-- **One call** keeps the accounts. -/
theorem Accounts.reads (h : Accounts before b) (hb : b.Reads c.name b') :
    Accounts (c :: before) b' := by
  cases hb with
  | known hordering hname => exact h.known hordering hname
  | label hlabel hname => exact h.label hlabel hname
  | loop body hname => exact h.loop body hname
  | control hgives hname => exact h.control hgives hname
  | step hs hname => exact h.step hs hname

/-- The accounts of a chain in which there is no loop yet. -/
theorem Accounts.start {seed : List StepNode} (h : ∀ n ∈ seed, ∀ l, n.step ≠ .loop l) :
    Accounts [] { steps := seed } := by
  refine ⟨fun x => ?_, fun x => ?_, nofun, fun x => ?_⟩
  · cases x <;> rfl
  · cases seed with
    | nil => rfl
    | cons n seed => exact StepNode.isLoopThat_eq_false (h n List.mem_cons_self)
  · have hcount : seed.countP x.isAt = 0 := List.countP_eq_zero.mpr fun n hn => by
      simp [isAt, StepNode.isLoopThat_eq_false (h n hn)]
    show 0 = seed.countP x.isAt + 0 + 0
    rw [hcount]

/-- **All calls** keep the accounts. -/
theorem Accounts.readCalls : ∀ (cs : List Call) {before : List Call} {b b' : ChainBuilder},
    Accounts before b → readCalls b cs = .ok b' → Accounts (cs.reverse ++ before) b'
  | [], _, _, _, h, hb => by
    cases hb
    exact h
  | ⟨name, arguments⟩ :: cs, before, b, b', h, hb => by
    obtain ⟨b₁, hread, hrest⟩ := bind_ok hb
    have hstep : Accounts (⟨name, arguments⟩ :: before) b₁ := h.reads (reads_of_read hread)
    simpa using hstep.readCalls cs hrest

end Accounts

theorem dangling_eq_none_iff (p : PendingLoop) :
    p.dangling? = none ↔ ∀ x : LoopControl, x.isPending p = false := by
  constructor
  · intro h x
    unfold PendingLoop.dangling? at h
    split at h
    · cases h
    split at h
    · cases h
    split at h
    · cases h
    rename_i htimes hstop hemit
    cases x with
    | times => exact Bool.eq_false_of_not_eq_true htimes
    | stopWhen => exact Bool.eq_false_of_not_eq_true hstop
    | emit => exact Bool.eq_false_of_not_eq_true hemit
  · intro h
    have htimes : p.times.isSome = false := h .times
    have hstop : p.stopWhen.isSome = false := h .stopWhen
    have hemit : p.emit.isSome = false := h .emit
    simp [PendingLoop.dangling?, htimes, hstop, hemit]

theorem finish_ok_iff : (∃ steps, b.finish = .ok steps) ↔
    ∀ x : LoopControl, x.isPending b.pending = false := by
  rw [← dangling_eq_none_iff]
  refine ⟨fun ⟨steps, h⟩ => (finish_ok h).1, fun h => ⟨b.steps.reverse, ?_⟩⟩
  unfold finish
  rw [h]

end ChainBuilder

/-! ## 4. Nothing but replaced calls is lost -/

namespace LoopControl

open ChainBuilder

variable {x : LoopControl}

theorem replaced_eq_zero_iff {before : List Call} : x.replaced before = 0 ↔
    ∀ c earlier, c :: earlier <:+ before → x.names c = true → x.waits earlier = false := by
  induction before with
  | nil => simp [replaced]
  | cons d before ih =>
    simp only [replaced, Nat.add_eq_zero_iff, ih, List.suffix_cons_iff, List.cons.injEq]
    constructor
    · rintro ⟨hbefore, hlast⟩ c earlier (⟨rfl, rfl⟩ | hsuffix) hc
      · simpa [hc] using hlast
      · exact hbefore c earlier hsuffix hc
    · intro h
      refine ⟨fun c earlier hsuffix => h c earlier (Or.inr hsuffix), ?_⟩
      cases hd : x.names d with
      | false => simp
      | true => simp [h d before (Or.inl ⟨rfl, rfl⟩) hd]

/-- **Where the calls for controls go.** Let calls be read into a chain that has no loop yet. The
chain is refused exactly if a control still waits at its end. If it is not, the calls for a control
are as many as the loops that have it and the calls that came while another one waited. So there is
a loop for each call exactly if no call comes while one of its name waits. -/
theorem calls_counted {seed : List StepNode} {calls : List Call} {b : ChainBuilder}
    (hseed : ∀ n ∈ seed, ∀ l, n.step ≠ .loop l) (h : readCalls { steps := seed } calls = .ok b) :
    ((∃ steps, b.finish = .ok steps) ↔ ∀ x : LoopControl, x.waits calls.reverse = false) ∧
    ∀ steps, b.finish = .ok steps → ∀ x : LoopControl,
      calls.countP x.names = steps.countP x.isAt + x.replaced calls.reverse ∧
      (calls.countP x.names = steps.countP x.isAt ↔
        ∀ earlier c, earlier ++ [c] <+: calls → x.names c = true →
          x.waits earlier.reverse = false) := by
  have haccounts : Accounts calls.reverse b := by
    simpa using (Accounts.start hseed).readCalls calls h
  have hfinish : (∃ steps, b.finish = .ok steps) ↔
      ∀ x : LoopControl, x.waits calls.reverse = false := by
    rw [finish_ok_iff]
    exact forall_congr' fun x => by rw [haccounts.waits x]
  refine ⟨hfinish, fun steps hsteps x => ?_⟩
  obtain ⟨-, rfl⟩ := finish_ok hsteps
  have hquiet : x.waits calls.reverse = false := hfinish.mp ⟨_, hsteps⟩ x
  have hcount : calls.countP x.names = b.steps.reverse.countP x.isAt + x.replaced calls.reverse := by
    simpa [hquiet, List.countP_reverse] using haccounts.count x
  refine ⟨hcount, ?_⟩
  have hzero : calls.countP x.names = b.steps.reverse.countP x.isAt ↔
      x.replaced calls.reverse = 0 := by omega
  rw [hzero, replaced_eq_zero_iff]
  constructor
  · intro hall earlier c hprefix
    exact hall c earlier.reverse (by simpa using List.reverse_suffix.mpr hprefix)
  · intro hall c earlier hsuffix hc
    have hprefix : earlier.reverse ++ [c] <+: calls := by
      simpa using List.reverse_prefix.mpr hsuffix
    simpa using hall earlier.reverse c hprefix hc

end LoopControl

/-! ## 5. Two loops with counts, and one with two -/

namespace Rounds

def out : Call := ⟨"out", []⟩

def source : StepNode := .plain (.graph .vertex [])

/-- Controls on both sides of two loops, some of which wait behind the first for the second. -/
def twoLoops : List Call := [⟨"emit", []⟩, ⟨"times", [.int 2]⟩, ⟨"repeat", [.chain [out]]⟩,
  ⟨"as", [.string "a"]⟩, ⟨"emit", []⟩, ⟨"times", [.int 3]⟩, ⟨"repeat", [.chain [out]]⟩]

def twoLoopsRead : List StepNode :=
  [source,
    ⟨.loop ⟨[.plain (.move (.follow .outgoing [] .vertex))], some 2, none, some ⟨.before, none⟩,
      true⟩, (∅ : SortedSet String).insert "a"⟩,
    .plain (.loop ⟨[.plain (.move (.follow .outgoing [] .vertex))], some 3, none,
      some ⟨.before, none⟩, true⟩)]

/-- Each loop has its count of turns. -/
theorem two_loops_counted :
    readCalls { steps := [source] } twoLoops = .ok { steps := twoLoopsRead.reverse } ∧
    ChainBuilder.finish { steps := twoLoopsRead.reverse } = .ok twoLoopsRead ∧
    twoLoops.countP LoopControl.times.names = twoLoopsRead.countP LoopControl.times.isAt ∧
    ∀ earlier c, earlier ++ [c] <+: twoLoops → LoopControl.times.names c = true →
      LoopControl.times.waits earlier.reverse = false := by
  have hread : readCalls { steps := [source] } twoLoops =
      .ok { steps := twoLoopsRead.reverse } := by rfl
  have hfinish : ChainBuilder.finish { steps := twoLoopsRead.reverse } = .ok twoLoopsRead := by rfl
  have hseed : ∀ n ∈ [source], ∀ l, n.step ≠ .loop l := by simp [source, StepNode.plain]
  obtain ⟨hcount, hiff⟩ := (LoopControl.calls_counted hseed hread).2 _ hfinish .times
  have hnone : LoopControl.times.replaced twoLoops.reverse = 0 := by decide
  have hsame : twoLoops.countP LoopControl.times.names =
      twoLoopsRead.countP LoopControl.times.isAt := by rw [hcount, hnone, Nat.add_zero]
  exact ⟨hread, hfinish, hsame, hiff.mp hsame⟩

/-- The second count of turns comes while the first one waits. -/
def twoCounts : List Call :=
  [⟨"times", [.int 2]⟩, ⟨"times", [.int 3]⟩, ⟨"repeat", [.chain [out]]⟩]

/-- The chain is accepted, and its only loop has the second count. -/
theorem not_forall_calls_counted : ¬ ∀ (calls : List Call) (steps : List StepNode),
    (readCalls { steps := [source] } calls >>= ChainBuilder.finish) = .ok steps →
      calls.countP LoopControl.times.names = steps.countP LoopControl.times.isAt := by
  intro h
  have hread : (readCalls { steps := [source] } twoCounts >>= ChainBuilder.finish) =
      .ok [source, .plain (.loop ⟨[.plain (.move (.follow .outgoing [] .vertex))], some 3, none,
        none, true⟩)] := by rfl
  have hclaim := h twoCounts _ hread
  revert hclaim
  decide

end Rounds

end TraversalSql
