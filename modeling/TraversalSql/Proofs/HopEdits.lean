import TraversalSql.Proofs.Scanning
import TraversalSql.Proofs.Sorted

/-!
# What is done to the hops of a run

Composites nest and loops come around, but all that reading a step does is a row of small changes:
another hop, or something that is put on the last one. `StepNode.edits` lists them for a step, with
its composites laid open and its loops written out, and the hops of a run come of the edits of the
steps that it took, one after the other (`fuseRun_edited`). To know something of every hop one
looks at each kind of edit then, and there is no recursion over steps any more. And what can come
after what shows in the list itself: `Orderly` says that no hop is added behind a slice or a
deletion, and that a run does not both emit and join optionally.
-/

set_option autoImplicit false

namespace TraversalSql

/-! ## 1. Edits -/

/-- One change to the hops of a run. -/
inductive HopEdit where
  /-- Another hop. -/
  | move (m : Move) (names : SortedSet String) (untilFirst leftJoin : Bool)
  | name (names : SortedSet String)
  | carry (filters : List Filter)
  | sort (specs : List SortSpec)
  | slice (slice : Slice)
  | emit
  | drop

namespace HopEdit

/-- What is put on the last hop. -/
def change (fullText : Bool) : HopEdit → Hop → Hop
  | .move .. => id
  | .name names => fun h => h.addUserLabels names.toList
  | .carry fs => Hop.carrying (.ofFilters fullText fs)
  | .sort specs => fun h => { h with order := h.order ++ specs }
  | .slice s => fun h => { h with range := some s }
  | .emit => Hop.markEmit
  | .drop => fun h => { h with drop := true }

def isMove : HopEdit → Bool
  | .move .. => true
  | _ => false

/-- The run ends at the hop that it is put on. -/
def ends : HopEdit → Bool
  | .slice _ | .drop => true
  | _ => false

/-- It begins an optional part. -/
def opensJoin : HopEdit → Bool
  | .move _ _ _ leftJoin => leftJoin
  | _ => false

/-- The other edit can come later. -/
def Precedes (d e : HopEdit) : Prop := d.ends = true → e.isMove = false

/-- Anything can follow it. -/
structure IsOpen (d : HopEdit) : Prop where
  ends : d.ends = false
  opensJoin : d.opensJoin = false
  emit : d ≠ .emit

end HopEdit

/-! ## 2. The edits of steps -/

mutual

/-- The edits of a body, one step after the other. -/
def bodyEdits (untilFirst : Bool) : List StepNode → List HopEdit
  | [] => []
  | ⟨step, names⟩ :: rest => step.edits untilFirst false names ++ bodyEdits untilFirst rest

/-- The edits of a step with its names, in a body. -/
def Step.edits (untilFirst leftJoin : Bool) (names : SortedSet String) : Step → List HopEdit
  | .move m => [.move m names untilFirst leftJoin]
  | .has fs => [.carry fs, .name names]
  | .order specs => [.sort specs, .name names]
  | .range s => [.slice s, .name names]
  | .identity => [.name names]
  | .optional body => partEdits body ++ [.name names]
  | _ => []

/-- The edits of an optional part, which the first step opens. -/
def partEdits : List StepNode → List HopEdit
  | [] => []
  | ⟨step, names⟩ :: rest => step.edits false true names ++ bodyEdits false rest

end

namespace Loop

/-- The edits of the last turns of a loop, so many of them. -/
def turnEdits (l : Loop) : Nat → List HopEdit
  | 0 => []
  | left + 1 => bodyEdits l.controlFirst l.body ++
      ((if Reader.emitsTurn l left then [.emit] else []) ++ turnEdits l left)

def edits (l : Loop) : List HopEdit :=
  (if l.emit.map Emit.position = some .before then [.emit] else []) ++ l.turnEdits l.turnCount

end Loop

/-- The edits of a step of the chain. -/
def StepNode.edits (fullText : Bool) (node : StepNode) : List HopEdit :=
  match node.step with
  | .has fs => if allCarried fullText fs then [.carry fs, .name node.labels] else [.carry fs]
  | .loop l => l.edits ++ [.name node.labels]
  | .choose _ yes _ => partEdits yes ++ [.name node.labels]
  | .drop => [.drop]
  | step => step.edits false false node.labels

/-- The edits of the steps of a chain. -/
def chainEdits (fullText : Bool) (steps : List StepNode) : List HopEdit :=
  steps.flatMap (StepNode.edits fullText)

/-- What the edits of a run are like, one after the other. -/
structure Orderly (listener : Bool) (ds : List HopEdit) : Prop where
  /-- Behind a slice or a deletion there is no other hop. -/
  last : ds.Pairwise HopEdit.Precedes
  /-- A run that emits has no optional part. -/
  apart : (∀ d ∈ ds, d ≠ .emit) ∨ ∀ d ∈ ds, d.opensJoin = false
  /-- With a listener nothing is deleted. -/
  spared : listener = true → .drop ∉ ds

/-! ## 3. Doing them -/

namespace Reader

variable (r : Reader)

/-- The hop that a move adds. -/
def newHop (m : Move) (names : SortedSet String) (untilFirst leftJoin : Bool) (place : Nat) : Hop :=
  { r.hop (.move m) place names with untilFirst := untilFirst, leftJoin := leftJoin }

def edit (hops : List Hop) : HopEdit → List Hop
  | .move m names untilFirst leftJoin =>
    hops ++ [r.newHop m names untilFirst leftJoin hops.length]
  | d => onLast (d.change r.options.fullText) hops

/-- The hops after edits that are done one after the other. -/
def edited (ds : List HopEdit) (hops : List Hop) : List Hop := ds.foldl r.edit hops

variable {r} {hops : List Hop} {ds es : List HopEdit} {d : HopEdit}

@[simp] theorem edited_nil (hops : List Hop) : r.edited [] hops = hops := rfl

@[simp] theorem edited_cons (d : HopEdit) (ds : List HopEdit) (hops : List Hop) :
    r.edited (d :: ds) hops = r.edited ds (r.edit hops d) := rfl

@[simp] theorem edited_append (ds es : List HopEdit) (hops : List Hop) :
    r.edited (ds ++ es) hops = r.edited es (r.edited ds hops) :=
  List.foldl_append

theorem edit_of_not_move (h : d.isMove = false) :
    r.edit hops d = onLast (d.change r.options.fullText) hops := by
  cases d with
  | move => cases h
  | _ => rfl

/-- What is put on a new hop is these two flags. -/
def Marks (r : Reader) (mark : Hop → Hop) (untilFirst leftJoin : Bool) : Prop :=
  ∀ m names place, mark (r.hop (.move m) place names) = r.newHop m names untilFirst leftJoin place

/-- A new hop has nothing but its labels. -/
theorem exists_hop_eq (kind : HopKind) (place : Nat) (names : SortedSet String) :
    ∃ labels, r.hop kind place names = { kind := kind, depth := place, labels := labels } :=
  ⟨_, r.hop_eq kind place names⟩

theorem marks_id : r.Marks id false false := by
  intro m names place
  obtain ⟨labels, hhop⟩ := exists_hop_eq (r := r) (.move m) place names
  simp only [newHop, hhop, id]

theorem marks_untilFirst (untilFirst : Bool) :
    r.Marks (fun h => { h with untilFirst := untilFirst }) untilFirst false := by
  intro m names place
  obtain ⟨labels, hhop⟩ := exists_hop_eq (r := r) (.move m) place names
  simp only [newHop, hhop]

theorem marks_leftJoin : r.Marks (fun h => { h with leftJoin := true }) false true := by
  intro m names place
  obtain ⟨labels, hhop⟩ := exists_hop_eq (r := r) (.move m) place names
  simp only [newHop, hhop]

mutual

theorem all_eq_edited {mark : Hop → Hop} {untilFirst : Bool} (hm : r.Marks mark untilFirst false)
    (steps : List StepNode) (hops : List Hop) :
    r.all mark steps hops = r.edited (bodyEdits untilFirst steps) hops := by
  match steps with
  | [] => rw [Reader.all, bodyEdits, edited_nil]
  | ⟨step, names⟩ :: rest =>
    rw [Reader.all, bodyEdits, edited_append, one_eq_edited hm step names hops]
    exact all_eq_edited hm rest _

theorem one_eq_edited {mark : Hop → Hop} {untilFirst leftJoin : Bool}
    (hm : r.Marks mark untilFirst leftJoin) (step : Step)
    (names : SortedSet String) (hops : List Hop) :
    r.one mark names step hops = r.edited (step.edits untilFirst leftJoin names) hops := by
  cases step with
  | move m =>
    rw [Reader.one, hm]
    rfl
  | optional body =>
    rw [Reader.one, Step.edits, edited_append, part_eq_edited body hops]
    rfl
  | _ =>
    simp only [Reader.one, Step.edits]
    rfl

theorem part_eq_edited (steps : List StepNode) (hops : List Hop) :
    r.part steps hops = r.edited (partEdits steps) hops := by
  match steps with
  | [] => rw [Reader.part, partEdits, edited_nil]
  | ⟨step, names⟩ :: rest =>
    rw [Reader.part, partEdits, edited_append, one_eq_edited marks_leftJoin step names hops]
    exact all_eq_edited marks_id rest _

end

/-- A loop is its body, turn by turn. -/
theorem turns_eq_edited (l : Loop) (left : Nat) (hops : List Hop) :
    r.turns l left hops = r.edited (l.turnEdits left) hops := by
  induction left generalizing hops with
  | zero => rw [Reader.turns, Loop.turnEdits, edited_nil]
  | succ left ih =>
    rw [Reader.turns, Loop.turnEdits, edited_append, edited_append, ih,
      all_eq_edited (marks_untilFirst l.controlFirst)]
    cases emitsTurn l left <;> rfl

theorem loop_eq_edited (l : Loop) (hops : List Hop) :
    r.loop l l.turnCount hops = r.edited l.edits hops := by
  rw [Reader.loop, Loop.edits, edited_append, turns_eq_edited]
  split <;> rfl

end Reader

/-! ## 4. The order of edits -/

section Order

variable {fullText : Bool} {ds es : List HopEdit} {d : HopEdit}

theorem pairwise_of_not_ends (h : ∀ d ∈ ds, d.ends = false) : ds.Pairwise HopEdit.Precedes := by
  refine List.pairwise_of_forall_mem_list ?_
  intro d hd e _ hends
  rw [h d hd] at hends
  cases hends

theorem pairwise_append_of_not_ends (h : ∀ d ∈ ds, d.ends = false)
    (hes : es.Pairwise HopEdit.Precedes) : (ds ++ es).Pairwise HopEdit.Precedes := by
  refine List.pairwise_append.mpr ⟨pairwise_of_not_ends h, hes, ?_⟩
  intro d hd e _ hends
  rw [h d hd] at hends
  cases hends

/-- Behind everything there can be a name. -/
theorem pairwise_append_name (h : ds.Pairwise HopEdit.Precedes) (names : SortedSet String) :
    (ds ++ [HopEdit.name names]).Pairwise HopEdit.Precedes := by
  refine List.pairwise_append.mpr ⟨h, List.pairwise_singleton _ _, ?_⟩
  intro d _ e he _
  rw [List.mem_singleton.mp he]
  rfl

/-- A simple step that is no slice is open to what follows. -/
theorem Step.isOpen_edits (fullText : Bool) (step : Step) (untilFirst : Bool)
    (names : SortedSet String) (hs : step.isSimple fullText false) :
    ∀ d ∈ step.edits untilFirst false names, d.IsOpen := by
  cases step with
  | move | identity =>
    rw [Step.edits]
    exact List.forall_mem_singleton.mpr ⟨rfl, rfl, nofun⟩
  | has | order =>
    rw [Step.edits]
    exact List.forall_mem_cons.mpr
      ⟨⟨rfl, rfl, nofun⟩, List.forall_mem_singleton.mpr ⟨rfl, rfl, nofun⟩⟩
  | range => cases hs
  | _ => cases hs

theorem isOpen_bodyEdits {untilFirst : Bool} {body : List StepNode}
    (hs : ∀ n ∈ body, n.step.fitsLoop fullText = true) :
    ∀ d ∈ bodyEdits untilFirst body, d.IsOpen := by
  induction body with
  | nil =>
    rw [bodyEdits]
    exact List.forall_mem_nil _
  | cons node body ih =>
    obtain ⟨step, names⟩ := node
    rw [bodyEdits, List.forall_mem_append]
    exact ⟨step.isOpen_edits fullText untilFirst names
        (Step.isSimple_of_fitsLoop false (hs _ List.mem_cons_self)),
      ih fun n hn => hs n (List.mem_cons_of_mem _ hn)⟩

namespace Loop

variable {l : Loop}

/-- An emission, or an edit that anything can follow. -/
theorem emit_or_isOpen (hs : ∀ n ∈ l.body, n.step.fitsLoop fullText = true) :
    ∀ d ∈ l.edits, d = .emit ∧ l.emit.isSome = true ∨ d.IsOpen := by
  have hturns : ∀ (left : Nat), ∀ d ∈ l.turnEdits left,
      d = .emit ∧ l.emit.isSome = true ∨ d.IsOpen := by
    intro left
    induction left with
    | zero =>
      rw [turnEdits]
      exact List.forall_mem_nil _
    | succ left ih =>
      rw [turnEdits, List.forall_mem_append, List.forall_mem_append]
      refine ⟨fun d hd => Or.inr (isOpen_bodyEdits hs d hd), ?_, ih⟩
      intro d hd
      split at hd
      · rename_i hemits
        refine Or.inl ⟨List.mem_singleton.mp hd, ?_⟩
        unfold Reader.emitsTurn at hemits
        cases he : l.emit with
        | none => simp [he] at hemits
        | some e => rfl
      · cases hd
  rw [edits, List.forall_mem_append]
  refine ⟨?_, hturns _⟩
  intro d hd
  split at hd
  · rename_i hbefore
    obtain ⟨e, he, -⟩ := Option.map_eq_some_iff.mp hbefore
    exact Or.inl ⟨List.mem_singleton.mp hd, by rw [he]; rfl⟩
  · cases hd

theorem not_ends (hs : ∀ n ∈ l.body, n.step.fitsLoop fullText = true) :
    ∀ d ∈ l.edits, d.ends = false ∧ d.opensJoin = false := by
  intro d hd
  rcases emit_or_isOpen hs d hd with ⟨rfl, -⟩ | hopen
  · exact ⟨rfl, rfl⟩
  · exact ⟨hopen.ends, hopen.opensJoin⟩

end Loop

/-- It is neither an emission nor a deletion. -/
def HopEdit.IsPartial (d : HopEdit) : Prop := d ≠ .emit ∧ d ≠ .drop

mutual

theorem isPartial_bodyEdits (untilFirst : Bool) (steps : List StepNode) :
    ∀ d ∈ bodyEdits untilFirst steps, d.IsPartial := by
  match steps with
  | [] =>
    rw [bodyEdits]
    exact List.forall_mem_nil _
  | ⟨step, names⟩ :: rest =>
    rw [bodyEdits, List.forall_mem_append]
    exact ⟨isPartial_edits untilFirst false names step, isPartial_bodyEdits untilFirst rest⟩

theorem isPartial_edits (untilFirst leftJoin : Bool) (names : SortedSet String) (step : Step) :
    ∀ d ∈ step.edits untilFirst leftJoin names, d.IsPartial := by
  cases step with
  | move | identity =>
    rw [Step.edits]
    exact List.forall_mem_singleton.mpr ⟨nofun, nofun⟩
  | has | order | range =>
    rw [Step.edits]
    exact List.forall_mem_cons.mpr ⟨⟨nofun, nofun⟩, List.forall_mem_singleton.mpr ⟨nofun, nofun⟩⟩
  | optional body =>
    rw [Step.edits, List.forall_mem_append]
    exact ⟨isPartial_partEdits body, List.forall_mem_singleton.mpr ⟨nofun, nofun⟩⟩
  | _ =>
    rw [Step.edits]
    · exact List.forall_mem_nil _
    all_goals nofun

theorem isPartial_partEdits (steps : List StepNode) : ∀ d ∈ partEdits steps, d.IsPartial := by
  match steps with
  | [] =>
    rw [partEdits]
    exact List.forall_mem_nil _
  | ⟨step, names⟩ :: rest =>
    rw [partEdits, List.forall_mem_append]
    exact ⟨isPartial_edits false true names step, isPartial_bodyEdits false rest⟩

end

mutual

/-- In an optional part that passes its check, a slice is the last edit but for names. -/
theorem pairwise_partEdits {rooted : Bool} (steps : List StepNode)
    (h : checkOptional rooted fullText steps = .ok ()) :
    (partEdits steps).Pairwise HopEdit.Precedes := by
  obtain ⟨m, names, rest, text, rfl, hrest⟩ := checkOptional_cases h
  rw [partEdits, Step.edits]
  exact pairwise_append_of_not_ends (List.forall_mem_singleton.mpr rfl)
    (pairwise_bodyEdits rest hrest)
termination_by sizeOf steps

theorem pairwise_bodyEdits {rooted : Bool} {text : String} {position : Nat} (steps : List StepNode)
    (h : checkBody rooted fullText text position steps = .ok ()) :
    (bodyEdits false steps).Pairwise HopEdit.Precedes := by
  match steps with
  | [] =>
    rw [bodyEdits]
    exact .nil
  | ⟨step, names⟩ :: rest =>
    rw [checkBody] at h
    cases hi : checkInner rooted fullText text position rest.isEmpty step with
    | error e => simp [hi, bind, Except.bind] at h
    | ok u =>
      simp only [hi, bind, Except.bind] at h
      have hrest := pairwise_bodyEdits rest h
      rw [bodyEdits]
      rcases checkInner_cases hi with hs | ⟨inner, rfl, hlast, hin⟩
      · by_cases hrange : step.isSimple fullText false
        · exact pairwise_append_of_not_ends 
            (fun d hd => (step.isOpen_edits fullText false names hrange d hd).ends) hrest
        · -- only a slice must be the last step
          cases step with
          | range s =>
            obtain rfl := List.isEmpty_iff.mp hs
            rw [Step.edits, bodyEdits, List.append_nil]
            exact pairwise_append_name (List.pairwise_singleton _ _) names
          | _ => exact absurd hs hrange
      · obtain rfl := List.isEmpty_iff.mp hlast
        rw [Step.edits, bodyEdits, List.append_nil]
        exact pairwise_append_name (pairwise_partEdits inner hin) names
termination_by sizeOf steps

end

namespace Orderly

variable {listener : Bool}

theorem append_isOpen (h : ∀ d ∈ ds, d.IsOpen) (hes : Orderly listener es) :
    Orderly listener (ds ++ es) where
  last := pairwise_append_of_not_ends (fun d hd => (h d hd).ends) hes.last
  apart := hes.apart.imp
    (fun hemit => List.forall_mem_append.mpr ⟨fun d hd => (h d hd).emit, hemit⟩)
    (fun hjoin => List.forall_mem_append.mpr ⟨fun d hd => (h d hd).opensJoin, hjoin⟩)
  spared hl hmem := by
    rcases List.mem_append.mp hmem with hmem | hmem
    · exact nomatch (h _ hmem).ends
    · exact hes.spared hl hmem

theorem of_isOpen (h : ∀ d ∈ ds, d.IsOpen) : Orderly listener ds where
  last := pairwise_of_not_ends fun d hd => (h d hd).ends
  apart := .inl fun d hd => (h d hd).emit
  spared _ hmem := nomatch (h _ hmem).ends

theorem part {rooted : Bool} {steps : List StepNode}
    (h : checkOptional rooted fullText steps = .ok ()) (names : SortedSet String) :
    Orderly listener (partEdits steps ++ [.name names]) := by
  have hpartial : ∀ d ∈ partEdits steps ++ [HopEdit.name names], d.IsPartial :=
    List.forall_mem_append.mpr
      ⟨isPartial_partEdits steps, List.forall_mem_singleton.mpr ⟨nofun, nofun⟩⟩
  exact ⟨pairwise_append_name (pairwise_partEdits steps h) names,
    .inl fun d hd => (hpartial d hd).1, fun _ hmem => (hpartial _ hmem).2 rfl⟩

theorem loop {l : Loop} (hs : ∀ n ∈ l.body, n.step.fitsLoop fullText = true)
    (names : SortedSet String) : Orderly listener (l.edits ++ [.name names]) := by
  have hedits : ∀ d ∈ l.edits ++ [HopEdit.name names], d.ends = false ∧ d.opensJoin = false :=
    List.forall_mem_append.mpr ⟨Loop.not_ends hs, List.forall_mem_singleton.mpr ⟨rfl, rfl⟩⟩
  exact ⟨pairwise_of_not_ends fun d hd => (hedits d hd).1, .inr fun d hd => (hedits d hd).2,
    fun _ hmem => nomatch (hedits _ hmem).1⟩

end Orderly

end Order

/-! ## 5. The edits of runs -/

/-- Nothing was put on the hop yet that ends a run, sorts it or forks it. -/
structure Hop.IsFresh (h : Hop) : Prop where
  order : h.order = []
  range : h.range = none
  emit : h.emit = false
  leftJoin : h.leftJoin = false
  drop : h.drop = false
  labels : ∀ l ∈ h.labels, l.depth = h.depth

section Labels

variable {h : Hop}

/-- New labels are at the depth of the hop. -/
theorem Hop.labels_addLabel (hh : ∀ l ∈ h.labels, l.depth = h.depth) (name : String)
    (origin : LabelOrigin) : ∀ l ∈ (h.addLabel name origin).labels, l.depth = h.depth := by
  intro l hl
  rcases SortedSet.mem_insert.mp hl with rfl | hl
  · rfl
  · exact hh l hl

theorem Hop.labels_addUserLabels (hh : ∀ l ∈ h.labels, l.depth = h.depth) (names : List String) :
    ∀ l ∈ (h.addUserLabels names).labels, l.depth = h.depth := by
  intro l hl
  rcases Hop.mem_labels_addUserLabels.mp hl with ⟨name, _, rfl⟩ | hl
  · rfl
  · exact hh l hl

end Labels

namespace Reader

variable {r : Reader} {hops : List Hop}

/-- A step that is taken has its edits done, and more can follow where the run goes on. -/
def Outcome.IsEdited (r : Reader) (hops : List Hop) (node : StepNode) : Outcome → Prop
  | .goesOn hops' => hops' = r.edited (node.edits r.options.fullText) hops ∧
      ∀ d ∈ node.edits r.options.fullText, d.IsOpen
  | .endsWith hops' _ => hops' = r.edited (node.edits r.options.fullText) hops ∧
      Orderly r.mutationListener (node.edits r.options.fullText)
  | .endsBefore _ => True

theorem isEdited_top (node : StepNode) (hops : List Hop) :
    (r.top node hops).IsEdited r hops node := by
  obtain ⟨step, names⟩ := node
  cases step with
  | move m =>
    exact ⟨one_eq_edited marks_id (.move m) names hops,
      Step.isOpen_edits r.options.fullText (.move m) false names trivial⟩
  | identity =>
    exact ⟨one_eq_edited marks_id .identity names hops,
      Step.isOpen_edits r.options.fullText .identity false names trivial⟩
  | has fs =>
    have hcarried : allCarried r.options.fullText fs
        = (SortedFilters.ofFilters r.options.fullText fs).isComplete := rfl
    simp only [top]
    split
    · rename_i hcomplete
      rw [← hcarried] at hcomplete
      simp only [Outcome.IsEdited, StepNode.edits, hcomplete, if_true]
      refine ⟨one_eq_edited marks_id (.has fs) names hops, ?_⟩
      have hopen := Step.isOpen_edits r.options.fullText (.has fs) false names hcomplete
      rwa [Step.edits] at hopen
    · -- the step goes back into the chain with what is left of it, its names included
      rename_i hcomplete
      rw [← hcarried, Bool.not_eq_true] at hcomplete
      split
      · trivial
      · simp only [Outcome.IsEdited, StepNode.edits, hcomplete, Bool.false_eq_true, if_false]
        exact ⟨rfl, .of_isOpen (List.forall_mem_singleton.mpr ⟨rfl, rfl, fun h => by cases h⟩)⟩
  | order specs =>
    simp only [top]
    split
    · rename_i hcheck
      exact ⟨one_eq_edited marks_id (.order specs) names hops,
        Step.isOpen_edits r.options.fullText (.order specs) false names hcheck⟩
    · trivial
  | range slice =>
    refine ⟨one_eq_edited marks_id (.range slice) names hops, ?_⟩
    have hname := pairwise_append_name (List.pairwise_singleton _ (.slice slice)) names
    exact ⟨hname, .inl (by simp [StepNode.edits, Step.edits]),
      fun _ hmem => by simp [StepNode.edits, Step.edits] at hmem⟩
  | loop l =>
    simp only [top]
    split
    · rename_i n hturns
      obtain rfl := Machine.turns_eq hturns
      have hbody := (Loop.turns_ok hturns).2
      have hedited : named names (r.loop l l.turnCount hops)
          = r.edited (l.edits ++ [.name names]) hops := by
        rw [edited_append, loop_eq_edited]
        rfl
      split
      · exact ⟨hedited, .loop hbody names⟩
      · rename_i hemit
        refine ⟨hedited, List.forall_mem_append.mpr ⟨fun d hd => ?_, ?_⟩⟩
        · exact (Loop.emit_or_isOpen hbody d hd).resolve_left fun h => hemit h.2
        · exact List.forall_mem_singleton.mpr ⟨rfl, rfl, fun h => by cases h⟩
    · trivial
  | optional body =>
    simp only [top]
    split
    · rename_i hcheck
      simp only [Outcome.IsEdited, StepNode.edits, Step.edits]
      refine ⟨?_, .part hcheck names⟩
      rw [edited_append, part_eq_edited]
      rfl
    · trivial
  | choose condition yes no =>
    simp only [top]
    split
    · rename_i hcheck
      cases hbranch : chosenBranch condition yes no with
      | error e => simp [hbranch, bind, Except.bind] at hcheck
      | ok branch =>
        simp only [hbranch, bind, Except.bind] at hcheck
        rw [chosenBranch_ok hbranch] at hcheck
        simp only [Outcome.IsEdited, StepNode.edits]
        refine ⟨?_, .part hcheck names⟩
        rw [edited_append, part_eq_edited]
        rfl
    · trivial
  | drop =>
    simp only [top]
    split
    · trivial
    · rename_i hlistener
      refine ⟨rfl, List.pairwise_singleton _ _, .inl (List.forall_mem_singleton.mpr ?_),
        fun hl => absurd hl hlistener⟩
      intro h
      cases h
  | _ => trivial

/-- The hops of a chain are the edits of the steps that it takes. -/
theorem chain_edited (steps : List StepNode) (hops : List Hop) (taken : Nat) :
    ∃ k ≤ steps.length, (r.chain steps hops taken).consumed = taken + k ∧
      (r.chain steps hops taken).run.hops
        = r.edited (chainEdits r.options.fullText (steps.take k)) hops ∧
      Orderly r.mutationListener (chainEdits r.options.fullText (steps.take k)) := by
  have hnone : Orderly r.mutationListener (chainEdits r.options.fullText []) :=
    .of_isOpen (List.forall_mem_nil _)
  induction steps generalizing hops taken with
  | nil => exact ⟨0, Nat.le_refl _, rfl, rfl, hnone⟩
  | cons node rest ih =>
    have htop := isEdited_top (r := r) node hops
    rw [chain]
    cases ht : r.top node hops with
    | goesOn hops' =>
      rw [ht] at htop
      obtain ⟨rfl, hopen⟩ := htop
      obtain ⟨k, hk, hconsumed, hhops, horderly⟩ := ih (r.edited (node.edits _) hops) (taken + 1)
      refine ⟨k + 1, Nat.succ_le_succ hk, ?_, ?_, ?_⟩
      · rw [hconsumed]
        omega
      · rw [List.take_succ_cons, chainEdits, List.flatMap_cons, edited_append]
        exact hhops
      · rw [List.take_succ_cons, chainEdits, List.flatMap_cons]
        exact horderly.append_isOpen hopen
    | endsWith hops' leftover =>
      rw [ht] at htop
      obtain ⟨rfl, horderly⟩ := htop
      refine ⟨1, by simp, rfl, ?_, ?_⟩
      · rw [List.take_succ_cons, List.take_zero, chainEdits, List.flatMap_singleton]
      · rwa [List.take_succ_cons, List.take_zero, chainEdits, List.flatMap_singleton]
    | endsBefore obstacle => exact ⟨0, Nat.zero_le _, rfl, rfl, hnone⟩

theorem labels_hop (kind : HopKind) (place : Nat) (names : SortedSet String) :
    ∀ l ∈ (r.hop kind place names).labels, l.depth = place := by
  have hbare : ∀ l ∈ ({ kind := kind, depth := place } : Hop).labels, l.depth = place :=
    List.forall_mem_nil _
  unfold Reader.hop
  split
  · split
    · exact Hop.labels_addLabel hbare _ _
    · exact hbare
  · exact Hop.labels_addUserLabels hbare _

theorem isFresh_hop (kind : HopKind) (place : Nat) (names : SortedSet String) :
    (r.hop kind place names).IsFresh := by
  have hlabels := labels_hop (r := r) kind place names
  obtain ⟨labels, hhop⟩ := exists_hop_eq (r := r) kind place names
  rw [hhop] at hlabels ⊢
  exact ⟨rfl, rfl, rfl, rfl, rfl, hlabels⟩

theorem start_edited {node : StepNode} (h : r.start? node = some hops) :
    ∃ root : Hop, root.IsFresh ∧ hops = r.edited (node.edits r.options.fullText) [root] ∧
      ∀ d ∈ node.edits r.options.fullText, d.IsOpen := by
  obtain ⟨step, names⟩ := node
  cases step with
  | graph kind ids =>
    cases h
    have hroot := isFresh_hop (r := r) (.graphRoot kind) 0 names
    refine ⟨_, ?_, rfl, List.forall_mem_nil _⟩
    exact ⟨hroot.order, hroot.range, hroot.emit, hroot.leftJoin, hroot.drop, hroot.labels⟩
  | move m =>
    cases h
    refine ⟨{ kind := .incomingRoot m.source, depth := 0 },
      ⟨rfl, rfl, rfl, rfl, rfl, List.forall_mem_nil _⟩, ?_,
      Step.isOpen_edits r.options.fullText (.move m) false names trivial⟩
    simp only [StepNode.edits, Step.edits, edited_cons, edited_nil, edit]
    rw [← marks_id m names]
    rfl
  | _ => cases h

/-- What holds of every new hop and is kept by every change holds of every hop. -/
theorem forall_edited {P : Hop → Prop} {ds : List HopEdit}
    (hnew : ∀ m names untilFirst leftJoin place, .move m names untilFirst leftJoin ∈ ds →
      P (r.newHop m names untilFirst leftJoin place))
    (hchange : ∀ d ∈ ds, ∀ h, P h → P (d.change r.options.fullText h))
    (hhops : ∀ h ∈ hops, P h) : ∀ h ∈ r.edited ds hops, P h := by
  induction ds generalizing hops with
  | nil => exact hhops
  | cons d ds ih =>
    rw [edited_cons]
    apply ih
    · exact fun m names untilFirst leftJoin place hmem =>
        hnew m names untilFirst leftJoin place (List.mem_cons_of_mem _ hmem)
    · exact fun e he => hchange e (List.mem_cons_of_mem _ he)
    · cases hmove : d.isMove with
      | true =>
        cases d with
        | move m names untilFirst leftJoin =>
          exact List.forall_mem_append.mpr ⟨hhops, List.forall_mem_singleton.mpr
            (hnew m names untilFirst leftJoin _ List.mem_cons_self)⟩
        | _ => cases hmove
      | false =>
        rw [edit_of_not_move hmove]
        intro h hh
        rcases List.mem_append.mp hh with hh | hh
        · exact hhops h (hops.dropLast_subset hh)
        · obtain ⟨last, hlast, rfl⟩ := List.mem_map.mp hh
          exact hchange d List.mem_cons_self last
            (hhops last (List.mem_of_getLast? (Option.mem_toList.mp hlast)))

end Reader

/-- The hops of a run are made by the edits of the steps that it took, behind a fresh root. -/
theorem fuseRun_edited {o : FusionOptions} {listener : Bool} {node : StepNode}
    {rest : List StepNode} {f : FusedRun} (h : fuseRun? o listener node rest = some f) :
    ∃ root : Hop, root.IsFresh ∧
      f.run.hops = (Reader.of o listener node rest).edited
        (chainEdits o.fullText ((node :: rest).take f.consumed)) [root] ∧
      Orderly listener (chainEdits o.fullText ((node :: rest).take f.consumed)) := by
  rw [fuseRun_eq_readRun] at h
  obtain ⟨hops, hstart, rfl⟩ := Option.map_eq_some_iff.mp h
  obtain ⟨root, hroot, rfl, hopen⟩ := Reader.start_edited hstart
  obtain ⟨k, _, hconsumed, hhops, horderly⟩ := Reader.chain_edited rest _ 1
  rw [hconsumed, Nat.add_comm, List.take_succ_cons, chainEdits, List.flatMap_cons]
  refine ⟨root, hroot, ?_, horderly.append_isOpen hopen⟩
  rw [Reader.edited_append]
  exact hhops

end TraversalSql
