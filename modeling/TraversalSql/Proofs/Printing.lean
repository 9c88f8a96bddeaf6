import TraversalSql.Proofs.ParsedChains
import TraversalSql.Proofs.Spelling

/-!
# Printed traversals are read back

A text can be written in many ways: with blanks and double quotes, a `limit` for a `range`, names in
any order, the controls of a loop in any order behind it. The printer knows one way. This file shows
that the reader understands it: the text of a traversal that was read is read as that traversal.

`Says` relates calls to the steps they stand for, by what is printed and by what is read. Each kind
of step has calls that say it; names and loop controls are more calls about the last step; and a
chain is said by the calls of its steps. The grammar reads the calls back because they are spelled,
and what the printed form takes for granted (numbers that fit, bodies that are not empty, ascending
names) holds of every traversal that was read.
-/

set_option autoImplicit false

namespace TraversalSql

open Grammar

/-! ## 1. Steps and their texts -/

theorem nodeTexts_eq (ns : List StepNode) : nodeTexts ns = ns.map StepNode.text := by
  induction ns with
  | nil => rw [nodeTexts, List.map_nil]
  | cons n ns ih => rw [nodeTexts, ih, List.map_cons]

@[simp] theorem StepNode.text_plain (s : Step) : (StepNode.plain s).text = s.text := by
  rw [StepNode.plain, StepNode.text]
  exact String.append_empty

/-! ## 2. Arguments that say what they are read as -/

/-- Strings as arguments, as labels and names are printed. -/
theorem joined_strings (l : List String) :
    Text.joined "," (argumentTexts (l.map .string)) = Text.joined "," (l.map Text.inQuotes) := by
  rw [argumentTexts_eq, List.map_map]
  rfl

theorem spelled_strings {l : List String} (h : ∀ s ∈ l, Unquoted s) :
    argumentsSpelled (l.map .string) := by
  rw [argumentsSpelled_iff]
  rintro a ha
  obtain ⟨s, hs, rfl⟩ := List.mem_map.mp ha
  exact h s hs

theorem strings_eq (name : String) (l : List String) :
    Call.strings ⟨name, l.map .string⟩ = .ok l := by
  unfold Call.strings
  rw [List.mapM_map]
  exact (mapM_ok fun _ _ => rfl).trans (congrArg Except.ok (List.map_id l))

/-- A count as an argument. -/
def countArgument (n : Nat) : Argument := .int (Int64.ofNat n)

theorem toInt_count {n : Nat} (h : n ≤ Reading.largest) : (Int64.ofNat n).toInt = n :=
  Int64.toInt_ofNat_of_lt (by unfold Reading.largest at h; omega)

theorem text_count {n : Nat} (h : n ≤ Reading.largest) : (countArgument n).text = toString n := by
  show toString (Int64.ofNat n).toInt = toString n
  rw [toInt_count h]
  rfl

theorem countAt_count {c : Call} {index n : Nat} (h : n ≤ Reading.largest)
    (hc : c.arguments[index]? = some (countArgument n)) : c.countAt index = .ok n := by
  simp [Call.countAt, hc, countArgument, toInt_count h]

/-- A literal as an argument; a stored record is none. -/
def Value.argument : Value → Argument
  | .null => .keyword "null"
  | .bool b => .keyword (if b then "true" else "false")
  | .int i => .int i
  | .float x => .float x
  | .string s => .string s
  | .record r => .string r.text

theorem replaceChar_eq {c : Char} {s : String} (h : c ∉ s.toList) (replacement : List Char) :
    Text.replaceChar c replacement s = s := by
  have hsame : ∀ d ∈ s.toList, (if d = c then replacement else [d]) = [d] := by
    intro d hd
    refine if_neg ?_
    rintro rfl
    exact h hd
  rw [Text.replaceChar, List.flatMap_congr hsame, List.flatMap_singleton', String.ofList_toList]

theorem text_argument {v : Value} (h : v.Legible) : v.argument.text = v.text := by
  cases v with
  | bool b => cases b <;> rfl
  | string s => exact congrArg Text.inQuotes (replaceChar_eq h _).symm
  | null | int _ | float _ | record _ => rfl

theorem Value.spelled_argument {v : Value} (h : v.Legible) (hv : v.Literal) :
    v.argument.Spelled := by
  cases v with
  | null => exact (by decide : isName "null".toList = true)
  | bool b =>
    cases b with
    | false => exact (by decide : isName "false".toList = true)
    | true => exact (by decide : isName "true".toList = true)
  | int _ => trivial
  | float _ => exact h.elim
  | string _ => exact h
  | record _ => exact hv.elim

theorem value_argument {v : Value} (hv : v.Literal) (step : String) :
    v.argument.value step = .ok v := by
  cases v with
  | bool b => cases b <;> rfl
  | record _ => exact hv.elim
  | null | int _ | float _ | string _ => rfl

theorem joined_values {vs : List Value} (h : ∀ v ∈ vs, v.Legible) :
    Text.joined "," (argumentTexts (vs.map Value.argument)) = Value.listText vs := by
  rw [argumentTexts_eq, List.map_map, Value.listText]
  exact congrArg _ (List.map_congr_left fun v hv => text_argument (h v hv))

theorem values_eq {name : String} {vs : List Value} (h : ∀ v ∈ vs, v.Literal) :
    Call.values ⟨name, vs.map Value.argument⟩ = .ok vs := by
  unfold Call.values
  rw [List.mapM_map]
  refine (mapM_ok fun v hv => value_argument (h v hv) name).trans ?_
  exact congrArg Except.ok (List.map_id vs)

/-- A chain as an argument: its text is the chain's, and it is read as the chain. -/
structure Argument.Reads (a : Argument) (ns : List StepNode) : Prop where
  spelled : a.Spelled
  text : a.text = chainText ns
  nested : a.nested = some (.ok ns)

/-! ## 3. Calls that say a chain -/

/-- No sort key stands in front. -/
def NoKey (cs : List Call) : Prop := ∀ c ∈ cs.head?, c.name ≠ "by"

theorem noKey_nil : NoKey [] := nofun

theorem NoKey.append {cs ds : List Call} (hcs : NoKey cs) (hds : NoKey ds) : NoKey (cs ++ ds) := by
  cases cs with
  | nil => exact hds
  | cons c cs => exact hcs

theorem noKey_cons {c : Call} {cs : List Call} (h : c.name ≠ "by") : NoKey (c :: cs) := by
  rintro d hd
  cases hd
  exact h

theorem readCalls_cons (b : ChainBuilder) (c : Call) (rest : List Call) :
    readCalls b (c :: rest) =
      (b.read c (nestedChains c.arguments) rest).bind fun b => readCalls b rest := by
  obtain ⟨name, arguments⟩ := c
  rw [readCalls]
  rfl

/-- The calls are printed as the steps are, and they are read as the steps, whatever was read before
and whatever is still to come; only sort keys would be taken for those of an `order()` before. -/
structure Says (cs : List Call) (ns : List StepNode) : Prop where
  text : dots cs = behind '.' (ns.map StepNode.text)
  spelled : callsSpelled cs
  noKey : NoKey cs
  reads : ∀ (before : List StepNode) (ordering : Bool) (rest : List Call), NoKey rest →
    ∃ ordering', readCalls ⟨before, {}, ordering⟩ (cs ++ rest) =
      readCalls ⟨ns.reverse ++ before, {}, ordering'⟩ rest

namespace Says

variable {cs ds : List Call} {ns ms : List StepNode}

theorem nil : Says [] [] where
  text := rfl
  spelled := trivial
  noKey := noKey_nil
  reads _ ordering _ _ := ⟨ordering, rfl⟩

theorem append (h : Says cs ns) (h' : Says ds ms) : Says (cs ++ ds) (ns ++ ms) where
  text := by rw [dots_append, h.text, h'.text, List.map_append, behind_append]
  spelled := callsSpelled_append.mpr ⟨h.spelled, h'.spelled⟩
  noKey := h.noKey.append h'.noKey
  reads before ordering rest hrest := by
    obtain ⟨o₁, h₁⟩ := h.reads before ordering _ (h'.noKey.append hrest)
    obtain ⟨o₂, h₂⟩ := h'.reads (ns.reverse ++ before) o₁ rest hrest
    refine ⟨o₂, ?_⟩
    rw [List.append_assoc, h₁, h₂, List.reverse_append, List.append_assoc]

/-- A chain is an argument as soon as it is not empty. -/
theorem argument (h : Says cs ns) (hne : ns ≠ []) : (Argument.chain cs).Reads ns := by
  obtain ⟨n, ns, rfl⟩ := List.exists_cons_of_ne_nil hne
  have htext := h.text
  rw [List.map_cons, behind_cons] at htext
  cases cs with
  | nil => cases htext
  | cons c cs =>
    refine ⟨⟨List.cons_ne_nil _ _, h.spelled⟩, ?_, ?_⟩
    · -- both texts are what stands behind the first dot
      rw [← String.toList_inj, toList_chainText, chainText, nodeTexts_eq, List.map_cons,
        toList_joined (c := '.') (by decide)]
      exact (List.cons.inj (dots_cons c cs ▸ htext)).2
    · obtain ⟨o, hreads⟩ := h.reads [] false [] noKey_nil
      rw [List.append_nil, List.append_nil] at hreads
      show some (readCalls ⟨[], {}, false⟩ (c :: cs) >>= ChainBuilder.finish) = _
      rw [hreads]
      exact congrArg (some ∘ Except.ok) (List.reverse_reverse _)

/-- A call that says one step. -/
theorem step {c : Call} {s : Step} (htext : c.text = s.text) (hspelled : c.Spelled)
    (hname : c.name ≠ "by")
    (hread : ∀ before ordering following,
      ChainBuilder.read ⟨before, {}, ordering⟩ c (nestedChains c.arguments) following =
        .ok ⟨.plain s :: before, {}, false⟩) :
    Says [c] [.plain s] where
  text := by simp [htext, behind]
  spelled := ⟨hspelled, trivial⟩
  noKey := noKey_cons hname
  reads before ordering rest hrest := by
    refine ⟨false, ?_⟩
    rw [List.singleton_append, readCalls_cons, hread]
    rfl

/-- Calls that say more about the last step. -/
theorem more {n n' : StepNode} (h : Says cs [n]) (htext : n'.text.toList = n.text.toList ++ dots ds)
    (hspelled : callsSpelled ds) (hnoKey : NoKey ds)
    (hreads : ∀ (before : List StepNode) (ordering : Bool) (rest : List Call), ∃ ordering',
      readCalls ⟨n :: before, {}, ordering⟩ (ds ++ rest) =
        readCalls ⟨n' :: before, {}, ordering'⟩ rest) :
    Says (cs ++ ds) [n'] where
  text := by
    rw [dots_append, h.text]
    simp [behind, htext]
  spelled := callsSpelled_append.mpr ⟨h.spelled, hspelled⟩
  noKey := h.noKey.append hnoKey
  reads before ordering rest hrest := by
    obtain ⟨o, hfirst⟩ := h.reads before ordering _ (hnoKey.append hrest)
    obtain ⟨o', hmore⟩ := hreads before o rest
    refine ⟨o', ?_⟩
    rw [List.append_assoc, hfirst]
    exact hmore

end Says

/-! ## 4. The steps -/

section Steps

variable {body : List StepNode} {a : Argument}

theorem text_call_one (name : String) (a : Argument) :
    Call.text ⟨name, [a]⟩ = name ++ "(" ++ a.text ++ ")" := by
  rw [Call.text, argumentTexts_eq]
  rfl

theorem read_move {b : ChainBuilder} {c : Call} {m : Move} (hname : c.name ≠ "by")
    (hmove : c.move? = some (.ok m)) (nested : List Nested) (following : List Call) :
    b.read c nested following = .ok (b.push (.move m)) := by
  unfold ChainBuilder.read
  rw [if_neg (by simp [hname]), hmove]
  rfl

/-- The name of the call that a move is printed as. -/
def Move.name : Move → String
  | .follow .outgoing _ .vertex => "out"
  | .follow .incoming _ .vertex => "in"
  | .follow .both _ .vertex => "both"
  | .follow .outgoing _ .edge => "outE"
  | .follow .incoming _ .edge => "inE"
  | .follow .both _ .edge => "bothE"
  | .endpoint .outgoing => "outV"
  | .endpoint .incoming => "inV"
  | .endpoint .both => "bothV"

/-- The labels that a move prints. -/
def Move.labels : Move → List String
  | .follow _ labels _ => labels
  | .endpoint _ => []

theorem Move.text_eq (m : Move) :
    m.text = m.name ++ "(" ++ Text.joined "," (m.labels.map Text.inQuotes) ++ ")" := by
  rcases m with ⟨_ | _ | _, labels, _ | _⟩ | ⟨_ | _ | _⟩ <;> rfl

theorem Move.move?_eq (m : Move) :
    Call.move? ⟨m.name, m.labels.map .string⟩ = some (.ok m) := by
  cases m with
  | follow direction labels returns =>
    cases direction <;> cases returns
    all_goals simp [Call.move?, name, Move.labels, Call.move?.follow, strings_eq, Except.map]
  | endpoint direction => cases direction <;> rfl

theorem Move.name_spec (m : Move) : isName m.name.toList = true ∧ m.name ≠ "by" := by
  rcases m with ⟨_ | _ | _, labels, _ | _⟩ | ⟨_ | _ | _⟩ <;> (simp only [Move.name]; decide)

theorem says_move {m : Move} (h : m.Legible) :
    Says [⟨m.name, m.labels.map .string⟩] [.plain (.move m)] := by
  obtain ⟨hname, hkey⟩ := m.name_spec
  have hlabels : ∀ label ∈ m.labels, Unquoted label := by
    cases m with
    | follow _ _ _ => exact h
    | endpoint _ => exact nofun
  refine .step ?_ ⟨hname, spelled_strings hlabels⟩ hkey fun before ordering following => ?_
  · rw [Call.text, joined_strings, Step.text, Move.text_eq]
  · exact read_move hkey m.move?_eq _ _

theorem says_optional (ha : a.Reads body) :
    Says [⟨"optional", [a]⟩] [.plain (.optional body)] := by
  refine .step ?_ ⟨by decide, ha.spelled, trivial⟩ (by simp) fun before ordering following => ?_
  · rw [text_call_one, Step.text, ha.text]
    rfl
  · simp [ChainBuilder.read, ChainBuilder.push, Call.move?, Call.chainAt, nestedChains, ha.nested,
      pure, Except.pure, bind, Except.bind]

/-- The name of a step that is printed as a call without arguments. -/
def Step.word? : Step → Option String
  | .drop => some "drop"
  | .identity => some "identity"
  | .path => some "path"
  | .tree => some "tree"
  | _ => none

theorem says_word {s : Step} {name : String} (h : s.word? = some name) :
    Says [⟨name, []⟩] [.plain s] := by
  have htext : s.text = name ++ "()" := by cases s <;> cases h <;> (rw [Step.text]; rfl)
  have hname : isName name.toList = true ∧ name ≠ "by" := by cases s <;> cases h <;> decide
  refine .step ?_ ⟨hname.1, trivial⟩ hname.2 fun before ordering following => ?_
  · simp [htext, Call.text, argumentTexts, Text.joined, String.append_assoc]
  · cases s <;> cases h
    all_goals simp [ChainBuilder.read, ChainBuilder.push, Call.move?, pure, Except.pure]

/-! ### slices -/

theorem says_skip {low : Nat} (h : low ≤ Reading.largest) :
    Says [⟨"skip", [countArgument low]⟩] [.plain (.range ⟨low, none⟩)] := by
  refine .step ?_ ⟨by decide, trivial, trivial⟩ (by simp) fun before ordering following => ?_
  · rw [text_call_one, text_count h, Step.text]
    rfl
  · have hlow : Call.countAt ⟨"skip", [countArgument low]⟩ 0 = .ok low := countAt_count h rfl
    simp [ChainBuilder.read, ChainBuilder.push, Call.move?, hlow, pure, Except.pure, bind,
      Except.bind]

theorem countArgument_ne {n : Nat} (h : n ≤ Reading.largest) : countArgument n ≠ .int (-1) := by
  intro heq
  have hint : (Int64.ofNat n).toInt = (-1 : Int64).toInt :=
    congrArg Int64.toInt (Argument.int.inj heq)
  rw [toInt_count h] at hint
  have hneg : (-1 : Int64).toInt = -1 := by decide
  omega

theorem slice_counts {low high : Nat} (hle : low ≤ high) (h : high ≤ Reading.largest) :
    Call.slice ⟨"range", [countArgument low, countArgument high]⟩ = .ok ⟨low, some high⟩ := by
  have hlow : Call.countAt ⟨"range", [countArgument low, countArgument high]⟩ 0 = .ok low :=
    countAt_count (Nat.le_trans hle h) rfl
  have hhigh : Call.countAt ⟨"range", [countArgument low, countArgument high]⟩ 1 = .ok high :=
    countAt_count h rfl
  unfold Call.slice
  rw [hlow, hhigh]
  simp only [bind, Except.bind]
  split
  · rename_i heq
    exact absurd (Option.some.inj heq) (countArgument_ne h)
  · simp [Except.map, hle, pure, Except.pure]

theorem says_range {low high : Nat} (hle : low ≤ high) (h : high ≤ Reading.largest) :
    Says [⟨"range", [countArgument low, countArgument high]⟩]
      [.plain (.range ⟨low, some high⟩)] := by
  have hlow := Nat.le_trans hle h
  refine .step ?_ ⟨by decide, trivial, trivial, trivial⟩ (by simp)
    fun before ordering following => ?_
  · rw [Call.text, argumentTexts_eq, List.map_cons, List.map_cons, text_count hlow, text_count h,
      Step.text]
    rfl
  · simp [ChainBuilder.read, ChainBuilder.push, Call.move?, slice_counts hle h, pure, Except.pure,
      bind, Except.bind]

/-! ### sort keys -/

def SortKey.argument : SortKey → Argument
  | .id => .keyword "id"
  | .property p => .string p
  | .select label none => .chain [⟨"select", [.string label]⟩]
  | .select label (some p) => .chain [⟨"select", [.string label]⟩, ⟨"by", [.string p]⟩]
  | .aggregate text => .keyword text
  | .lambda code => .lambda code

/-- The call that a sort key is printed as. -/
def SortSpec.call (s : SortSpec) : Call := ⟨"by", [s.key.argument, .keyword s.direction.text]⟩

theorem SortKey.spelled_argument {k : SortKey} (h : k.Legible) : k.argument.Spelled := by
  match k, h with
  | .id, _ => exact (by decide : isName "id".toList = true)
  | .property _, h => exact h
  | .select _ none, h =>
    exact ⟨List.cons_ne_nil _ _, ⟨by decide, h.1, trivial⟩, trivial⟩
  | .select _ (some p), h =>
    exact ⟨List.cons_ne_nil _ _, ⟨by decide, h.1, trivial⟩, ⟨by decide, h.2 p rfl, trivial⟩,
      trivial⟩

theorem SortKey.text_argument (k : SortKey) : k.argument.text = k.text := by
  rw [← String.toList_inj]
  rcases k with _ | _ | ⟨label, _ | p⟩ | _ | _
  all_goals simp [SortKey.argument, SortKey.text, Argument.text, callTexts, Call.text,
    argumentTexts, Text.joined, Text.inQuotes]

theorem SortSpec.text_call (s : SortSpec) : s.call.text = "by(" ++ s.text ++ ")" := by
  rw [SortSpec.call, Call.text, argumentTexts, argumentTexts, SortKey.text_argument]
  simp [SortSpec.text, argumentTexts, Text.joined, Argument.text, String.append_assoc]

theorem SortSpec.spelled_call {s : SortSpec} (h : s.key.Legible) : s.call.Spelled := by
  have hdirection : isName s.direction.text.toList = true := by cases s.direction <;> decide
  exact ⟨by decide, s.key.spelled_argument h, hdirection, trivial⟩

theorem sortDirection_text (d : SortDirection) :
    (Argument.keyword d.text).sortDirection? = some d := by
  cases d <;> decide

theorem sortKey_argument {k : SortKey} (h : k.Legible) :
    Call.sortKey (some k.argument) = .ok k := by
  match k, h with
  | .id, _ => rfl
  | .property _, _ => rfl
  | .select _ none, _ => rfl
  | .select _ (some p), _ => rfl

theorem sortSpec_call {s : SortSpec} (h : s.key.Legible) : Call.sortSpec s.call = .ok s := by
  simp only [Call.sortSpec, SortSpec.call, sortDirection_text, bind, Except.bind,
    sortKey_argument h]
  rfl

theorem sortSpecs_calls {specs : List SortSpec} (hne : specs ≠ [])
    (h : ∀ s ∈ specs, s.key.Legible) {rest : List Call} (hrest : NoKey rest) :
    sortSpecs (specs.map SortSpec.call ++ rest) = .ok specs := by
  have hkeys : (specs.map SortSpec.call ++ rest).takeWhile (fun c => c.name == "by") =
      specs.map SortSpec.call := by
    rw [List.takeWhile_append_of_pos (by simp [SortSpec.call])]
    cases rest with
    | nil => exact List.append_nil _
    | cons c rest => simp [hrest c rfl]
  have hspecs : (specs.map SortSpec.call).mapM Call.sortSpec = .ok specs := by
    rw [List.mapM_map]
    refine (mapM_ok fun s hs => sortSpec_call (h s hs)).trans ?_
    exact congrArg Except.ok (List.map_id specs)
  obtain ⟨s, specs, rfl⟩ := List.exists_cons_of_ne_nil hne
  rw [sortSpecs, hkeys, hspecs]
  rfl

/-- The keys behind an `order()` were read with it. -/
theorem readCalls_keys (b : ChainBuilder) (hb : b.ordering = true) (specs : List SortSpec)
    (rest : List Call) :
    readCalls b (specs.map SortSpec.call ++ rest) = readCalls b rest := by
  induction specs with
  | nil => rfl
  | cons s specs ih =>
    have hread (nested : List Nested) (following : List Call) :
        b.read s.call nested following = .ok b := by
      unfold ChainBuilder.read
      rw [if_pos (by simp [hb, SortSpec.call])]
      rfl
    rw [List.map_cons, List.cons_append, readCalls_cons, hread]
    exact ih

theorem says_order {specs : List SortSpec} (hne : specs ≠ []) (h : ∀ s ∈ specs, s.key.Legible) :
    Says (⟨"order", []⟩ :: specs.map SortSpec.call) [.plain (.order specs)] where
  text := by
    have hkeys : (String.join (specs.map fun s => ".by(" ++ s.text ++ ")")).toList =
        dots (specs.map SortSpec.call) := by
      rw [String.toList_join, List.flatMap_map, dots_eq, List.flatMap_map]
      simp [SortSpec.text_call]
    simp [Step.text, SortSpec.orderText, hkeys, behind, Call.text, argumentTexts, Text.joined]
  spelled := by
    refine ⟨⟨by decide, trivial⟩, callsSpelled_iff.mpr fun c hc => ?_⟩
    obtain ⟨s, hs, rfl⟩ := List.mem_map.mp hc
    exact s.spelled_call (h s hs)
  noKey := noKey_cons (by simp)
  reads before ordering rest hrest := by
    refine ⟨true, ?_⟩
    have hread : ChainBuilder.read ⟨before, {}, ordering⟩ ⟨"order", []⟩ []
        (specs.map SortSpec.call ++ rest) = .ok ⟨.plain (.order specs) :: before, {}, true⟩ := by
      simp [ChainBuilder.read, ChainBuilder.push, Call.move?, sortSpecs_calls hne h hrest, pure,
        Except.pure, bind, Except.bind]
    rw [List.cons_append, readCalls_cons, nestedChains, hread]
    exact readCalls_keys _ rfl specs rest

/-! ### loops -/

theorem says_repeat (ha : a.Reads body) :
    Says [⟨"repeat", [a]⟩] [.plain (.loop ⟨body, none, none, none, false⟩)] := by
  refine .step ?_ ⟨by decide, ha.spelled, trivial⟩ (by simp) fun before ordering following => ?_
  · rw [text_call_one, ha.text, Step.text, Loop.text, stopText, emitText]
    simp
  · simp [ChainBuilder.read, ChainBuilder.pushLoop, PendingLoop.loop, Call.move?, Call.chainAt,
      nestedChains, ha.nested, pure, Except.pure, bind, Except.bind]

theorem says_times {cs : List Call} (h : Says cs [.plain (.loop ⟨body, none, none, none, false⟩)])
    {n : Nat} (hn : n ≤ Reading.largest) :
    Says (cs ++ [⟨"times", [countArgument n]⟩])
      [.plain (.loop ⟨body, some n, none, none, false⟩)] := by
  have hcount : Call.countAt ⟨"times", [countArgument n]⟩ 0 = .ok n := countAt_count hn rfl
  refine h.more ?_ ⟨⟨by decide, trivial, trivial⟩, trivial⟩ (noKey_cons (by simp))
    fun before ordering rest => ⟨false, ?_⟩
  · simp [Step.text, Loop.text, stopText, emitText, text_call_one, text_count hn]
  · rw [List.singleton_append, readCalls_cons]
    simp [ChainBuilder.read, ChainBuilder.times, ChainBuilder.lastLoop?, StepNode.plain, Call.move?,
      hcount, pure, Except.pure, bind, Except.bind]

theorem says_until {cs : List Call} (h : Says cs [.plain (.loop ⟨body, none, none, none, false⟩)])
    {c : List StepNode} (ha : a.Reads c) :
    Says (cs ++ [⟨"until", [a]⟩]) [.plain (.loop ⟨body, none, some c, none, false⟩)] := by
  refine h.more ?_ ⟨⟨by decide, ha.spelled, trivial⟩, trivial⟩ (noKey_cons (by simp))
    fun before ordering rest => ⟨false, ?_⟩
  · simp [Step.text, Loop.text, stopText, emitText, text_call_one, ha.text]
  · rw [List.singleton_append, readCalls_cons]
    simp [ChainBuilder.read, ChainBuilder.stopWhen, ChainBuilder.lastLoop?, StepNode.plain,
      Call.move?, Call.chainAt, nestedChains, ha.nested, pure, Except.pure, bind, Except.bind]

theorem Loop.text_emit (times : Option Nat) (stopWhen : Option (List StepNode)) (e : Emit) :
    Loop.text ⟨body, times, stopWhen, some e, false⟩ =
      Loop.text ⟨body, times, stopWhen, none, false⟩ ++ e.text := by
  cases times <;> simp [Loop.text, emitText]

section Emit

variable {cs : List Call} {times : Option Nat} {stopWhen : Option (List StepNode)}

theorem says_emit (h : Says cs [.plain (.loop ⟨body, times, stopWhen, none, false⟩)]) :
    Says (cs ++ [⟨"emit", []⟩])
      [.plain (.loop ⟨body, times, stopWhen, some ⟨.after, none⟩, false⟩)] := by
  refine h.more ?_ ⟨⟨by decide, trivial⟩, trivial⟩ (noKey_cons (by simp))
    fun before ordering rest => ⟨false, ?_⟩
  · simp [Step.text, Loop.text_emit, Emit.text, conditionText, Call.text, argumentTexts,
      Text.joined]
  · rw [List.singleton_append, readCalls_cons]
    simp [ChainBuilder.read, ChainBuilder.emit, ChainBuilder.lastLoop?, StepNode.plain, Call.move?,
      pure, Except.pure, Except.bind]

theorem says_emitIf (h : Says cs [.plain (.loop ⟨body, times, stopWhen, none, false⟩)])
    {c : List StepNode} (ha : a.Reads c) :
    Says (cs ++ [⟨"emit", [a]⟩])
      [.plain (.loop ⟨body, times, stopWhen, some ⟨.after, some c⟩, false⟩)] := by
  refine h.more ?_ ⟨⟨by decide, ha.spelled, trivial⟩, trivial⟩ (noKey_cons (by simp))
    fun before ordering rest => ⟨false, ?_⟩
  · simp [Step.text, Loop.text_emit, Emit.text, conditionText, text_call_one, ha.text]
  · rw [List.singleton_append, readCalls_cons]
    simp [ChainBuilder.read, ChainBuilder.emit, ChainBuilder.lastLoop?, StepNode.plain, Call.move?,
      Call.chainAt, nestedChains, ha.nested, pure, Except.pure, bind, Except.bind]

end Emit

/-- A loop is said by its parts: the body, then a count or a condition that ends it, then what it
emits. -/
theorem loop_of_parts {times : Option Nat} {stopWhen : Option (List StepNode)} {emit : Option Emit}
    (ha : a.Reads body) (htimes : ∀ n ∈ times, n ≤ Reading.largest)
    (hend : times = none ∨ stopWhen = none)
    (hstop : ∀ c ∈ stopWhen, ∃ a : Argument, a.Reads c)
    (hafter : ∀ e ∈ emit, e.position ≠ .before)
    (hemit : ∀ e ∈ emit, ∀ c ∈ e.condition, ∃ a : Argument, a.Reads c) :
    ∃ cs, Says cs [.plain (.loop ⟨body, times, stopWhen, emit, false⟩)] := by
  have hrepeat := says_repeat ha
  obtain ⟨cs, hcs⟩ : ∃ cs, Says cs [.plain (.loop ⟨body, times, stopWhen, none, false⟩)] := by
    cases times with
    | none =>
      cases stopWhen with
      | none => exact ⟨_, hrepeat⟩
      | some c =>
        obtain ⟨_, hc⟩ := hstop c rfl
        exact ⟨_, says_until hrepeat hc⟩
    | some n =>
      obtain rfl : stopWhen = none := hend.resolve_left nofun
      exact ⟨_, says_times hrepeat (htimes n rfl)⟩
  match emit, hafter, hemit with
  | none, _, _ => exact ⟨_, hcs⟩
  | some ⟨.before, _⟩, hafter, _ => exact absurd rfl (hafter _ rfl)
  | some ⟨.after, none⟩, _, _ => exact ⟨_, says_emit hcs⟩
  | some ⟨.after, some c⟩, _, hemit =>
    obtain ⟨_, hc⟩ := hemit _ rfl c rfl
    exact ⟨_, says_emitIf hcs hc⟩

/-! ### names -/

/-- The call that prints names, if there are any. -/
def labelCalls (labels : SortedSet String) : List Call :=
  match labels.toList with
  | [] => []
  | name :: names => [⟨"as", (name :: names).map .string⟩]

theorem dots_labelCalls (labels : SortedSet String) :
    dots (labelCalls labels) = (labelsText labels).toList := by
  obtain ⟨_ | ⟨name, names⟩⟩ := labels
  · rfl
  · simp only [labelCalls, labelsText, dots_cons, Call.text, joined_strings]
    simp

theorem noKey_labelCalls (labels : SortedSet String) : NoKey (labelCalls labels) := by
  obtain ⟨_ | ⟨name, names⟩⟩ := labels
  · exact noKey_nil
  · exact noKey_cons (by simp)

theorem spelled_labelCalls {labels : SortedSet String} (h : ∀ name ∈ labels, Unquoted name) :
    callsSpelled (labelCalls labels) := by
  obtain ⟨_ | ⟨name, names⟩⟩ := labels
  · trivial
  · exact ⟨⟨by decide, spelled_strings h⟩, trivial⟩

theorem text_labels (s : Step) (labels : SortedSet String) :
    (StepNode.text ⟨s, labels⟩).toList = s.text.toList ++ dots (labelCalls labels) := by
  rw [StepNode.text, String.toList_append, dots_labelCalls]

/-- Names that are read again one after the other are the names in their order. -/
theorem readCalls_labels {labels : SortedSet String} (h : labels.Ascending) (s : Step)
    (before : List StepNode) (ordering : Bool) (rest : List Call) : ∃ ordering',
    readCalls ⟨.plain s :: before, {}, ordering⟩ (labelCalls labels ++ rest) =
      readCalls ⟨⟨s, labels⟩ :: before, {}, ordering'⟩ rest := by
  obtain ⟨_ | ⟨name, names⟩⟩ := labels
  · exact ⟨ordering, rfl⟩
  · have hadd : (∅ : SortedSet String).insertAll (name :: names) = ⟨name :: names⟩ :=
      SortedSet.insertAll_toList h
    have hstrings : Call.strings ⟨"as", .string name :: names.map .string⟩ = .ok (name :: names) :=
      strings_eq "as" (name :: names)
    refine ⟨false, ?_⟩
    rw [labelCalls, List.singleton_append, readCalls_cons]
    simp [ChainBuilder.read, ChainBuilder.label, StepNode.plain, Call.move?, hstrings, hadd, bind,
      Except.bind]

theorem says_labels {cs : List Call} {s : Step} (h : Says cs [.plain s])
    {labels : SortedSet String} (hasc : labels.Ascending)
    (hlabels : ∀ name ∈ labels, Unquoted name) :
    Says (cs ++ labelCalls labels) [⟨s, labels⟩] :=
  h.more (by rw [text_labels, StepNode.text_plain]) (spelled_labelCalls hlabels)
    (noKey_labelCalls labels) (readCalls_labels hasc s)

end Steps

/-! ## 5. Chains -/

mutual

theorem node_said : ∀ (n : StepNode), n.Everywhere StepNode.Readable → ∃ cs, Says cs [n]
  | ⟨s, labels⟩, h => by
    obtain ⟨cs, hcs⟩ := step_said s h.1.legible.1 h.1.written h.2
    exact ⟨_, says_labels hcs h.1.ascending h.1.legible.2⟩

theorem step_said : ∀ (s : Step), s.Legible → s.Written → s.Within StepNode.Readable →
    ∃ cs, Says cs [.plain s]
  | .move _, h, _, _ => ⟨_, says_move h⟩
  | .order _, h, hw, _ => ⟨_, says_order hw h⟩
  | .range ⟨_, none⟩, _, hw, _ => ⟨_, says_skip hw.1⟩
  | .range ⟨_, some high⟩, _, hw, _ => ⟨_, says_range (hw.2 high rfl).1 (hw.2 high rfl).2⟩
  | .optional body, _, hw, h => by
    obtain ⟨cs, hcs⟩ := chain_said body h
    exact ⟨_, says_optional (hcs.argument hw)⟩
  | .loop l, hl, hw, h => loop_said l hl hw h
  | .drop, _, _, _ | .identity, _, _, _ | .path, _, _, _ | .tree, _, _, _ => ⟨_, says_word rfl⟩

theorem chain_said : ∀ (ns : List StepNode), chainEverywhere StepNode.Readable ns → ∃ cs, Says cs ns
  | [], _ => ⟨[], .nil⟩
  | n :: ns, h => by
    obtain ⟨cs, hcs⟩ := node_said n h.1
    obtain ⟨ds, hds⟩ := chain_said ns h.2
    exact ⟨cs ++ ds, hcs.append hds⟩

theorem loop_said : ∀ (l : Loop), (Step.loop l).Legible → (Step.loop l).Written →
    l.Within StepNode.Readable → ∃ cs, Says cs [.plain (.loop l)]
  | ⟨body, _, stopWhen, emit, _⟩, ⟨hfirst, hafter⟩, ⟨hne, htimes, hend, hstop, hemit⟩, h => by
    cases hfirst
    obtain ⟨_, hbody⟩ := chain_said body h.1
    exact loop_of_parts (hbody.argument hne) htimes hend (condition_said stopWhen h.2.1 hstop)
      hafter (emit_said emit h.2.2 hemit)

theorem condition_said : ∀ (c : Option (List StepNode)), conditionEverywhere StepNode.Readable c →
    (∀ ns ∈ c, ns ≠ []) → ∀ ns ∈ c, ∃ a : Argument, a.Reads ns
  | none, _, _ => nofun
  | some ns, h, hne => by
    intro _ hns
    obtain ⟨_, hcs⟩ := chain_said ns h
    exact Option.some.inj hns ▸ ⟨_, hcs.argument (hne ns rfl)⟩

theorem emit_said : ∀ (e : Option Emit), emitEverywhere StepNode.Readable e →
    (∀ e' ∈ e, ∀ ns ∈ e'.condition, ns ≠ []) →
    ∀ e' ∈ e, ∀ ns ∈ e'.condition, ∃ a : Argument, a.Reads ns
  | none, _, _ => nofun
  | some ⟨_, condition⟩, h, hne => by
    intro _ he
    exact Option.some.inj he ▸ condition_said condition h (hne _ rfl)

end

/-! ## 6. Traversals -/

/-- The source as the first call behind the graph's name. -/
def sourceCall (kind : ElementKind) (ids : List Value) : Call where
  name := match kind with
    | .vertex => "V"
    | .edge => "E"
  arguments := ids.map Value.argument

theorem graphText_eq {kind : ElementKind} {ids : List Value} (h : ∀ v ∈ ids, v.Legible) :
    (graphText kind ids).toList = 'g' :: dots [sourceCall kind ids] := by
  cases kind <;> simp [graphText, sourceCall, Call.text, joined_values h]

theorem spelled_sourceCall {kind : ElementKind} {ids : List Value} (h : ∀ v ∈ ids, v.Legible)
    (hliteral : ∀ v ∈ ids, v.Literal) : (sourceCall kind ids).Spelled := by
  refine ⟨by cases kind <;> decide, argumentsSpelled_iff.mpr fun a ha => ?_⟩
  obtain ⟨v, hv, rfl⟩ := List.mem_map.mp ha
  exact v.spelled_argument (h v hv) (hliteral v hv)

namespace Traversal

/-- At no nesting level does the traversal hold a filter, a choice or an interpreted step, a loop
whose controls stood before it, a computed sort key, a double, or a string with a quote in it. -/
def Legible (t : Traversal) : Prop := chainEverywhere StepNode.Legible t.steps

/-- **Printed traversals are read back.** A text that is read as a legible traversal may be written
in many ways; the traversal's own text is one of them. -/
theorem parse_text {text : String} {t : Traversal} (h : parse text = .ok t) (ht : t.Legible) :
    parse t.text = .ok t := by
  obtain ⟨kind, ids, labels, ns, rfl, hliteral, hlabels, hsound⟩ := parse_sound h
  obtain ⟨⟨⟨hids, hnames⟩, -⟩, hns⟩ := ht
  obtain ⟨cs, hcs⟩ := chain_said ns (chainEverywhere_of_sound hsound hns)
  have hspelled : callsSpelled (sourceCall kind ids :: (labelCalls labels ++ cs)) :=
    ⟨spelled_sourceCall hids hliteral,
      callsSpelled_append.mpr ⟨spelled_labelCalls hnames, hcs.spelled⟩⟩
  have htext : (Traversal.text ⟨⟨.graph kind ids, labels⟩ :: ns, false⟩).toList =
      'g' :: dots (sourceCall kind ids :: (labelCalls labels ++ cs)) := by
    rw [Traversal.text, chainText, nodeTexts_eq, List.map_cons,
      toList_joined (c := '.') (by decide), ← hcs.text, text_labels, Step.text, graphText_eq hids]
    simp
  -- the source stands already when the first call behind it is read, which gives it its names
  obtain ⟨o₁, hnamed⟩ := readCalls_labels hlabels (.graph kind ids) [] false cs
  obtain ⟨o₂, hchain⟩ := hcs.reads [⟨.graph kind ids, labels⟩] o₁ [] noKey_nil
  have hread : readCalls { steps := [.plain (.graph kind ids)] } (labelCalls labels ++ cs) =
      .ok ⟨ns.reverse ++ [⟨.graph kind ids, labels⟩], {}, o₂⟩ := by
    rw [List.append_nil] at hchain
    exact hnamed.trans hchain
  have hkind : (sourceCall kind ids).sourceKind? = some kind := by cases kind <;> rfl
  have hvalues : (sourceCall kind ids).values = .ok ids := values_eq hliteral
  unfold parse
  rw [htext, source_spelled hspelled]
  simp [hkind, hvalues, hread, Text.trimList, ChainBuilder.finish, PendingLoop.dangling?, bind,
    Except.bind, pure, Except.pure]

/-- Acquaintances of the first vertex, with all that the printer writes differently: names in order,
a slice for a limit, the count of a loop before its emit. -/
def written : String :=
  "g.V(1).as('b','a').limit(10) .repeat(__.out(\"knows\").as('k')).emit().times(2)" ++
    ".order().by('age')"

/-- What the text is read as. -/
def acquaintances : Traversal where
  steps := [⟨.graph .vertex [.int 1], ⟨["a", "b"]⟩⟩, .plain (.range ⟨0, some 10⟩),
    .plain (.loop ⟨[⟨.move (.follow .outgoing ["knows"] .vertex), ⟨["k"]⟩⟩], some 2, none,
      some ⟨.after, none⟩, false⟩), .plain (.order [⟨.property "age", .asc⟩])]

theorem legible_acquaintances : acquaintances.Legible := by
  have hnames : ∀ names ∈ [["a", "b"], ["k"], ["knows"], ["age"]], ∀ name ∈ names,
      Unquoted name := by decide
  have hvertex : StepNode.Legible ⟨.graph .vertex [.int 1], ⟨["a", "b"]⟩⟩ :=
    ⟨List.forall_mem_singleton.mpr trivial, hnames _ (by simp)⟩
  have hknows : StepNode.Legible ⟨.move (.follow .outgoing ["knows"] .vertex), ⟨["k"]⟩⟩ :=
    ⟨hnames _ (by simp), hnames _ (by simp)⟩
  have hage : SortKey.Legible (.property "age") := hnames ["age"] (by simp) "age" (by simp)
  refine ⟨⟨hvertex, trivial⟩, ⟨⟨trivial, nofun⟩, trivial⟩, ⟨⟨⟨rfl, ?_⟩, nofun⟩, ?_⟩,
    ⟨⟨List.forall_mem_singleton.mpr hage, nofun⟩, trivial⟩, trivial⟩
  · rintro e he
    cases he
    exact nofun
  · exact ⟨⟨⟨hknows, trivial⟩, trivial⟩, trivial, trivial⟩

/-- The text and what is printed for it differ, and are read alike. -/
theorem acquaintances_reread : parse written = .ok acquaintances ∧ acquaintances.Legible ∧
    acquaintances.text =
      "g.V(1).as('a','b').range(0,10).repeat(out('knows').as('k')).times(2).emit()" ++
        ".order().by('age',asc)" ∧
    parse acquaintances.text = .ok acquaintances := by
  have hparse : parse written = .ok acquaintances := by cbv
  exact ⟨hparse, legible_acquaintances, by cbv, parse_text hparse legible_acquaintances⟩

end Traversal

end TraversalSql
