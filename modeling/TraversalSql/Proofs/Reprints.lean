import TraversalSql.Proofs.ParsedChains
import TraversalSql.Proofs.Spelling

/-!
# Interpreted steps and their text

A call that is no known step becomes a step that holds the call's text, for an interpreter to read.
The text is printed anew from the call. This module follows such a text back to the call it came
from and from there through the grammar again: behind a source it is read as the one step with the
same text, whatever the call's arguments are, unless a string among them holds a quote or a double
is a negative zero or a negative infinity.
-/

set_option autoImplicit false

namespace TraversalSql

/-! ## 1. Calls that are left alone -/

/-- The call is no known step, and no other call of its name with as many arguments is one. -/
def Call.LeftAlone (c : Call) : Prop :=
  ∀ (b : ChainBuilder) (as : List Argument) (nested : List Nested) (following : List Call),
    b.ordering = false → as.length = c.arguments.length →
      b.read ⟨c.name, as⟩ nested following = .ok (b.push (.interpreted (Call.text ⟨c.name, as⟩)))

/-- What an interpreter is to read. -/
def Step.text? : Step → Option String
  | .interpreted s => some s
  | _ => none

theorem Call.LeftAlone.reread {c : Call} (h : c.LeftAlone) : c.reread.LeftAlone := by
  obtain ⟨name, as⟩ := c
  intro b as' nested following hordering hlength
  exact h b as' nested following hordering (hlength.trans (length_argumentsReread as))

namespace ChainBuilder

variable {b b' : ChainBuilder} {nested : List Nested} {following : List Call}

/-- The texts of the interpreted steps, the last one first. -/
def texts (b : ChainBuilder) : List String := b.steps.filterMap fun n => n.step.text?

theorem texts_label {names : List String} (h : b.label names = .ok b') : b'.texts = b.texts := by
  unfold ChainBuilder.label at h
  split at h
  · rename_i last before hsteps
    cases h
    simp [texts, hsteps, List.filterMap_cons]
  · cases h

theorem texts_control (hasRoom : Loop → Bool) (change : Loop → Loop)
    (wait : PendingLoop → PendingLoop) : (b.control hasRoom change wait).texts = b.texts := by
  rcases b.control_cases hasRoom change wait with heq | ⟨l, labels, before, hsteps, -, heq⟩
  · rw [heq]
    rfl
  · rw [heq]
    simp [texts, hsteps, Step.text?]

/-- Whether a call is a move, its name says alone. -/
theorem move?_eq_none {name : String} {as as' : List Argument}
    (h : Call.move? ⟨name, as⟩ = none) : Call.move? ⟨name, as'⟩ = none := by
  unfold Call.move? at h ⊢
  split at h
  case h_10 => rfl
  all_goals cases h

/-- **Reading a call** leaves the texts of interpreted steps as they are, or it adds that of the
call, and then reading any other call of its kind does so. -/
theorem texts_read {name : String} {as : List Argument}
    (h : b.read ⟨name, as⟩ nested following = .ok b') :
    b'.texts = b.texts ∨
      b' = b.push (.interpreted (Call.text ⟨name, as⟩)) ∧ Call.LeftAlone ⟨name, as⟩ := by
  unfold read at h
  split at h
  · cases h
    exact Or.inl rfl
  split at h
  · obtain ⟨m, -, h⟩ := bind_ok h
    cases h
    exact Or.inl rfl
  rename_i hmove
  have hstill (as' : List Argument) : Call.move? ⟨name, as'⟩ = none :=
    move?_eq_none (Option.eq_none_iff_forall_ne_some.mpr hmove)
  split at h
  case h_1 | h_2 | h_3 | h_6 | h_7 | h_8 | h_9 | h_10 | h_14 =>
    obtain ⟨x, -, h⟩ := bind_ok h
    cases h
    exact Or.inl rfl
  case h_4 =>
    obtain ⟨keys, -, h⟩ := bind_ok h
    split at h
    · cases h
      exact Or.inl rfl
    · cases h
  case h_5 =>
    obtain ⟨names, -, h⟩ := bind_ok h
    exact Or.inl (texts_label h)
  case h_11 =>
    obtain ⟨n, -, h⟩ := bind_ok h
    cases h
    exact Or.inl (times_eq b n ▸ texts_control _ _ _)
  case h_12 =>
    obtain ⟨condition, -, h⟩ := bind_ok h
    cases h
    exact Or.inl (stopWhen_eq b condition ▸ texts_control _ _ _)
  case h_13 =>
    split at h
    · cases h
      exact Or.inl (emit_eq b none ▸ texts_control _ _ _)
    · obtain ⟨condition, -, h⟩ := bind_ok h
      cases h
      exact Or.inl (emit_eq b (some condition) ▸ texts_control _ _ _)
  case h_15 | h_16 | h_17 | h_18 =>
    cases h
    exact Or.inl rfl
  case h_19 =>
    split at h
    · obtain ⟨condition, -, h⟩ := bind_ok h
      obtain ⟨yes, -, h⟩ := bind_ok h
      obtain ⟨no, -, h⟩ := bind_ok h
      cases h
      exact Or.inl rfl
    · rename_i hname hlength
      cases h
      refine Or.inr ⟨rfl, fun b as' nested following hordering hsame => ?_⟩
      obtain rfl : name = "choose" := hname
      have hlength' : as'.length ≠ 3 := hsame ▸ hlength
      simp only [read, hordering, Bool.false_and, Bool.false_eq_true, if_false, hstill]
      simp [hlength', pure, Except.pure]
  case h_20 =>
    cases h
    refine Or.inr ⟨rfl, fun b as' nested following hordering hsame => ?_⟩
    dsimp only at *
    simp only [read, hordering, Bool.false_and, Bool.false_eq_true, if_false, hstill]
    rfl

end ChainBuilder

/-! ## 2. Where a text comes from -/

open ChainBuilder

/-- The text of an interpreted step is that of a call which is left alone. -/
theorem texts_readCalls : ∀ (cs : List Call) {b b' : ChainBuilder}, readCalls b cs = .ok b' →
    ∀ s ∈ b'.texts, s ∈ b.texts ∨ ∃ c ∈ cs, c.text = s ∧ c.LeftAlone
  | [], _, _, h, s, hs => by
    cases h
    exact Or.inl hs
  | ⟨name, as⟩ :: cs, b, b', h, s, hs => by
    obtain ⟨b₁, hread, hrest⟩ := bind_ok h
    obtain hs | ⟨c, hc, hcs⟩ := texts_readCalls cs hrest s hs
    · obtain htexts | ⟨rfl, halone⟩ := texts_read hread
      · exact Or.inl (htexts ▸ hs)
      · obtain rfl | hs := List.mem_cons.mp hs
        · exact Or.inr ⟨_, List.mem_cons_self, rfl, halone⟩
        · exact Or.inl hs
    · exact Or.inr ⟨c, List.mem_cons_of_mem _ hc, hcs⟩

theorem exists_call_of_parse {text s : String} {t : Traversal} {labels : SortedSet String}
    (h : Traversal.parse text = .ok t) (hs : ⟨.interpreted s, labels⟩ ∈ t.steps) :
    ∃ calls rest, Grammar.source text.toList = some (calls, rest) ∧
      ∃ c ∈ calls, c.text = s ∧ c.LeftAlone := by
  unfold Traversal.parse at h
  split at h
  · cases h
  · rename_i calls rest hsource
    refine ⟨calls, rest, hsource, ?_⟩
    dsimp only at h
    split at h
    · cases h
    split at h
    · cases h
    · rename_i first calls
      split at h
      · rename_i kind hkind
        obtain ⟨ids, hids, h⟩ := bind_ok h
        obtain ⟨built, hbuilt, h⟩ := bind_ok h
        obtain ⟨steps, hsteps, h⟩ := bind_ok h
        cases h
        obtain ⟨-, rfl⟩ := finish_ok hsteps
        have htext : s ∈ built.texts :=
          List.mem_filterMap.mpr ⟨_, List.mem_reverse.mp hs, rfl⟩
        obtain hnone | ⟨c, hc, hcs⟩ := texts_readCalls calls hbuilt s htext
        · cases hnone
        · exact ⟨c, List.mem_cons_of_mem _ hc, hcs⟩
      · cases h

/-! ## 3. Reading a text again -/

namespace Traversal

/-- Vertices, and what an interpreter does with them. -/
def interpreted (s : String) : Traversal :=
  ⟨[.plain (.graph .vertex []), .plain (.interpreted s)], false⟩

/-- A call behind the vertices that is left alone becomes a step. -/
theorem parse_of_source {text : String} {c : Call}
    (hsource : Grammar.source text.toList = some ([⟨"V", []⟩, c], [])) (halone : c.LeftAlone) :
    parse text = .ok (interpreted c.text) := by
  obtain ⟨name, as⟩ := c
  have hread := halone { steps := [.plain (.graph .vertex [])] } as (nestedChains as) [] rfl rfl
  unfold parse
  rw [hsource]
  simp [readCalls, hread, Call.sourceKind?, Call.values, Text.trimList, ChainBuilder.finish,
    ChainBuilder.push, PendingLoop.dangling?, interpreted, bind, Except.bind, pure, Except.pure]

/-- A call that is left alone is read back behind a source, as a step with its text. -/
theorem parse_callText {c : Call} (hphrase : c.Phrase) (h : c.Reprints) (halone : c.LeftAlone) :
    parse ("g.V()." ++ c.text) = .ok (interpreted c.text) := by
  have hsource : (Call.text ⟨"V", []⟩).toList = "V()".toList := by decide
  have htext : ("g.V()." ++ c.text).toList = 'g' :: dots [⟨"V", []⟩, c] := by
    simp [hsource]
  have hread : Grammar.source ("g.V()." ++ c.text).toList = some ([⟨"V", []⟩, c.reread], []) := by
    rw [htext]
    exact Grammar.source_reread (by simpa using ⟨⟨by decide, nofun⟩, hphrase⟩) ⟨trivial, h, trivial⟩
  rw [parse_of_source hread halone.reread, c.text_reread h]

/-- **Interpreted steps keep their text.** The text of an interpreted step is that of a call among
those of the traversal, one that is left alone. If such a call reprints, its text behind a source is
read as vertices and one step with the same text. -/
theorem parse_interpreted {text s : String} {t : Traversal} {labels : SortedSet String}
    (h : parse text = .ok t) (hs : ⟨.interpreted s, labels⟩ ∈ t.steps) :
    ∃ calls rest, Grammar.source text.toList = some (calls, rest) ∧
      (∃ c ∈ calls, c.LeftAlone ∧ c.text = s) ∧
      ∀ c ∈ calls, c.LeftAlone → c.text = s → c.Reprints →
        parse ("g.V()." ++ s) = .ok (interpreted s) := by
  obtain ⟨calls, rest, hsource, c, hc, htext, halone⟩ := exists_call_of_parse h hs
  refine ⟨calls, rest, hsource, ⟨c, hc, halone, htext⟩, ?_⟩
  rintro c hc halone rfl hreprints
  exact parse_callText (Grammar.phrase_of_source hsource c hc) hreprints halone

/-- One argument of each kind, with blanks and an origin that are not printed. -/
def foldText : String :=
  "g.V().fold( \"a b\", -0.50, 1.0, T.id, \x7b it.get() \x7d, __.out(\"knows\") )"

def foldCall : Call where
  name := "fold"
  arguments := [.string "a b", .float ⟨0xBFE0000000000000⟩, .float ⟨0x3FF0000000000000⟩,
    .keyword "T.id", .lambda "it.get()", .chain [⟨"out", [.string "knows"]⟩]]

/-- The text differs from what was written, and is read as a step with the same text. -/
theorem fold_reread : parse foldText = .ok (interpreted foldCall.text) ∧
    ⟨.interpreted foldCall.text, ∅⟩ ∈ (interpreted foldCall.text).steps ∧
    foldCall.text = "fold('a b',-0.5,1,T.id,\x7bit.get()\x7d,out('knows'))" ∧
    parse ("g.V()." ++ foldCall.text) = .ok (interpreted foldCall.text) := by
  have hsource : Grammar.source foldText.toList = some ([⟨"V", []⟩, foldCall], []) := by cbv
  have halone : foldCall.LeftAlone := by
    intro b as nested following hordering _
    simp [ChainBuilder.read, foldCall, hordering, Call.move?]
    rfl
  have hparse := parse_of_source hsource halone
  have hstep : ⟨.interpreted foldCall.text, ∅⟩ ∈ (interpreted foldCall.text).steps :=
    List.mem_cons_of_mem _ List.mem_cons_self
  obtain ⟨calls, rest, hcalls, -, hagain⟩ := parse_interpreted hparse hstep
  obtain ⟨rfl, rfl⟩ := Prod.mk.inj (Option.some.inj (hsource.symm.trans hcalls))
  exact ⟨hparse, hstep, by decide +kernel, hagain foldCall (by simp) halone rfl (by decide)⟩

/-- A quote ends the string it stands in. -/
theorem not_forall_parse_interpreted : ¬ ∀ (text s : String) (t : Traversal)
    (labels : SortedSet String), parse text = .ok t → ⟨.interpreted s, labels⟩ ∈ t.steps →
      parse ("g.V()." ++ s) = .ok (interpreted s) := by
  intro h
  have hparse : parse "g.V().foo(\"it's\")" = .ok (interpreted "foo('it's')") := by cbv
  have hagain : parse ("g.V()." ++ "foo('it's')") = .error (.trailingInput ".foo('it's')") := by cbv
  have hclaim := h _ "foo('it's')" _ ∅ hparse (List.mem_cons_of_mem _ List.mem_cons_self)
  rw [hagain] at hclaim
  cases hclaim

end Traversal

end TraversalSql
