import TraversalSql.Proofs.Phrases

/-!
# Calls read back from their text

A call that is printed is read back as long as the grammar finds its arguments one by one and the
count of nested readings does not run out. The second is settled by the lengths of the texts, four
readings for every character.

Not every call is printed faithfully. A quote inside a string ends the string, and the sign of a
zero or of an infinity gets lost; `Argument.Reprints` leaves these out. What is read back has the
same text, but it need not be the same call: `1.0` is printed as `1` and read as an integer
(`Argument.reread`). Of the arguments that are `Spelled` nothing changes.
-/

set_option autoImplicit false

namespace TraversalSql

/-! ## 1. What a text is read as -/

namespace Double

/-- A minus sign stands in front of digits other than zero only. -/
def Signless (x : Double) : Prop := x.negative = true → x.isZero = false ∧ x.isInfinite = false

instance (x : Double) : Decidable x.Signless :=
  inferInstanceAs (Decidable (x.negative = true → x.isZero = false ∧ x.isInfinite = false))

/-- What the text of a double is read as: the values without digits are names, and whole numbers are
integers as long as they fit. -/
def reread (x : Double) : Argument :=
  if x.isNaN || x.isInfinite then .keyword x.text
  else match Reading.integer? x.text with
    | some i => .int i
    | none => .float x

variable {x : Double}

theorem text_of_name (h : x.Signless) (hname : (x.isNaN || x.isInfinite) = true) :
    x.text = "NaN" ∨ x.text = "inf" := by
  cases hnan : x.isNaN with
  | true => exact Or.inl (by simp [text, hnan])
  | false =>
    have hinfinite : x.isInfinite = true := by simpa [hnan] using hname
    have hsign : x.negative = false := by
      by_contra hsign
      exact absurd (h (by simpa using hsign)).2 (by simp [hinfinite])
    refine Or.inr ?_
    rw [text, hnan, hinfinite, ← String.toList_inj]
    simp [toList_signed, hsign]

theorem zero_or_digits (h : x.Signless) (hdigits : (x.isNaN || x.isInfinite) = false) :
    x.text = intText 0 ∨ x.magnitude < infiniteMagnitude ∧ x.magnitude ≠ 0 := by
  obtain ⟨hnan, hinfinite⟩ := Bool.or_eq_false_iff.mp hdigits
  by_cases hmagnitude : x.magnitude = 0
  · have hzero : x.isZero = true := by simp [isZero, hmagnitude]
    have hsign : x.negative = false := by
      by_contra hsign
      exact absurd (h (by simpa using hsign)).1 (by simp [hzero])
    refine Or.inl ?_
    rw [text, hnan, hinfinite, hzero, ← String.toList_inj]
    simp [toList_signed, hsign]
    rfl
  · refine Or.inr ⟨?_, hmagnitude⟩
    simp only [isNaN, isInfinite, gt_iff_lt, decide_eq_false_iff_not, beq_eq_false_iff_ne]
      at hnan hinfinite
    omega

theorem text_reread (h : x.Signless) : x.reread.text = x.text := by
  unfold reread
  cases hdigits : x.isNaN || x.isInfinite with
  | true => rfl
  | false =>
    simp only [Bool.false_eq_true, if_false]
    split
    · rename_i i hi
      obtain hzero | ⟨hfinite, hx⟩ := zero_or_digits h hdigits
      · rw [hzero, integer?_intText] at hi
        rw [hzero, ← Option.some.inj hi]
        rfl
      · exact intText_of_integer? hfinite hx hi
    · rfl

end Double

mutual

/-- What the text of an argument is read as: doubles may become integers or names. -/
def Argument.reread : Argument → Argument
  | .string s => .string s
  | .int i => .int i
  | .float x => x.reread
  | .keyword name => .keyword name
  | .lambda code => .lambda code
  | .chain calls => .chain (callsReread calls)

def argumentsReread : List Argument → List Argument
  | [] => []
  | a :: as => a.reread :: argumentsReread as

def Call.reread : Call → Call
  | ⟨name, arguments⟩ => ⟨name, argumentsReread arguments⟩

def callsReread : List Call → List Call
  | [] => []
  | c :: cs => c.reread :: callsReread cs

end

theorem length_argumentsReread (as : List Argument) : (argumentsReread as).length = as.length := by
  induction as with
  | nil => rfl
  | cons a as ih => rw [argumentsReread, List.length_cons, ih, List.length_cons]

mutual

/-- Printing loses nothing of the argument: no string in it holds a quote, and no double is a
negative zero or a negative infinity. -/
def Argument.Reprints : Argument → Prop
  | .string s => Unquoted s
  | .float x => x.Signless
  | .chain calls => callsReprint calls
  | .int _ | .keyword _ | .lambda _ => True

def argumentsReprint : List Argument → Prop
  | [] => True
  | a :: as => a.Reprints ∧ argumentsReprint as

def Call.Reprints : Call → Prop
  | ⟨_, arguments⟩ => argumentsReprint arguments

def callsReprint : List Call → Prop
  | [] => True
  | c :: cs => c.Reprints ∧ callsReprint cs

end

mutual

def Argument.decideReprints : (a : Argument) → Decidable a.Reprints
  | .string s => inferInstanceAs (Decidable (Unquoted s))
  | .float x => inferInstanceAs (Decidable x.Signless)
  | .chain calls => decideCallsReprint calls
  | .int _ | .keyword _ | .lambda _ => .isTrue trivial

def decideArgumentsReprint : (as : List Argument) → Decidable (argumentsReprint as)
  | [] => .isTrue trivial
  | a :: as => @instDecidableAnd _ _ a.decideReprints (decideArgumentsReprint as)

def Call.decideReprints : (c : Call) → Decidable c.Reprints
  | ⟨_, arguments⟩ => decideArgumentsReprint arguments

def decideCallsReprint : (cs : List Call) → Decidable (callsReprint cs)
  | [] => .isTrue trivial
  | c :: cs => @instDecidableAnd _ _ c.decideReprints (decideCallsReprint cs)

end

instance (c : Call) : Decidable c.Reprints := c.decideReprints

/-! What is read back has the same text. -/

mutual

theorem Argument.text_reread : ∀ a : Argument, a.Reprints → a.reread.text = a.text
  | .string _, _ | .int _, _ | .keyword _, _ | .lambda _, _ => rfl
  | .float _, h => Double.text_reread h
  | .chain calls, h => congrArg (Text.joined ".") (texts_callsReread calls h)

theorem texts_argumentsReread :
    ∀ as : List Argument, argumentsReprint as →
      argumentTexts (argumentsReread as) = argumentTexts as
  | [], _ => rfl
  | a :: as, h => by
    rw [argumentsReread, argumentTexts, argumentTexts, a.text_reread h.1,
      texts_argumentsReread as h.2]

theorem Call.text_reread : ∀ c : Call, c.Reprints → c.reread.text = c.text
  | ⟨name, as⟩, h => by
    rw [Call.reread, Call.text, Call.text, texts_argumentsReread as h]

theorem texts_callsReread :
    ∀ cs : List Call, callsReprint cs → callTexts (callsReread cs) = callTexts cs
  | [], _ => rfl
  | c :: cs, h => by
    rw [callsReread, callTexts, callTexts, c.text_reread h.1, texts_callsReread cs h.2]

end

/-! ## 2. Calls that are spelled -/

mutual

/-- The argument's text stands for the argument: code loses its blanks, a double its digits, and a
quote ends a string. -/
def Argument.Spelled : Argument → Prop
  | .string s => Unquoted s
  | .int _ => True
  | .keyword name => Grammar.isName name.toList = true
  | .chain calls => calls ≠ [] ∧ callsSpelled calls
  | .float _ | .lambda _ => False

def argumentsSpelled : List Argument → Prop
  | [] => True
  | a :: as => a.Spelled ∧ argumentsSpelled as

def Call.Spelled : Call → Prop
  | ⟨name, arguments⟩ => Grammar.isName name.toList = true ∧ argumentsSpelled arguments

def callsSpelled : List Call → Prop
  | [] => True
  | c :: cs => c.Spelled ∧ callsSpelled cs

end

theorem argumentsSpelled_iff {as : List Argument} : argumentsSpelled as ↔ ∀ a ∈ as, a.Spelled := by
  induction as with
  | nil => simp [argumentsSpelled]
  | cons a as ih => simp [argumentsSpelled, ih]

theorem callsSpelled_iff {cs : List Call} : callsSpelled cs ↔ ∀ c ∈ cs, c.Spelled := by
  induction cs with
  | nil => simp [callsSpelled]
  | cons c cs ih => simp [callsSpelled, ih]

theorem callsSpelled_append {cs ds : List Call} :
    callsSpelled (cs ++ ds) ↔ callsSpelled cs ∧ callsSpelled ds := by
  simp only [callsSpelled_iff, List.forall_mem_append]

/-! What is spelled is read back as itself. -/

mutual

theorem Argument.Spelled.reread :
    ∀ {a : Argument}, a.Spelled → a.Phrase ∧ a.Reprints ∧ a.reread = a
  | .string s, h => ⟨.string s, h, rfl⟩
  | .int i, _ => ⟨.int i, trivial, rfl⟩
  | .keyword _, h => ⟨.keyword (Or.inl h), trivial, rfl⟩
  | .chain calls, h => by
    obtain ⟨hphrase, hreprints, hreread⟩ := reread_of_callsSpelled h.2
    exact ⟨Argument.phrase_chain.mpr ⟨h.1, hphrase⟩, hreprints, congrArg Argument.chain hreread⟩

theorem reread_of_argumentsSpelled : ∀ {as : List Argument}, argumentsSpelled as →
    (∀ a ∈ as, a.Phrase) ∧ argumentsReprint as ∧ argumentsReread as = as
  | [], _ => ⟨nofun, trivial, rfl⟩
  | a :: as, h => by
    obtain ⟨ha, ha', ha''⟩ := Argument.Spelled.reread h.1
    obtain ⟨has, has', has''⟩ := reread_of_argumentsSpelled h.2
    exact ⟨List.forall_mem_cons.mpr ⟨ha, has⟩, ⟨ha', has'⟩, by rw [argumentsReread, ha'', has'']⟩

theorem Call.Spelled.reread : ∀ {c : Call}, c.Spelled → c.Phrase ∧ c.Reprints ∧ c.reread = c
  | ⟨name, as⟩, h => by
    obtain ⟨has, has', has''⟩ := reread_of_argumentsSpelled h.2
    exact ⟨⟨h.1, has⟩, has', by rw [Call.reread, has'']⟩

theorem reread_of_callsSpelled : ∀ {cs : List Call}, callsSpelled cs →
    (∀ c ∈ cs, c.Phrase) ∧ callsReprint cs ∧ callsReread cs = cs
  | [], _ => ⟨nofun, trivial, rfl⟩
  | c :: cs, h => by
    obtain ⟨hc, hc', hc''⟩ := Call.Spelled.reread h.1
    obtain ⟨hcs, hcs', hcs''⟩ := reread_of_callsSpelled h.2
    exact ⟨List.forall_mem_cons.mpr ⟨hc, hcs⟩, ⟨hc', hcs'⟩, by rw [callsReread, hc'', hcs'']⟩

end

/-! ## 3. Reading back -/

namespace Grammar

variable {n : Nat} {rest : List Char}

/-- What the text of a double is read as, if it has digits. -/
theorem numberOf_text {x : Double} (h : x.Signless) (hdigits : (x.isNaN || x.isInfinite) = false) :
    IsNumeral x.text.toList ∧ numberOf x.text.toList = some x.reread := by
  simp only [Double.reread, hdigits, Bool.false_eq_true, if_false]
  obtain hzero | ⟨hfinite, hx⟩ := x.zero_or_digits h hdigits
  · rw [hzero, integer?_intText]
    exact ⟨isNumeral_intText 0, numberOf_intText 0⟩
  · obtain ⟨whole, fraction, v, hwrites, htext, hread⟩ := Double.exists_text hfinite hx
    constructor
    · rw [htext, Double.toList_signed]
      split
      · exact .mk (Or.inr rfl) hwrites.ne_nil hwrites.isDigit
      · exact .mk (Or.inl rfl) hwrites.ne_nil hwrites.isDigit
    · rw [numberOf, String.ofList_toList, hread]
      cases Reading.integer? x.text <;> rfl

theorem isName_text {x : Double} (h : x.Signless) (hname : (x.isNaN || x.isInfinite) = true) :
    isName x.text.toList = true := by
  obtain htext | htext := x.text_of_name h hname
  · rw [htext]
    decide
  · rw [htext]
    decide

theorem argument_float {x : Double} (h : x.Signless) (hrest : Closes rest) :
    argument (n + 1) (x.text.toList ++ rest) = some (x.reread, rest) := by
  cases hdigits : x.isNaN || x.isInfinite with
  | true =>
    rw [argument_keyword (Or.inl (isName_text h hdigits)) hrest, Double.reread, if_pos hdigits]
  | false =>
    obtain ⟨hnumeral, hvalue⟩ := numberOf_text h hdigits
    exact argument_number hnumeral hvalue hrest

theorem call_cons {c : Call} (h : c.Phrase) :
    ∃ d ds, c.text.toList = d :: ds ∧ isLetter d = true := by
  obtain ⟨name, as⟩ := c
  obtain ⟨d, ds, hds, hd⟩ := isName_cons h.name
  exact ⟨d, ds ++ '(' :: ((Text.joined "," (argumentTexts as)).toList ++ [')']),
    by rw [toList_callText, hds]; rfl, hd⟩

/-- The text of an argument does not begin with a blank. -/
theorem argument_cons : ∀ {a : Argument}, a.Phrase → a.Reprints →
    ∃ c cs, a.text.toList = c :: cs ∧ isSpace c = false
  | .string s, _, _ => ⟨'\'', s.toList ++ ['\''], by simp [Argument.text, Text.inQuotes], rfl⟩
  | .int i, _, _ => by
    obtain ⟨c, cs, hcs, hblank, -⟩ := (isNumeral_intText i).cons
    exact ⟨c, cs, hcs, hblank⟩
  | .float x, _, h => by
    cases hdigits : x.isNaN || x.isInfinite with
    | true =>
      obtain ⟨c, cs, hcs, hc⟩ := isName_cons (isName_text h hdigits)
      exact ⟨c, cs, hcs, isSpace_of_isLetter hc⟩
    | false =>
      obtain ⟨c, cs, hcs, hblank, -⟩ := (numberOf_text h hdigits).1.cons
      exact ⟨c, cs, hcs, hblank⟩
  | .keyword name, .keyword h, _ => by
    obtain ⟨c, cs, hcs, hc⟩ := h.cons
    exact ⟨c, cs, hcs, isSpace_of_isLetter hc⟩
  | .lambda code, _, _ => ⟨'\x7b', code.toList ++ ['\x7d'], by simp [Argument.text], rfl⟩
  | .chain [], .chain hne _ _, _ => absurd rfl hne
  | .chain (c :: cs), h, _ => by
    obtain ⟨d, ds, hds, hd⟩ := call_cons ((Argument.phrase_chain.mp h).2 c List.mem_cons_self)
    exact ⟨d, ds ++ dots cs, by rw [toList_chainText, hds]; rfl, isSpace_of_isLetter hd⟩

/-- What stands behind a chain: neither a dot nor a blank. -/
def Ends (rest : List Char) : Prop := ∀ c ∈ rest.head?, c ≠ '.' ∧ isSpace c = false

theorem Closes.ends (h : Closes rest) : Ends rest :=
  h.head (p := fun c => c ≠ '.' ∧ isSpace c = false) (by decide) (by decide)

/-- Calls follow or the chain ends; no blank stands there. -/
theorem Ends.head_dots (h : Ends rest) (cs : List Call) :
    ∀ c ∈ (dots cs ++ rest).head?, isSpace c = false := by
  cases cs with
  | nil => exact fun c hc => (h c hc).2
  | cons d ds =>
    intro c hc
    obtain rfl : '.' = c := by simpa using hc
    rfl

theorem argument_chain {c d : Call} {ds : List Call} {more : List Char} (hc : c.Phrase)
    (hrest : Closes rest) (hcall : call n (c.text.toList ++ more) = some (d, more))
    (hcalls : calls n more = (ds, rest)) :
    argument (n + 2) (c.text.toList ++ more) = some (.chain (d :: ds), rest) := by
  obtain ⟨name, as⟩ := c
  have horigin : dropOrigin ((Call.text ⟨name, as⟩).toList ++ more) =
      (Call.text ⟨name, as⟩).toList ++ more := by
    rw [toList_callText, List.append_assoc]
    exact dropOrigin_append (dot_not_mem_of_isName hc.name) (Or.inl rfl)
  have hchain : chain (n + 1) ((Call.text ⟨name, as⟩).toList ++ more) = some (d :: ds, rest) := by
    simp [chain, horigin, hcall, hcalls]
  obtain ⟨c, cs, hcs, hletter⟩ := call_cons hc
  rw [hcs, List.cons_append] at hchain ⊢
  rw [argument_letter hletter, hchain]
  simp [hrest.skipSpaces]

theorem closes_behind (as : List Argument) (rest : List Char) :
    Closes (behind ',' (argumentTexts as) ++ ')' :: rest) := by
  cases as with
  | nil => exact ⟨')', rest, rfl, Or.inr rfl⟩
  | cons a as => exact ⟨',', _, by rw [argumentTexts, behind_cons]; rfl, Or.inl rfl⟩

/-- A call is read as soon as its arguments are. -/
theorem call_name {name : String} {as : List Argument} {inner : List Char}
    (hname : isName name.toList = true) (hinner : ∀ c ∈ inner.head?, isSpace c = false)
    (hrest : ∀ d ∈ rest.head?, isSpace d = false) (has : arguments n inner = (as, ')' :: rest)) :
    call (n + 1) (name.toList ++ '(' :: inner) = some (⟨name, as⟩, rest) := by
  obtain ⟨d, ds, hds, hd⟩ := isName_cons hname
  have hidentifier : identifier (name.toList ++ '(' :: inner) = some (name, '(' :: inner) :=
    identifier_append hname (by simp; decide)
  rw [hds, List.cons_append] at hidentifier ⊢
  simp [call, skipSpaces_cons (isSpace_of_isLetter hd), hidentifier, symbol_cons (c := '(') rfl,
    skipSpaces_of_head hinner, has, symbol_cons (c := ')') rfl, skipSpaces_of_head hrest]

theorem head_argumentTexts {as : List Argument} (h : ∀ a ∈ as, a.Phrase)
    (hreprint : argumentsReprint as) :
    ∀ c ∈ ((Text.joined "," (argumentTexts as)).toList ++ ')' :: rest).head?,
      isSpace c = false := by
  cases as with
  | nil => simp [argumentTexts, Text.joined, isSpace]
  | cons a as =>
    obtain ⟨c, cs, hcs, hblank⟩ := argument_cons (h a List.mem_cons_self) hreprint.1
    simpa [toList_argumentTexts, hcs] using hblank

/-! The readers are given four nested readings for every character that is to be read, an argument
two more than that and a list of arguments three more. Nothing runs out: a call has three characters
besides its arguments, a name and two parentheses, and a comma or a dot is one, too. -/

mutual

theorem argument_reread : ∀ (a : Argument), a.Phrase → a.Reprints → ∀ (n : Nat) (rest : List Char),
    4 * a.text.length + 2 ≤ n → Closes rest →
      argument n (a.text.toList ++ rest) = some (a.reread, rest)
  | .string _, _, h, _ + 1, _, _, hrest => argument_string h hrest
  | .int i, _, _, _ + 1, _, _, hrest =>
    argument_number (isNumeral_intText i) (numberOf_intText i) hrest
  | .float _, _, h, _ + 1, _, _, hrest => argument_float h hrest
  | .keyword _, .keyword h, _, _ + 1, _, _, hrest => argument_keyword h hrest
  | .lambda _, .lambda hclosing htrim, _, _ + 1, _, _, hrest =>
    argument_lambda hclosing htrim hrest
  | .chain [], .chain hne _ _, _, _, _, _, _ => absurd rfl hne
  | .chain (c :: cs), hphrase, h, n + 2, rest, hn, hrest => by
    obtain ⟨hc, hcs⟩ := List.forall_mem_cons.mp (Argument.phrase_chain.mp hphrase).2
    have hlength : (Argument.chain (c :: cs)).text.length = c.text.length + (dots cs).length := by
      rw [← String.length_toList, toList_chainText, List.length_append, String.length_toList]
    have hcall := call_reread c hc h.1 n (dots cs ++ rest) (by omega) (hrest.ends.head_dots cs)
    have hcalls := calls_reread cs hcs h.2 n rest (by omega) hrest.ends
    rw [toList_chainText, List.append_assoc]
    exact argument_chain hc hrest hcall hcalls

theorem arguments_reread : ∀ (as : List Argument), (∀ a ∈ as, a.Phrase) → argumentsReprint as →
    ∀ (n : Nat) (rest : List Char), 4 * (Text.joined "," (argumentTexts as)).length + 3 ≤ n →
      arguments n ((Text.joined "," (argumentTexts as)).toList ++ ')' :: rest) =
        (argumentsReread as, ')' :: rest)
  | [], _, _, n + 1, rest, _ => by
    show arguments (n + 1) (')' :: rest) = ([], ')' :: rest)
    rw [arguments, argument_end]
  | a :: as, hphrase, h, n + 1, rest, hn => by
    obtain ⟨hfirst, hmore⟩ := List.forall_mem_cons.mp hphrase
    rw [← String.length_toList, toList_argumentTexts, List.length_append,
      String.length_toList] at hn
    have ha := argument_reread a hfirst h.1 n _ (by omega) (closes_behind as rest)
    have has := moreArguments_reread as hmore h.2 n rest (by omega)
    rw [toList_argumentTexts, List.append_assoc, arguments, ha]
    simp only [has, argumentsReread]

theorem moreArguments_reread : ∀ (as : List Argument), (∀ a ∈ as, a.Phrase) → argumentsReprint as →
    ∀ (n : Nat) (rest : List Char), 4 * (behind ',' (argumentTexts as)).length ≤ n →
      moreArguments n (behind ',' (argumentTexts as) ++ ')' :: rest) =
        (argumentsReread as, ')' :: rest)
  | [], _, _, n, rest, _ => by
    show moreArguments n (')' :: rest) = ([], ')' :: rest)
    cases n with
    | zero => rfl
    | succ n => rw [moreArguments, symbol_eq_none (by simp [isSpace])]
  | a :: as, hphrase, h, n, rest, hn => by
    obtain ⟨hfirst, hmore⟩ := List.forall_mem_cons.mp hphrase
    rw [argumentTexts, behind_cons, List.length_cons, List.length_append,
      String.length_toList] at hn
    obtain _ | n := n
    · omega
    have ha := argument_reread a hfirst h.1 n _ (by omega) (closes_behind as rest)
    have has := moreArguments_reread as hmore h.2 n rest (by omega)
    obtain ⟨c, cs, hcs, hc⟩ := argument_cons hfirst h.1
    have hcomma :
        symbol ',' (',' :: (a.text.toList ++ (behind ',' (argumentTexts as) ++ ')' :: rest))) =
          some (a.text.toList ++ (behind ',' (argumentTexts as) ++ ')' :: rest)) := by
      rw [symbol_cons rfl, skipSpaces_of_head]
      simpa [hcs] using hc
    rw [argumentTexts, behind_cons, List.cons_append, List.append_assoc, moreArguments, hcomma]
    simp only [ha, has, argumentsReread]

theorem call_reread : ∀ (c : Call), c.Phrase → c.Reprints → ∀ (n : Nat) (rest : List Char),
    4 * c.text.length ≤ n → (∀ d ∈ rest.head?, isSpace d = false) →
      call n (c.text.toList ++ rest) = some (c.reread, rest)
  | ⟨name, as⟩, hphrase, h, n, rest, hn, hrest => by
    obtain ⟨d, ds, hds, -⟩ := isName_cons hphrase.name
    rw [← String.length_toList, toList_callText, List.length_append, List.length_cons, hds,
      List.length_append, List.length_cons, List.length_singleton, String.length_toList] at hn
    obtain _ | n := n
    · omega
    have hcall := call_name hphrase.name (head_argumentTexts hphrase.arguments h) hrest
      (arguments_reread as hphrase.arguments h n rest (by omega))
    simpa [toList_callText, Call.reread] using hcall

theorem calls_reread : ∀ (cs : List Call), (∀ c ∈ cs, c.Phrase) → callsReprint cs →
    ∀ (n : Nat) (rest : List Char), 4 * (dots cs).length ≤ n → Ends rest →
      calls n (dots cs ++ rest) = (callsReread cs, rest)
  | [], _, _, n, rest, _, hrest => by
    cases n with
    | zero => rfl
    | succ n => rw [dots_nil, List.nil_append, calls, symbol_eq_none hrest, callsReread]
  | c :: cs, hphrase, h, n, rest, hn, hrest => by
    obtain ⟨hfirst, hmore⟩ := List.forall_mem_cons.mp hphrase
    rw [dots_cons, List.length_cons, List.length_append, String.length_toList] at hn
    obtain _ | n := n
    · omega
    have hcall := call_reread c hfirst h.1 n _ (by omega) (hrest.head_dots cs)
    have hcalls := calls_reread cs hmore h.2 n rest (by omega) hrest
    obtain ⟨d, ds, hds, hd⟩ := call_cons hfirst
    have hdot : symbol '.' ('.' :: (c.text.toList ++ (dots cs ++ rest))) =
        some (c.text.toList ++ (dots cs ++ rest)) := by
      rw [symbol_cons rfl, skipSpaces_of_head]
      simpa [hds] using isSpace_of_isLetter hd
    rw [dots_cons, List.cons_append, List.append_assoc, calls, hdot]
    simp only [hcall, hcalls, callsReread]

end

/-- **Reading back.** Calls behind the graph's name are read back, and nothing is left. -/
theorem source_reread {cs : List Call} (hphrase : ∀ c ∈ cs, c.Phrase) (h : callsReprint cs) :
    source ('g' :: dots cs) = some (callsReread cs, []) := by
  have hends : Ends [] := by simp [Ends]
  have hhead : ∀ c ∈ (dots cs).head?, isSpace c = false := by simpa using hends.head_dots cs
  have hcalls := calls_reread cs hphrase h (depthFor (dots cs)) [] (by unfold depthFor; omega) hends
  rw [List.append_nil] at hcalls
  rw [source, symbol_cons rfl, skipSpaces_of_head hhead, Option.map_some, hcalls]

/-- Spelled calls are read back as themselves. -/
theorem source_spelled {cs : List Call} (h : callsSpelled cs) :
    source ('g' :: dots cs) = some (cs, []) := by
  obtain ⟨hphrase, hreprints, hreread⟩ := reread_of_callsSpelled h
  rw [source_reread hphrase hreprints, hreread]

end Grammar

end TraversalSql
