import Mathlib
import TraversalSql.Proofs.DoubleTexts
import TraversalSql.Proofs.IntegerTexts
import TraversalSql.Traversal.Call

/-!
# Phrases read from their text

The grammar tries its alternatives in turn: code, quotes, numbers, chains, keywords. A phrase is
read back from its text as long as no alternative before the right one takes the text, and that is a
matter of the characters the text begins with and of the character behind it. The other way round,
not every argument is one that the grammar reads: a keyword is a name, code holds no closing brace,
and a chain has a call (`Argument.Phrase`).
-/

set_option autoImplicit false

namespace TraversalSql

/-- No quote ends the text before its end. -/
def Unquoted (s : String) : Prop := '\'' ∉ s.toList

instance (s : String) : Decidable (Unquoted s) := inferInstanceAs (Decidable ('\'' ∉ s.toList))

namespace Grammar

variable {n : Nat} {c : Char} {cs w rest : List Char} {name : String}

/-! ## 1. The characters at the front -/

theorem skipSpaces_of_head (h : ∀ c ∈ cs.head?, isSpace c = false) : skipSpaces cs = cs := by
  cases cs with
  | nil => rfl
  | cons c cs => simp [skipSpaces, h c rfl]

theorem skipSpaces_cons (h : isSpace c = false) : skipSpaces (c :: cs) = c :: cs :=
  skipSpaces_of_head (by simpa using h)

theorem symbol_cons (h : isSpace c = false) : symbol c (c :: cs) = some (skipSpaces cs) := by
  simp [symbol, skipSpaces_cons h]

theorem symbol_eq_none (h : ∀ d ∈ cs.head?, d ≠ c ∧ isSpace d = false) : symbol c cs = none := by
  cases cs with
  | nil => rfl
  | cons d cs => simp [symbol, skipSpaces_cons (h d rfl).2, (h d rfl).1]

/-- What stands behind an argument: a comma, or the end of the arguments. -/
def Closes (rest : List Char) : Prop := ∃ c more, rest = c :: more ∧ (c = ',' ∨ c = ')')

theorem Closes.head {p : Char → Prop} (h : Closes rest) (hcomma : p ',') (hend : p ')') :
    ∀ c ∈ rest.head?, p c := by
  obtain ⟨c, more, rfl, hc⟩ := h
  intro d hd
  obtain rfl : c = d := by simpa using hd
  rcases hc with rfl | rfl
  · exact hcomma
  · exact hend

theorem Closes.skipSpaces (h : Closes rest) : skipSpaces rest = rest :=
  skipSpaces_of_head (h.head rfl rfl)

/-- The characters are a name. -/
def isName : List Char → Bool
  | [] => false
  | c :: cs => isLetter c && cs.all isLetterOrDigit

/-- A name, or two with a dot between. -/
def IsKeyword (s : String) : Prop :=
  isName s.toList = true ∨ ∃ name member : String, isName name.toList = true ∧
    isName member.toList = true ∧ s = name ++ "." ++ member

theorem isName_cons (h : isName w = true) : ∃ c cs, w = c :: cs ∧ isLetter c = true := by
  cases w with
  | nil => cases h
  | cons c cs => exact ⟨c, cs, rfl, (Bool.and_eq_true_iff.mp h).1⟩

theorem IsKeyword.cons (h : IsKeyword name) :
    ∃ c cs, name.toList = c :: cs ∧ isLetter c = true := by
  obtain h | ⟨qualifier, member, hqualifier, -, rfl⟩ := h
  · exact isName_cons h
  · obtain ⟨c, cs, hcs, hc⟩ := isName_cons hqualifier
    exact ⟨c, cs ++ '.' :: member.toList, by simp [hcs], hc⟩

theorem dot_not_mem_of_isName (h : isName w = true) : '.' ∉ w := by
  obtain ⟨c, cs, rfl, hc⟩ := isName_cons h
  rw [isName, Bool.and_eq_true, List.all_eq_true] at h
  intro hdot
  rcases List.mem_cons.mp hdot with rfl | hdot
  · exact absurd hc (by decide)
  · exact absurd (h.2 _ hdot) (by decide)

theorem identifier_append (hname : isName name.toList = true)
    (hrest : ∀ c ∈ rest.head?, isLetterOrDigit c = false) :
    identifier (name.toList ++ rest) = some (name, rest) := by
  obtain ⟨c, cs, hcs, -⟩ := isName_cons hname
  rw [hcs, isName, Bool.and_eq_true, List.all_eq_true] at hname
  rw [hcs, List.cons_append, identifier, if_pos hname.1]
  simp only [Reading.span_append hname.2 hrest, ← hcs, String.ofList_toList]

theorem ne_of_isLetter {d : Char} (h : isLetter c = true) (hd : isLetter d = false) : c ≠ d := by
  rintro rfl
  rw [h] at hd
  cases hd

theorem isSpace_of_isLetter (h : isLetter c = true) : isSpace c = false := by
  simp [isSpace, ne_of_isLetter h (d := ' ') rfl, ne_of_isLetter h (d := '\t') rfl,
    ne_of_isLetter h (d := '\r') rfl, ne_of_isLetter h (d := '\n') rfl]

theorem isDigit_of_isLetter (h : isLetter c = true) : c.isDigit = false := by
  simp only [isLetter, Bool.or_eq_true, beq_iff_eq, Char.isAlpha, Char.isUpper, Char.isLower,
    Bool.and_eq_true, decide_eq_true_eq, ge_iff_le, UInt32.le_iff_toNat_le] at h
  -- letters lie above the digits
  have hlow : 65 ≤ c.val.toNat := by
    rcases h with (h | h) | rfl
    · exact h.1
    · exact Nat.le_trans (by decide) h.1
    · decide
  simp only [Char.isDigit, Bool.and_eq_false_iff, decide_eq_false_iff_not, ge_iff_le,
    UInt32.le_iff_toNat_le]
  exact Or.inr (Nat.not_le.mpr (Nat.lt_of_lt_of_le (by decide) hlow))

/-- Of the places a nested chain may come from, none is a name alone. -/
theorem afterText_eq_none {origin : List Char} (horigin : c ∉ origin) (hc : c ≠ '.') :
    ∀ {w : List Char}, '.' ∉ w → afterText (origin ++ ['.']) (w ++ c :: rest) = none := by
  induction origin with
  | nil =>
    intro w hw
    cases w with
    | nil => simp [afterText, Ne.symm hc]
    | cons d w => simp [afterText, (List.ne_and_not_mem_of_not_mem_cons hw).1]
  | cons p origin ih =>
    intro w hw
    obtain ⟨hp, horigin⟩ := List.ne_and_not_mem_of_not_mem_cons horigin
    cases w with
    | nil => simp [afterText, Ne.symm hp]
    | cons d w =>
      by_cases hd : p = d
      · simpa [afterText, hd] using ih horigin (List.ne_and_not_mem_of_not_mem_cons hw).2
      · simp [afterText, hd]

theorem dropOrigin_append (hw : '.' ∉ w) (hc : c = '(' ∨ c = ',' ∨ c = ')') :
    dropOrigin (w ++ c :: rest) = w ++ c :: rest := by
  have hdot : c ≠ '.' := by rcases hc with rfl | rfl | rfl <;> decide
  have hnone (origin : List Char) (h : c ∉ origin) :
      afterText (origin ++ ['.']) (w ++ c :: rest) = none := afterText_eq_none h hdot hw
  have h₁ := hnone "__".toList (by rcases hc with rfl | rfl | rfl <;> decide)
  have h₂ := hnone "TextP".toList (by rcases hc with rfl | rfl | rfl <;> decide)
  have h₃ := hnone "P".toList (by rcases hc with rfl | rfl | rfl <;> decide)
  have e₁ : "__.".toList = "__".toList ++ ['.'] := by decide
  have e₂ : "TextP.".toList = "TextP".toList ++ ['.'] := by decide
  have e₃ : "P.".toList = "P".toList ++ ['.'] := by decide
  rw [dropOrigin, e₁, e₂, e₃, h₁, h₂, h₃]
  rfl

/-- A dot behind a name: it is dropped with the name, or the text stays as it is. -/
theorem afterText_dot : ∀ {origin w : List Char}, '.' ∉ origin → '.' ∉ w →
    afterText (origin ++ ['.']) (w ++ '.' :: rest) = if origin = w then some rest else none
  | [], [], _, _ => by simp [afterText]
  | [], d :: w, _, hw => by simp [afterText, (List.ne_and_not_mem_of_not_mem_cons hw).1]
  | p :: origin, [], horigin, _ => by
    simp [afterText, Ne.symm (List.ne_and_not_mem_of_not_mem_cons horigin).1]
  | p :: origin, d :: w, horigin, hw => by
    have ih := afterText_dot (List.ne_and_not_mem_of_not_mem_cons horigin).2
      (List.ne_and_not_mem_of_not_mem_cons hw).2
    by_cases hd : p = d <;> simp [afterText, hd, ih]

theorem dropOrigin_dot (hw : '.' ∉ w) :
    dropOrigin (w ++ '.' :: rest) = rest ∨ dropOrigin (w ++ '.' :: rest) = w ++ '.' :: rest := by
  have e₁ : "__.".toList = "__".toList ++ ['.'] := by decide
  have e₂ : "TextP.".toList = "TextP".toList ++ ['.'] := by decide
  have e₃ : "P.".toList = "P".toList ++ ['.'] := by decide
  rw [dropOrigin, e₁, e₂, e₃, afterText_dot (by decide) hw, afterText_dot (by decide) hw,
    afterText_dot (by decide) hw]
  split
  · exact Or.inl rfl
  split
  · exact Or.inl rfl
  split
  · exact Or.inl rfl
  · exact Or.inr rfl

/-! ## 2. Literals and keywords -/

theorem lambda_eq_none (hc : c ≠ '\x7b') : lambda (c :: cs) = none := by
  simp [lambda, enclosed, hc]

theorem quoted_eq_none (hsingle : c ≠ '\'') (hdouble : c ≠ '"') : quoted (c :: cs) = none := by
  simp [quoted, enclosed, hsingle, hdouble]

theorem quoted_inQuotes {s : String} (hs : Unquoted s) :
    quoted ((Text.inQuotes s).toList ++ rest) = some (.string s, rest) := by
  have htext : (Text.inQuotes s).toList ++ rest = '\'' :: (s.toList ++ '\'' :: rest) := by
    simp [Text.inQuotes]
  rw [htext]
  simp [quoted, enclosed, Text.cutFirst_eq_some_iff.mpr ⟨rfl, hs⟩]

/-- The characters of a number: a sign, digits, and digits behind a point. -/
inductive IsNumeral : List Char → Prop
  | mk {sign whole fraction : List Char} (hsign : sign = [] ∨ sign = ['-']) (hne : whole ≠ [])
      (hdigit : ∀ c ∈ whole ++ fraction, c.isDigit = true) :
      IsNumeral (sign ++ (whole ++ Double.pointed fraction))

theorem unsignedDigits_append {whole fraction : List Char} (hne : whole ≠ [])
    (hdigit : ∀ c ∈ whole ++ fraction, c.isDigit = true) (h : Closes rest) :
    unsignedDigits (whole ++ Double.pointed fraction ++ rest) =
      some (whole ++ Double.pointed fraction, rest) := by
  obtain ⟨hwhole, hfraction⟩ := List.forall_mem_append.mp hdigit
  have hend : ∀ c ∈ rest.head?, c.isDigit = false := h.head rfl rfl
  unfold unsignedDigits
  cases fraction with
  | nil =>
    have hspan : Reading.spanDigits (whole ++ rest) = (whole, rest) :=
      Reading.span_append hwhole hend
    simp only [Double.pointed, List.isEmpty_nil, if_true, List.append_nil, hspan]
    obtain ⟨c, more, rfl, hc⟩ := h
    split
    · rename_i heq
      exact absurd (Prod.mk.inj heq).1 hne
    · rename_i heq
      obtain ⟨-, hmore⟩ := Prod.mk.inj heq
      rcases hc with rfl | rfl <;> cases hmore
    · rename_i heq
      obtain ⟨rfl, rfl⟩ := Prod.mk.inj heq
      rfl
  | cons d ds =>
    have hspan : Reading.spanDigits (whole ++ '.' :: (d :: ds ++ rest)) =
        (whole, '.' :: (d :: ds ++ rest)) :=
      Reading.span_append hwhole (by simp)
    have hmore : Reading.spanDigits (d :: ds ++ rest) = (d :: ds, rest) :=
      Reading.span_append hfraction hend
    simp only [Double.pointed, List.isEmpty_cons, Bool.false_eq_true, if_false, List.append_assoc,
      List.cons_append] at hspan hmore ⊢
    simp only [hspan, hmore]

theorem IsNumeral.number_append {ds : List Char} (hds : IsNumeral ds) (h : Closes rest) :
    number (ds ++ rest) = (numberOf ds).map fun a => (a, rest) := by
  obtain ⟨hsign, hne, hdigit⟩ := hds
  rename_i sign whole fraction
  have hdigits := unsignedDigits_append hne hdigit h
  rw [List.append_assoc]
  rcases hsign with rfl | rfl
  · unfold number
    split
    · rename_i heq
      obtain ⟨d, ds, rfl⟩ := List.exists_cons_of_ne_nil hne
      obtain rfl : d = '-' := (List.cons.inj heq).1
      exact absurd (hdigit '-' (by simp)) (by decide)
    · rw [List.nil_append, List.nil_append, hdigits]
      cases hvalue : numberOf (whole ++ Double.pointed fraction) <;> simp [hvalue]
  · cases hvalue : numberOf (['-'] ++ (whole ++ Double.pointed fraction)) <;>
      simp_all [number]

/-- A number begins neither with a blank nor as another literal does. -/
theorem IsNumeral.cons {ds : List Char} (h : IsNumeral ds) : ∃ c cs, ds = c :: cs ∧
    isSpace c = false ∧ c ≠ '\x7b' ∧ c ≠ '\'' ∧ c ≠ '"' := by
  obtain ⟨rfl | rfl, hne, hdigit⟩ := h
  · rename_i whole fraction
    obtain ⟨c, cs, rfl⟩ := List.exists_cons_of_ne_nil hne
    have hc : c.isDigit = true := hdigit c (by simp)
    have hother (d : Char) (hd : d.isDigit = false) : c ≠ d := by
      rintro rfl
      rw [hc] at hd
      cases hd
    refine ⟨c, cs ++ Double.pointed fraction, rfl, ?_, hother _ rfl, hother _ rfl, hother _ rfl⟩
    simp [isSpace, hother ' ' rfl, hother '\t' rfl, hother '\r' rfl, hother '\n' rfl]
  · exact ⟨'-', _, rfl, by decide, by decide, by decide, by decide⟩

theorem isNumeral_intText (i : Int64) : IsNumeral (intText i).toList := by
  have hnumeral {sign : List Char} (n : Nat) (hsign : sign = [] ∨ sign = ['-']) :
      IsNumeral (sign ++ Nat.toDigits 10 n) := by
    have h : IsNumeral (sign ++ (Nat.toDigits 10 n ++ Double.pointed [])) :=
      .mk hsign Nat.toDigits_ne_nil fun c hc => Reading.isDigit_toDigits (by simpa using hc)
    simpa [Double.pointed] using h
  rw [toList_intText]
  split
  · exact hnumeral _ (Or.inl rfl)
  · exact hnumeral _ (Or.inr rfl)

theorem numberOf_intText (i : Int64) : numberOf (intText i).toList = some (.int i) := by
  simp [numberOf, integer?_intText]

theorem number_eq_none (hsign : c ≠ '-') (hdigit : c.isDigit = false) :
    number (c :: cs) = none := by
  have hspan : Reading.spanDigits (c :: cs) = ([], c :: cs) :=
    Reading.span_append (w := []) (by simp) (by simpa using hdigit)
  have hnone : unsignedDigits (c :: cs) = none := by
    unfold unsignedDigits
    rw [hspan]
  unfold number
  split
  · rename_i heq
    exact absurd (List.cons.inj heq).1 hsign
  · simp [hnone]

theorem keyword_append (hname : isName name.toList = true) (h : Closes rest) :
    keyword (name.toList ++ rest) = some (.keyword name, rest) := by
  have hident := identifier_append hname (h.head rfl rfl)
  obtain ⟨c, more, rfl, hc⟩ := h
  unfold keyword
  simp only [hident, Option.bind_eq_bind, Option.bind_some]
  split
  · rename_i heq
    rcases hc with rfl | rfl <;> cases heq
  · rfl

theorem keyword_member {member : String} (hname : isName name.toList = true)
    (hmember : isName member.toList = true) (h : Closes rest) :
    keyword (name.toList ++ '.' :: (member.toList ++ rest)) =
      some (.keyword (name ++ "." ++ member), rest) := by
  have hident : identifier (name.toList ++ '.' :: (member.toList ++ rest)) =
      some (name, '.' :: (member.toList ++ rest)) := identifier_append hname (by simp; decide)
  simp [keyword, hident, identifier_append hmember (h.head rfl rfl)]

/-- A name without a parenthesis behind it is no call. -/
theorem call_eq_none (hname : isName name.toList = true)
    (hrest : ∀ c ∈ rest.head?, (c ≠ '(' ∧ isSpace c = false) ∧ isLetterOrDigit c = false) :
    call n (name.toList ++ rest) = none := by
  cases n with
  | zero => rfl
  | succ n =>
    obtain ⟨c, cs, hcs, hc⟩ := isName_cons hname
    have hspace : skipSpaces (name.toList ++ rest) = name.toList ++ rest :=
      skipSpaces_of_head (by simpa [hcs] using isSpace_of_isLetter hc)
    have hopen : symbol '(' rest = none := symbol_eq_none fun d hd => (hrest d hd).1
    simp [call, hspace, identifier_append hname fun d hd => (hrest d hd).2, hopen]

theorem Closes.noCall (h : Closes rest) (hname : isName name.toList = true) :
    call n (name.toList ++ rest) = none :=
  call_eq_none hname (h.head (p := fun c => (c ≠ '(' ∧ isSpace c = false) ∧
    isLetterOrDigit c = false) (by decide) (by decide))

/-- In front of a letter only chains and keywords are tried with success. -/
theorem argument_letter (h : isLetter c = true) : argument (n + 1) (c :: cs) =
    (((chain n (c :: cs)).map fun x => (Argument.chain x.1, x.2)) <|> keyword (c :: cs)).map
      fun x => (x.1, skipSpaces x.2) := by
  simp [argument, skipSpaces_cons (isSpace_of_isLetter h),
    lambda_eq_none (ne_of_isLetter h (d := '\x7b') rfl),
    quoted_eq_none (ne_of_isLetter h (d := '\'') rfl) (ne_of_isLetter h (d := '"') rfl),
    number_eq_none (ne_of_isLetter h (d := '-') rfl) (isDigit_of_isLetter h)]

/-- A name is read as a keyword if there is no chain in front. -/
theorem argument_of_keyword {a : Argument} {cs more : List Char} (hname : isName name.toList = true)
    (hcs : cs = name.toList ++ more) (hchain : chain n cs = none)
    (hkeyword : keyword cs = some (a, rest)) (h : Closes rest) :
    argument (n + 1) cs = some (a, rest) := by
  obtain ⟨c, ds, hds, hc⟩ := isName_cons hname
  rw [hds, List.cons_append] at hcs
  subst hcs
  rw [argument_letter hc, hchain, hkeyword]
  simp [h.skipSpaces]

theorem argument_keyword (hkeyword : IsKeyword name) (h : Closes rest) :
    argument (n + 1) (name.toList ++ rest) = some (.keyword name, rest) := by
  obtain hname | ⟨qualifier, member, hname, hmember, rfl⟩ := hkeyword
  · refine argument_of_keyword hname rfl ?_ (keyword_append hname h) h
    obtain ⟨d, more, rfl, hd⟩ := id h
    cases n with
    | zero => rfl
    | succ n =>
      have horigin : dropOrigin (name.toList ++ d :: more) = name.toList ++ d :: more :=
        dropOrigin_append (dot_not_mem_of_isName hname) (Or.inr hd)
      simp [chain, horigin, h.noCall hname]
  · have htext : (qualifier ++ "." ++ member).toList ++ rest =
        qualifier.toList ++ '.' :: (member.toList ++ rest) := by simp
    rw [htext]
    refine argument_of_keyword hname rfl ?_ (keyword_member hname hmember h) h
    cases n with
    | zero => rfl
    | succ n =>
      -- the qualifier may name an origin; neither with it nor without it a call is in front
      have hcall : call n (qualifier.toList ++ '.' :: (member.toList ++ rest)) = none :=
        call_eq_none hname (by simp; decide)
      have hdropped := @dropOrigin_dot _ (member.toList ++ rest) (dot_not_mem_of_isName hname)
      rcases hdropped with horigin | horigin
      · simp [chain, horigin, h.noCall hmember]
      · simp [chain, horigin, hcall]

theorem argument_lambda {code : String} (hclosing : '\x7d' ∉ code.toList)
    (htrim : Text.trimList code.toList = code.toList) (h : Closes rest) :
    argument (n + 1) ((Argument.lambda code).text.toList ++ rest) = some (.lambda code, rest) := by
  have htext : (Argument.lambda code).text.toList ++ rest =
      '\x7b' :: (code.toList ++ '\x7d' :: rest) := by
    simp [Argument.text]
  rw [htext]
  simp [argument, skipSpaces_cons (c := '\x7b') rfl, lambda, enclosed,
    Text.cutFirst_eq_some_iff.mpr ⟨rfl, hclosing⟩, htrim, h.skipSpaces]

theorem argument_string {s : String} (hs : Unquoted s) (h : Closes rest) :
    argument (n + 1) ((Text.inQuotes s).toList ++ rest) = some (.string s, rest) := by
  have hquoted : quoted ((Text.inQuotes s).toList ++ rest) = some (.string s, rest) :=
    quoted_inQuotes hs
  obtain ⟨cs, hcs⟩ : ∃ cs, (Text.inQuotes s).toList ++ rest = '\'' :: cs :=
    ⟨s.toList ++ '\'' :: rest, by simp [Text.inQuotes]⟩
  rw [hcs] at hquoted ⊢
  simp [argument, skipSpaces_cons (c := '\'') rfl, lambda_eq_none (c := '\'') (by decide), hquoted,
    h.skipSpaces]

theorem argument_number {ds : List Char} {a : Argument} (hds : IsNumeral ds)
    (hvalue : numberOf ds = some a) (h : Closes rest) :
    argument (n + 1) (ds ++ rest) = some (a, rest) := by
  have hnumber := hds.number_append h
  obtain ⟨c, cs, rfl, hblank, hbrace, hsingle, hdouble⟩ := hds.cons
  rw [List.cons_append] at hnumber ⊢
  simp [argument, skipSpaces_cons hblank, lambda_eq_none hbrace, quoted_eq_none hsingle hdouble,
    hnumber, hvalue, h.skipSpaces]

/-- Where the arguments end there is no further one. -/
theorem argument_end (cs : List Char) : argument n (')' :: cs) = none := by
  have hspace : skipSpaces (')' :: cs) = ')' :: cs := skipSpaces_cons rfl
  have hcall (m : Nat) : call m (')' :: cs) = none := by
    cases m with
    | zero => rfl
    | succ m => simp [call, hspace, identifier, isLetter]
  have hchain (m : Nat) : chain m (')' :: cs) = none := by
    cases m with
    | zero => rfl
    | succ m =>
      have horigin : dropOrigin (')' :: cs) = ')' :: cs :=
        dropOrigin_append (w := []) (by simp) (by simp)
      simp [chain, horigin, hcall]
  cases n with
  | zero => rfl
  | succ n =>
    simp [argument, hspace, lambda_eq_none (c := ')') (by decide),
      quoted_eq_none (c := ')') (by decide) (by decide),
      number_eq_none (c := ')') (by decide) (by decide), hchain, keyword, identifier, isLetter]

/-! ## 3. Texts in a row -/

/-- Texts in a row, each behind a separator. -/
def behind (sep : Char) (texts : List String) : List Char := texts.flatMap fun s => sep :: s.toList

@[simp] theorem behind_cons (sep : Char) (s : String) (texts : List String) :
    behind sep (s :: texts) = sep :: (s.toList ++ behind sep texts) := by
  simp [behind]

@[simp] theorem behind_append (sep : Char) (texts more : List String) :
    behind sep (texts ++ more) = behind sep texts ++ behind sep more :=
  List.flatMap_append

theorem toList_joined {sep : String} {c : Char} (hsep : sep.toList = [c]) (s : String)
    (texts : List String) :
    (Text.joined sep (s :: texts)).toList = s.toList ++ behind c texts := by
  unfold Text.joined
  induction texts generalizing s with
  | nil => simp [behind]
  | cons t texts ih =>
    rw [String.intercalate_cons_cons, String.toList_append, String.toList_append, ih, behind_cons,
      hsep]
    simp

end Grammar

theorem argumentTexts_eq (as : List Argument) : argumentTexts as = as.map Argument.text := by
  induction as with
  | nil => rfl
  | cons a as ih => rw [argumentTexts, ih, List.map_cons]

theorem callTexts_eq (cs : List Call) : callTexts cs = cs.map Call.text := by
  induction cs with
  | nil => rfl
  | cons c cs ih => rw [callTexts, ih, List.map_cons]

/-- Calls in a row, each behind a dot. -/
def dots (cs : List Call) : List Char := Grammar.behind '.' (callTexts cs)

@[simp] theorem dots_nil : dots [] = [] := rfl

@[simp] theorem dots_cons (c : Call) (cs : List Call) :
    dots (c :: cs) = '.' :: (c.text.toList ++ dots cs) := Grammar.behind_cons ..

@[simp] theorem dots_append (cs ds : List Call) : dots (cs ++ ds) = dots cs ++ dots ds := by
  simp [dots, callTexts_eq]

theorem dots_eq (cs : List Call) : dots cs = cs.flatMap fun c => '.' :: c.text.toList := by
  rw [dots, callTexts_eq, Grammar.behind, List.flatMap_map]

theorem toList_callText (name : String) (as : List Argument) : (Call.text ⟨name, as⟩).toList =
    name.toList ++ '(' :: ((Text.joined "," (argumentTexts as)).toList ++ [')']) := by
  simp [Call.text]

theorem toList_chainText (c : Call) (cs : List Call) :
    (Argument.chain (c :: cs)).text.toList = c.text.toList ++ dots cs := by
  rw [Argument.text, callTexts, Grammar.toList_joined (c := '.') (by decide)]
  rfl

theorem toList_argumentTexts (a : Argument) (as : List Argument) :
    (Text.joined "," (argumentTexts (a :: as))).toList =
      a.text.toList ++ Grammar.behind ',' (argumentTexts as) := by
  rw [argumentTexts, Grammar.toList_joined (c := ',') (by decide)]

/-! ## 4. What the grammar reads -/

/-- A text without the blanks at its ends has none there. -/
theorem Text.trimList_trimList (cs : List Char) : trimList (trimList cs) = trimList cs := by
  have htrim (ds : List Char) : trimList ds = (ds.dropWhile isBlank).rdropWhile isBlank := rfl
  have hfront : ((cs.dropWhile isBlank).rdropWhile isBlank).dropWhile isBlank =
      (cs.dropWhile isBlank).rdropWhile isBlank := by
    obtain ⟨ds, hds⟩ := List.rdropWhile_prefix isBlank (l := cs.dropWhile isBlank)
    have hhead := List.head?_dropWhile_not isBlank cs
    cases hcs : (cs.dropWhile isBlank).rdropWhile isBlank with
    | nil => rfl
    | cons c es =>
      rw [← hds, hcs] at hhead
      exact List.dropWhile_cons_of_neg (by simpa using hhead)
  rw [htrim cs, htrim, hfront, List.rdropWhile_idempotent]

theorem Text.mem_of_mem_trimList {c : Char} {cs : List Char} (h : c ∈ trimList cs) : c ∈ cs := by
  have hfront := (List.rdropWhile_prefix isBlank (l := cs.dropWhile isBlank)).subset h
  exact (List.dropWhile_suffix isBlank (l := cs)).subset hfront

/-- The arguments of the grammar: keywords are names, code is cut at the first brace and has no
blanks at its ends, and a chain has a call. -/
inductive Argument.Phrase : Argument → Prop
  | string (s : String) : Phrase (.string s)
  | int (i : Int64) : Phrase (.int i)
  | float (x : Double) : Phrase (.float x)
  | keyword {name : String} (h : Grammar.IsKeyword name) : Phrase (.keyword name)
  | lambda {code : String} (hclosing : '\x7d' ∉ code.toList)
      (htrim : Text.trimList code.toList = code.toList) : Phrase (.lambda code)
  | chain {calls : List Call} (hne : calls ≠ [])
      (hname : ∀ c ∈ calls, Grammar.isName c.name.toList = true)
      (harguments : ∀ c ∈ calls, ∀ a ∈ c.arguments, Phrase a) : Phrase (.chain calls)

/-- A call of the grammar. -/
structure Call.Phrase (c : Call) : Prop where
  name : Grammar.isName c.name.toList = true
  arguments : ∀ a ∈ c.arguments, a.Phrase

theorem Argument.phrase_chain {calls : List Call} :
    (Argument.chain calls).Phrase ↔ calls ≠ [] ∧ ∀ c ∈ calls, c.Phrase := by
  constructor
  · rintro ⟨⟩
    rename_i hne hname harguments
    exact ⟨hne, fun c hc => ⟨hname c hc, harguments c hc⟩⟩
  · rintro ⟨hne, h⟩
    exact .chain hne (fun c hc => (h c hc).name) fun c hc => (h c hc).arguments

namespace Grammar

variable {cs rest : List Char} {a : Argument} {name : String}

theorem isName_of_identifier (h : identifier cs = some (name, rest)) :
    isName name.toList = true := by
  unfold identifier at h
  split at h
  · cases h
  · split at h
    · rename_i c cs hc
      cases h
      rw [String.toList_ofList, isName, hc, Bool.true_and, List.all_eq_true]
      show ∀ d ∈ (cs.span isLetterOrDigit).1, isLetterOrDigit d = true
      rw [List.span_eq_takeWhile_dropWhile]
      exact fun d hd => List.mem_takeWhile_imp hd
    · cases h

theorem phrase_of_lambda (h : lambda cs = some (a, rest)) : a.Phrase := by
  obtain ⟨⟨code, more⟩, hcode, heq⟩ := Option.map_eq_some_iff.mp h
  cases heq
  have hclosing : '\x7d' ∉ code := by
    unfold enclosed at hcode
    split at hcode
    · cases hcode
    · split at hcode
      · exact (Text.cutFirst_eq_some_iff.mp hcode).2
      · cases hcode
  refine .lambda ?_ ?_
  · rw [String.toList_ofList]
    exact fun hmem => hclosing (Text.mem_of_mem_trimList hmem)
  · rw [String.toList_ofList, Text.trimList_trimList]

theorem phrase_of_quoted (h : quoted cs = some (a, rest)) : a.Phrase := by
  obtain ⟨x, -, hx⟩ := Option.map_eq_some_iff.mp h
  cases hx
  exact .string _

theorem phrase_of_numberOf (h : numberOf cs = some a) : a.Phrase := by
  simp only [numberOf, Option.orElse_eq_orElse, Option.orElse_eq_or, Option.or_eq_some_iff] at h
  rcases h with h | ⟨-, h⟩
  · obtain ⟨i, -, rfl⟩ := Option.map_eq_some_iff.mp h
    exact .int i
  · obtain ⟨x, -, rfl⟩ := Option.map_eq_some_iff.mp h
    exact .float x

theorem phrase_of_number (h : number cs = some (a, rest)) : a.Phrase := by
  unfold number at h
  simp only [Option.bind_eq_bind] at h
  split at h <;>
  · obtain ⟨x, -, h⟩ := Option.bind_eq_some_iff.mp h
    obtain ⟨b, hb, heq⟩ := Option.bind_eq_some_iff.mp h
    cases heq
    exact phrase_of_numberOf hb

theorem phrase_of_keyword (h : keyword cs = some (a, rest)) : a.Phrase := by
  unfold keyword at h
  simp only [Option.bind_eq_bind, Option.bind_eq_some_iff] at h
  obtain ⟨⟨name, more⟩, hname, h⟩ := h
  have hname := isName_of_identifier hname
  split at h
  · split at h
    · rename_i member _ hmember
      cases h
      exact .keyword (Or.inr ⟨name, member, hname, isName_of_identifier hmember, rfl⟩)
    · cases h
      exact .keyword (Or.inl hname)
  · cases h
    exact .keyword (Or.inl hname)

/-- What the readers yield with so many nested readings. -/
structure Yields (n : Nat) : Prop where
  argument : ∀ {cs a rest}, argument n cs = some (a, rest) → a.Phrase
  arguments : ∀ cs, ∀ a ∈ (arguments n cs).1, a.Phrase
  moreArguments : ∀ cs, ∀ a ∈ (moreArguments n cs).1, a.Phrase
  call : ∀ {cs c rest}, call n cs = some (c, rest) → c.Phrase
  calls : ∀ cs, ∀ c ∈ (calls n cs).1, c.Phrase
  chain : ∀ {cs l rest}, chain n cs = some (l, rest) → l ≠ [] ∧ ∀ c ∈ l, c.Phrase

theorem yields_zero : Yields 0 where
  argument h := by cases h
  arguments _ := nofun
  moreArguments _ := nofun
  call h := by cases h
  calls _ := nofun
  chain h := by cases h

theorem yields_succ {n : Nat} (ih : Yields n) : Yields (n + 1) where
  argument {cs a rest} h := by
    obtain ⟨⟨b, more⟩, hb, heq⟩ := Option.map_eq_some_iff.mp h
    obtain rfl : b = a := congrArg Prod.fst heq
    simp only [Option.orElse_eq_orElse, Option.orElse_eq_or, Option.or_eq_some_iff] at hb
    rcases hb with hb | ⟨-, hb | ⟨-, hb | ⟨-, hb | ⟨-, hb⟩⟩⟩⟩
    · exact phrase_of_lambda hb
    · exact phrase_of_quoted hb
    · exact phrase_of_number hb
    · obtain ⟨⟨calls, rest'⟩, hcalls, heq⟩ := Option.map_eq_some_iff.mp hb
      cases heq
      exact Argument.phrase_chain.mpr (ih.chain hcalls)
    · exact phrase_of_keyword hb
  arguments cs := by
    simp only [arguments]
    split
    · exact nofun
    · rename_i hfirst
      exact List.forall_mem_cons.mpr ⟨ih.argument hfirst, ih.moreArguments _⟩
  moreArguments cs := by
    simp only [moreArguments]
    split
    · exact nofun
    · split
      · exact nofun
      · rename_i hfirst
        exact List.forall_mem_cons.mpr ⟨ih.argument hfirst, ih.moreArguments _⟩
  call h := by
    simp only [call, Option.bind_eq_bind, Option.bind_eq_some_iff] at h
    obtain ⟨⟨name, rest⟩, hname, rest', -, rest'', -, heq⟩ := h
    cases heq
    exact ⟨isName_of_identifier hname, ih.arguments _⟩
  calls cs := by
    simp only [calls]
    split
    · exact nofun
    · split
      · exact nofun
      · rename_i hfirst
        exact List.forall_mem_cons.mpr ⟨ih.call hfirst, ih.calls _⟩
  chain h := by
    simp only [chain, Option.bind_eq_bind, Option.bind_eq_some_iff] at h
    obtain ⟨⟨first, rest⟩, hfirst, heq⟩ := h
    cases heq
    exact ⟨List.cons_ne_nil _ _, List.forall_mem_cons.mpr ⟨ih.call hfirst, ih.calls _⟩⟩

theorem yields : ∀ n : Nat, Yields n
  | 0 => yields_zero
  | n + 1 => yields_succ (yields n)

/-- **What the grammar reads** behind the graph's name are phrases. -/
theorem phrase_of_source {calls : List Call} (h : source cs = some (calls, rest)) :
    ∀ c ∈ calls, c.Phrase := by
  obtain ⟨more, -, heq⟩ := Option.map_eq_some_iff.mp h
  have hcalls := (yields (depthFor more)).calls more
  rw [heq] at hcalls
  exact hcalls

end Grammar

end TraversalSql
