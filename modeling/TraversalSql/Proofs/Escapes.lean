import Mathlib.Data.List.Infix
import TraversalSql.Sql.Condition

/-!
# Escapes

A text that a database reads by rules of its own has to be escaped: the text of a `GLOB` pattern,
and a name between quote marks. Here are the rules by which a pattern matches and a quoted name is
read, left to right as the database does it, and what they make of the escaped text.
-/

set_option autoImplicit false

namespace TraversalSql

/-! ## 1. The `GLOB` matcher -/

/-- A class of characters, as between the brackets of a pattern: ranges, or all that is outside
of them. -/
structure CharClass where
  negated : Bool
  ranges : List (Char × Char)

namespace CharClass

/-- The characters of a class. -/
def has (k : CharClass) (c : Char) : Bool :=
  k.negated != k.ranges.any fun (low, high) => low ≤ c && c ≤ high

/-- The class of one character. -/
def only (c : Char) : CharClass := ⟨false, [(c, c)]⟩

/-- The class of every character. -/
def every : CharClass := ⟨true, []⟩

@[simp] theorem has_only (c d : Char) : (only c).has d = true ↔ d = c := by
  simp only [has, only, List.any_cons, List.any_nil, Bool.or_false, bne_iff_ne, ne_eq,
    Bool.false_eq, Bool.and_eq_false_iff, decide_eq_false_iff_not, ← not_and_or, not_not]
  constructor
  · exact fun h => Char.le_antisymm h.2 h.1
  · rintro rfl
    exact ⟨Char.le_refl _, Char.le_refl _⟩

/-- The ranges up to the closing bracket, and what is behind it. `low` is the character in front,
which a hyphen makes the low end of a range. -/
def readRanges (low : Option Char) : List Char → Option (List (Char × Char) × List Char)
  | [] => none
  | ']' :: behind => some ([], behind)
  | '-' :: d :: cs =>
    match low with
    | none => (readRanges (some '-') (d :: cs)).map (Prod.map (('-', '-') :: ·) id)
    | some a =>
      if d = ']' then some ([('-', '-')], cs)
      else (readRanges none cs).map (Prod.map ((a, d) :: ·) id)
  | c :: cs => (readRanges (some c) cs).map (Prod.map ((c, c) :: ·) id)

/-- The ranges behind the hat, if there is one. A bracket right at the start is a member. -/
def readMembers : List Char → Option (List (Char × Char) × List Char)
  | ']' :: cs => (readRanges none cs).map (Prod.map ((']', ']') :: ·) id)
  | cs => readRanges none cs

/-- The class behind an opening bracket, and what is behind the closing one. -/
def read : List Char → Option (CharClass × List Char)
  | '^' :: cs => (readMembers cs).map (Prod.map (CharClass.mk true) id)
  | cs => (readMembers cs).map (Prod.map (CharClass.mk false) id)

/-- What is behind a class does not depend on what is made of its members. -/
theorem exists_of_map_eq_some {α β : Type} {f : α → β} {o : Option (α × List Char)} {b : β}
    {behind : List Char} (h : o.map (Prod.map f id) = some (b, behind)) :
    ∃ a, o = some (a, behind) := by
  obtain ⟨⟨a, _⟩, ho, heq⟩ := Option.map_eq_some_iff.mp h
  obtain ⟨-, rfl⟩ := Prod.mk.inj heq
  exact ⟨a, ho⟩

theorem readRanges_length {low : Option Char} {cs behind : List Char} {rs : List (Char × Char)}
    (h : readRanges low cs = some (rs, behind)) : behind.length < cs.length := by
  fun_induction readRanges low cs generalizing rs with
  | case1 => simp at h
  | case2 low tail =>
    obtain ⟨-, rfl⟩ : [] = rs ∧ tail = behind := by simpa using h
    simp
  | case3 d cs ih =>
    obtain ⟨rs', h⟩ := exists_of_map_eq_some h
    exact (ih h).trans (Nat.lt_succ_self _)
  | case4 cs a =>
    obtain ⟨-, rfl⟩ : [('-', '-')] = rs ∧ cs = behind := by simpa using h
    simp only [List.length_cons]
    omega
  | case5 cs a d hd ih =>
    obtain ⟨rs', h⟩ := exists_of_map_eq_some h
    have := ih h
    simp only [List.length_cons]
    omega
  | case6 low c cs _ _ ih =>
    obtain ⟨rs', h⟩ := exists_of_map_eq_some h
    exact (ih h).trans (Nat.lt_succ_self _)

theorem readMembers_length {cs behind : List Char} {rs : List (Char × Char)}
    (h : readMembers cs = some (rs, behind)) : behind.length < cs.length := by
  unfold readMembers at h
  split at h
  · obtain ⟨rs', h⟩ := exists_of_map_eq_some h
    exact (readRanges_length h).trans (Nat.lt_succ_self _)
  · exact readRanges_length h

theorem read_length {cs behind : List Char} {k : CharClass}
    (h : read cs = some (k, behind)) : behind.length < cs.length := by
  unfold read at h
  split at h
  all_goals obtain ⟨rs, h⟩ := exists_of_map_eq_some h
  · exact (readMembers_length h).trans (Nat.lt_succ_self _)
  · exact readMembers_length h

end CharClass

/-- A part of a pattern. -/
inductive GlobPart where
  /-- Any text. -/
  | anything
  /-- One character of a class. -/
  | oneOf (k : CharClass)

namespace GlobPart

/-- The parts of a pattern; a class that does not end makes it match nothing. -/
def read : List Char → Option (List GlobPart)
  | [] => some []
  | '*' :: cs => (read cs).map (anything :: ·)
  | '?' :: cs => (read cs).map (oneOf .every :: ·)
  | '[' :: cs =>
    match hread : CharClass.read cs with
    | none => none
    | some (k, behind) =>
      have := CharClass.read_length hread
      (read behind).map (oneOf k :: ·)
  | c :: cs => (read cs).map (oneOf (.only c) :: ·)
termination_by cs => cs.length

/-- A text matches parts one after the other. Where they begin with any text, every end of the
text is tried. -/
def fits : List GlobPart → List Char → Bool
  | [], cs => cs.isEmpty
  | anything :: ps, cs => cs.tails.any (fits ps)
  | oneOf _ :: _, [] => false
  | oneOf k :: ps, c :: cs => k.has c && fits ps cs

end GlobPart

/-- A text matches a pattern. -/
def globMatches (pattern s : String) : Bool :=
  (GlobPart.read pattern.toList).any fun ps => GlobPart.fits ps s.toList

/-! ## 2. What escaped texts match -/

namespace GlobPart

/-- The parts that match one text only. -/
def exactly (cs : List Char) : List GlobPart := cs.map fun c => oneOf (.only c)

theorem fits_exactly (cs : List Char) (ps : List GlobPart) (s : List Char) :
    fits (exactly cs ++ ps) s = true ↔ ∃ behind, cs ++ behind = s ∧ fits ps behind = true := by
  induction cs generalizing s with
  | nil => simp [exactly]
  | cons c cs ih =>
    cases s with
    | nil => simp [exactly, fits]
    | cons d s =>
      have hrest := ih s
      simp only [exactly] at hrest
      simp only [exactly, List.map_cons, List.cons_append, fits, Bool.and_eq_true,
        CharClass.has_only, hrest, List.cons.injEq, eq_comm (a := d), and_assoc, exists_and_left]

/-- Any text in front of one text matches what ends in it. -/
theorem fits_anything_exactly (cs s : List Char) :
    fits (anything :: exactly cs) s = true ↔ cs <:+ s := by
  have hexactly (behind : List Char) : fits (exactly cs) behind = true ↔ cs = behind := by
    simpa [fits] using fits_exactly cs [] behind
  simp [fits, hexactly]

/-- Any text behind one text matches what begins with it. -/
theorem fits_exactly_anything (cs s : List Char) :
    fits (exactly cs ++ [anything]) s = true ↔ cs <+: s := by
  have hany (behind : List Char) : fits [anything] behind = true := by
    simp only [fits, List.any_eq_true, List.mem_tails]
    exact ⟨[], List.nil_suffix, rfl⟩
  simp only [fits_exactly, hany, and_true]
  rfl

/-- A character that is escaped where it has a meaning is read as that character. -/
theorem read_escaped (c : Char) (cs : List Char) :
    read ((if c = '*' ∨ c = '?' ∨ c = '[' then ['[', c, ']'] else [c]) ++ cs)
      = (read cs).map (oneOf (.only c) :: ·) := by
  split
  case isTrue h =>
    -- none of the three means anything as the only member of a class
    have hclass : CharClass.read (c :: ']' :: cs) = some (.only c, cs) := by
      obtain rfl | rfl | rfl := h <;> rfl
    simp only [List.cons_append, List.nil_append]
    rw [read]
    split
    · simp_all
    · rename_i k behind hread
      obtain ⟨rfl, rfl⟩ := Prod.mk.inj (Option.some.inj (hread.symm.trans hclass))
      rfl
  case isFalse h =>
    simp only [not_or] at h
    rw [List.singleton_append, read] <;> simp_all

/-- An escaped text is read as that text, character by character. -/
theorem read_globEscaped (s : String) (cs : List Char) :
    read ((globEscaped s).toList ++ cs) = (read cs).map (exactly s.toList ++ ·) := by
  simp only [globEscaped, String.toList_ofList]
  generalize s.toList = text
  induction text with
  | nil => simp [exactly]
  | cons c text ih =>
    rw [List.flatMap_cons, List.append_assoc, read_escaped, ih, Option.map_map]
    rfl

end GlobPart

theorem globMatches_startingWith (text s : String) :
    globMatches (globEscaped text ++ "*") s = true ↔ text.toList <+: s.toList := by
  have hread : GlobPart.read (globEscaped text ++ "*").toList
      = some (GlobPart.exactly text.toList ++ [.anything]) := by
    have hstar : GlobPart.read "*".toList = some [.anything] := by simp [GlobPart.read]
    rw [String.toList_append, GlobPart.read_globEscaped, hstar, Option.map_some]
  rw [globMatches, hread, Option.any_some, GlobPart.fits_exactly_anything]

theorem globMatches_endingWith (text s : String) :
    globMatches ("*" ++ globEscaped text) s = true ↔ text.toList <:+ s.toList := by
  have hread : GlobPart.read ("*" ++ globEscaped text).toList
      = some (.anything :: GlobPart.exactly text.toList) := by
    have htext := GlobPart.read_globEscaped text []
    simp only [List.append_nil, GlobPart.read, Option.map_some] at htext
    rw [String.toList_append, show "*".toList = ['*'] from rfl, List.singleton_append,
      GlobPart.read, htext, Option.map_some]
  rw [globMatches, hread, Option.any_some, GlobPart.fits_anything_exactly]

/-- A stretch of SQL as a statement takes it: its text and its parameters. -/
def Fragment.written (f : Fragment) : String × List Parameter := (f.sql, f.parameters)

/-- A text test at the start or end of a column is given a pattern for `GLOB`, the same for the
test and its negation. Whatever stands in the text, it is matched literally: by the strings that
begin with the text, or end with it, and by no others. -/
theorem Dialect.sqlite_textCondition_literal (column text : String) :
    ∃ starting ending : String,
      (sqlite.textCondition column .startingWith text).written
        = (column ++ " GLOB ?", [.value (.string starting)]) ∧
      (sqlite.textCondition column .notStartingWith text).written
        = (column ++ " NOT GLOB ?", [.value (.string starting)]) ∧
      (sqlite.textCondition column .endingWith text).written
        = (column ++ " GLOB ?", [.value (.string ending)]) ∧
      (sqlite.textCondition column .notEndingWith text).written
        = (column ++ " NOT GLOB ?", [.value (.string ending)]) ∧
      ∀ s : String,
        (globMatches starting s = true ↔ text.toList <+: s.toList) ∧
        (globMatches ending s = true ↔ text.toList <:+ s.toList) := by
  have hwritten (operator literal : String) :
      Fragment.written [.text (column ++ operator), .value (.string literal), .text ""]
        = (column ++ (operator ++ "?"), [.value (.string literal)]) :=
    Prod.ext (by simp [Fragment.written, Fragment.sql, Piece.sql, Piece.value, String.append_assoc])
      rfl
  exact ⟨globEscaped text ++ "*", "*" ++ globEscaped text, hwritten " GLOB " _,
    hwritten " NOT GLOB " _, hwritten " GLOB " _, hwritten " NOT GLOB " _,
    fun s => ⟨globMatches_startingWith text s, globMatches_endingWith text s⟩⟩

/-! ## 3. Quoted names -/

namespace Dialect

/-- The name behind a quote mark that a doubled mark stands for one of, and what is behind its
closing mark. -/
def readDoubled : List Char → Option (List Char × List Char)
  | [] => none
  | '"' :: '"' :: cs => (readDoubled cs).map (Prod.map ('"' :: ·) id)
  | '"' :: behind => some ([], behind)
  | c :: cs => (readDoubled cs).map (Prod.map (c :: ·) id)

/-- The name behind a back quote, where a backslash makes the next character a part of it, and
what is behind its closing mark. -/
def readBackslashed : List Char → Option (List Char × List Char)
  | [] => none
  | '\x60' :: behind => some ([], behind)
  | ['\\'] => none
  | '\\' :: c :: cs => (readBackslashed cs).map (Prod.map (c :: ·) id)
  | c :: cs => (readBackslashed cs).map (Prod.map (c :: ·) id)

/-- The name that a text begins with, as the database reads it, and the rest of the text. -/
def readQuoted (d : Dialect) : List Char → Option (List Char × List Char)
  | [] => none
  | c :: cs =>
    if c = d.quoteMark then
      match d with
      | sqlite => readDoubled cs
      | clickhouse => readBackslashed cs
    else none

/-- The characters of a name between its quote marks. -/
def escaped (d : Dialect) (cs : List Char) : List Char :=
  cs.flatMap fun c => if c = d.quoteMark then d.escapedMark else [c]

@[simp] theorem escaped_nil (d : Dialect) : d.escaped [] = [] := rfl

theorem escaped_mark (d : Dialect) (cs : List Char) :
    d.escaped (d.quoteMark :: cs) = d.escapedMark ++ d.escaped cs := by
  simp [escaped]

theorem escaped_cons {d : Dialect} {c : Char} (hc : c ≠ d.quoteMark) (cs : List Char) :
    d.escaped (c :: cs) = c :: d.escaped cs := by
  simp [escaped, hc]

theorem toList_quote (d : Dialect) (name : String) :
    (d.quote name).toList = d.quoteMark :: (d.escaped name.toList ++ [d.quoteMark]) := by
  simp [quote, Text.replaceChar, escaped]

/-- A name with its marks doubled is read back: a doubled mark does not close it. -/
theorem readDoubled_escaped (cs : List Char) :
    readDoubled (sqlite.escaped cs ++ ['"']) = some (cs, []) := by
  induction cs with
  | nil => rfl
  | cons c cs ih =>
    by_cases hc : c = '"'
    · subst hc
      rw [show sqlite.escaped ('"' :: cs) = '"' :: '"' :: sqlite.escaped cs from
        sqlite.escaped_mark cs, List.cons_append, List.cons_append, readDoubled, ih]
      rfl
    · rw [escaped_cons hc, List.cons_append, readDoubled, ih]
      · rfl
      · exact fun _ h => absurd h hc
      · exact hc

variable {cs name behind : List Char}

/-- A character other than the backslash is read as itself, also where it is escaped. -/
theorem readBackslashed_cons {c : Char} (hslash : c ≠ '\\') (cs : List Char) :
    readBackslashed (clickhouse.escaped (c :: cs) ++ ['\x60'])
      = (readBackslashed (clickhouse.escaped cs ++ ['\x60'])).map (Prod.map (c :: ·) id) := by
  by_cases hmark : c = '\x60'
  · subst hmark
    rw [show clickhouse.escaped ('\x60' :: cs) = '\\' :: '\x60' :: clickhouse.escaped cs from
      clickhouse.escaped_mark cs, List.cons_append, List.cons_append, readBackslashed]
  · rw [escaped_cons hmark, List.cons_append, readBackslashed]
    · exact hmark
    · exact fun h => absurd h hslash
    · exact fun _ _ h => absurd h hslash

/-- A name without a backslash is read back. -/
theorem readBackslashed_escaped (h : '\\' ∉ cs) :
    readBackslashed (clickhouse.escaped cs ++ ['\x60']) = some (cs, []) := by
  induction cs with
  | nil => rfl
  | cons c cs ih =>
    obtain ⟨hc, hcs⟩ := not_or.mp (mt List.mem_cons.mpr h)
    rw [readBackslashed_cons (Ne.symm hc), ih hcs]
    rfl

/-- Behind a backslash of its own, a name that goes on without a mark loses that backslash. -/
theorem readBackslashed_slash {c : Char} (hmark : c ≠ '\x60') (cs : List Char) :
    readBackslashed (clickhouse.escaped ('\\' :: c :: cs) ++ ['\x60'])
      = (readBackslashed (clickhouse.escaped cs ++ ['\x60'])).map (Prod.map (c :: ·) id) := by
  have hslash : '\\' ≠ clickhouse.quoteMark := by decide
  rw [escaped_cons hslash, escaped_cons hmark, List.cons_append, List.cons_append, readBackslashed]

/-- A backslash of its own in front of a mark takes the backslash that was put there, and the
mark closes the name. -/
theorem readBackslashed_slash_mark (cs : List Char) :
    readBackslashed (clickhouse.escaped ('\\' :: '\x60' :: cs) ++ ['\x60'])
      = some (['\\'], clickhouse.escaped cs ++ ['\x60']) := by
  have hslash : '\\' ≠ clickhouse.quoteMark := by decide
  rw [escaped_cons hslash, show clickhouse.escaped ('\x60' :: cs)
    = '\\' :: '\x60' :: clickhouse.escaped cs from clickhouse.escaped_mark cs]
  rfl

theorem map_cons_eq_some {c : Char} {o : Option (List Char × List Char)}
    (h : o.map (Prod.map (c :: ·) id) = some (name, behind)) :
    ∃ tail, name = c :: tail ∧ o = some (tail, behind) := by
  obtain ⟨⟨tail, _⟩, ho, heq⟩ := Option.map_eq_some_iff.mp h
  obtain ⟨rfl, rfl⟩ := Prod.mk.inj heq
  exact ⟨tail, rfl, ho⟩

/-- What is read is no longer than the name, and shorter if the name has a backslash. -/
theorem length_readBackslashed : ∀ {cs name behind : List Char},
    readBackslashed (clickhouse.escaped cs ++ ['\x60']) = some (name, behind) →
      name.length ≤ cs.length ∧ ('\\' ∈ cs → name.length < cs.length)
  | [], name, behind, h => by
    obtain ⟨rfl, -⟩ : [] = name ∧ [] = behind := by simpa [readBackslashed] using h
    simp
  | c :: cs, name, behind, h => by
    by_cases hslash : c = '\\'
    · subst hslash
      match cs, h with
      | [], h => cases h
      | c :: cs, h =>
        by_cases hmark : c = '\x60'
        · subst hmark
          rw [readBackslashed_slash_mark] at h
          obtain ⟨rfl, -⟩ := Prod.mk.inj (Option.some.inj h)
          simp
        · rw [readBackslashed_slash hmark] at h
          obtain ⟨tail, rfl, hrest⟩ := map_cons_eq_some h
          have hle := (length_readBackslashed hrest).1
          simp only [List.length_cons]
          exact ⟨by omega, fun _ => by omega⟩
    · rw [readBackslashed_cons hslash] at h
      obtain ⟨tail, rfl, hrest⟩ := map_cons_eq_some h
      obtain ⟨hle, hlt⟩ := length_readBackslashed hrest
      refine ⟨Nat.succ_le_succ hle, fun hmem => Nat.succ_lt_succ (hlt ?_)⟩
      exact (List.mem_cons.mp hmem).resolve_left (Ne.symm hslash)

/-- The quote of a name is read back as the name, to its last character, exactly if no backslash
of the name stands where a backslash has a meaning: the mark is escaped in both dialects, the
backslash itself in neither. -/
theorem readQuoted_quote_iff (d : Dialect) (name : String) :
    d.readQuoted (d.quote name).toList = some (name.toList, []) ↔
      (d = .clickhouse → '\\' ∉ name.toList) := by
  rw [toList_quote]
  cases d with
  | sqlite => simp [readQuoted, quoteMark, readDoubled_escaped]
  | clickhouse =>
    simp only [readQuoted, quoteMark, if_true, forall_const]
    constructor
    · intro h hslash
      exact lt_irrefl _ ((length_readBackslashed h).2 hslash)
    · exact readBackslashed_escaped

/-- A name that ends in a backslash takes its closing mark along. -/
theorem not_forall_readQuoted_quote :
    ¬ ∀ (d : Dialect) (name : String),
      d.readQuoted (d.quote name).toList = some (name.toList, []) := by
  intro h
  exact absurd (h .clickhouse "a\\") (by decide)

end Dialect

end TraversalSql
