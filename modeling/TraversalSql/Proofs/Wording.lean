import TraversalSql.Proofs.Identifiers
import TraversalSql.Proofs.Scopes

/-!
# The wording of SQL

What the text of a statement is put together from: words of SQL that are the same for every
statement, numbers, and names of the schema. A name is written with few characters, whatever it
is a name of (`IsName`), and a condition with few words around its column and its parameters
(`Wording`). What holds of these holds of the text.
-/

set_option autoImplicit false

namespace TraversalSql

/-! ## 1. Names -/

/-- The characters that names are written with: those of identifiers, and those that stand around
and between them. -/
def isNameChar (c : Char) : Bool :=
  c.isAlphanum || c == '_' || c == '.' || c == '"' || c == '\x60' || c == '\\'

/-- The text has characters of names only. -/
def IsName (s : String) : Prop := ∀ c ∈ s.toList, isNameChar c = true

instance (s : String) : Decidable (IsName s) := List.decidableBAll _ _

variable {s t : String}

theorem IsName.notMem (h : IsName s) {c : Char} (hc : isNameChar c = false) : c ∉ s.toList := by
  intro hmem
  rw [h c hmem] at hc
  cases hc

theorem IsName.append (hs : IsName s) (ht : IsName t) : IsName (s ++ t) := by
  intro c hc
  rw [String.toList_append, List.mem_append] at hc
  exact hc.elim (hs c) (ht c)

theorem isName_toString (n : Nat) : IsName (toString n) := by
  rw [Nat.toString_eq_ofList_toDigits, IsName, String.toList_ofList]
  intro c hc
  have hdigit := Nat.isDigit_of_mem_toDigits (by decide) (by decide) hc
  simp [isNameChar, Char.isAlphanum, hdigit]

theorem isName_of_isIdentifier (h : isIdentifier s = true) : IsName s := by
  intro c hc
  by_contra hname
  refine notMem_of_isIdentifier h ?_ hc
  simp only [isNameChar, Bool.or_eq_true, not_or, Bool.not_eq_true] at hname
  rw [hname.1.1.1.1.1, hname.1.1.1.1.2]
  rfl

namespace Dialect

variable (d : Dialect)

theorem isName_quote {name : String} (h : IsName name) : IsName (d.quote name) := by
  have hmark : IsName (String.singleton d.quoteMark) := by cases d <;> decide
  refine (hmark.append ?_).append hmark
  simp only [IsName, Text.replaceChar, String.toList_ofList, List.mem_flatMap]
  rintro c ⟨b, hb, hc⟩
  split at hc
  · have hescaped : d.escapedMark.all isNameChar = true := by cases d <;> decide
    exact List.all_eq_true.mp hescaped c hc
  · cases List.mem_singleton.mp hc
    exact h c hb

theorem isName_qualified {owner name : String} (ho : IsName owner) (hn : IsName name) :
    IsName (d.qualified owner name) :=
  ((d.isName_quote ho).append (by decide)).append (d.isName_quote hn)

end Dialect

namespace Topology.Named

variable {T : Topology} (hT : T.Named)
include hT

theorem isName_parts {t : Table} (h : ∃ ps, T.properties? t = some ps) :
    IsName t.schema ∧ IsName t.label := by
  obtain ⟨ps, hps⟩ := h
  obtain ⟨hschema, hlabel, _⟩ := hT.of_properties hps
  exact ⟨isName_of_isIdentifier hschema, isName_of_isIdentifier hlabel⟩

theorem isName_table {t : Table} (h : ∃ ps, T.properties? t = some ps) (d : Dialect) :
    IsName (d.table t) := by
  obtain ⟨hschema, hlabel⟩ := hT.isName_parts h
  have hkind : IsName t.kind.tablePrefix := by cases t.kind <;> decide
  exact d.isName_qualified hschema (hkind.append hlabel)

/-- A column that the topology knows. -/
theorem isName_column (hc : T.Consistent) {r : ColumnRef} {tables : List Table}
    (h : r.In T tables) (d : Dialect) : IsName (r.sql d) := by
  obtain ⟨table, column⟩ := r
  obtain ⟨_, hcolumn⟩ := h
  have hparts : (∃ ps, T.properties? table = some ps) ∧ IsName column.name := by
    cases column with
    | id => exact ⟨hcolumn, by decide⟩
    | property p =>
      obtain ⟨ps, hps, hp⟩ := hcolumn
      obtain ⟨_, _, hnames⟩ := hT.of_properties hps
      exact ⟨⟨ps, hps⟩, isName_of_isIdentifier (hnames p (SortedMap.mem_keys_iff.mpr
        (SortedMap.contains_iff.mp hp)))⟩
    | foreignKey k =>
      obtain ⟨htable, hvertex⟩ := hc.properties_of_hasKey hcolumn
      obtain ⟨hschema, hlabel⟩ := hT.isName_parts hvertex
      have hend : IsName k.direction.columnSuffix := by cases k.direction <;> decide
      exact ⟨htable, ((hschema.append (by decide)).append hlabel).append hend⟩
  exact ((hT.isName_table hparts.1 d).append (by decide)).append (d.isName_quote hparts.2)

end Topology.Named

namespace SqlWriter

variable {w : SqlWriter}

theorem isName_aliasText (k : AliasKey) : IsName (w.aliasText k) := by
  have halias : IsName "alias" := by decide
  exact w.dialect.isName_quote (halias.append (isName_toString _))

theorem isName_subSelectName (number : Nat) : IsName (subSelectName number) := by
  have hsub : IsName "a" := by decide
  exact hsub.append (isName_toString _)

theorem isName_exported (owner : Nat) (k : AliasKey) : IsName (w.exported owner k) := by
  have halias : IsName "alias" := by decide
  exact w.dialect.isName_qualified (isName_subSelectName owner) (halias.append (isName_toString _))

theorem isName_bulk (bulk : BulkTable) :
    IsName (w.dialect.quote bulk.name) ∧ IsName (bulk.columnRef w.dialect) := by
  have hbulk : IsName "bulk_" := by decide
  have hname : IsName bulk.name := hbulk.append (isName_toString _)
  have hcolumn : IsName bulk.column := by
    unfold BulkTable.column
    cases bulk.kind <;> decide
  exact ⟨w.dialect.isName_quote hname, w.dialect.isName_qualified hname hcolumn⟩

end SqlWriter

/-! ## 2. Conditions -/

/-- The words that stand around the columns and parameters of conditions. -/
def conditionWords : List String :=
  ["", " ", "(", ")", ", ", "1 = 1", "1 = 0", "=", "<>", "<", "<=", ">", ">=", "AND", "OR",
   " AND ", " OR ", " IS NULL", " IS NOT NULL", " IN (", " NOT IN (", " GLOB ", " NOT GLOB ",
   "instr(", "position(", "startsWith(", "NOT startsWith(", "endsWith(", "NOT endsWith(",
   "hasToken(", ") > 0", ") = 0"]

/-- What holds of these words, and of texts put together from texts that it holds of. -/
structure Wording (Q : String → Prop) : Prop where
  append : ∀ {s t : String}, Q s → Q t → Q (s ++ t)
  words : ∀ word ∈ conditionWords, Q word

/-- The pieces of the fragment are literals, and texts of which `Q` holds. -/
def Fragment.Worded (Q : String → Prop) (f : Fragment) : Prop :=
  ∀ piece ∈ f, (∃ s, piece = .text s ∧ Q s) ∨ ∃ v, piece = .value v

namespace Fragment

variable {Q : String → Prop} {f g : Fragment}

theorem worded_text (h : Q s) : Worded Q [.text s] := by
  intro piece hpiece
  exact Or.inl ⟨s, List.mem_singleton.mp hpiece, h⟩

theorem worded_value (v : Value) : Worded Q [.value v] := by
  intro piece hpiece
  exact Or.inr ⟨v, List.mem_singleton.mp hpiece⟩

theorem Worded.append (hf : Worded Q f) (hg : Worded Q g) : Worded Q (f ++ g) := by
  intro piece hpiece
  exact (List.mem_append.mp hpiece).elim (hf piece) (hg piece)

theorem Worded.text_cons (h : Q s) (hf : Worded Q f) : Worded Q (.text s :: f) :=
  (worded_text h).append hf

theorem Worded.value_cons (v : Value) (hf : Worded Q f) : Worded Q (.value v :: f) :=
  (worded_value v).append hf

theorem Worded.text_snoc (hf : Worded Q f) (h : Q s) : Worded Q (f ++ [.text s]) :=
  hf.append (worded_text h)

theorem worded_joined {sep : String} (hsep : Q sep) : ∀ {l : List Fragment},
    (∀ f ∈ l, Worded Q f) → Worded Q (joined sep l) := by
  intro l
  induction l with
  | nil => exact fun _ _ hpiece => nomatch hpiece
  | cons f l ih =>
    intro h
    have hf := h f List.mem_cons_self
    have hl := ih fun g hg => h g (List.mem_cons_of_mem _ hg)
    cases l with
    | nil => exact hf
    | cons g l => exact (hf.text_snoc hsep).append hl

end Fragment

namespace Wording

open Fragment

variable {Q : String → Prop} {d : Dialect} {column : String}

section Forms

variable (hQ : Wording Q)
include hQ

theorem word (word : String) (h : conditionWords.contains word = true) : Q word :=
  hQ.words word (List.contains_iff_mem.mp h)

theorem join {l : List String} (h : ∀ s ∈ l, Q s) : Q (String.join l) := by
  induction l with
  | nil => exact hQ.word "" (by decide)
  | cons s l ih =>
    rw [String.join_cons]
    exact hQ.append (h s List.mem_cons_self) (ih fun t ht => h t (List.mem_cons_of_mem _ ht))

theorem joined {sep : String} (hsep : Q sep) {l : List String} (h : ∀ s ∈ l, Q s) :
    Q (Text.joined sep l) := by
  unfold Text.joined
  induction l with
  | nil => exact hQ.word "" (by decide)
  | cons s l ih =>
    have hs := h s List.mem_cons_self
    have hl := ih fun t ht => h t (List.mem_cons_of_mem _ ht)
    cases l with
    | nil =>
      rw [String.intercalate_singleton]
      exact hs
    | cons t l =>
      rw [String.intercalate_cons_cons]
      exact hQ.append (hQ.append hs hsep) hl

variable (hcol : Q column)
include hcol

theorem textCondition (test : TextTest) (s : String) :
    Worded Q (d.textCondition column test s) := by
  have hcall {word : String} (h : Q word) : Q (word ++ column ++ ", ") :=
    hQ.append (hQ.append h hcol) (hQ.word ", " (by decide))
  have hempty := hQ.word "" (by decide)
  have hclose := hQ.word ")" (by decide)
  have hfound := hQ.word ") > 0" (by decide)
  have hnone := hQ.word ") = 0" (by decide)
  have hframe : Q (d.textFrame test column).1 ∧ Q (d.textFrame test column).2 := by
    cases d <;> cases test
    case sqlite.containing => exact ⟨hcall (hQ.word "instr(" (by decide)), hfound⟩
    case sqlite.notContaining => exact ⟨hcall (hQ.word "instr(" (by decide)), hnone⟩
    case sqlite.startingWith | sqlite.endingWith =>
      exact ⟨hQ.append hcol (hQ.word " GLOB " (by decide)), hempty⟩
    case sqlite.notStartingWith | sqlite.notEndingWith =>
      exact ⟨hQ.append hcol (hQ.word " NOT GLOB " (by decide)), hempty⟩
    case clickhouse.containing => exact ⟨hcall (hQ.word "position(" (by decide)), hfound⟩
    case clickhouse.notContaining => exact ⟨hcall (hQ.word "position(" (by decide)), hnone⟩
    case clickhouse.startingWith => exact ⟨hcall (hQ.word "startsWith(" (by decide)), hclose⟩
    case clickhouse.notStartingWith =>
      exact ⟨hcall (hQ.word "NOT startsWith(" (by decide)), hclose⟩
    case clickhouse.endingWith => exact ⟨hcall (hQ.word "endsWith(" (by decide)), hclose⟩
    case clickhouse.notEndingWith => exact ⟨hcall (hQ.word "NOT endsWith(" (by decide)), hclose⟩
  exact ((worded_text hframe.2).value_cons _).text_cons hframe.1

theorem fullTextCondition {query : String} {f : Fragment}
    (h : d.fullTextCondition column query = .ok f) : Worded Q f := by
  have hopen := hQ.word "(" (by decide)
  have hclose := hQ.word ")" (by decide)
  unfold Dialect.fullTextCondition at h
  split at h
  · split at h
    · cases h
    · cases h
      refine ((worded_joined (hQ.word " AND " (by decide)) ?_).text_cons hopen).text_snoc hclose
      intro f hf
      obtain ⟨w, _, rfl⟩ := List.mem_map.mp hf
      exact ((worded_text hclose).value_cons _).text_cons
        (hQ.append (hQ.append (hQ.word "hasToken(" (by decide)) hcol) (hQ.word ", " (by decide)))
  · cases h

theorem memberCondition (negated : Bool) (vs : List Value) :
    Worded Q (Predicate.memberCondition column negated vs) := by
  unfold Predicate.memberCondition
  split
  · cases negated
    · exact worded_text (hQ.word "1 = 0" (by decide))
    · exact worded_text (hQ.word "1 = 1" (by decide))
  · refine ((worded_joined (hQ.word ", " (by decide)) ?_).text_cons (hQ.append hcol ?_)).text_snoc
      (hQ.word ")" (by decide))
    · intro f hf
      obtain ⟨v, _, rfl⟩ := List.mem_map.mp hf
      exact worded_value v
    · cases negated
      · exact hQ.word " IN (" (by decide)
      · exact hQ.word " NOT IN (" (by decide)

theorem pairCondition {lowOp highOp connective : String} (hlow : Q lowOp) (hhigh : Q highOp)
    (hconn : Q connective) (low high : Value) :
    Worded Q (Predicate.pairCondition column lowOp low connective highOp high) := by
  have hspace := hQ.word " " (by decide)
  have hopen := hQ.word "(" (by decide)
  -- `(column >= ` in front of the first literal
  have hbefore : Q ("(" ++ column ++ " " ++ lowOp ++ " ") :=
    hQ.append (hQ.append (hQ.append (hQ.append hopen hcol) hspace) hlow) hspace
  -- ` AND column < ` between the two
  have hbetween : Q (" " ++ connective ++ " " ++ column ++ " " ++ highOp ++ " ") :=
    hQ.append (hQ.append (hQ.append (hQ.append (hQ.append (hQ.append hspace hconn) hspace) hcol)
      hspace) hhigh) hspace
  exact (((worded_text (hQ.word ")" (by decide))).value_cons _).text_cons hbetween).value_cons _
    |>.text_cons hbefore

omit hcol in
theorem connected {connective empty : String} (hconn : Q connective) (hempty : Q empty)
    {parts : List Fragment} (h : ∀ f ∈ parts, Worded Q f) :
    Worded Q (Predicate.connected connective empty parts) := by
  unfold Predicate.connected
  split
  · exact worded_text hempty
  · exact ((worded_joined hconn h).text_cons (hQ.word "(" (by decide))).text_snoc
      (hQ.word ")" (by decide))

theorem compare {f : Fragment} (op : Comparison) (v : Value)
    (h : (Predicate.compare op v).condition d column = .ok f) : Worded Q f := by
  have hspace := hQ.word " " (by decide)
  have hop : Q op.sqlOperator := by
    refine hQ.word _ ?_
    cases op <;> decide
  have hvalue : Worded Q [.text (column ++ " " ++ op.sqlOperator ++ " "), .value v] :=
    (worded_value v).text_cons (hQ.append (hQ.append (hQ.append hcol hspace) hop) hspace)
  have hnull : Q (column ++ " IS NULL") := hQ.append hcol (hQ.word " IS NULL" (by decide))
  have hpresent : Q (column ++ " IS NOT NULL") :=
    hQ.append hcol (hQ.word " IS NOT NULL" (by decide))
  cases v with
  | null =>
    cases op with
    | eq =>
      cases h
      exact worded_text hnull
    | neq =>
      cases h
      exact worded_text hpresent
    | _ =>
      cases h
      exact hvalue
  | _ =>
    cases op <;> cases h <;> exact hvalue

end Forms

mutual

/-- Literals become parameters, and nothing but the column and words of SQL becomes text. -/
theorem condition (hQ : Wording Q) (hcol : Q column) {f : Fragment} :
    (p : Predicate) → p.condition d column = .ok f → Worded Q f
  | .compare op v, h => hQ.compare hcol op v h
  | .present, h => by
    cases h
    exact worded_text (hQ.append hcol (hQ.word " IS NOT NULL" (by decide)))
  | .absent, h => by
    cases h
    exact worded_text (hQ.append hcol (hQ.word " IS NULL" (by decide)))
  | .within vs, h => by
    cases h
    exact hQ.memberCondition hcol false vs
  | .without vs, h => by
    cases h
    exact hQ.memberCondition hcol true vs
  | .between low high, h => by
    cases h
    exact hQ.pairCondition hcol (hQ.word ">=" (by decide)) (hQ.word "<" (by decide))
      (hQ.word "AND" (by decide)) low high
  | .inside low high, h => by
    cases h
    exact hQ.pairCondition hcol (hQ.word ">" (by decide)) (hQ.word "<" (by decide))
      (hQ.word "AND" (by decide)) low high
  | .outside low high, h => by
    cases h
    exact hQ.pairCondition hcol (hQ.word "<" (by decide)) (hQ.word ">" (by decide))
      (hQ.word "OR" (by decide)) low high
  | .and ps, h => by
    obtain ⟨fs, hfs, rfl⟩ := map_ok h
    exact hQ.connected (hQ.word " AND " (by decide)) (hQ.word "1 = 1" (by decide))
      (conditions hQ hcol ps hfs)
  | .or ps, h => by
    obtain ⟨fs, hfs, rfl⟩ := map_ok h
    exact hQ.connected (hQ.word " OR " (by decide)) (hQ.word "1 = 0" (by decide))
      (conditions hQ hcol ps hfs)
  | .text test s, h => by
    cases h
    exact hQ.textCondition hcol test s
  | .fullText query _, h => hQ.fullTextCondition hcol h
  | .lambda _, h => by cases h

theorem conditions (hQ : Wording Q) (hcol : Q column) {fs : List Fragment} :
    (ps : List Predicate) → Predicate.conditions d column ps = .ok fs → ∀ f ∈ fs, Worded Q f
  | [], h => by
    cases h
    exact List.forall_mem_nil _
  | p :: ps, h => by
    obtain ⟨f, hf, h⟩ := bind_ok h
    obtain ⟨rest, hrest, h⟩ := bind_ok h
    cases h
    exact List.forall_mem_cons.mpr ⟨condition hQ hcol p hf, conditions hQ hcol ps hrest⟩

end

/-- What holds of the words, of the column and of a question mark holds of a fragment's text. -/
theorem sql (hQ : Wording Q) (hmark : Q "?") {f : Fragment} (h : f.Worded Q) : Q f.sql := by
  induction f with
  | nil => exact hQ.word "" (by decide)
  | cons piece f ih =>
    rw [sql_cons]
    refine hQ.append ?_ (ih fun p hp => h p (List.mem_cons_of_mem _ hp))
    obtain ⟨s, rfl, hs⟩ | ⟨v, rfl⟩ := h piece List.mem_cons_self
    · exact hs
    · exact hmark

end Wording

/-! ## 3. Slices -/

/-- The words of the clause for a slice, which stand around numbers. -/
def sliceWords : List String := ["", " LIMIT ", " OFFSET ", " LIMIT -1 OFFSET ", " ROWS"]

/-- What holds of the words, of numbers, and of texts put together from texts that it holds of, holds
of the clause. -/
theorem Dialect.sliceClause_of {Q : String → Prop} (d : Dialect)
    (happend : ∀ {s t : String}, Q s → Q t → Q (s ++ t)) (hwords : ∀ word ∈ sliceWords, Q word)
    (hnumber : ∀ n : Nat, Q (toString n)) (s : Option Slice) :
    Q ((s.bind d.sliceClause?).getD "") := by
  have hword (word : String) (h : sliceWords.contains word = true) : Q word :=
    hwords word (List.contains_iff_mem.mp h)
  have hskip (n : Nat) : Q (d.skipClause n) := by
    cases d with
    | sqlite => exact happend (hword " LIMIT -1 OFFSET " (by decide)) (hnumber n)
    | clickhouse =>
      exact happend (happend (hword " OFFSET " (by decide)) (hnumber n)) (hword " ROWS" (by decide))
  have hlimit (n : Nat) : Q (" LIMIT " ++ toString n) :=
    happend (hword " LIMIT " (by decide)) (hnumber n)
  cases s with
  | none => exact hword "" (by decide)
  | some s =>
    rw [Option.bind_some, sliceClause?]
    split
    · exact hword "" (by decide)
    · exact hskip _
    · exact hlimit _
    · exact happend (happend (hlimit _) (hword " OFFSET " (by decide))) (hnumber _)

end TraversalSql
