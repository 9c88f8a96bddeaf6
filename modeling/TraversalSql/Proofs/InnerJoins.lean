import Mathlib.Tactic.FinCases
import TraversalSql.Proofs.Executions
import TraversalSql.Proofs.Placeholders

/-!
# How many joins a statement has

Tables are joined within a select, sub-selects are joined to each other, and temporary tables are
joined for memberships, each by a piece of the writer of its own. Taken together there is one inner
join less than nodes that are read, and one for each temporary table whose values are wanted.

The words of an inner join are counted in the text. They end in a blank and begin with one, so the
count of a text put together from parts is the sum of their counts only if no part begins as the
words go on behind their first blank: `Joins` has both.
-/

set_option autoImplicit false

namespace TraversalSql

/-! ## 1. Counting words in a text -/

/-- The number of places of a text at which the words stand. -/
def occurrences (words s : String) : Nat :=
  s.toList.tails.countP fun behind => words.toList.isPrefixOf behind

/-- The words of an inner join, letter by letter. -/
def innerJoin : List Char := [' ', 'I', 'N', 'N', 'E', 'R', ' ', 'J', 'O', 'I', 'N', ' ']

/-- The number of places at which a text has the words of an inner join. -/
def joinPlaces (cs : List Char) : Nat :=
  cs.tails.countP fun behind => innerJoin.isPrefixOf behind

theorem joinPlaces_cons (c : Char) (cs : List Char) :
    joinPlaces (c :: cs)
      = joinPlaces cs + if innerJoin.isPrefixOf (c :: cs) then 1 else 0 :=
  List.countP_cons

/-- The text has the words of an inner join `n` times, and so it has in front of another text:
neither goes on behind a blank as the words do. -/
structure Joins (n : Nat) (s : String) : Prop where
  head : s.toList.head? ≠ some 'I'
  places : ∀ behind : List Char, behind.head? ≠ some 'I' →
    joinPlaces (s.toList ++ behind) = n + joinPlaces behind

/-- The text has no inner join. -/
def Quiet (s : String) : Prop := Joins 0 s

variable {m n : Nat} {s t : String}

theorem Joins.occurrences (h : Joins n s) : occurrences " INNER JOIN " s = n := by
  have hplaces := h.places [] (by simp)
  rwa [List.append_nil] at hplaces

theorem head?_append_ne {cs behind : List Char} (hcs : cs.head? ≠ some 'I')
    (hbehind : behind.head? ≠ some 'I') : (cs ++ behind).head? ≠ some 'I' := by
  cases cs with
  | nil => exact hbehind
  | cons c cs => exact hcs

theorem Joins.append (hs : Joins m s) (ht : Joins n t) : Joins (m + n) (s ++ t) := by
  constructor
  · rw [String.toList_append]
    exact head?_append_ne hs.head ht.head
  · intro behind hbehind
    rw [String.toList_append, List.append_assoc, hs.places _ (head?_append_ne ht.head hbehind),
      ht.places _ hbehind, Nat.add_assoc]

theorem Joins.append_quiet (hs : Joins n s) (ht : Quiet t) : Joins n (s ++ t) := hs.append ht

theorem Quiet.append_joins (hs : Quiet s) (ht : Joins n t) : Joins n (s ++ t) := by
  have happend := Joins.append hs ht
  rwa [Nat.zero_add] at happend

/-- No place near the end of the text could be the beginning of the words, but for a blank at the
very end. -/
def EndsApart (cs : List Char) : Prop :=
  ∀ tail ∈ cs.tails, tail.length < innerJoin.length →
    tail = [] ∨ tail = [' '] ∨ tail.isPrefixOf innerJoin = false

instance (cs : List Char) : Decidable (EndsApart cs) := List.decidableBAll _ _

/-- The words begin in a text just if they do in its part, where the part is long enough to tell
or does not begin as they do. -/
theorem isPrefixOf_append_eq {cs behind : List Char} (hne : cs ≠ [])
    (hbehind : behind.head? ≠ some 'I')
    (hcs : cs.length < innerJoin.length →
      cs = [] ∨ cs = [' '] ∨ cs.isPrefixOf innerJoin = false) :
    innerJoin.isPrefixOf (cs ++ behind) = innerJoin.isPrefixOf cs := by
  rw [Bool.eq_iff_iff, List.isPrefixOf_iff_prefix, List.isPrefixOf_iff_prefix]
  refine ⟨fun h => ?_, fun h => h.trans (List.prefix_append _ _)⟩
  by_cases hlen : cs.length < innerJoin.length
  · obtain rfl | rfl | hapart := hcs hlen
    · exact absurd rfl hne
    · -- only the blank is given, and the words go on behind it with another letter than the text
      obtain ⟨more, hmore⟩ := h
      have hmore : ' ' :: (innerJoin.tail ++ more) = ' ' :: behind := hmore
      refine absurd ?_ hbehind
      rw [← (List.cons.inj hmore).2]
      rfl
    · have hprefix := List.prefix_of_prefix_length_le (List.prefix_append cs behind) h hlen.le
      rw [← List.isPrefixOf_iff_prefix, hapart] at hprefix
      cases hprefix
  · exact List.prefix_of_prefix_length_le h (List.prefix_append cs behind) (not_lt.mp hlen)

theorem joinPlaces_append {cs behind : List Char} (hbehind : behind.head? ≠ some 'I')
    (hcs : EndsApart cs) : joinPlaces (cs ++ behind) = joinPlaces cs + joinPlaces behind := by
  induction cs with
  | nil => exact (Nat.zero_add _).symm
  | cons c cs ih =>
    have htails : EndsApart cs := fun tail htail => hcs tail (by
      rw [List.tails_cons]
      exact List.mem_cons_of_mem _ htail)
    have hplace := isPrefixOf_append_eq (List.cons_ne_nil c cs) hbehind
      (hcs (c :: cs) (by simp))
    rw [List.cons_append] at hplace
    rw [List.cons_append, joinPlaces_cons, hplace, ih htails, joinPlaces_cons]
    omega

/-- A word that can be looked through. -/
def IsJoinWord (n : Nat) (word : List Char) : Prop :=
  word.head? ≠ some 'I' ∧ joinPlaces word = n ∧ EndsApart word

instance (n : Nat) (word : List Char) : Decidable (IsJoinWord n word) :=
  inferInstanceAs (Decidable (_ ∧ _ ∧ _))

theorem joins_of_letters (h : IsJoinWord n s.toList) : Joins n s := by
  obtain ⟨hhead, rfl, hends⟩ := h
  exact ⟨hhead, fun behind hbehind => joinPlaces_append hbehind hends⟩

/-- A word of SQL is looked through letter by letter. -/
theorem joins_word {word : List Char} (h : IsJoinWord n word) : Joins n (String.ofList word) :=
  joins_of_letters (by rwa [String.toList_ofList])

theorem quiet_wording : Wording Quiet := by
  refine ⟨Joins.append, fun word hword => ?_⟩
  fin_cases hword <;> exact joins_word (by decide)

theorem quiet_empty : Quiet "" := joins_word (by decide)

theorem Quiet.append (hs : Quiet s) (ht : Quiet t) : Quiet (s ++ t) := Joins.append hs ht

theorem Quiet.joined (hs : Quiet s) {l : List String} (h : ∀ t ∈ l, Quiet t) :
    Quiet (Text.joined s l) :=
  Wording.joined quiet_wording hs h

theorem joins_innerJoin : Joins 1 " INNER JOIN " := joins_word (by decide)

theorem quiet_leftJoin : Quiet " LEFT JOIN " := joins_word (by decide)

/-- What is joined on two equal columns. -/
theorem Joins.on {left right : String} (hs : Joins n s) (hleft : Quiet left)
    (hright : Quiet right) : Joins n (s ++ " ON " ++ left ++ " = " ++ right) := by
  have hon : Quiet " ON " := joins_word (by decide)
  have hequal : Quiet " = " := joins_word (by decide)
  exact (((hs.append_quiet hon).append_quiet hleft).append_quiet hequal).append_quiet hright

theorem Quiet.on {left right : String} (hleft : Quiet left) (hright : Quiet right) :
    Quiet (" ON " ++ left ++ " = " ++ right) := by
  have hempty := Joins.on quiet_empty hleft hright
  rwa [String.empty_append] at hempty

/-- A name has no blanks. -/
theorem quiet_of_isName (h : IsName s) (hhead : s.toList.head? ≠ some 'I') : Quiet s := by
  have hblank : ' ' ∉ s.toList := h.notMem (by decide)
  have hbegin : ∀ tail ∈ s.toList.tails, tail ≠ [] → tail.head? ≠ some ' ' := by
    intro tail htail hne hspace
    obtain ⟨more, rfl⟩ := List.head?_eq_some_iff.mp hspace
    exact hblank (((List.mem_tails _ _).mp htail).subset List.mem_cons_self)
  refine joins_of_letters ⟨hhead, ?_, ?_⟩
  · refine List.countP_eq_zero.mpr fun tail htail hprefix => ?_
    obtain ⟨more, rfl⟩ := List.isPrefixOf_iff_prefix.mp hprefix
    exact hbegin _ htail (List.cons_ne_nil _ _) rfl
  · intro tail htail _
    cases tail with
    | nil => exact Or.inl rfl
    | cons c tail =>
      refine Or.inr (Or.inr ?_)
      rw [Bool.eq_false_iff, ne_eq, List.isPrefixOf_iff_prefix]
      rintro ⟨more, hmore⟩
      exact hbegin _ htail (List.cons_ne_nil _ _) (congrArg some (List.cons.inj hmore).1)

/-! ## 2. The text of a select -/

/-- The temporary table holds wanted values. -/
def BulkTable.isWithin (bulk : BulkTable) : Bool := bulk.kind == .within

/-- How often a select joins tables, leaving none of their rows out. -/
def FlatSelect.innerJoins (s : FlatSelect) : Nat :=
  s.joins.length + s.bulkTables.countP BulkTable.isWithin

/-- A sub-select is joined to the one before it. -/
def PathSelect.innerJoins : PathSelect → Nat
  | flat s => s.innerJoins
  | chained s => s.first.body.innerJoins + (s.rest.map fun l => l.sub.body.innerJoins + 1).sum

def Select.innerJoins (s : Select) : Nat :=
  s.body.innerJoins + (s.absences.map fun b => b.body.innerJoins).sum

namespace Fragment

variable {f g : Fragment}

theorem joins_append (hf : Joins m f.sql) (hg : Joins n g.sql) : Joins (m + n) (f ++ g).sql := by
  rw [sql_append]
  exact hf.append hg

theorem joins_flatMap {α : Type} {weight : α → Nat} {part : α → Fragment} : ∀ {l : List α},
    (∀ a ∈ l, Joins (weight a) (part a).sql) → Joins (l.map weight).sum (sql (l.flatMap part)) := by
  intro l
  induction l with
  | nil => exact fun _ => quiet_empty
  | cons a l ih =>
    intro h
    rw [List.map_cons, List.sum_cons, List.flatMap_cons]
    exact joins_append (h a List.mem_cons_self) (ih fun b hb => h b (List.mem_cons_of_mem _ hb))

theorem Worded.quiet {f : Fragment} (h : f.Worded Quiet) : Quiet f.sql :=
  quiet_wording.sql (joins_word (by decide)) h

end Fragment

theorem head?_append {c : Char} (h : s.toList.head? = some c) (t : String) :
    (s ++ t).toList.head? = some c := by
  rw [String.toList_append, List.head?_append, h, Option.some_or]

namespace Dialect

variable (d : Dialect)

theorem head?_quote (name : String) : (d.quote name).toList.head? = some d.quoteMark := by
  simp [quote]

theorem head?_qualified (owner name : String) :
    (d.qualified owner name).toList.head? = some d.quoteMark :=
  head?_append (head?_append (d.head?_quote owner) _) _

theorem quiet_name (h : IsName s) (hhead : s.toList.head? = some d.quoteMark) : Quiet s := by
  refine quiet_of_isName h ?_
  rw [hhead]
  cases d <;> decide

end Dialect

namespace SqlWriter

variable {w : SqlWriter}

theorem quiet_aliasText (k : AliasKey) : Quiet (w.aliasText k) :=
  w.dialect.quiet_name (isName_aliasText k) (w.dialect.head?_quote _)

theorem quiet_exported (owner : Nat) (k : AliasKey) : Quiet (w.exported owner k) :=
  w.dialect.quiet_name (isName_exported owner k) (w.dialect.head?_qualified _ _)

theorem quiet_bulk (bulk : BulkTable) :
    Quiet (w.dialect.quote bulk.name) ∧ Quiet (bulk.columnRef w.dialect) :=
  ⟨w.dialect.quiet_name (isName_bulk bulk).1 (w.dialect.head?_quote _),
    w.dialect.quiet_name (isName_bulk bulk).2 (w.dialect.head?_qualified _ _)⟩

/-- A select in parentheses has the joins of the words in front of it, and its own. -/
theorem joins_named {join : String} (hjoin : Joins m join) (number : Nat) {body : Fragment}
    (hbody : Joins n body.sql) : Joins (m + n) (w.named join number body).sql := by
  have hname : Quiet (w.dialect.quote (subSelectName number)) :=
    w.dialect.quiet_name (w.dialect.isName_quote (isName_subSelectName number))
      (w.dialect.head?_quote _)
  have hopen : Joins m (join ++ "(") := hjoin.append_quiet (joins_word (by decide))
  have hclose : Quiet (Fragment.sql [.text (") AS " ++ w.dialect.quote (subSelectName number))]) :=
    (Fragment.worded_text (Quiet.append (joins_word (by decide)) hname)).quiet
  rw [named, Fragment.sql_append, Fragment.sql_cons]
  exact (hopen.append hbody).append_quiet hclose

theorem quiet_slice (s : Option Slice) : Quiet (w.slice s) := by
  refine w.dialect.sliceClause_of Quiet.append ?_ ?_ s
  · intro word hword
    fin_cases hword <;> exact joins_word (by decide)
  · intro n
    refine quiet_of_isName (isName_toString n) ?_
    intro hhead
    rw [Nat.toString_eq_ofList_toDigits, String.toList_ofList] at hhead
    have hdigit := Nat.isDigit_of_mem_toDigits (by decide) (by decide) (List.mem_of_mem_head? hhead)
    revert hdigit
    decide

theorem quiet_orderBy (keys : List (AliasKey × SortDirection)) : Quiet (w.orderBy keys) := by
  have hspace : Quiet " " := joins_word (by decide)
  unfold orderBy
  split
  · exact quiet_empty
  · refine Quiet.append (joins_word (by decide)) (Quiet.joined (joins_word (by decide)) ?_)
    intro t ht
    obtain ⟨⟨k, direction⟩, _, rfl⟩ := List.mem_map.mp ht
    have hword : Quiet direction.keyword := by cases direction <;> exact joins_word (by decide)
    exact Quiet.append (Quiet.append (quiet_aliasText k) hspace) hword

section Scoped

variable {T : Topology} (hT : T.Named)
include hT

theorem quiet_table {t : Table} (h : ∃ ps, T.properties? t = some ps) :
    Quiet (w.dialect.table t) :=
  w.dialect.quiet_name (hT.isName_table h _) (w.dialect.head?_qualified _ _)

variable (hc : T.Consistent)
include hc

theorem quiet_column {r : ColumnRef} {tables : List Table} (h : r.In T tables) :
    Quiet (r.sql w.dialect) :=
  w.dialect.quiet_name (hT.isName_column hc h _)
    (head?_append (head?_append (w.dialect.head?_qualified _ _) _) _)

theorem quiet_selected {k : AliasKey} {tables : List Table} (h : k.ref.In T tables) :
    Quiet (w.selected k) :=
  Quiet.append (Quiet.append (quiet_column hT hc h) (joins_word (by decide)))
    (quiet_aliasText k)

theorem joins_tableJoins : ∀ {joins : List TableJoin} {seen : List Table},
    JoinsScoped T seen joins → (∀ j ∈ joins, ∃ ps, T.properties? j.table = some ps) →
    Joins joins.length (String.join (joins.map w.tableJoin)) := by
  intro joins
  induction joins with
  | nil => exact fun _ _ => quiet_empty
  | cons j joins ih =>
    intro seen ⟨hleft, hright, hrest⟩ hknown
    have htable := quiet_table (w := w) hT (hknown j List.mem_cons_self)
    have hjoin : Joins 1 (w.tableJoin j) :=
      (Joins.append_quiet joins_innerJoin htable).on (quiet_column hT hc hleft)
        (quiet_column hT hc hright)
    have htail := ih hrest fun j hj => hknown j (List.mem_cons_of_mem _ hj)
    rw [List.map_cons, String.join_cons, List.length_cons, Nat.add_comm]
    exact hjoin.append htail

theorem joins_bulkJoin {j : BulkJoin} {tables : List Table} (h : j.column.In T tables) :
    Joins (if j.bulk.isWithin then 1 else 0) (w.bulkJoin j) := by
  obtain ⟨hname, href⟩ := quiet_bulk (w := w) j.bulk
  have hjoin {n : Nat} {words : String} (hwords : Joins n words) :
      Joins n (words ++ w.dialect.quote j.bulk.name ++ " ON " ++ j.column.sql w.dialect ++ " = "
        ++ j.bulk.columnRef w.dialect) :=
    (hwords.append_quiet hname).on (quiet_column hT hc h) href
  unfold bulkJoin BulkTable.isWithin
  cases j.bulk.kind with
  | within => exact hjoin joins_innerJoin
  | without => exact hjoin quiet_leftJoin

theorem joins_bulkJoins : ∀ {joins : List BulkJoin} {tables : List Table},
    (∀ j ∈ joins, j.column.In T tables) →
    Joins ((joins.map BulkJoin.bulk).countP BulkTable.isWithin)
      (String.join (joins.map w.bulkJoin)) := by
  intro joins
  induction joins with
  | nil => exact fun _ => quiet_empty
  | cons j joins ih =>
    intro tables h
    have htail := ih fun j hj => h j (List.mem_cons_of_mem _ hj)
    rw [List.map_cons, List.map_cons, String.join_cons, List.countP_cons, Nat.add_comm]
    exact (joins_bulkJoin hT hc (h j List.mem_cons_self)).append htail

theorem quiet_condition {s : FlatSelect} {x : Condition} (h : s.Allows T w.dialect x) :
    Quiet (w.condition x).sql := by
  cases x with
  | rootId r =>
    have hcolumn : Quiet (r.sql w.dialect ++ " = ") :=
      Quiet.append (quiet_column hT hc h) (joins_word (by decide))
    have hmark : Quiet "?" := joins_word (by decide)
    rw [condition, Fragment.sql_cons]
    exact Quiet.append hcolumn hmark
  | filter r sql =>
    obtain ⟨hin, p, hp⟩ := h
    exact (Wording.condition quiet_wording (quiet_column hT hc hin) p hp).quiet
  | unlisted bulk =>
    exact (Fragment.worded_text (Quiet.append (quiet_bulk (w := w) bulk).2
      (joins_word (by decide)))).quiet

theorem joins_flat {s : FlatSelect} (h : s.Scoped T w.dialect) :
    Joins s.innerJoins (w.flat s).sql := by
  have hconditions : Quiet (w.conditions s.conditions).sql := by
    unfold conditions
    split
    · exact quiet_empty
    · rw [Fragment.sql_cons, Fragment.sql_joined]
      have hwhere : Quiet " WHERE " := joins_word (by decide)
      refine Quiet.append hwhere (Quiet.joined (joins_word (by decide)) ?_)
      intro t ht
      obtain ⟨f, hf, rfl⟩ := List.mem_map.mp ht
      obtain ⟨x, hx, rfl⟩ := List.mem_map.mp hf
      exact quiet_condition hT hc (h.conditions x hx)
  have hcolumns : Quiet (Text.joined ", " ((distinctOn id [] s.columns).map w.selected)) := by
    refine Quiet.joined (joins_word (by decide)) ?_
    intro t ht
    obtain ⟨k, hk, rfl⟩ := List.mem_map.mp ht
    exact quiet_selected hT hc (h.columns k (mem_of_mem_distinctOn hk))
  have hselect : Quiet "SELECT " := joins_word (by decide)
  have hsource : Quiet ("SELECT " ++ Text.joined ", " ((distinctOn id [] s.columns).map w.selected)
      ++ " FROM " ++ w.dialect.table s.source) :=
    Quiet.append (Quiet.append (Quiet.append hselect hcolumns)
      (joins_word (by decide))) (quiet_table hT (h.known _ List.mem_cons_self))
  have hjoins : Joins s.joins.length (String.join (s.joins.map w.tableJoin)) :=
    joins_tableJoins hT hc h.joins fun j hj =>
      h.known _ (List.mem_cons_of_mem _ (List.mem_map_of_mem hj))
  rw [flat, Fragment.sql_cons]
  exact ((hsource.append_joins hjoins).append (joins_bulkJoins hT hc h.bulkJoins)).append_quiet
    hconditions

theorem joins_linked {l : LinkedSelect} (h : l.sub.body.Scoped T w.dialect) :
    Joins (l.sub.body.innerJoins + 1) (w.linked l).sql := by
  have hon : Quiet (" ON " ++ w.exported l.left.owner l.left.key ++ " = "
      ++ w.exported l.right.owner l.right.key) :=
    Quiet.on (quiet_exported _ _) (quiet_exported _ _)
  rw [linked, Fragment.sql_append, Nat.add_comm]
  exact (joins_named joins_innerJoin _ (joins_flat hT hc h)).append_quiet
    (Fragment.worded_text hon).quiet

theorem joins_chained {s : ChainedSelect} (h : s.Scoped T w.dialect) :
    Joins (PathSelect.chained s).innerJoins (w.chained s).sql := by
  have hfrom : Quiet " FROM " := joins_word (by decide)
  have hfirst : Joins s.first.body.innerJoins
      (w.named " FROM " s.first.number (w.flat s.first.body)).sql := by
    have hnamed := joins_named (w := w) hfrom s.first.number (joins_flat hT hc (h.subs s.first
      List.mem_cons_self))
    rwa [Nat.zero_add] at hnamed
  have hrest : Joins (s.rest.map fun l => l.sub.body.innerJoins + 1).sum
      (Fragment.sql (s.rest.flatMap w.linked)) :=
    Fragment.joins_flatMap fun l hl =>
      joins_linked hT hc (h.subs _ (List.mem_cons_of_mem _ (List.mem_map_of_mem hl)))
  have houtputs : Quiet (Text.joined ", " (s.outputs.map w.exportedAs)) := by
    refine Quiet.joined (joins_word (by decide)) ?_
    intro t ht
    obtain ⟨e, _, rfl⟩ := List.mem_map.mp ht
    exact Quiet.append (Quiet.append (quiet_exported _ _) (joins_word (by decide)))
      (quiet_aliasText _)
  have hselect : Quiet ("SELECT " ++ Text.joined ", " (s.outputs.map w.exportedAs)) :=
    Quiet.append (joins_word (by decide)) houtputs
  rw [chained, Fragment.sql_append, Fragment.sql_cons]
  exact (hselect.append_joins hfirst).append hrest

theorem joins_path {p : PathSelect} (h : p.Scoped T w.dialect) :
    Joins p.innerJoins (w.path p).sql := by
  cases p with
  | flat s => exact joins_flat hT hc h
  | chained s => exact joins_chained hT hc h

theorem joins_absences {bs : List AbsentBranch} (h : ∀ b ∈ bs, b.body.Scoped T w.dialect) :
    Joins (bs.map fun b => b.body.innerJoins).sum (w.absences bs).sql := by
  unfold absences
  split
  · rename_i hempty
    rw [List.isEmpty_iff.mp hempty]
    exact quiet_empty
  · have hbranches : Joins (bs.map fun b => b.body.innerJoins).sum
        (Fragment.sql (bs.flatMap w.absentJoin)) := by
      refine Fragment.joins_flatMap fun b hb => ?_
      have hnamed := joins_named (w := w) quiet_leftJoin b.number (joins_path hT hc (h b hb))
      have hon : Quiet (" ON " ++ w.exported b.carried.owner b.carried.key ++ " = "
          ++ w.exported b.number b.joined) :=
        Quiet.on (quiet_exported _ _) (quiet_exported _ _)
      rw [Nat.zero_add] at hnamed
      rw [absentJoin, Fragment.sql_append]
      exact hnamed.append_quiet (Fragment.worded_text hon).quiet
    have htests : Quiet (" WHERE " ++ Text.joined " AND " (bs.map w.absentTest)) := by
      refine Quiet.append (joins_word (by decide))
        (Quiet.joined (joins_word (by decide)) ?_)
      intro t ht
      obtain ⟨b, _, rfl⟩ := List.mem_map.mp ht
      exact Quiet.append (Quiet.append (joins_word (by decide))
        (quiet_exported _ _)) (joins_word (by decide))
    rw [Fragment.sql_append]
    exact hbranches.append_quiet (Fragment.worded_text htests).quiet

/-- **The text of a select** has as many inner joins as the select. -/
theorem joins_select {s : Select} (h : s.Scoped T w.dialect) :
    Joins s.innerJoins (w.select s).sql := by
  have hend : Quiet (w.orderBy s.orderBy ++ w.slice s.slice) :=
    Quiet.append (quiet_orderBy _) (quiet_slice _)
  rw [select, Fragment.sql_append, Fragment.sql_append]
  exact ((joins_path hT hc h.body).append (joins_absences hT hc fun b hb =>
    (h.absences b hb).body)).append_quiet (Fragment.worded_text hend).quiet

end Scoped

end SqlWriter

/-! ## 3. The joins of a path -/

namespace Composer

variable {c : Composer} {T : Topology} {hops : List Hop} {nodes active : List Nat}
  {columns outputs wanted : List NodeColumn} {root : Option RootCondition} {stack : PathStack}

theorem length_joinsAt (c : Composer) (a : Nat) (nodes : List Nat) :
    (c.joinsAt (a :: nodes)).length = nodes.length := by
  have htables := congrArg List.length (c.tables_joinsAt a nodes)
  simpa using htables

/-- Each node of a segment but the first is joined. -/
theorem IsFlat.innerJoins {s : FlatSelect} (h : c.IsFlat T root nodes columns s) :
    s.innerJoins + 1 = nodes.length + s.bulkTables.countP BulkTable.isWithin := by
  obtain ⟨first, rest, rfl⟩ := List.exists_cons_of_ne_nil h.segment.ne_nil
  rw [FlatSelect.innerJoins, h.joins, c.length_joinsAt, List.length_cons]
  omega

theorem innerJoins_subs {segments : List (List Nat)} {subs : List SubSelect}
    (h : List.Forall₂ (c.IsSub T root wanted) segments subs) :
    (subs.map fun sub => sub.body.innerJoins + 1).sum = segments.flatten.length
      + (subs.flatMap fun sub => sub.body.bulkTables).countP BulkTable.isWithin := by
  induction h with
  | nil => rfl
  | cons hsub _ ih =>
    obtain ⟨columns, hflat, _⟩ := hsub
    rw [List.map_cons, List.sum_cons, List.flatten_cons, List.length_append, List.flatMap_cons,
      List.countP_append, ih, hflat.innerJoins]
    omega

/-- The first node of a segment is joined too, by the join between two segments, unless it is the
first of all. -/
theorem IsPath.innerJoins {p : PathSelect} (h : c.IsPath T root nodes outputs p) :
    p.innerJoins + 1 = nodes.length + p.bulkTables.countP BulkTable.isWithin := by
  cases h with
  | flat hflat => exact hflat.innerJoins
  | @chained _ _ s _ hcut _ hchained =>
    have hsubs := innerJoins_subs hchained.subs
    rw [hcut.flatten, ChainedSelect.subs, List.map_cons, List.sum_cons, List.map_map,
      List.flatMap_cons, List.flatMap_map] at hsubs
    simp only [PathSelect.innerJoins, PathSelect.bulkTables, Function.comp_def] at hsubs ⊢
    omega

/-- The nodes that a statement reads, and what it joins if no part of it is optional. -/
theorem Sound.statement_joins (hs : c.Sound T hops) (hst : c.IsStack stack) (bulkTables : Nat)
    (strip : Bool) :
    Meets c.Refuses (c.statement stack strip) { bulkTables := bulkTables } fun s _ =>
      stack.phase ≠ .optional → ∃ root active, c.rootCondition stack.nodes = .ok (root, active) ∧
        s.select.innerJoins + 1
          = active.length + s.bulkTables.countP BulkTable.isWithin := by
  simp only [statement, node_eq hs.wellFormed.rootLive, meets_bind, meets_ok, meets_pure]
  refine (hs.stackSelect_meets hst bulkTables).mono ?_
  intro r w' hr hphase
  obtain ⟨_, root, active, outputs, sort, hcondition, habsences, hselect⟩ := hr
  refine ⟨root, active, hcondition, ?_⟩
  have hbody := hselect.body.innerJoins
  simpa [Select.innerJoins, Statement.bulkTables, Select.bulkTables, habsences hphase] using hbody

end Composer

/-! ## 4. Statements -/

/-- The text of a statement says what its select joins. -/
theorem Statement.Scoped.occurrences {T : Topology} {s : Statement} (h : s.Scoped T) (hT : T.Named)
    (hc : T.Consistent) : occurrences " INNER JOIN " s.sql = s.select.innerJoins :=
  (SqlWriter.joins_select hT hc h.select).occurrences

theorem QueryTree.statement_innerJoins {T : Topology} {hops : List Hop} {t : QueryTree}
    {settings : Settings} {stack : PathStack} {b : Nat} {strip : Bool} {s : Statement}
    (hT : T.Named) (hs : (⟨t, settings⟩ : Composer).Sound T hops)
    (hst : (⟨t, settings⟩ : Composer).IsStack stack)
    (hok : t.statement settings b stack strip = .ok s) : s.phase = stack.phase ∧
      (s.phase ≠ .optional → ∃ root active,
        (⟨t, settings⟩ : Composer).rootCondition stack.nodes = .ok (root, active) ∧
        occurrences " INNER JOIN " s.sql + 1
          = active.length + s.bulkTables.countP fun bulk => bulk.kind == .within) := by
  obtain ⟨_, hframes⟩ := statement_meets (Composer.statement_frames ⟨t, settings⟩ stack strip _) hok
  obtain ⟨_, hjoins⟩ := statement_meets (hs.statement_joins hst b strip) hok
  have hspec := statement_spec hs hst b strip
  rw [hok] at hspec
  obtain ⟨_, _, _, _, hstatement⟩ := hspec
  rw [(hstatement.scoped hs).occurrences hT hs.consistent, hframes.phase]
  exact ⟨rfl, hjoins⟩

/-- **The joins of a statement.** In the text of a statement of the run's whole path, or of where
it may end, there is one inner join less than nodes whose tables are read, which are those of the
stack but for a root that is left out, and one more for each temporary table of wanted values. -/
theorem Run.statements_innerJoins {d : SchemaDescription} {T : Topology} (hd : d.topology = .ok T)
    (settings : Settings) (n : Numbering) (run : Run) {plan : Plan}
    (hok : run.plan settings T n = .ok plan) :
    ∃ trees queue, run.trees settings T = .ok trees ∧ stacksOf trees = .ok queue ∧
      List.Forall₂ (fun (x : QueryTree × PathStack) s => s.phase = x.2.phase ∧
        (s.phase ≠ .optional → ∃ root active,
          (⟨x.1, settings⟩ : Composer).rootCondition x.2.nodes = .ok (root, active) ∧
          occurrences " INNER JOIN " s.sql + 1
            = active.length + s.bulkTables.countP fun bulk => bulk.kind == .within))
        queue plan.statements := by
  obtain ⟨hbuilt, hnamed⟩ := SchemaDescription.topology_named hd
  obtain ⟨trees, queue, strip, htrees, hqueue, hall⟩ := plan_ok hok
  refine ⟨trees, queue, htrees, hqueue, ?_⟩
  have hmem := (List.forall₂_and_left queue plan.statements).mpr
    ⟨fun x (hx : x ∈ queue) => hx, hall⟩
  refine hmem.imp ?_
  rintro ⟨t, stack⟩ s ⟨hx, b, hstatement⟩
  obtain ⟨ht, phase, id, hid, heq⟩ := mem_stacksOf hqueue hx
  obtain rfl : stack = t.stack phase id := heq
  have hsound := sound_of_trees hbuilt.consistent htrees ht
  exact QueryTree.statement_innerJoins hnamed hsound
    (hsound.wellFormed.isStack settings phase (QueryTree.live_of_mem_ends hid)) hstatement

namespace People

/-- Friends of friends of someone given, if they are among two people. -/
def secondFriends : Run :=
  ⟨[{ kind := .incomingRoot .vertex, depth := 0 }, friends false,
    { friends false with depth := 2, idPredicates := [.within [.int 1, .int 2]] }]⟩

/-- The one who is given is not read. Of the four nodes that are, in two sub-selects, three are
joined, and so is the table of the two people. -/
theorem innerJoins_secondFriends : ∃ plan,
    secondFriends.plan { bulkThreshold := 1 } topology {} = .ok plan ∧
    plan.statements.map (fun s => (s.phase, s.select.innerJoins)) = [(.regular, 4)] ∧
    ∃ trees queue, secondFriends.trees { bulkThreshold := 1 } topology = .ok trees ∧
      stacksOf trees = .ok queue ∧
      List.Forall₂ (fun (x : QueryTree × PathStack) s => s.phase = x.2.phase ∧
        (s.phase ≠ .optional → ∃ root active,
          (⟨x.1, { bulkThreshold := 1 }⟩ : Composer).rootCondition x.2.nodes = .ok (root, active) ∧
          occurrences " INNER JOIN " s.sql + 1
            = active.length + s.bulkTables.countP fun bulk => bulk.kind == .within))
        queue plan.statements := by
  have hcount : (secondFriends.plan { bulkThreshold := 1 } topology {}).toOption.map
      (fun plan => plan.statements.map fun s => (s.phase, s.select.innerJoins))
        = some [(.regular, 4)] := by decide +kernel
  cases hplan : secondFriends.plan { bulkThreshold := 1 } topology {} with
  | error e =>
    rw [hplan] at hcount
    cases hcount
  | ok plan =>
    rw [hplan] at hcount
    exact ⟨plan, rfl, Option.some.inj hcount,
      Run.statements_innerJoins described { bulkThreshold := 1 } {} secondFriends hplan⟩

end People

end TraversalSql
