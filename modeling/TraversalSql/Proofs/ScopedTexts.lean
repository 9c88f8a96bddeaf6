import TraversalSql.Proofs.Wording

/-!
# Well-scoped texts

What a database gets is a text. `SqlText.Scoped` says clause by clause which texts it can resolve: a
column stands with a table that the same `FROM` clause reads, a table is read once there, an alias
stands with a sub-select that gives it to one of its columns, and rows are sorted by aliases of the
outermost select. Every name is spelled out where it stands, so a clause that was left out, or a
name in the place of another one, would make it another text.

A select that is well scoped is written as such a text, clause by clause, and so is every statement
of every plan. Nothing is asked of the names of the schema, which may hold any characters.
-/

set_option autoImplicit false

namespace TraversalSql

/-! ## 1. Texts in scope -/

namespace SqlText

section Names

variable (d : Dialect)

/-- A table under its schema, as in `"public"."V_Person"`. -/
def table (t : Table) : String := d.quote t.schema ++ "." ++ d.quote t.tableName

def column (r : ColumnRef) : String := table d r.table ++ "." ++ d.quote r.column.name

def bulkColumn (bulk : BulkTable) : String := d.quote bulk.name ++ "." ++ d.quote bulk.column

/-- A column of a sub-select, as in `"a1"."alias2"`. -/
def exported (owner column : String) : String := d.quote owner ++ "." ++ d.quote column

/-- Tests that must all hold, if there are any. -/
def whereClause (tests : List String) : String :=
  if tests.isEmpty then "" else " WHERE " ++ " AND ".intercalate tests

/-- Aliases, each with the word for its direction. -/
def orderClause (keys : List (String × String)) : String :=
  if keys.isEmpty then ""
  else " ORDER BY " ++ ", ".intercalate (keys.map fun k => d.quote k.1 ++ " " ++ k.2)

/-- The text holds the column, as often as it likes, and no other name: names are quoted. -/
def IsAbout (column text : String) : Prop :=
  ∃ parts : List String, text = String.join parts ∧
    ∀ part ∈ parts, part = column ∨ d.quoteMark ∉ part.toList

end Names

section Scopes

variable (T : Topology) (d : Dialect)

/-- The text is a `FROM` clause of the tables and the temporary tables. A table is read once. It is
joined on a column of a table before it and one of its own. -/
inductive Tables : List Table → List BulkTable → String → Prop
  | source {t : Table} (hknown : ∃ ps, T.properties? t = some ps) :
      Tables [t] [] (" FROM " ++ table d t)
  | join {ts : List Table} {text : String} {t : Table} {left right : ColumnRef}
      (before : Tables ts [] text) (hknown : ∃ ps, T.properties? t = some ps) (hnew : t ∉ ts)
      (hleft : left.In T ts) (hright : right.In T [t]) :
      Tables (ts ++ [t]) [] (text ++ " INNER JOIN " ++ table d t ++ " ON " ++ column d left
        ++ " = " ++ column d right)
  | within {ts : List Table} {bulks : List BulkTable} {text : String} {bulk : BulkTable}
      {r : ColumnRef} (before : Tables ts bulks text) (hkind : bulk.kind = .within)
      (hr : r.In T ts) :
      Tables ts (bulks ++ [bulk]) (text ++ " INNER JOIN " ++ d.quote bulk.name ++ " ON "
        ++ column d r ++ " = " ++ bulkColumn d bulk)
  | without {ts : List Table} {bulks : List BulkTable} {text : String} {bulk : BulkTable}
      {r : ColumnRef} (before : Tables ts bulks text) (hkind : bulk.kind = .without)
      (hr : r.In T ts) :
      Tables ts (bulks ++ [bulk]) (text ++ " LEFT JOIN " ++ d.quote bulk.name ++ " ON "
        ++ column d r ++ " = " ++ bulkColumn d bulk)

/-- The text tests a column of one of the tables, or a temporary table. -/
inductive Test (ts : List Table) (bulks : List BulkTable) : String → Prop
  | column {r : ColumnRef} {text : String} (hr : r.In T ts)
      (habout : IsAbout d (column d r) text) : Test ts bulks text
  | unlisted {bulk : BulkTable} (hbulk : bulk ∈ bulks) :
      Test ts bulks (bulkColumn d bulk ++ " IS NULL")

/-- The text is a select over tables that gives its columns these aliases, each to one column. -/
inductive Flat : List String → String → Prop
  | mk {columns : List (ColumnRef × String)} {ts : List Table} {bulks : List BulkTable}
      {source : String} {tests : List String} (hcolumns : ∀ c ∈ columns, c.1.In T ts)
      (hnodup : (columns.map Prod.snd).Nodup) (hsource : Tables T d ts bulks source)
      (htests : ∀ test ∈ tests, Test T d ts bulks test) :
      Flat (columns.map Prod.snd) ("SELECT "
        ++ ", ".intercalate (columns.map fun c => column d c.1 ++ " AS " ++ d.quote c.2)
        ++ source ++ whereClause tests)

/-- Among the sub-selects, given by their names and their aliases, the owner has the alias. -/
def Has (subs : List (String × List String)) (owner column : String) : Prop :=
  ∃ aliases, (owner, aliases) ∈ subs ∧ column ∈ aliases

/-- The text is a `FROM` clause of the sub-selects. One is joined on an alias of a sub-select
before it and one of its own. -/
inductive SubSelects : List (String × List String) → String → Prop
  | first {name sql : String} {aliases : List String} (body : Flat T d aliases sql) :
      SubSelects [(name, aliases)] (" FROM (" ++ sql ++ ") AS " ++ d.quote name)
  | join {subs : List (String × List String)} {text name sql left leftAlias rightAlias : String}
      {aliases : List String} (before : SubSelects subs text) (body : Flat T d aliases sql)
      (hleft : Has subs left leftAlias) (hright : rightAlias ∈ aliases) :
      SubSelects (subs ++ [(name, aliases)]) (text ++ " INNER JOIN (" ++ sql ++ ") AS "
        ++ d.quote name ++ " ON " ++ exported d left leftAlias ++ " = "
        ++ exported d name rightAlias)

/-- The text is a select over a path, in one piece or of sub-selects, that gives its columns these
aliases, each to one column. -/
inductive Path : List (String × List String) → List String → String → Prop
  | flat {aliases : List String} {sql : String} (body : Flat T d aliases sql) : Path [] aliases sql
  | chained {subs : List (String × List String)} {outputs : List (String × String)}
      {source : String} (hsource : SubSelects T d subs source)
      (houtputs : ∀ o ∈ outputs, Has subs o.1 o.2) (hnodup : (outputs.map Prod.snd).Nodup) :
      Path subs (outputs.map Prod.snd) ("SELECT "
        ++ ", ".intercalate (outputs.map fun o => exported d o.1 o.2 ++ " AS " ++ d.quote o.2)
        ++ source)

/-- The texts are joins of branches to the sub-selects of a path, with the names in them, and tests
that each branch is missing. -/
inductive Absences (main : List (String × List String)) :
    List String → String → List String → Prop
  | none : Absences main [] "" []
  | join {names tests aliases : List String} {joins sql name owner carried joined terminal : String}
      {subs : List (String × List String)} (before : Absences main names joins tests)
      (body : Path T d subs aliases sql) (hcarried : Has main owner carried)
      (hjoined : joined ∈ aliases) (hterminal : terminal ∈ aliases) :
      Absences main (names ++ (subs.map Prod.fst ++ [name]))
        (joins ++ " LEFT JOIN (" ++ sql ++ ") AS " ++ d.quote name ++ " ON "
          ++ exported d owner carried ++ " = " ++ exported d name joined)
        (tests ++ ["(" ++ exported d name terminal ++ " IS NULL)"])

/-- The text is a select in which every name can be resolved. No two sub-selects have one name, rows
are sorted by aliases of the path, and there are no more names behind them. -/
inductive Scoped : String → Prop
  | mk {subs : List (String × List String)} {aliases names tests : List String}
      {path joins slice : String} {keys : List (String × String)} (hpath : Path T d subs aliases path)
      (habsences : Absences T d subs names joins tests) (hnodup : (subs.map Prod.fst ++ names).Nodup)
      (hkeys : ∀ k ∈ keys, k.1 ∈ aliases ∧ (k.2 = "ASC" ∨ k.2 = "DESC"))
      (hslice : d.quoteMark ∉ slice.toList) :
      Scoped (path ++ joins ++ whereClause tests ++ orderClause d keys ++ slice)

end Scopes

end SqlText

/-! ## 2. Conditions -/

namespace SqlText

variable {T : Topology} {d : Dialect} {s t : String}

theorem isAbout_of_notMem {column : String} (h : d.quoteMark ∉ s.toList) : IsAbout d column s :=
  ⟨[s], by simp, by simp [h]⟩

theorem isAbout_self (column : String) : IsAbout d column column := ⟨[column], by simp, by simp⟩

theorem IsAbout.append {column : String} (hs : IsAbout d column s) (ht : IsAbout d column t) :
    IsAbout d column (s ++ t) := by
  obtain ⟨ps, rfl, hps⟩ := hs
  obtain ⟨qs, rfl, hqs⟩ := ht
  exact ⟨ps ++ qs, String.join_append.symm, List.forall_mem_append.mpr ⟨hps, hqs⟩⟩

/-- The words of conditions are no names. -/
theorem wording_isAbout (d : Dialect) (column : String) : Wording (IsAbout d column) := by
  refine ⟨IsAbout.append, fun word hword => isAbout_of_notMem ?_⟩
  have hwords : ∀ word ∈ conditionWords, d.quoteMark ∉ word.toList := by cases d <;> decide
  exact hwords word hword

theorem isAbout_mark (d : Dialect) (column : String) : IsAbout d column "?" :=
  isAbout_of_notMem (by cases d <;> decide)

theorem test_condition {w : SqlWriter} {s : FlatSelect} {x : Condition}
    (h : s.Allows T w.dialect x) :
    Test T w.dialect s.tables s.bulkTables (w.condition x).sql := by
  cases x with
  | rootId r =>
    have hequal : IsAbout w.dialect (column w.dialect r) " = " :=
      isAbout_of_notMem (by cases w.dialect <;> decide)
    refine .column h ?_
    rw [SqlWriter.condition, Fragment.sql_cons]
    exact ((isAbout_self _).append hequal).append (isAbout_mark _ _)
  | filter r sql =>
    obtain ⟨hr, p, hp⟩ := h
    have hwording := wording_isAbout w.dialect (column w.dialect r)
    exact .column hr (hwording.sql (isAbout_mark _ _) (hwording.condition (isAbout_self _) p hp))
  | unlisted bulk =>
    rw [SqlWriter.condition, Fragment.sql_singleton]
    exact .unlisted h

theorem sql_conditions (w : SqlWriter) (cs : List Condition) :
    (w.conditions cs).sql = whereClause (cs.map fun x => (w.condition x).sql) := by
  unfold SqlWriter.conditions whereClause
  cases cs with
  | nil => rfl
  | cons x cs =>
    simp only [List.isEmpty_cons, List.map_cons, Bool.false_eq_true, if_false, Fragment.sql_cons,
      Fragment.sql_joined, List.map_map]
    rfl

/-! ## 3. Selects over tables -/

theorem tables_joins (w : SqlWriter) : ∀ {joins : List TableJoin} {seen : List Table}
    {text : String}, Tables T w.dialect seen [] text → JoinsScoped T seen joins →
    (seen ++ joins.map TableJoin.table).Nodup →
    (∀ j ∈ joins, ∃ ps, T.properties? j.table = some ps) →
    Tables T w.dialect (seen ++ joins.map TableJoin.table) []
      (text ++ String.join (joins.map w.tableJoin)) := by
  intro joins
  induction joins with
  | nil =>
    intro seen text h _ _ _
    simpa using h
  | cons j joins ih =>
    intro seen text h hscoped hnodup hknown
    obtain ⟨hleft, hright, hrest⟩ := hscoped
    have hnew : j.table ∉ seen := fun hmem =>
      (List.nodup_append.mp hnodup).2.2 _ hmem _ List.mem_cons_self rfl
    have hjoin := h.join (hknown j List.mem_cons_self) hnew hleft hright
    have hall := ih hjoin hrest (by simpa using hnodup)
      fun j hj => hknown j (List.mem_cons_of_mem _ hj)
    have htext : text ++ w.tableJoin j = text ++ " INNER JOIN " ++ table w.dialect j.table
        ++ " ON " ++ column w.dialect j.left ++ " = " ++ column w.dialect j.right := by
      simp only [SqlWriter.tableJoin, String.append_assoc]
      rfl
    rw [List.map_cons, List.map_cons, String.join_cons, ← String.append_assoc, htext]
    simpa using hall

theorem tables_bulkJoins (w : SqlWriter) {ts : List Table} : ∀ {joins : List BulkJoin}
    {bulks : List BulkTable} {text : String}, Tables T w.dialect ts bulks text →
    (∀ j ∈ joins, j.column.In T ts) →
    Tables T w.dialect ts (bulks ++ joins.map BulkJoin.bulk)
      (text ++ String.join (joins.map w.bulkJoin)) := by
  intro joins
  induction joins with
  | nil =>
    intro bulks text h _
    simpa using h
  | cons j joins ih =>
    intro bulks text h hin
    have hj := hin j List.mem_cons_self
    have hjoin : Tables T w.dialect ts (bulks ++ [j.bulk]) (text ++ w.bulkJoin j) := by
      cases hkind : j.bulk.kind with
      | within =>
        have htext : text ++ w.bulkJoin j = text ++ " INNER JOIN " ++ w.dialect.quote j.bulk.name
            ++ " ON " ++ column w.dialect j.column ++ " = " ++ bulkColumn w.dialect j.bulk := by
          simp only [SqlWriter.bulkJoin, hkind, String.append_assoc]
          rfl
        exact htext ▸ h.within hkind hj
      | without =>
        have htext : text ++ w.bulkJoin j = text ++ " LEFT JOIN " ++ w.dialect.quote j.bulk.name
            ++ " ON " ++ column w.dialect j.column ++ " = " ++ bulkColumn w.dialect j.bulk := by
          simp only [SqlWriter.bulkJoin, hkind, String.append_assoc]
          rfl
        exact htext ▸ h.without hkind hj
    have hall := ih hjoin fun j hj => hin j (List.mem_cons_of_mem _ hj)
    rw [List.map_cons, List.map_cons, String.join_cons, ← String.append_assoc]
    simpa using hall

/-- The columns of a select over tables, with their aliases. -/
def columns (w : SqlWriter) (s : FlatSelect) : List (ColumnRef × String) :=
  (distinctOn id [] s.columns).map fun k => (k.ref, w.aliases.name k)

def aliases (w : SqlWriter) (s : FlatSelect) : List String := (columns w s).map Prod.snd

theorem aliases_eq (w : SqlWriter) (s : FlatSelect) :
    aliases w s = (distinctOn id [] s.columns).map w.aliases.name := by
  simp [aliases, columns, Function.comp_def]

theorem mem_aliases {w : SqlWriter} {s : FlatSelect} {k : AliasKey} (h : k ∈ s.columns) :
    w.aliases.name k ∈ aliases w s := by
  obtain ⟨k', hk', rfl⟩ := exists_mem_distinctOn id h List.not_mem_nil
  rw [aliases_eq]
  exact List.mem_map_of_mem hk'

theorem nodup_names {w : SqlWriter} {ks : List AliasKey} (hnodup : ks.Nodup)
    (hused : ∀ k ∈ ks, k ∈ w.aliases.keys) : (ks.map w.aliases.name).Nodup :=
  hnodup.map_on fun k hk _ _ hname => AliasTable.name_inj (hused k hk) hname

theorem sql_flat (w : SqlWriter) (s : FlatSelect) : (w.flat s).sql = "SELECT "
    ++ ", ".intercalate ((columns w s).map fun c => column w.dialect c.1 ++ " AS "
      ++ w.dialect.quote c.2)
    ++ (" FROM " ++ table w.dialect s.source ++ String.join (s.joins.map w.tableJoin)
      ++ String.join (s.bulkJoins.map w.bulkJoin))
    ++ whereClause (s.conditions.map fun x => (w.condition x).sql) := by
  have hlist : (columns w s).map (fun c => column w.dialect c.1 ++ " AS " ++ w.dialect.quote c.2)
      = (distinctOn id [] s.columns).map w.selected := by
    rw [columns, List.map_map]
    rfl
  rw [SqlWriter.flat, Fragment.sql_cons, sql_conditions, hlist]
  simp only [Piece.sql, String.append_assoc]
  rfl

/-- A select over tables that is well scoped has a text in scope. -/
theorem flat {w : SqlWriter} {s : FlatSelect} (h : s.Scoped T w.dialect)
    (hused : ∀ k ∈ s.columns, k ∈ w.aliases.keys) :
    Flat T w.dialect (aliases w s) (w.flat s).sql := by
  have hkept : ∀ {k}, k ∈ distinctOn id [] s.columns → k ∈ s.columns := mem_of_mem_distinctOn
  have hkeys := (nodup_distinctOn id [] s.columns).1
  have hsource : Tables T w.dialect [s.source] [] (" FROM " ++ table w.dialect s.source) :=
    .source (h.known _ List.mem_cons_self)
  have htables := tables_bulkJoins w (tables_joins w hsource h.joins h.nodup fun j hj =>
    h.known _ (List.mem_cons_of_mem _ (List.mem_map_of_mem hj))) h.bulkJoins
  rw [sql_flat]
  refine .mk ?_ ?_ htables ?_
  · intro c hc
    obtain ⟨k, hk, rfl⟩ := List.mem_map.mp hc
    exact h.columns k (hkept hk)
  · show (aliases w s).Nodup
    rw [List.map_id] at hkeys
    rw [aliases_eq]
    exact nodup_names hkeys fun k hk => hused k (hkept hk)
  · intro test htest
    obtain ⟨x, hx, rfl⟩ := List.mem_map.mp htest
    exact test_condition (h.conditions x hx)

/-! ## 4. Selects over sub-selects -/

/-- The name of a sub-select, with its aliases. -/
def exports (w : SqlWriter) (sub : SubSelect) : String × List String :=
  (subSelectName sub.number, aliases w sub.body)

theorem has_of_from {w : SqlWriter} {e : ExportedColumn} {subs : List SubSelect}
    (h : e.From subs) :
    Has (subs.map (exports w)) (subSelectName e.owner) (w.aliases.name e.key) := by
  obtain ⟨sub, hsub, howner, hkey⟩ := h
  exact ⟨_, howner ▸ List.mem_map_of_mem hsub, mem_aliases hkey⟩

theorem sql_named (w : SqlWriter) (words : String) (number : Nat) (body : Fragment) :
    (w.named words number body).sql
      = words ++ "(" ++ body.sql ++ ") AS " ++ w.dialect.quote (subSelectName number) := by
  rw [SqlWriter.named, Fragment.sql_append, Fragment.sql_cons, Fragment.sql_singleton]
  simp only [Piece.sql, String.append_assoc]

theorem subSelects_linked {w : SqlWriter} : ∀ {links : List LinkedSelect}
    {seen : List SubSelect} {text : String},
    SubSelects T w.dialect (seen.map (exports w)) text → LinksScoped seen links →
    (∀ l ∈ links, l.sub.body.Scoped T w.dialect ∧ ∀ k ∈ l.sub.body.columns, k ∈ w.aliases.keys) →
    SubSelects T w.dialect ((seen ++ links.map LinkedSelect.sub).map (exports w))
      (text ++ (Fragment.sql (links.flatMap w.linked))) := by
  intro links
  induction links with
  | nil =>
    intro seen text h _ _
    simpa [Fragment.sql] using h
  | cons l links ih =>
    intro seen text h hscoped hall
    obtain ⟨hleft, ⟨sub, hsub, howner, hkey⟩, hrest⟩ := hscoped
    obtain rfl : sub = l.sub := List.mem_singleton.mp hsub
    obtain ⟨hbody, hused⟩ := hall l List.mem_cons_self
    have htext : text ++ (w.linked l).sql = text ++ " INNER JOIN (" ++ (w.flat l.sub.body).sql
        ++ ") AS " ++ w.dialect.quote (subSelectName l.sub.number) ++ " ON "
        ++ exported w.dialect (subSelectName l.left.owner) (w.aliases.name l.left.key) ++ " = "
        ++ exported w.dialect (subSelectName l.sub.number) (w.aliases.name l.right.key) := by
      rw [SqlWriter.linked, Fragment.sql_append, Fragment.sql_singleton, sql_named, howner]
      simp only [Piece.sql, String.append_assoc]
      rfl
    have hjoin : SubSelects T w.dialect ((seen ++ [l.sub]).map (exports w))
        (text ++ (w.linked l).sql) := by
      rw [htext, List.map_append]
      exact h.join (flat hbody hused) (has_of_from hleft) (mem_aliases hkey)
    have hlinks := ih hjoin hrest fun l hl => hall l (List.mem_cons_of_mem _ hl)
    rw [List.flatMap_cons, Fragment.sql_append, ← String.append_assoc]
    simpa using hlinks

/-- The outputs of a select over sub-selects, by owner and alias. -/
def outputs (w : SqlWriter) (s : ChainedSelect) : List (String × String) :=
  s.outputs.map fun e => (subSelectName e.owner, w.aliases.name e.key)

/-- The aliases of a select over a path. -/
def pathAliases (w : SqlWriter) : PathSelect → List String
  | .flat s => aliases w s
  | .chained s => (outputs w s).map Prod.snd

theorem mem_pathAliases {w : SqlWriter} {p : PathSelect} {k : AliasKey} (h : k ∈ p.projects) :
    w.aliases.name k ∈ pathAliases w p := by
  cases p with
  | flat s => exact mem_aliases h
  | chained s =>
    obtain ⟨e, he, rfl⟩ := List.mem_map.mp h
    exact List.mem_map_of_mem (List.mem_map_of_mem he)

theorem sql_chained (w : SqlWriter) (s : ChainedSelect) : (w.chained s).sql = "SELECT "
    ++ ", ".intercalate ((outputs w s).map fun o => exported w.dialect o.1 o.2 ++ " AS "
      ++ w.dialect.quote o.2)
    ++ ((w.named " FROM " s.first.number (w.flat s.first.body)).sql
      ++ (Fragment.sql (s.rest.flatMap w.linked))) := by
  have hlist : (outputs w s).map (fun o => exported w.dialect o.1 o.2 ++ " AS "
      ++ w.dialect.quote o.2) = s.outputs.map w.exportedAs := by
    rw [outputs, List.map_map]
    rfl
  rw [SqlWriter.chained, Fragment.sql_append, Fragment.sql_cons, hlist]
  simp only [Piece.sql, String.append_assoc]
  rfl

theorem chained {w : SqlWriter} {s : ChainedSelect} (h : s.Scoped T w.dialect)
    (hused : ∀ k ∈ s.requests, k ∈ w.aliases.keys) :
    Path T w.dialect (s.subs.map (exports w)) ((outputs w s).map Prod.snd) (w.chained s).sql := by
  simp only [ChainedSelect.requests, List.forall_mem_append, List.mem_flatMap] at hused
  obtain ⟨⟨hfirst, hrest⟩, houtputs⟩ := hused
  have htop : SubSelects T w.dialect ([s.first].map (exports w))
      (w.named " FROM " s.first.number (w.flat s.first.body)).sql := by
    rw [sql_named]
    exact .first (flat (h.subs s.first List.mem_cons_self) hfirst)
  have hsource := subSelects_linked htop h.links fun l hl =>
    ⟨h.subs l.sub (List.mem_cons_of_mem _ (List.mem_map_of_mem hl)), fun k hk =>
      hrest k ⟨l, hl, List.mem_append_left _ hk⟩⟩
  rw [sql_chained]
  refine .chained hsource ?_ ?_
  · intro o ho
    obtain ⟨e, he, rfl⟩ := List.mem_map.mp ho
    exact has_of_from (h.outputs e he)
  · have hnames := nodup_names h.nodup houtputs
    simpa [outputs, Function.comp_def] using hnames

theorem path {w : SqlWriter} {p : PathSelect} (h : p.Scoped T w.dialect)
    (hused : ∀ k ∈ p.requests, k ∈ w.aliases.keys) :
    Path T w.dialect (p.subs.map (exports w)) (pathAliases w p) (w.path p).sql := by
  cases p with
  | flat s => exact .flat (flat h hused)
  | chained s => exact chained h hused

/-! ## 5. Branches that must be missing -/

theorem absences {w : SqlWriter} {main : List SubSelect} : ∀ {bs : List AbsentBranch}
    {names tests : List String} {joins : String},
    Absences T w.dialect (main.map (exports w)) names joins tests →
    (∀ b ∈ bs, b.Scoped T w.dialect main ∧ ∀ k ∈ b.body.requests, k ∈ w.aliases.keys) →
    Absences T w.dialect (main.map (exports w))
      (names ++ (bs.flatMap AbsentBranch.numbers).map subSelectName)
      (joins ++ Fragment.sql (bs.flatMap w.absentJoin)) (tests ++ bs.map w.absentTest) := by
  intro bs
  induction bs with
  | nil =>
    intro names tests joins h _
    simpa [Fragment.sql] using h
  | cons b bs ih =>
    intro names tests joins h hall
    obtain ⟨hscoped, hused⟩ := hall b List.mem_cons_self
    have hnames : (b.body.subs.map (exports w)).map Prod.fst ++ [subSelectName b.number]
        = b.numbers.map subSelectName := by
      simp [AbsentBranch.numbers, PathSelect.numbers, exports, Function.comp_def]
    have htext : joins ++ (w.absentJoin b).sql = joins ++ " LEFT JOIN (" ++ (w.path b.body).sql
        ++ ") AS " ++ w.dialect.quote (subSelectName b.number) ++ " ON "
        ++ exported w.dialect (subSelectName b.carried.owner) (w.aliases.name b.carried.key)
        ++ " = " ++ exported w.dialect (subSelectName b.number) (w.aliases.name b.joined) := by
      rw [SqlWriter.absentJoin, Fragment.sql_append, Fragment.sql_singleton, sql_named]
      simp only [Piece.sql, String.append_assoc]
      rfl
    have hjoin : Absences T w.dialect (main.map (exports w))
        (names ++ b.numbers.map subSelectName) (joins ++ (w.absentJoin b).sql)
        (tests ++ [w.absentTest b]) := by
      rw [htext, ← hnames]
      exact h.join (path hscoped.body hused) (has_of_from hscoped.carried)
        (mem_pathAliases hscoped.joined) (mem_pathAliases hscoped.terminal)
    have hbs := ih hjoin fun b hb => hall b (List.mem_cons_of_mem _ hb)
    rw [List.flatMap_cons (f := w.absentJoin), Fragment.sql_append, ← String.append_assoc]
    simpa using hbs

/-! ## 6. Statements -/

theorem sql_absences (w : SqlWriter) (bs : List AbsentBranch) : (w.absences bs).sql
    = Fragment.sql (bs.flatMap w.absentJoin) ++ whereClause (bs.map w.absentTest) := by
  unfold SqlWriter.absences whereClause
  cases bs with
  | nil => rfl
  | cons b bs =>
    simp only [List.isEmpty_cons, List.map_cons, Bool.false_eq_true, if_false, Fragment.sql_append,
      Fragment.sql_singleton]
    rfl

theorem orderBy_eq (w : SqlWriter) (keys : List (AliasKey × SortDirection)) : w.orderBy keys
    = orderClause w.dialect (keys.map fun k => (w.aliases.name k.1, k.2.keyword)) := by
  unfold SqlWriter.orderBy orderClause
  cases keys with
  | nil => rfl
  | cons k keys =>
    simp only [List.isEmpty_cons, List.map_cons, Bool.false_eq_true, if_false, List.map_map]
    rfl

theorem notMem_slice (w : SqlWriter) (s : Option Slice) :
    w.dialect.quoteMark ∉ (w.slice s).toList := by
  have hdigit : ∀ d : Dialect, d.quoteMark.isDigit = false := by
    intro d
    cases d <;> rfl
  refine w.dialect.sliceClause_of (Q := fun s => w.dialect.quoteMark ∉ s.toList) ?_ ?_ ?_ s
  · intro s t hs ht
    rw [String.toList_append, List.mem_append]
    exact not_or.mpr ⟨hs, ht⟩
  · cases w.dialect <;> decide
  · intro n hmem
    rw [Nat.toString_eq_ofList_toDigits, String.toList_ofList] at hmem
    have hmark := Nat.isDigit_of_mem_toDigits (by decide) (by decide) hmem
    rw [hdigit] at hmark
    cases hmark

/-- **A well-scoped select has a text in scope.** -/
theorem select {w : SqlWriter} {s : Select} (h : s.Scoped T w.dialect)
    (hnumbers : (s.numbers.map subSelectName).Nodup)
    (hused : ∀ k ∈ s.requests, k ∈ w.aliases.keys) : Scoped T w.dialect (w.select s).sql := by
  have hbody : ∀ k ∈ s.body.requests, k ∈ w.aliases.keys := fun k hk =>
    hused k (List.mem_append_left _ (List.mem_append_left _ hk))
  have hbranches : ∀ b ∈ s.absences, ∀ k ∈ b.body.requests, k ∈ w.aliases.keys :=
    fun b hb k hk => hused k (List.mem_append_left _ (List.mem_append_right _
      (List.mem_flatMap.mpr ⟨b, hb, List.mem_append_left _ hk⟩)))
  have hnone : Absences T w.dialect (s.body.subs.map (exports w)) [] "" [] := .none
  have habsences := absences hnone fun b hb => ⟨h.absences b hb, hbranches b hb⟩
  have htext : (w.select s).sql = (w.path s.body).sql
      ++ Fragment.sql (s.absences.flatMap w.absentJoin)
      ++ whereClause (s.absences.map w.absentTest)
      ++ orderClause w.dialect (s.orderBy.map fun k => (w.aliases.name k.1, k.2.keyword))
      ++ w.slice s.slice := by
    rw [SqlWriter.select, Fragment.sql_append, Fragment.sql_append, Fragment.sql_singleton,
      sql_absences, ← orderBy_eq]
    simp only [Piece.sql, String.append_assoc]
  rw [htext]
  refine .mk (path h.body hbody) (by simpa using habsences) ?_ ?_ (notMem_slice w s.slice)
  · simpa [Select.numbers, PathSelect.numbers, exports, Function.comp_def] using hnumbers
  · intro k hk
    obtain ⟨x, hx, rfl⟩ := List.mem_map.mp hk
    refine ⟨mem_pathAliases (h.orderBy x hx), ?_⟩
    cases x.2 <;> simp [SortDirection.keyword]

end SqlText

/-- **Statements are well scoped,** and so are their texts: columns belong to tables of the same
select, no table is read twice in one select, exported columns are projected by the sub-select they
name, and rows are sorted by columns that they have. -/
theorem Run.statements_scoped {T : Topology} (hT : T.Built) (settings : Settings) (n : Numbering)
    (run : Run) {plan : Plan} (hok : run.plan settings T n = .ok plan) :
    ∀ s ∈ plan.statements, s.Scoped T ∧ SqlText.Scoped T settings.dialect s.sql := by
  intro s hs
  obtain ⟨hscoped, hdialect⟩ := scoped_of_plan hT.consistent hok hs
  refine ⟨hscoped, hdialect ▸ ?_⟩
  exact SqlText.select (w := ⟨s.dialect, s.aliases⟩) hscoped.select hscoped.subSelects
    fun k hk => ((AliasTable.ofList_spec _).1 k).mpr hk

namespace People

/-- The friends of everyone, if there are any: a statement for those who have friends, and one for
those who have none. -/
theorem plan_of_friends : ∃ plan, Run.plan {} topology {} ⟨[everyone, friends true]⟩ = .ok plan ∧
    plan.statements.length = 2 := by
  have hlen : (Run.plan {} topology {} ⟨[everyone, friends true]⟩).toOption.map
      (fun plan => plan.statements.length) = some 2 := by decide +kernel
  cases hplan : Run.plan {} topology {} ⟨[everyone, friends true]⟩ with
  | error e =>
    rw [hplan] at hlen
    cases hlen
  | ok plan =>
    rw [hplan] at hlen
    exact ⟨plan, rfl, Option.some.inj hlen⟩

theorem scoped_friends : ∃ plan,
    Run.plan {} topology {} ⟨[everyone, friends true]⟩ = .ok plan ∧
      plan.statements.length = 2 ∧ ∀ s ∈ plan.statements,
        s.Scoped topology ∧ SqlText.Scoped topology .sqlite s.sql := by
  obtain ⟨plan, hok, hlen⟩ := plan_of_friends
  exact ⟨plan, hok, hlen, Run.statements_scoped built {} {} _ hok⟩

end People

end TraversalSql
