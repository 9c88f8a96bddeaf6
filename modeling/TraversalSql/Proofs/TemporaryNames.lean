import TraversalSql.Proofs.Aliases
import TraversalSql.Proofs.SortKeys
import TraversalSql.Proofs.Transcripts

/-!
# Names of temporary tables

The calls that create, fill and drop temporary tables are texts, and tables are told apart by their
names in them. A name can be read off its call, since none has a quote mark, and no two temporary
tables of a plan have one name (`Run.plan_names_nodup`): those of statements are numbered while the
statements are composed, those of deletions when the plan is made.
-/

set_option autoImplicit false

namespace TraversalSql

/-! ## 1. Kinds of calls -/

/-- The first characters of the SQL that a call has carried out. -/
def DatabaseCall.verb : DatabaseCall → List Char
  | .query .. => []
  | .execute sql _ => sql.toList.take 2

namespace TemporaryTable

variable (t : TemporaryTable) (d : Dialect)

@[simp] theorem verb_creation : (t.creation d).verb = ['C', 'R'] := by
  unfold creation Dialect.createTemporary DatabaseCall.verb
  simp only [String.toList_append, List.append_assoc]
  simp

@[simp] theorem verb_insertion (v : Value) : (t.insertion d v).verb = ['I', 'N'] := by
  unfold insertion Dialect.insertTemporary DatabaseCall.verb
  simp only [String.toList_append, List.append_assoc]
  simp

@[simp] theorem verb_removal : (t.removal d).verb = ['D', 'R'] := by
  unfold removal Dialect.dropTemporary DatabaseCall.verb
  simp

variable {t d} {u : TemporaryTable} {v : Value}

theorem creation_ne_insertion : t.creation d ≠ u.insertion d v := by
  intro h
  have hverb := congrArg DatabaseCall.verb h
  simp at hverb

theorem creation_ne_removal : t.creation d ≠ u.removal d := by
  intro h
  have hverb := congrArg DatabaseCall.verb h
  simp at hverb

theorem insertion_ne_removal : t.insertion d v ≠ u.removal d := by
  intro h
  have hverb := congrArg DatabaseCall.verb h
  simp at hverb

end TemporaryTable

/-- No deletion is a call about a temporary table. -/
theorem DropTarget.notMem_deletions (t : DropTarget) (d : Dialect) {c : DatabaseCall}
    (h : c.verb ≠ ['D', 'E']) : c ∉ (t.deletes d).map fun sql => .execute sql [] := by
  intro hmem
  obtain ⟨sql, hsql, rfl⟩ := List.mem_map.mp hmem
  obtain ⟨del, _, rfl⟩ := List.mem_map.mp hsql
  refine h ?_
  unfold DropTarget.deletionSql DatabaseCall.verb
  simp only [String.toList_append, List.append_assoc]
  simp

/-! ## 2. Names in calls -/

/-- The name has no quote mark. -/
def Dialect.Unmarked (d : Dialect) (name : String) : Prop := d.quoteMark ∉ name.toList

instance (d : Dialect) (name : String) : Decidable (d.Unmarked name) :=
  inferInstanceAs (Decidable (d.quoteMark ∉ name.toList))

namespace Dialect

variable {d : Dialect} {name name' : String}

theorem Unmarked.toList_quote (h : d.Unmarked name) :
    (d.quote name).toList = d.quoteMark :: (name.toList ++ [d.quoteMark]) := by
  have hsame : name.toList.flatMap (fun c => if c = d.quoteMark then d.escapedMark else [c])
      = name.toList := by
    conv_rhs => rw [← List.flatMap_singleton' name.toList]
    refine List.flatMap_congr ?_
    intro c hc
    rw [if_neg]
    rintro rfl
    exact h hc
  simp [quote, Text.replaceChar, hsame]

/-- Where quoted names begin two equal texts, the names are equal, and so is what follows. -/
theorem Unmarked.quote_inj (h : d.Unmarked name) (h' : d.Unmarked name') {cs cs' : List Char}
    (heq : (d.quote name).toList ++ cs = (d.quote name').toList ++ cs') :
    name = name' ∧ cs = cs' := by
  simp only [h.toList_quote, h'.toList_quote, List.cons_append, List.append_assoc,
    List.nil_append] at heq
  have hcut := congrArg (Text.cutFirst d.quoteMark) (List.cons.inj heq).2
  rw [Text.cutFirst_eq_some_iff.mpr ⟨rfl, h⟩, Text.cutFirst_eq_some_iff.mpr ⟨rfl, h'⟩] at hcut
  obtain ⟨hname, hcs⟩ := Prod.mk.inj (Option.some.inj hcut)
  exact ⟨String.toList_injective hname, hcs⟩

/-- A number has no quote mark, whatever it stands behind. -/
theorem unmarked_append_toString {stem : String} (h : d.Unmarked stem) (n : Nat) :
    d.Unmarked (stem ++ toString n) := by
  rw [Unmarked, String.toList_append, List.mem_append, not_or]
  refine ⟨h, ?_⟩
  rw [Nat.toString_eq_ofList_toDigits, String.toList_ofList]
  intro hmem
  have hdigit := Nat.isDigit_of_mem_toDigits (by decide) (by decide) hmem
  revert hdigit
  cases d <;> decide

end Dialect

/-- Neither the table nor its column has a quote mark in its name. -/
structure TemporaryTable.Unmarked (d : Dialect) (t : TemporaryTable) : Prop where
  name : d.Unmarked t.name
  column : d.Unmarked t.column

namespace TemporaryTable.Unmarked

variable {d : Dialect} {t u : TemporaryTable}

/-- Tables that are created alike have one name and one column. -/
theorem creation_inj (h : t.Unmarked d) (h' : u.Unmarked d) (heq : t.creation d = u.creation d) :
    t.name = u.name ∧ t.column = u.column := by
  unfold creation Dialect.createTemporary at heq
  injection heq with hsql
  replace hsql := congrArg String.toList hsql
  simp only [String.toList_append, List.append_assoc] at hsql
  obtain ⟨hname, hrest⟩ := h.name.quote_inj h'.name (List.append_cancel_left hsql)
  exact ⟨hname, (h.column.quote_inj h'.column (List.append_cancel_left hrest)).1⟩

theorem insertion_inj (h : t.Unmarked d) (h' : u.Unmarked d) {v v' : Value}
    (heq : t.insertion d v = u.insertion d v') : t.name = u.name := by
  unfold insertion Dialect.insertTemporary at heq
  injection heq with hsql
  replace hsql := congrArg String.toList hsql
  simp only [String.toList_append, List.append_assoc] at hsql
  exact (h.name.quote_inj h'.name (List.append_cancel_left hsql)).1

theorem removal_inj (h : t.Unmarked d) (h' : u.Unmarked d) (heq : t.removal d = u.removal d) :
    t.name = u.name := by
  unfold removal Dialect.dropTemporary at heq
  injection heq with hsql
  replace hsql := congrArg String.toList hsql
  simp only [String.toList_append] at hsql
  have hquoted : (d.quote t.name).toList ++ [] = (d.quote u.name).toList ++ [] := by
    rw [List.append_cancel_left hsql]
  exact (h.name.quote_inj h'.name hquoted).1

end TemporaryTable.Unmarked

theorem BulkTable.unmarked (t : BulkTable) (d : Dialect) : t.temporary.Unmarked d where
  name := Dialect.unmarked_append_toString (by cases d <;> decide) t.number
  column := by
    show d.Unmarked t.kind.column
    cases t.kind <;> cases d <;> decide

theorem DropTarget.unmarked (t : DropTarget) (d : Dialect) : t.temporary.Unmarked d where
  name := Dialect.unmarked_append_toString (by cases d <;> decide) t.number
  column := by
    show d.Unmarked idColumn
    cases d <;> decide

theorem Plan.unmarked_of_mem {p : Plan} {t : TemporaryTable} (h : t ∈ p.temporaryTables)
    (d : Dialect) : t.Unmarked d := by
  rcases List.mem_append.mp h with h | h
  · obtain ⟨u, _, rfl⟩ := List.mem_map.mp h
    exact u.unmarked d
  · obtain ⟨u, _, rfl⟩ := List.mem_map.mp h
    exact u.unmarked d

/-! ## 3. Numbers -/

/-- On the way from one workspace to another the temporary tables got their numbers, in this
order. -/
structure Workspace.Numbers (w : Workspace) (tables : List BulkTable) (w' : Workspace) : Prop where
  numbered : tables.map BulkTable.number = List.range' (w.bulkTables + 1) tables.length
  counted : w'.bulkTables = w.bulkTables + tables.length

namespace Workspace.Numbers

variable {w w' w'' : Workspace} {ts us : List BulkTable}

theorem refl (w : Workspace) : w.Numbers [] w := ⟨rfl, rfl⟩

theorem trans (h : w.Numbers ts w') (h' : w'.Numbers us w'') : w.Numbers (ts ++ us) w'' where
  numbered := by
    have hus := h'.numbered
    rw [h.counted, Nat.add_right_comm] at hus
    rw [List.map_append, h.numbered, hus, List.length_append, List.range'_append_1]
  counted := by rw [h'.counted, h.counted, List.length_append, Nat.add_assoc]

end Workspace.Numbers

/-- The composition numbers the temporary tables that its result has besides those it had before. -/
def NumbersTables {α : Type} (before : List BulkTable) (m : Compose α)
    (tables : α → List BulkTable) : Prop :=
  ∀ w, Meets (fun _ => True) m w fun r w' => ∃ new, tables r = before ++ new ∧ w.Numbers new w'

namespace NumbersTables

variable {α β : Type} {ts : List BulkTable} {m : Compose α} {f : α → Compose β}
  {tables : α → List BulkTable} {tables' : β → List BulkTable}

theorem pure {v : α} (h : tables v = ts) : NumbersTables ts (Pure.pure v : Compose α) tables :=
  fun w => ⟨[], h.trans (List.append_nil ts).symm, .refl w⟩

theorem bind (hm : NumbersTables ts m tables)
    (hf : ∀ v, NumbersTables (tables v) (f v) tables') : NumbersTables ts (m >>= f) tables' := by
  intro w
  rw [meets_bind]
  refine (hm w).mono ?_
  rintro v w' ⟨new, hv, hnew⟩
  refine (hf v w').mono ?_
  rintro r w'' ⟨more, hr, hmore⟩
  refine ⟨new ++ more, ?_, hnew.trans hmore⟩
  rw [hr, hv, List.append_assoc]

/-- Tables that were there before do not matter. -/
theorem behind (h : NumbersTables [] m tables) (ts : List BulkTable) :
    NumbersTables ts m fun v => ts ++ tables v := by
  intro w
  refine (h w).mono ?_
  rintro r w' ⟨new, hr, hnew⟩
  exact ⟨new, congrArg (ts ++ ·) hr, hnew⟩

theorem lift (x : Except SqlError α) : NumbersTables ts (liftM x : Compose α) fun _ => ts := by
  intro w
  rw [meets_lift]
  exact fun _ _ => ⟨[], (List.append_nil ts).symm, .refl w⟩

theorem fail (e : SqlError) : NumbersTables ts (throw e : Compose α) tables := fun _ => trivial

/-- A composition that leaves the numbers as they are. -/
theorem of_keeps (h : ∀ w, Meets (fun _ => True) m w fun _ w' => w'.bulkTables = w.bulkTables) :
    NumbersTables ts m fun _ => ts := by
  intro w
  refine (h w).mono ?_
  intro _ w' hw'
  exact ⟨[], (List.append_nil ts).symm, rfl, hw'⟩

end NumbersTables

theorem want_numbers (id : Nat) (col : Column) (ts : List BulkTable) :
    NumbersTables ts (want id col) fun _ => ts := by
  refine .of_keeps ?_
  intro w
  simp only [want, meets_modify]
  split <;> rfl

theorem wantAll_numbers (xs : List NodeColumn) (ts : List BulkTable) :
    NumbersTables ts (wantAll xs) fun _ => ts := by
  induction xs with
  | nil => exact .pure rfl
  | cons x xs ih => exact (want_numbers x.1 x.2 ts).bind fun _ => ih

theorem nextSubSelect_numbers (ts : List BulkTable) :
    NumbersTables ts nextSubSelect fun _ => ts := .of_keeps fun _ => rfl

theorem nextBulkTable_numbers (kind : BulkKind) (vs : List Value) (ts : List BulkTable) :
    NumbersTables ts (nextBulkTable kind vs) fun t => ts ++ [t] :=
  fun _ => ⟨[_], rfl, rfl, rfl⟩

namespace Composer

variable (c : Composer) (ts : List BulkTable)

theorem addFilter_numbers (s : FlatSelect) (f : ColumnRef × Predicate) :
    NumbersTables s.bulkTables (c.addFilter s f) FlatSelect.bulkTables := by
  obtain ⟨column, p⟩ := f
  simp only [addFilter]
  cases p.bulk? c.settings.bulkThreshold with
  | some x =>
    obtain ⟨kind, vs⟩ := x
    refine (nextBulkTable_numbers kind vs s.bulkTables).bind fun t => .pure ?_
    simp [FlatSelect.bulkTables]
  | none => exact (NumbersTables.lift _).bind fun _ => .pure rfl

theorem addFilters_numbers (s : FlatSelect) (fs : List (ColumnRef × Predicate)) :
    NumbersTables s.bulkTables (c.addFilters s fs) FlatSelect.bulkTables := by
  induction fs generalizing s with
  | nil => exact .pure rfl
  | cons f fs ih => exact (c.addFilter_numbers s f).bind fun s' => ih s'

theorem flat_numbers (nodes : List Nat) (root : Option RootCondition)
    (columns : List NodeColumn) :
    NumbersTables [] (c.flat nodes root columns) FlatSelect.bulkTables := by
  cases nodes with
  | nil => exact .fail _
  | cons first rest =>
    refine (NumbersTables.lift _).bind fun keys => ?_
    refine (NumbersTables.lift _).bind fun source => ?_
    refine (NumbersTables.lift _).bind fun joins => ?_
    refine (NumbersTables.lift _).bind fun conditions => ?_
    refine (NumbersTables.lift _).bind fun filters => ?_
    exact c.addFilters_numbers _ filters

theorem subSelect_numbers (segment : List Nat) (root : Option RootCondition) :
    NumbersTables [] (c.subSelect segment root) fun sub => sub.body.bulkTables := by
  unfold subSelect
  have hget : NumbersTables [] (get : Compose Workspace) fun _ => [] := .of_keeps fun _ => rfl
  refine hget.bind fun w => ?_
  refine (c.flat_numbers segment root _).bind fun body => ?_
  exact (nextSubSelect_numbers body.bulkTables).bind fun k => .pure rfl

theorem wantCarried_numbers (segments : List (List Nat)) :
    NumbersTables ts (c.wantCarried segments) fun _ => ts := by
  induction segments with
  | nil => exact .pure rfl
  | cons a segments ih =>
    cases segments with
    | nil => exact .pure rfl
    | cons b rest =>
      unfold wantCarried
      split
      · refine (NumbersTables.lift _).bind fun columns => ?_
        refine (want_numbers _ columns.1 ts).bind fun _ => ?_
        exact (want_numbers _ columns.2 ts).bind fun _ => ih
      · exact ih

theorem linked_numbers (root : Option RootCondition) (left owner : Nat)
    (segments : List (List Nat)) :
    NumbersTables [] (c.linked root left owner segments)
      fun links => links.flatMap fun l => l.sub.body.bulkTables := by
  induction segments generalizing left owner with
  | nil => exact .pure rfl
  | cons segment rest ih =>
    unfold linked
    refine (c.subSelect_numbers segment root).bind fun sub => ?_
    refine (NumbersTables.lift _).bind fun ends => ?_
    refine (NumbersTables.lift _).bind fun columns => ?_
    refine (NumbersTables.lift _).bind fun l => ?_
    refine (NumbersTables.lift _).bind fun r => ?_
    exact ((ih _ _).behind sub.body.bulkTables).bind fun links => .pure rfl

theorem chained_numbers (segments : List (List Nat)) (outputs : List NodeColumn)
    (root : Option RootCondition) :
    NumbersTables [] (c.chained segments outputs root)
      fun r => (PathSelect.chained r.1).bulkTables := by
  cases segments with
  | nil => exact .fail _
  | cons segment rest =>
    refine (c.subSelect_numbers segment root).bind fun first => ?_
    refine (NumbersTables.lift _).bind fun ends => ?_
    refine ((c.linked_numbers root ends.2 first.number rest).behind first.body.bulkTables).bind
      fun links => ?_
    exact (NumbersTables.lift _).bind fun exported => .pure rfl

theorem segmented_numbers (segments : List (List Nat)) (outputs : List NodeColumn)
    (root : Option RootCondition) :
    NumbersTables [] (c.segmented segments outputs root) PathSelect.bulkTables := by
  unfold segmented
  split
  · exact (c.flat_numbers _ root outputs).bind fun body => .pure rfl
  · refine (c.wantCarried_numbers [] segments).bind fun _ => ?_
    exact (c.chained_numbers segments outputs root).bind fun r => .pure rfl

theorem branchPath_numbers (nodes : List Nat) (outputs : List NodeColumn) :
    NumbersTables [] (c.branchPath nodes outputs) PathSelect.bulkTables := by
  unfold branchPath
  refine (NumbersTables.lift _).bind fun segments => ?_
  split
  · exact (wantAll_numbers outputs []).bind fun _ => c.segmented_numbers segments outputs none
  · exact c.segmented_numbers segments outputs none

theorem branchLinks_numbers (frontier : Nat) (branches : List (List Nat)) :
    NumbersTables ts (c.branchLinks frontier branches) fun _ => ts := by
  induction branches with
  | nil => exact .pure rfl
  | cons branch rest ih =>
    unfold branchLinks
    refine (NumbersTables.lift _).bind fun ends => ?_
    refine (NumbersTables.lift _).bind fun columns => ?_
    refine (want_numbers frontier columns.1 ts).bind fun _ => ?_
    exact ih.bind fun links => .pure rfl

theorem absentBranches_numbers (frontier owner : Nat) (links : List BranchLink) :
    NumbersTables [] (c.absentBranches frontier owner links)
      fun branches => branches.flatMap fun b => b.body.bulkTables := by
  induction links with
  | nil => exact .pure rfl
  | cons link rest ih =>
    unfold absentBranches
    refine (c.branchPath_numbers link.nodes _).bind fun body => ?_
    refine (nextSubSelect_numbers body.bulkTables).bind fun number => ?_
    refine (NumbersTables.lift _).bind fun carried => ?_
    refine (NumbersTables.lift _).bind fun joined => ?_
    refine (NumbersTables.lift _).bind fun terminal => ?_
    exact (ih.behind body.bulkTables).bind fun branches => .pure rfl

theorem optional_numbers (stack : PathStack) (segments : List (List Nat))
    (outputs : List NodeColumn) (root : Option RootCondition) :
    NumbersTables [] (c.optional stack segments outputs root)
      fun r => r.1.bulkTables ++ r.2.flatMap fun b => b.body.bulkTables := by
  unfold optional
  split
  · exact .fail _
  · rename_i frontier _
    refine (c.branchLinks_numbers [] frontier stack.branches).bind fun links => ?_
    refine (c.wantCarried_numbers [] segments).bind fun _ => ?_
    refine (c.chained_numbers segments outputs root).bind fun ⟨main, numbers⟩ => ?_
    simp only
    split
    · exact .fail _
    · exact ((c.absentBranches_numbers frontier _ links).behind _).bind fun branches => .pure rfl

theorem stackSelect_numbers (stack : PathStack) :
    NumbersTables [] (c.stackSelect stack) fun r => r.1.bulkTables := by
  unfold stackSelect
  refine (NumbersTables.lift _).bind fun root => ?_
  refine (NumbersTables.lift _).bind fun path => ?_
  refine (NumbersTables.lift _).bind fun sort => ?_
  refine (wantAll_numbers _ []).bind fun _ => ?_
  refine (NumbersTables.lift _).bind fun segments => ?_
  split
  · refine (c.optional_numbers stack segments _ root.1).bind fun r => ?_
    exact (NumbersTables.lift _).bind fun orderBy => .pure rfl
  · refine (c.segmented_numbers segments _ root.1).bind fun body => ?_
    simp only [pure_bind]
    exact (NumbersTables.lift _).bind fun orderBy => .pure (List.append_nil _)

theorem statement_numbers (stack : PathStack) (strip : Bool) :
    NumbersTables [] (c.statement stack strip) Statement.bulkTables := by
  unfold statement
  refine (c.stackSelect_numbers stack).bind fun r => ?_
  exact (NumbersTables.lift _).bind fun root => .pure rfl

end Composer

/-- The temporary tables of a statement are numbered on from where its tree is told to. -/
theorem QueryTree.statement_numbers {t : QueryTree} {settings : Settings} {stack : PathStack}
    {strip : Bool} {b : Nat} {s : Statement} (h : t.statement settings b stack strip = .ok s) :
    s.bulkTables.map BulkTable.number = List.range' (b + 1) s.bulkTables.length := by
  obtain ⟨_, new, hnew, hnumbers⟩ := QueryTree.statement_meets
    (Composer.statement_numbers ⟨t, settings⟩ stack strip { bulkTables := b }) h
  rw [hnew]
  exact hnumbers.numbered

theorem statementsOf_numbers {settings : Settings} {strip : Bool}
    {queue : List (QueryTree × PathStack)} {b : Nat} {ss : List Statement}
    (h : statementsOf settings strip b queue = .ok ss) :
    (ss.flatMap Statement.bulkTables).map BulkTable.number
      = List.range' (b + 1) (ss.flatMap Statement.bulkTables).length := by
  induction queue generalizing b ss with
  | nil =>
    cases h
    rfl
  | cons x queue ih =>
    obtain ⟨s, hs, h⟩ := bind_ok h
    obtain ⟨rest, hrest, h⟩ := bind_ok h
    cases h
    rw [List.flatMap_cons, List.map_append, QueryTree.statement_numbers hs, ih hrest,
      List.length_append, Nat.add_right_comm, List.range'_append_1]

theorem BulkTable.names_nodup {ts : List BulkTable} (h : (ts.map BulkTable.number).Nodup) :
    (ts.map (TemporaryTable.name ∘ BulkTable.temporary)).Nodup := by
  have hnames := h.map (append_toString_injective "bulk_")
  rwa [List.map_map] at hnames

theorem DropTarget.names_nodup {ts : List DropTarget} (h : (ts.map DropTarget.number).Nodup) :
    (ts.map (TemporaryTable.name ∘ DropTarget.temporary)).Nodup := by
  have hnames := h.map (append_toString_injective "drop_")
  rwa [List.map_map] at hnames

theorem dropTargets_numbers (T : Topology) (n : Nat) (tables : List Table) :
    ((dropTargets T n tables).map DropTarget.number).Nodup := by
  rw [dropTargets, List.map_map]
  have hnumbers : (DropTarget.number ∘ fun x : Table × Nat =>
      ({ number := n + x.2 + 1, table := x.1, deletions := deletionsFor T x.1 } : DropTarget))
        = (fun i => n + i + 1) ∘ Prod.snd := rfl
  rw [hnumbers, ← List.map_map, List.zipIdx_map_snd]
  refine List.Nodup.map ?_ (List.nodup_range' 1)
  intro i j hij
  exact Nat.add_left_cancel (Nat.succ.inj hij)

/-- The temporary tables of a plan have different names. -/
theorem Run.plan_names_nodup {settings : Settings} {T : Topology} {n : Numbering} {run : Run}
    {plan : Plan} (h : run.plan settings T n = .ok plan) :
    (plan.temporaryTables.map TemporaryTable.name).Nodup := by
  obtain ⟨trees, _, h⟩ := bind_ok h
  obtain ⟨queue, _, h⟩ := bind_ok h
  obtain ⟨ss, hss, h⟩ := bind_ok h
  cases h
  rw [Plan.temporaryTables, List.map_append, List.map_map, List.map_map]
  refine List.Nodup.append (BulkTable.names_nodup ?_) (DropTarget.names_nodup ?_) ?_
  · rw [Plan.bulkTables, statementsOf_numbers hss]
    exact List.nodup_range' 1
  · simp only
    split
    · exact dropTargets_numbers ..
    · exact .nil
  · intro name hbulk hdrop
    obtain ⟨t, _, rfl⟩ := List.mem_map.mp hbulk
    obtain ⟨u, _, heq⟩ := List.mem_map.mp hdrop
    have hfirst := congrArg (fun name : String => name.toList.head?) heq
    simp [BulkTable.temporary, BulkTable.name, DropTarget.temporary, DropTarget.idTable] at hfirst

/-- No two temporary tables of a plan are created alike. -/
theorem Run.plan_creations_nodup {settings : Settings} {T : Topology} {n : Numbering} {run : Run}
    {plan : Plan} (h : run.plan settings T n = .ok plan) (d : Dialect) :
    (plan.temporaryTables.map fun t => t.creation d).Nodup := by
  have hnames := Run.plan_names_nodup h
  rw [List.Nodup, List.pairwise_map] at hnames ⊢
  refine hnames.imp_of_mem ?_
  intro t u ht hu hne heq
  exact hne ((Plan.unmarked_of_mem ht d).creation_inj (Plan.unmarked_of_mem hu d) heq).1

end TraversalSql
