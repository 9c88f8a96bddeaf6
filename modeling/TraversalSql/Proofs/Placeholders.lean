import Mathlib.Algebra.GroupWithZero.Nat
import TraversalSql.Proofs.Wording

/-!
# Placeholders and parameters

The text of a statement has a question mark for each parameter. That nothing else in it is a
question mark rests on two facts: literals never become text, and what does become text are words
of SQL, numbers, and names of the schema, which are identifiers. The id of the root is compared
with the column of one node, and each node is read in one select, so it is a parameter once.
-/

set_option autoImplicit false

namespace TraversalSql

/-! ## 1. Texts without a question mark -/

/-- The text has no question mark. -/
def Plain (s : String) : Prop := '?' ∉ s.toList

instance (s : String) : Decidable (Plain s) := inferInstanceAs (Decidable (¬ _))

@[simp] theorem plain_append {s t : String} : Plain (s ++ t) ↔ Plain s ∧ Plain t := by
  simp [Plain]

theorem IsName.plain {s : String} (h : IsName s) : Plain s := h.notMem (by decide)

theorem plain_toString (n : Nat) : Plain (toString n) := (isName_toString n).plain

theorem wording_plain : Wording Plain := ⟨fun hs ht => plain_append.mpr ⟨hs, ht⟩, by decide⟩

namespace Dialect

variable (d : Dialect)

theorem plain_sliceClause (s : Option Slice) : Plain ((s.bind d.sliceClause?).getD "") :=
  d.sliceClause_of (fun hs ht => plain_append.mpr ⟨hs, ht⟩) (by decide) plain_toString s

end Dialect

/-! ## 2. Fragments -/

/-- Question marks in the SQL stand for parameters only, of which `n` are the id of the root. -/
structure Fragment.Binds (n : Nat) (f : Fragment) : Prop where
  plain : ∀ s, .text s ∈ f → Plain s
  roots : f.parameters.count .rootId = n

namespace Fragment

variable {f g : Fragment} {m n : Nat}

theorem binds_nil : Binds 0 [] := ⟨nofun, rfl⟩

theorem binds_text {s : String} (h : Plain s) : Binds 0 [.text s] := by
  refine ⟨?_, rfl⟩
  intro t ht
  cases List.mem_singleton.mp ht
  exact h

theorem binds_rootId : Binds 1 [.param .rootId] := by
  refine ⟨?_, rfl⟩
  intro t ht
  cases List.mem_singleton.mp ht

theorem Binds.append (hf : Binds m f) (hg : Binds n g) : Binds (m + n) (f ++ g) := by
  constructor
  · intro s hs
    rcases List.mem_append.mp hs with hs | hs
    · exact hf.plain s hs
    · exact hg.plain s hs
  · rw [parameters_append, List.count_append, hf.roots, hg.roots]

theorem Binds.text_cons {s : String} (h : Plain s) (hf : Binds n f) : Binds n (.text s :: f) := by
  have hcons := (binds_text h).append hf
  rwa [Nat.zero_add] at hcons

theorem Binds.text_snoc {s : String} (hf : Binds n f) (h : Plain s) :
    Binds n (f ++ [.text s]) :=
  hf.append (binds_text h)

section Lists

variable {α : Type} {weight : α → Nat} {part : α → Fragment}

theorem binds_flatMap : ∀ {l : List α}, (∀ a ∈ l, Binds (weight a) (part a)) →
    Binds (l.map weight).sum (l.flatMap part) := by
  intro l
  induction l with
  | nil => exact fun _ => binds_nil
  | cons a l ih =>
    intro h
    rw [List.map_cons, List.sum_cons, List.flatMap_cons]
    exact (h a List.mem_cons_self).append (ih fun b hb => h b (List.mem_cons_of_mem _ hb))

theorem binds_joined {sep : String} (hsep : Plain sep) : ∀ {l : List α},
    (∀ a ∈ l, Binds (weight a) (part a)) → Binds (l.map weight).sum (joined sep (l.map part)) := by
  intro l
  induction l with
  | nil => exact fun _ => binds_nil
  | cons a l ih =>
    intro h
    have ha := h a List.mem_cons_self
    have hl := ih fun b hb => h b (List.mem_cons_of_mem _ hb)
    cases l with
    | nil => exact ha
    | cons b l =>
      rw [List.map_cons, List.sum_cons]
      exact (ha.text_snoc hsep).append hl

end Lists

/-- There is a question mark for each parameter. -/
theorem Binds.count_sql (hf : Binds n f) : f.sql.toList.count '?' = f.parameters.length := by
  have hplain := hf.plain
  clear hf
  induction f with
  | nil => rfl
  | cons p f ih =>
    have htail := ih fun s hs => hplain s (List.mem_cons_of_mem _ hs)
    rw [sql_cons, String.toList_append, List.count_append, htail]
    cases p with
    | text s =>
      have hs : s.toList.count '?' = 0 := List.count_eq_zero.mpr (hplain s List.mem_cons_self)
      rw [Piece.sql, hs, Nat.zero_add]
      rfl
    | param q =>
      have hmark : (Piece.param q).sql.toList.count '?' = 1 := by
        rw [Piece.sql]
        decide
      rw [hmark, Nat.add_comm]
      rfl

end Fragment

/-- Conditions never compare with the id of the root. -/
theorem Fragment.Worded.binds {f : Fragment} (h : f.Worded Plain) : f.Binds 0 := by
  constructor
  · intro s hs
    obtain ⟨t, ht, hplain⟩ | ⟨v, hv⟩ := h _ hs
    · cases ht
      exact hplain
    · cases hv
  · refine List.count_eq_zero.mpr ?_
    intro hroot
    obtain ⟨piece, hpiece, hparameter⟩ := List.mem_filterMap.mp hroot
    obtain ⟨s, rfl, _⟩ | ⟨v, rfl⟩ := h piece hpiece <;> cases hparameter

/-! ## 3. The text of a select -/

def Condition.rootIds : Condition → Nat
  | rootId _ => 1
  | filter .. | unlisted _ => 0

/-- How often a select compares a column with the id of the root. -/
def FlatSelect.rootIds (s : FlatSelect) : Nat := (s.conditions.map Condition.rootIds).sum

def PathSelect.rootIds : PathSelect → Nat
  | flat s => s.rootIds
  | chained s => (s.subs.map fun sub => sub.body.rootIds).sum

def Select.rootIds (s : Select) : Nat :=
  s.body.rootIds + (s.absences.map fun b => b.body.rootIds).sum

namespace SqlWriter

open Fragment

variable {w : SqlWriter}

theorem plain_aliasText (k : AliasKey) : Plain (w.aliasText k) := (isName_aliasText k).plain

theorem plain_subSelectName (number : Nat) : Plain (w.dialect.quote (subSelectName number)) :=
  (w.dialect.isName_quote (isName_subSelectName number)).plain

theorem plain_exported (owner : Nat) (k : AliasKey) : Plain (w.exported owner k) :=
  (isName_exported owner k).plain

theorem plain_bulk (bulk : BulkTable) :
    Plain (w.dialect.quote bulk.name) ∧ Plain (bulk.columnRef w.dialect) :=
  ⟨(isName_bulk bulk).1.plain, (isName_bulk bulk).2.plain⟩

theorem binds_named {join : String} (hjoin : Plain join) (number : Nat) {body : Fragment} {n : Nat}
    (hbody : Binds n body) : Binds n (w.named join number body) := by
  refine (hbody.text_cons ?_).text_snoc ?_
  · simp only [plain_append, hjoin, true_and]
    decide
  · simp only [plain_append, plain_subSelectName, and_true]
    decide

section Scoped

variable {T : Topology} (hT : T.Named) (hc : T.Consistent)
include hT

theorem plain_table {t : Table} (h : ∃ ps, T.properties? t = some ps) :
    Plain (w.dialect.table t) :=
  (hT.isName_table h _).plain

include hc

theorem plain_column {r : ColumnRef} {tables : List Table} (h : r.In T tables) :
    Plain (r.sql w.dialect) :=
  (hT.isName_column hc h _).plain

theorem plain_selected {k : AliasKey} {tables : List Table} (h : k.ref.In T tables) :
    Plain (w.selected k) := by
  simp only [selected, plain_append, plain_column hT hc h, plain_aliasText, true_and, and_true]
  decide

theorem plain_tableJoins : ∀ {joins : List TableJoin} {seen : List Table},
    JoinsScoped T seen joins → (∀ j ∈ joins, ∃ ps, T.properties? j.table = some ps) →
    ∀ j ∈ joins, Plain (w.tableJoin j) := by
  intro joins
  induction joins with
  | nil => exact fun _ _ => List.forall_mem_nil _
  | cons j joins ih =>
    intro seen ⟨hleft, hright, hrest⟩ hknown
    refine List.forall_mem_cons.mpr ⟨?_, ih hrest fun j hj => hknown j (List.mem_cons_of_mem _ hj)⟩
    unfold tableJoin
    simp only [plain_append, plain_table hT (hknown j List.mem_cons_self),
      plain_column hT hc hleft, plain_column hT hc hright, and_true]
    decide

theorem plain_bulkJoin {j : BulkJoin} {tables : List Table} (h : j.column.In T tables) :
    Plain (w.bulkJoin j) := by
  obtain ⟨hname, href⟩ := w.plain_bulk j.bulk
  unfold bulkJoin
  cases j.bulk.kind <;>
    simp only [plain_append, hname, href, plain_column hT hc h, and_true] <;> decide

theorem binds_condition {s : FlatSelect} {x : Condition} (h : s.Allows T w.dialect x) :
    Binds x.rootIds (w.condition x) := by
  cases x with
  | rootId r =>
    refine binds_rootId.text_cons ?_
    simp only [plain_append, plain_column hT hc h, true_and]
    decide
  | filter r sql =>
    obtain ⟨hin, p, hp⟩ := h
    exact (wording_plain.condition (plain_column hT hc hin) p hp).binds
  | unlisted bulk =>
    refine binds_text ?_
    simp only [plain_append, (w.plain_bulk bulk).2, true_and]
    decide

theorem binds_flat {s : FlatSelect} (h : s.Scoped T w.dialect) : Binds s.rootIds (w.flat s) := by
  have hconditions : Binds s.rootIds (w.conditions s.conditions) := by
    unfold conditions FlatSelect.rootIds
    split
    · rename_i hempty
      rw [List.isEmpty_iff.mp hempty]
      exact binds_nil
    · refine (binds_joined (by decide) ?_).text_cons (by decide)
      intro x hx
      exact binds_condition hT hc (h.conditions x hx)
  refine hconditions.text_cons ?_
  have hcolumns : Plain (Text.joined ", " ((distinctOn id [] s.columns).map w.selected)) := by
    refine wording_plain.joined (by decide) ?_
    intro t ht
    obtain ⟨k, hk, rfl⟩ := List.mem_map.mp ht
    exact plain_selected hT hc (h.columns k (mem_of_mem_distinctOn hk))
  have hjoins : Plain (String.join (s.joins.map w.tableJoin)) := by
    refine wording_plain.join ?_
    intro t ht
    obtain ⟨j, hj, rfl⟩ := List.mem_map.mp ht
    refine plain_tableJoins hT hc h.joins ?_ j hj
    intro j hj
    exact h.known _ (List.mem_cons_of_mem _ (List.mem_map_of_mem hj))
  have hbulk : Plain (String.join (s.bulkJoins.map w.bulkJoin)) := by
    refine wording_plain.join ?_
    intro t ht
    obtain ⟨j, hj, rfl⟩ := List.mem_map.mp ht
    exact plain_bulkJoin hT hc (h.bulkJoins j hj)
  simp only [plain_append, hcolumns, hjoins, hbulk, and_true,
    plain_table hT (h.known _ List.mem_cons_self)]
  decide

theorem binds_linked {l : LinkedSelect} (h : l.sub.body.Scoped T w.dialect) :
    Binds l.sub.body.rootIds (w.linked l) := by
  refine (binds_named (by decide) _ (binds_flat hT hc h)).text_snoc ?_
  simp only [plain_append, plain_exported, and_true]
  decide

theorem binds_chained {s : ChainedSelect} (h : s.Scoped T w.dialect) :
    Binds (s.subs.map fun sub => sub.body.rootIds).sum (w.chained s) := by
  have hfirst := binds_flat hT hc (h.subs s.first List.mem_cons_self)
  have hrest : Binds (s.rest.map fun l => l.sub.body.rootIds).sum (s.rest.flatMap w.linked) := by
    refine binds_flatMap ?_
    intro l hl
    exact binds_linked hT hc (h.subs _ (List.mem_cons_of_mem _ (List.mem_map_of_mem hl)))
  have houtputs : Plain (Text.joined ", " (s.outputs.map w.exportedAs)) := by
    refine wording_plain.joined (by decide) ?_
    intro t ht
    obtain ⟨e, _, rfl⟩ := List.mem_map.mp ht
    simp only [exportedAs, plain_append, plain_exported, plain_aliasText, and_true, true_and]
    decide
  rw [ChainedSelect.subs, List.map_cons, List.sum_cons, List.map_map]
  refine Binds.append (Binds.text_cons ?_ (binds_named (by decide) _ hfirst)) hrest
  simp only [plain_append, houtputs, and_true]
  decide

theorem binds_path {p : PathSelect} (h : p.Scoped T w.dialect) : Binds p.rootIds (w.path p) := by
  cases p with
  | flat s => exact binds_flat hT hc h
  | chained s => exact binds_chained hT hc h

theorem binds_absences {bs : List AbsentBranch}
    (h : ∀ b ∈ bs, b.body.Scoped T w.dialect) :
    Binds (bs.map fun b => b.body.rootIds).sum (w.absences bs) := by
  unfold absences
  split
  · rename_i hempty
    rw [List.isEmpty_iff.mp hempty]
    exact binds_nil
  · refine (binds_flatMap ?_).text_snoc ?_
    · intro b hb
      refine (binds_named (by decide) _ (binds_path hT hc (h b hb))).text_snoc ?_
      simp only [plain_append, plain_exported, and_true]
      decide
    · refine plain_append.mpr ⟨by decide, wording_plain.joined (by decide) ?_⟩
      intro t ht
      obtain ⟨b, _, rfl⟩ := List.mem_map.mp ht
      simp only [absentTest, plain_append, plain_exported, and_true]
      decide

/-- **The text of a select.** Where its references are in scope, its only question marks are those
of its parameters. -/
theorem binds_select {s : Select} (h : s.Scoped T w.dialect) : Binds s.rootIds (w.select s) := by
  have horder : Plain (w.orderBy s.orderBy) := by
    unfold orderBy
    split
    · decide
    · refine plain_append.mpr ⟨by decide, wording_plain.joined (by decide) ?_⟩
      intro t ht
      obtain ⟨⟨k, direction⟩, _, rfl⟩ := List.mem_map.mp ht
      have hword : Plain direction.keyword := by cases direction <;> decide
      simp only [plain_append, plain_aliasText, hword, and_true, true_and]
      decide
  refine ((binds_path hT hc h.body).append ?_).text_snoc ?_
  · exact binds_absences hT hc fun b hb => (h.absences b hb).body
  · exact plain_append.mpr ⟨horder, w.dialect.plain_sliceClause s.slice⟩

end Scoped

end SqlWriter

/-! ## 4. The id of the root -/

namespace Composer

variable {c : Composer} {T : Topology} {nodes active : List Nat}
  {columns outputs wanted : List NodeColumn} {root : Option RootCondition}

/-- How often the node that is compared with the id of the root is among the nodes. -/
def rootsIn (root : Option RootCondition) (nodes : List Nat) : Nat :=
  match root with
  | none => 0
  | some r => nodes.count r.node

theorem IsFlat.rootIds {s : FlatSelect} (h : c.IsFlat T root nodes columns s) :
    s.rootIds = rootsIn root nodes := by
  obtain ⟨more, hmore, hfilters⟩ := h.conditions
  have hnone : (more.map Condition.rootIds).sum = 0 := by
    refine List.sum_eq_zero_iff_forall_eq_nat.mpr ?_
    intro n hn
    obtain ⟨x, hx, rfl⟩ := List.mem_map.mp hn
    cases hfilters x hx with
    | inline _ _ => rfl
    | unlisted _ => rfl
  rw [FlatSelect.rootIds, hmore, List.map_append, List.sum_append, hnone, Nat.add_zero]
  cases root with
  | none => rfl
  | some r =>
    simp only [rootAt, rootsIn]
    split
    · rename_i hr
      rw [List.count_eq_one_of_mem h.segment.nodup.of_map (List.contains_iff_mem.mp hr)]
      rfl
    · rename_i hr
      rw [List.count_eq_zero.mpr fun hmem => hr (List.contains_iff_mem.mpr hmem)]
      rfl

theorem rootsIn_append (l l' : List Nat) :
    rootsIn root (l ++ l') = rootsIn root l + rootsIn root l' := by
  cases root with
  | none => rfl
  | some r => exact List.count_append

/-- Each segment has its own share of the root condition. -/
theorem rootIds_subs {segments : List (List Nat)} {subs : List SubSelect}
    (h : List.Forall₂ (c.IsSub T root wanted) segments subs) :
    (subs.map fun sub => sub.body.rootIds).sum = rootsIn root segments.flatten := by
  induction h with
  | nil => cases root <;> rfl
  | cons hsub _ ih =>
    obtain ⟨columns, hflat, _⟩ := hsub
    rw [List.map_cons, List.sum_cons, List.flatten_cons, rootsIn_append, hflat.rootIds, ih]

theorem IsPath.rootIds {p : PathSelect} (h : c.IsPath T root nodes outputs p) :
    p.rootIds = rootsIn root nodes := by
  cases h with
  | flat hflat => exact hflat.rootIds
  | chained _ hcut _ hchained =>
    rw [← hcut.flatten]
    exact rootIds_subs hchained.subs

/-- The node that is compared with the id of the root is read once. -/
theorem IsRooted.rootsIn_eq (h : c.IsRooted T nodes root active) (hw : c.tree.WellFormed) :
    rootsIn root active = if c.tree.binding.isBound then 1 else 0 := by
  cases hbound : c.tree.binding.isBound with
  | true =>
    obtain ⟨r, rfl, hr⟩ := h.bound hbound
    exact List.count_eq_one_of_mem (h.route.down.nodup hw) hr
  | false =>
    rw [h.free hbound]
    rfl

theorem IsStatement.rootIds {stack : PathStack} {sort : List (NodeColumn × SortDirection)}
    {s : Statement} (h : c.IsStatement T stack root active outputs sort s)
    (hw : c.tree.WellFormed) : s.select.rootIds = if s.rootBinding.isBound then 1 else 0 := by
  -- branches that must come back empty are not bound to a root
  have habsences : (s.select.absences.map fun b => b.body.rootIds).sum = 0 := by
    refine List.sum_eq_zero_iff_forall_eq_nat.mpr ?_
    intro n hn
    obtain ⟨b, hb, rfl⟩ := List.mem_map.mp hn
    obtain ⟨_, _, _, _, habsent, _⟩ := h.select.absences b hb
    exact habsent.body.rootIds
  rw [Select.rootIds, habsences, Nat.add_zero, h.select.body.rootIds, h.select.rooted.rootsIn_eq hw,
    h.rootBinding]

end Composer

/-! ## 5. Statements -/

/-- The value of a parameter, for an execution with a root id. -/
def Parameter.given (id : Int64) : Parameter → Value
  | rootId => .int id
  | value v => v

namespace Statement

variable {s : Statement}

theorem bind_some (id : Int64) :
    s.bind (some id) = .ok (s.parameters.map (Parameter.given id)) := by
  refine mapM_ok fun p _ => ?_
  cases p <;> rfl

/-- Without a root id, a statement fails if it asks for one. -/
theorem bind_none_iff : (∃ e, s.bind none = .error e) ↔ Parameter.rootId ∈ s.parameters := by
  constructor
  · intro ⟨e, he⟩
    obtain ⟨p, hp, herror⟩ := mapM_error he
    cases p with
    | rootId => exact hp
    | value v => cases herror
  · intro hmem
    cases hbind : s.bind none with
    | error e => exact ⟨e, rfl⟩
    | ok vs =>
      obtain ⟨_, _, hv⟩ := exists_of_mem_left (forall₂_of_mapM hbind) hmem
      cases hv

/-- The text and the parameters of a statement fit together. -/
structure InStep (s : Statement) : Prop where
  marks : s.sql.toList.count '?' = s.parameters.length
  rootIds : s.parameters.count .rootId = if s.rootBinding.isBound then 1 else 0
  bound : ∀ id, ∃ vs, s.bind (some id) = .ok vs ∧ vs.length = s.sql.toList.count '?'
  unbound : (∃ e, s.bind none = .error e) ↔ s.rootBinding.isBound = true

end Statement

theorem Fragment.Binds.inStep {s : Statement}
    (h : s.fragment.Binds (if s.rootBinding.isBound then 1 else 0)) : s.InStep := by
  have hmarks : s.sql.toList.count '?' = s.parameters.length := h.count_sql
  refine ⟨hmarks, h.roots, ?_, ?_⟩
  · intro id
    refine ⟨_, s.bind_some id, ?_⟩
    rw [hmarks, List.length_map]
  · have hroots : s.parameters.count .rootId = if s.rootBinding.isBound then 1 else 0 := h.roots
    rw [Statement.bind_none_iff, ← List.count_pos_iff, hroots]
    cases s.rootBinding.isBound <;> decide

/-- **Placeholders and parameters stay in step.** With names from a description that was accepted,
every statement has a question mark for each parameter, and asks for a root id just when its root
is bound to one. -/
theorem Run.statements_inStep {d : SchemaDescription} {T : Topology} (hd : d.topology = .ok T)
    (settings : Settings) (n : Numbering) (run : Run) {plan : Plan}
    (hok : run.plan settings T n = .ok plan) : ∀ s ∈ plan.statements, s.InStep := by
  obtain ⟨hbuilt, hnamed⟩ := SchemaDescription.topology_named hd
  intro s hs
  obtain ⟨i, hi, rfl⟩ := List.getElem_of_mem hs
  obtain ⟨_, _, _, _, _, _, _, _, _, _, _, _, _, _, hsound, hstatement⟩ :=
    statement_of_plan hbuilt.consistent hok (List.getElem?_eq_getElem hi)
  have hscoped := (hstatement.scoped hsound).select
  refine Fragment.Binds.inStep ?_
  rw [← hstatement.rootIds hsound.wellFormed]
  exact SqlWriter.binds_select hnamed hbuilt.consistent hscoped

namespace People

def description : SchemaDescription :=
  ⟨"public", [⟨"Person", none, ∅⟩], [⟨"knows", none, ∅, [("Person", "Person")]⟩]⟩

theorem described : description.topology = .ok topology := rfl

/-- Those whom someone given knows, but for the first of all. -/
def others : Run :=
  ⟨[{ kind := .incomingRoot .vertex, depth := 0 },
    { friends true with idPredicates := [.compare .neq (.int 1)] }]⟩

/-- The other friends take a root id and a literal; for those who have none, too, the id of the
root comes first. -/
theorem inStep_others : ∃ plan, others.plan {} topology {} = .ok plan ∧
    plan.statements.map Statement.parameters
      = [[.rootId, .value (.int 1)], [.rootId, .value (.int 1)]] ∧
    ∀ s ∈ plan.statements, s.InStep := by
  have hparameters : (others.plan {} topology {}).toOption.map
      (fun plan => plan.statements.map Statement.parameters)
        = some [[.rootId, .value (.int 1)], [.rootId, .value (.int 1)]] := by decide +kernel
  cases hplan : others.plan {} topology {} with
  | error e =>
    rw [hplan] at hparameters
    cases hparameters
  | ok plan =>
    rw [hplan] at hparameters
    exact ⟨plan, rfl, Option.some.inj hparameters,
      Run.statements_inStep described {} {} others hplan⟩

end People

end TraversalSql
