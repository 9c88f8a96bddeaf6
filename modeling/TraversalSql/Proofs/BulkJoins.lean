import TraversalSql.Proofs.Doubles
import TraversalSql.Proofs.Memberships

/-!
# Membership tests through temporary tables

Whether a membership test is written into a statement or goes through a temporary table depends on
the length of its list alone, so the two ways should keep the same rows. This file says which rows
the joined table keeps, and how often, beside what the written condition says of them.

They agree for a listed value and for a value that is not listed, but not everywhere. A test for
values that are *not* listed keeps a row also where the condition is unknown, that is where the
column is null, or where a null is listed (`Composer.addFilter_without`). A test for listed values
repeats a row where two integers of the list are so large that a double in the column equals both
(`Composer.addFilter_within`).
-/

set_option autoImplicit false

namespace TraversalSql

/-! ## 1. Joined rows -/

/-- The values of the temporary table that equal the value of the column. -/
def BulkJoin.matching (j : BulkJoin) (x : Value) : List Value :=
  j.bulk.values.filter fun v => x.equals v == some true

namespace SqlWriter

variable (w : SqlWriter) (j : BulkJoin) (x : Value)

/-- What the join, as it is written, sets beside a row whose column has the value `x`, once for each
row that comes of it. A left join sets a null where nothing matches. -/
def cells? : Option (List Value) :=
  let on := w.dialect.quote j.bulk.name ++ " ON " ++ j.column.sql w.dialect ++ " = "
    ++ j.bulk.columnRef w.dialect
  if w.bulkJoin j = " INNER JOIN " ++ on then some (j.matching x)
  else if w.bulkJoin j = " LEFT JOIN " ++ on then
    some (if j.matching x = [] then [.null] else j.matching x)
  else none

/-- How often a row whose column has the value `x` is kept by the join and the conditions, as they
are written: all that comes of the join, or what has a null beside it. -/
def kept? (conditions : List Condition) : Option Nat :=
  let tests := conditions.map w.condition
  if tests = [] then (w.cells? j x).map List.length
  else if tests = [[.text (j.bulk.columnRef w.dialect ++ " IS NULL")]] then
    (w.cells? j x).map (List.countP Value.isNull)
  else none

end SqlWriter

namespace Predicate

theorem bulk?_eq {p : Predicate} {kind : BulkKind} {vs : List Value}
    (h : p.membership? = some (kind, vs)) (threshold : Nat) :
    p.bulk? threshold = if threshold < (Value.distinct vs).length
      then some (kind, Value.distinct vs) else none := by
  rw [bulk?, h]
  rfl

end Predicate

/-- The conditions that a joined temporary table brings along. -/
def BulkTable.conditions (t : BulkTable) : List Condition :=
  match t.kind with
  | .within => []
  | .without => [.unlisted t]

theorem Composer.addFilter_bulk (c : Composer) (s : FlatSelect) (column : ColumnRef) {p : Predicate}
    {kind : BulkKind} {vs : List Value} (h : p.bulk? c.settings.bulkThreshold = some (kind, vs))
    (w : Workspace) : ∃ bulk w', bulk.kind = kind ∧ bulk.values = vs ∧
      (c.addFilter s (column, p)).run w = .ok ({ s with
        bulkJoins := s.bulkJoins ++ [⟨bulk, column⟩]
        conditions := s.conditions ++ bulk.conditions }, w') := by
  refine ⟨⟨w.bulkTables + 1, kind, vs⟩, { w with bulkTables := w.bulkTables + 1 }, rfl, rfl, ?_⟩
  simp only [addFilter, h]
  cases kind <;> rfl

namespace Value

variable {x v : Value} {vs : List Value}

@[simp] theorem equals_stored : x.equals v.stored = x.equals v := by
  unfold equals
  cases v <;> rfl

/-- What equals a value of a list equals one of the distinct values. -/
theorem exists_equals_distinct (h : ∀ v ∈ vs, v.isFloat = false) :
    (∃ v ∈ distinct vs, x.equals v = some true) ↔ ∃ v ∈ vs, x.equals v = some true := by
  simp only [(distinct_spec h).1, List.mem_map]
  constructor
  · rintro ⟨_, ⟨v, hv, rfl⟩, heq⟩
    exact ⟨v, hv, equals_stored ▸ heq⟩
  · rintro ⟨v, hv, heq⟩
    exact ⟨v.stored, ⟨v, hv, rfl⟩, equals_stored.trans heq⟩

end Value

namespace BulkJoin

variable {j : BulkJoin} {x : Value}

theorem mem_matching {v : Value} :
    v ∈ j.matching x ↔ v ∈ j.bulk.values ∧ x.equals v = some true := by
  rw [matching, List.mem_filter, beq_iff_eq]

/-- Nothing matches a value that is not in the list the table was made from. -/
theorem matching_eq_nil_iff {vs : List Value} (hfree : ∀ v ∈ vs, v.isFloat = false)
    (hvalues : j.bulk.values = Value.distinct vs) :
    j.matching x = [] ↔ ¬ ∃ v ∈ vs, x.equals v = some true := by
  rw [← Value.exists_equals_distinct hfree, ← hvalues]
  simp [matching, List.filter_eq_nil_iff]

/-- A listed value is no null. -/
theorem isNull_of_mem_matching {v : Value} (h : v ∈ j.matching x) : v.isNull = false := by
  have heq := (mem_matching.mp h).2
  cases v with
  | null => rw [Value.equals_eq_none_iff.mpr (Or.inr rfl)] at heq; cases heq
  | _ => rfl

end BulkJoin

namespace SqlWriter

variable {w : SqlWriter} {j : BulkJoin} {x : Value}

theorem kept?_within (h : j.bulk.kind = .within) :
    w.kept? j x j.bulk.conditions = some (j.matching x).length := by
  unfold kept? cells? BulkTable.conditions bulkJoin
  rw [h]
  simp [String.append_assoc]

/-- A join that keeps what is not listed keeps a row once, or not at all. -/
theorem kept?_without (h : j.bulk.kind = .without) :
    w.kept? j x j.bulk.conditions = some (if j.matching x = [] then 1 else 0) := by
  have hcells : w.cells? j x = some (if j.matching x = [] then [.null] else j.matching x) := by
    unfold cells? bulkJoin
    rw [h]
    simp [String.append_assoc]
  unfold kept? BulkTable.conditions
  rw [h, hcells]
  by_cases hnil : j.matching x = []
  · simp [hnil, condition, Value.isNull]
  · have hnone : (j.matching x).countP Value.isNull = 0 := by
      rw [List.countP_eq_zero]
      intro v hv
      simp [BulkJoin.isNull_of_mem_matching hv]
    simp [hnil, condition, hnone]

end SqlWriter

/-! ## 2. Values that are not listed -/

/-- **Rows that a test for other values keeps.** Through a temporary table, a row is kept once
unless the condition that would be written instead is false. So a row is kept, against the
condition, where it is unknown: where the column is null, and where a null is listed and the value
of the column is not. -/
theorem Composer.addFilter_without (c : Composer) (s : FlatSelect) (column : ColumnRef)
    {vs : List Value} (hfree : ∀ v ∈ vs, v.isFloat = false)
    (hbulk : ((Predicate.without vs).bulk? c.settings.bulkThreshold).isSome = true)
    (w : Workspace) (aliases : AliasTable) (x : Value) :
    ∃ j conditions w' f verdict,
      (c.addFilter s (column, .without vs)).run w = .ok ({ s with
        bulkJoins := s.bulkJoins ++ [j], conditions := s.conditions ++ conditions }, w') ∧
      j.column = column ∧
      (Predicate.without vs).condition c.settings.dialect (column.sql c.settings.dialect) = .ok f ∧
      f.verdict? (column.sql c.settings.dialect) x = some verdict ∧
      SqlWriter.kept? ⟨c.settings.dialect, aliases⟩ j x conditions
        = some (if verdict = some false then 0 else 1) ∧
      (verdict = none ↔ x = .null ∨ (.null ∈ vs ∧ ∀ v ∈ vs, x.equals v ≠ some true)) := by
  have hlong := Predicate.bulk?_eq (p := .without vs) rfl c.settings.bulkThreshold
  split at hlong
  · rename_i hlt
    have hne : vs ≠ [] := by
      rintro rfl
      exact Nat.not_lt_zero _ hlt
    obtain ⟨bulk, w', hkind, hvalues, hrun⟩ := c.addFilter_bulk s column hlong w
    let j : BulkJoin := ⟨bulk, column⟩
    have hmatching : j.matching x = [] ↔ (x.isIn vs).not ≠ some false := by
      rw [j.matching_eq_nil_iff hfree hvalues, ← Value.isIn_eq_true_iff, Verdict.not_ne_false_iff]
    refine ⟨j, bulk.conditions, w', _, _, hrun, rfl, rfl,
      Fragment.verdict?_memberCondition true vs, ?_, ?_⟩
    · rw [SqlWriter.kept?_without hkind]
      by_cases hnil : j.matching x = []
      · rw [if_pos hnil, if_pos rfl, if_neg (hmatching.mp hnil)]
      · rw [if_neg hnil, if_pos rfl, if_pos (not_not.mp (mt hmatching.mpr hnil))]
    · rw [if_pos rfl, ← Value.isIn_eq_none_iff hne]
      exact Option.map_eq_none_iff
  · rw [hlong] at hbulk
    cases hbulk

namespace Crew

def age : ColumnRef := ⟨person, .property "age"⟩

def everyone : FlatSelect := ⟨[], person, [], [], []⟩

/-- Tests for two values go through temporary tables. -/
def composer : Composer where
  tree := { nodes := #[], binding := .unconstrained, leaves := [] }
  settings := { bulkThreshold := 1 }

/-- Neither of two ages. -/
def otherAges : Predicate := .without [.int 30, .int 40]

/-- Who has no age is kept, though nothing is known of an age that is null. -/
theorem ageless_kept : ∃ j conditions w' f,
    (composer.addFilter everyone (age, otherAges)).run ⟨[], 0, 0⟩ = .ok ({ everyone with
      bulkJoins := [j], conditions := conditions }, w') ∧
    otherAges.condition .sqlite (age.sql .sqlite) = .ok f ∧
    f.verdict? (age.sql .sqlite) .null = some none ∧
    SqlWriter.kept? ⟨.sqlite, ∅⟩ j .null conditions = some 1 :=
  ⟨_, _, _, _, rfl, rfl, by decide +kernel, by decide +kernel⟩

/-- Who is fifty is kept once, and is neither thirty nor forty. -/
theorem fifty_kept : ∃ j conditions w' f,
    (composer.addFilter everyone (age, otherAges)).run ⟨[], 0, 0⟩ = .ok ({ everyone with
      bulkJoins := [j], conditions := conditions }, w') ∧
    otherAges.condition .sqlite (age.sql .sqlite) = .ok f ∧
    f.verdict? (age.sql .sqlite) (.int 50) = some (some true) ∧
    SqlWriter.kept? ⟨.sqlite, ∅⟩ j (.int 50) conditions = some 1 := by
  have hfree : ∀ v ∈ [Value.int 30, .int 40], v.isFloat = false := by decide
  obtain ⟨j, conditions, w', f, verdict, hrun, _, hf, hverdict, hkept, _⟩ :=
    composer.addFilter_without everyone age hfree (by decide) ⟨[], 0, 0⟩ ∅ (.int 50)
  obtain rfl := Except.ok.inj hf
  obtain rfl : some true = verdict := Option.some.inj (Eq.trans (by decide +kernel) hverdict)
  exact ⟨j, conditions, w', _, hrun, rfl, hverdict, hkept⟩

end Crew

/-! ## 3. Values that are listed -/

/-- The value is a double that equals two integers of a list. -/
def Value.Blurs (x : Value) (vs : List Value) : Prop :=
  ∃ f i k, x = .float f ∧ i ≠ k ∧ .int i ∈ vs.map stored ∧ .int k ∈ vs.map stored ∧
    f.compareTotal (Double.ofInt i.toInt) = .eq ∧ f.compareTotal (Double.ofInt k.toInt) = .eq

namespace Value

variable {x a b : Value} {vs : List Value}

theorem order_of_equals (h : x.equals a = some true) : x.stored.order a.stored = .eq := by
  unfold equals at h
  split at h
  · cases h
  · exact beq_iff_eq.mp (Option.some.inj h)

theorem Exact.stored_eq (h : a.Exact) : a.stored = a := by
  cases a with
  | record r => exact h.elim
  | _ => rfl

/-- What equals an exact value in order is that value, or it is a double and the value an
integer. -/
theorem Exact.equals_cases (ha : a.Exact) (h : x.equals a = some true) :
    x.stored = a ∨ ∃ f i, x = .float f ∧ a = .int i ∧
      f.compareTotal (Double.ofInt i.toInt) = .eq := by
  have horder := order_of_equals h
  rw [ha.stored_eq] at horder
  by_cases hfloat : x.isFloat = false
  · exact Or.inl ((order_eq_iff (exact_stored hfloat) ha).mp horder)
  · cases x with
    | float f =>
      cases a with
      | int i => exact Or.inr ⟨f, i, rfl, rfl, horder⟩
      | float _ => exact ha.elim
      | record _ => exact ha.elim
      | _ => cases horder
    | _ => exact absurd rfl hfloat

/-- A value that equals two different values is a double, and they are integers. -/
theorem blurs_of_equals (hfree : ∀ v ∈ vs, v.isFloat = false) (ha : a ∈ vs.map stored)
    (hb : b ∈ vs.map stored) (hne : a ≠ b) (hxa : x.equals a = some true)
    (hxb : x.equals b = some true) : x.Blurs vs := by
  have hexact := exact_of_mem_stored hfree
  rcases (hexact a ha).equals_cases hxa with rfl | ⟨f, i, rfl, rfl, hi⟩
  · rcases (hexact b hb).equals_cases hxb with rfl | ⟨f, k, rfl, rfl, _⟩
    · exact absurd rfl hne
    · exact (hexact _ ha).elim
  · rcases (hexact b hb).equals_cases hxb with rfl | ⟨g, k, hg, rfl, hk⟩
    · exact (hexact _ hb).elim
    · obtain rfl := Value.float.inj hg
      exact ⟨f, i, k, rfl, fun h => hne (congrArg _ h), ha, hb, hi, hk⟩

/-- Integers that a double equals both are beyond what a double holds exactly. -/
theorem Blurs.exists_large (h : x.Blurs vs) :
    ∃ i, .int i ∈ vs.map stored ∧ 2 ^ 53 < i.toInt.natAbs := by
  obtain ⟨f, i, k, _, hne, hi, hk, hfi, hfk⟩ := h
  have hne : i.toInt ≠ k.toInt := fun heq => hne (Int64.toInt_inj.mp heq)
  rcases Double.exists_large_of_compareTotal hne hfi hfk with hlarge | hlarge
  · exact ⟨i, hi, hlarge⟩
  · exact ⟨k, hk, hlarge⟩

/-- A double equals an integer that is nearest to it in order. -/
theorem equals_float_int {f : Double} {i : Int64}
    (h : f.compareTotal (Double.ofInt i.toInt) = .eq) : (float f).equals (.int i) = some true :=
  congrArg some (beq_iff_eq.mpr h)

end Value

theorem exists_ne_of_nodup {α : Type} {l : List α} (h : l.Nodup) (hlong : 1 < l.length) :
    ∃ a ∈ l, ∃ b ∈ l, a ≠ b := by
  match l, h with
  | a :: b :: l, h =>
    refine ⟨a, by simp, b, by simp, ?_⟩
    rintro rfl
    exact (List.nodup_cons.mp h).1 List.mem_cons_self

namespace BulkJoin

variable {j : BulkJoin} {x : Value} {vs : List Value} (hfree : ∀ v ∈ vs, v.isFloat = false)
  (hvalues : j.bulk.values = Value.distinct vs)

include hfree hvalues

theorem mem_matching_distinct {v : Value} :
    v ∈ j.matching x ↔ v ∈ vs.map Value.stored ∧ x.equals v = some true := by
  rw [mem_matching, hvalues, (Value.distinct_spec hfree).1]

theorem nodup_matching : (j.matching x).Nodup := by
  rw [matching, hvalues]
  exact (Value.distinct_spec hfree).2.nodup.filter _

/-- A listed value matches one value of the table. -/
theorem length_matching_eq_one (hlisted : ∃ v ∈ vs, x.equals v = some true)
    (hclear : ¬ x.Blurs vs) : (j.matching x).length = 1 := by
  have hpos : j.matching x ≠ [] :=
    fun hnil => (matching_eq_nil_iff hfree hvalues).mp hnil hlisted
  refine Nat.le_antisymm ?_ (List.length_pos_iff.mpr hpos)
  by_contra hmany
  obtain ⟨a, ha, b, hb, hne⟩ :=
    exists_ne_of_nodup (nodup_matching hfree hvalues) (Nat.lt_of_not_le hmany)
  obtain ⟨ha, hxa⟩ := (mem_matching_distinct hfree hvalues).mp ha
  obtain ⟨hb, hxb⟩ := (mem_matching_distinct hfree hvalues).mp hb
  exact hclear (Value.blurs_of_equals hfree ha hb hne hxa hxb)

/-- A double of two listed integers matches both. -/
theorem two_le_length_matching (h : x.Blurs vs) : 2 ≤ (j.matching x).length := by
  obtain ⟨f, i, k, rfl, hne, hi, hk, hfi, hfk⟩ := h
  have hpair : [Value.int i, Value.int k] ⊆ j.matching (.float f) := by
    intro v hv
    rcases List.mem_pair.mp hv with rfl | rfl
    · exact (mem_matching_distinct hfree hvalues).mpr ⟨hi, Value.equals_float_int hfi⟩
    · exact (mem_matching_distinct hfree hvalues).mpr ⟨hk, Value.equals_float_int hfk⟩
  have hdistinct : [Value.int i, Value.int k].Nodup := by
    simpa using hne
  exact (hdistinct.subperm hpair).length_le

end BulkJoin

/-- **Rows that a test for listed values keeps.** A list goes through a temporary table exactly if
it has more values that differ than the threshold. A row is kept once where the condition that would
be written instead is true, and not at all where it is not, unless a double in the column equals two
integers of the list; then the row is repeated. That takes an integer beyond `2 ^ 53`. -/
theorem Composer.addFilter_within (c : Composer) (s : FlatSelect) (column : ColumnRef)
    {p : Predicate} {lists : List (List Value)} (hp : p.AsksFor lists)
    (hfree : ∀ v ∈ p.values, v.isFloat = false) :
    ((p.bulk? c.settings.bulkThreshold).isSome = true ↔
      c.settings.bulkThreshold < (Value.differing (p.values.map Value.stored)).length) ∧
    ((p.bulk? c.settings.bulkThreshold).isSome = true →
      ∀ (w : Workspace) (aliases : AliasTable) (x : Value), ∃ j conditions w' f verdict rows,
        (c.addFilter s (column, p)).run w = .ok ({ s with
          bulkJoins := s.bulkJoins ++ [j], conditions := s.conditions ++ conditions }, w') ∧
        j.column = column ∧
        p.condition c.settings.dialect (column.sql c.settings.dialect) = .ok f ∧
        f.verdict? (column.sql c.settings.dialect) x = some verdict ∧
        SqlWriter.kept? ⟨c.settings.dialect, aliases⟩ j x conditions = some rows ∧
        (verdict ≠ some true → rows = 0) ∧
        (verdict = some true → ¬ x.Blurs p.values → rows = 1) ∧
        (x.Blurs p.values → 2 ≤ rows ∧
          ∃ i, .int i ∈ p.values.map Value.stored ∧ 2 ^ 53 < i.toInt.natAbs)) := by
  have hlong := Predicate.bulk?_eq hp.membership?_eq c.settings.bulkThreshold
  rw [← Value.length_distinct hfree, hlong]
  by_cases hlt : c.settings.bulkThreshold < (Value.distinct p.values).length
  · rw [if_pos hlt] at hlong
    refine ⟨by simp [hlt], ?_⟩
    intro _ w aliases x
    obtain ⟨bulk, w', hkind, hvalues, hrun⟩ := c.addFilter_bulk s column hlong w
    obtain ⟨f, verdict, hf, hverdict, htrue⟩ :=
      hp.verdict c.settings.dialect (column.sql c.settings.dialect) x
    let j : BulkJoin := ⟨bulk, column⟩
    refine ⟨j, bulk.conditions, w', f, verdict, _, hrun, rfl, hf, hverdict,
      SqlWriter.kept?_within hkind, ?_, ?_, ?_⟩
    · intro hfalse
      rw [List.length_eq_zero_iff, j.matching_eq_nil_iff hfree hvalues, ← htrue]
      exact hfalse
    · intro hverdict hclear
      exact j.length_matching_eq_one hfree hvalues (htrue.mp hverdict) hclear
    · intro hblurs
      exact ⟨j.two_le_length_matching hfree hvalues hblurs, hblurs.exists_large⟩
  · rw [if_neg hlt]
    exact ⟨by simpa using hlt, nofun⟩

namespace Crew

/-- An integer of fifty-four bits, or the next. -/
def hugeAges : Predicate := .within [.int 9007199254740992, .int 9007199254740993]

/-- The double of both ages comes twice. -/
theorem huge_kept_twice : ∃ j conditions w' f,
    (composer.addFilter everyone (age, hugeAges)).run ⟨[], 0, 0⟩ = .ok ({ everyone with
      bulkJoins := [j], conditions := conditions }, w') ∧
    hugeAges.condition .sqlite (age.sql .sqlite) = .ok f ∧
    f.verdict? (age.sql .sqlite) (.float ⟨0x4340000000000000⟩) = some (some true) ∧
    SqlWriter.kept? ⟨.sqlite, ∅⟩ j (.float ⟨0x4340000000000000⟩) conditions = some 2 :=
  ⟨_, _, _, _, rfl, rfl, by decide +kernel, by decide +kernel⟩

/-- One of two ages, given apart. -/
def someAges : Predicate := .or [.within [.int 30], .within [.int 40, .int 30]]

/-- Who is thirty is kept once, though thirty is listed twice. -/
theorem thirty_kept_once : ∃ j conditions w' f,
    (composer.addFilter everyone (age, someAges)).run ⟨[], 0, 0⟩ = .ok ({ everyone with
      bulkJoins := [j], conditions := conditions }, w') ∧
    someAges.condition .sqlite (age.sql .sqlite) = .ok f ∧
    f.verdict? (age.sql .sqlite) (.int 30) = some (some true) ∧
    SqlWriter.kept? ⟨.sqlite, ∅⟩ j (.int 30) conditions = some 1 := by
  have hne : [[Value.int 30], [.int 40, .int 30]] ≠ [] := by decide
  have hasks : someAges.AsksFor _ := .oneOf hne
  obtain ⟨_, hbulk⟩ := composer.addFilter_within everyone age hasks (by decide)
  obtain ⟨j, conditions, w', f, verdict, rows, hrun, _, hf, hverdict, hkept, _, honce, _⟩ :=
    hbulk (by decide) ⟨[], 0, 0⟩ ∅ (.int 30)
  obtain rfl := Except.ok.inj hf
  obtain rfl : some true = verdict := Option.some.inj (Eq.trans (by decide +kernel) hverdict)
  obtain rfl : rows = 1 := honce rfl nofun
  exact ⟨j, conditions, w', _, hrun, rfl, hverdict, hkept⟩

end Crew

end TraversalSql
