import TraversalSql.Proofs.FusedRuns
import TraversalSql.Proofs.PlainRuns
import TraversalSql.Sql.Condition

/-!
# What id literals denote

An id may be written as an integer, as a record, or as a text that spells either. Here it is said
without any reading of texts which row of a table a literal denotes, and what a filter on ids that
is put together from comparisons, memberships and connectives asks of an element.

* `Predicate.resolved_saysOf_iff` – a resolved filter speaks of integers only and says of an id
  what the filter says of the element, gone filters included;
* `Filter.resolved_values_iff` – for every filter that a hop takes as one on ids: what is not an
  integer after resolving is the bound of an interval, left as it was written.

The second is the weaker on purpose. Intervals are taken as filters on ids, and are not resolved.
-/

set_option autoImplicit false

namespace TraversalSql

/-! ## 1. The row that a literal denotes -/

/-- The text spells the record: its schema, if it is not the default one, its label and its id. The
schema ends at the first dot and the id begins behind the last colon; the label may hold more of
either. -/
inductive RecordId.Spells : String → RecordId → Prop
  | qualified {schema label digits : String} {kind : ElementKind} {i : Int64} :
      schema ≠ "" → '.' ∉ schema.toList → label ≠ "" → Reading.integer? digits = some i →
        Spells (schema ++ "." ++ label ++ ":" ++ digits) ⟨⟨schema, label, kind⟩, i⟩
  | bare {label digits : String} {kind : ElementKind} {i : Int64} :
      label ≠ "" → '.' ∉ label.toList → Reading.integer? digits = some i →
        Spells (label ++ ":" ++ digits) ⟨⟨Table.defaultSchema, label, kind⟩, i⟩

/-- The literal denotes the row of the table with that id. -/
inductive Value.Denotes (table : Table) : Value → Int64 → Prop
  | integer (i : Int64) : Denotes table (.int i) i
  | integerText {s : String} {i : Int64} :
      Reading.integer? s = some i → Denotes table (.string s) i
  | record (i : Int64) : Denotes table (.record ⟨table, i⟩) i
  | recordText {s : String} {i : Int64} :
      RecordId.Spells s ⟨table, i⟩ → Denotes table (.string s) i

namespace RecordId

variable {s : String} {kind : ElementKind} {r : RecordId}

/-- The part of a text in front of the id, read as the name of a table. -/
theorem parse?_eq_some_cut :
    parse? s kind = some r ↔
      ∃ qualified digits schema label, Text.splitLast ':' s = some (qualified, digits) ∧
        (Text.splitFirst '.' qualified).getD (Table.defaultSchema, qualified) = (schema, label) ∧
        Reading.integer? digits = some r.id ∧ schema ≠ "" ∧ label ≠ "" ∧
        r.table = ⟨schema, label, kind⟩ := by
  obtain ⟨table, id⟩ := r
  simp only [parse?, Option.bind_eq_bind, Option.bind_eq_some_iff]
  constructor
  · rintro ⟨⟨qualified, digits⟩, hcut, i, hi, h⟩
    split at h
    · cases h
    · rename_i hne
      obtain ⟨rfl, rfl⟩ := RecordId.mk.inj (Option.some.inj h)
      simp only [Bool.or_eq_true, String.isEmpty_iff, not_or] at hne
      exact ⟨qualified, digits, _, _, hcut, rfl, hi, hne.1, hne.2, rfl⟩
  · rintro ⟨qualified, digits, schema, label, hcut, hname, hi, hschema, hlabel, rfl⟩
    refine ⟨(qualified, digits), hcut, id, hi, ?_⟩
    simp [hname, hschema, hlabel]

/-- A text is read as the record that it spells, and every record that it spells is read. -/
theorem parse?_eq_some_iff : parse? s kind = some r ↔ Spells s r ∧ r.table.kind = kind := by
  rw [parse?_eq_some_cut]
  constructor
  · rintro ⟨qualified, digits, schema, label, hcut, hname, hi, hschema, hlabel, htable⟩
    obtain ⟨table, id⟩ := r
    obtain rfl : table = ⟨schema, label, kind⟩ := htable
    obtain ⟨hs, -⟩ := Text.splitLast_eq_some_iff.mp hcut
    cases hdot : Text.splitFirst '.' qualified with
    | none =>
      obtain ⟨rfl, rfl⟩ := Prod.mk.inj (hdot ▸ hname)
      obtain rfl : s = qualified ++ ":" ++ digits := String.toList_injective (by simpa using hs)
      exact ⟨.bare hlabel (Text.splitFirst_eq_none_iff.mp hdot) hi, rfl⟩
    | some parts =>
      rw [hdot, Option.getD_some] at hname
      subst hname
      obtain ⟨hq, hno⟩ := Text.splitFirst_eq_some_iff.mp hdot
      obtain rfl : s = schema ++ "." ++ label ++ ":" ++ digits :=
        String.toList_injective (by simpa [hq] using hs)
      exact ⟨.qualified hschema hno hlabel hi, rfl⟩
  · rintro ⟨hspells, rfl⟩
    cases hspells with
    | @qualified schema label digits kind i hschema hno hlabel hi =>
      refine ⟨schema ++ "." ++ label, digits, schema, label, ?_, ?_, hi, hschema, hlabel, rfl⟩
      · rw [Text.splitLast_eq_some_iff]
        exact ⟨by simp, Reading.colon_not_mem_of_integer hi⟩
      · have hdot : Text.splitFirst '.' (schema ++ "." ++ label) = some (schema, label) := by
          rw [Text.splitFirst_eq_some_iff]
          exact ⟨by simp, hno⟩
        rw [hdot, Option.getD_some]
    | @bare label digits kind i hlabel hno hi =>
      refine ⟨label, digits, Table.defaultSchema, label, ?_, ?_, hi, by decide, hlabel, rfl⟩
      · rw [Text.splitLast_eq_some_iff]
        exact ⟨by simp, Reading.colon_not_mem_of_integer hi⟩
      · rw [Text.splitFirst_eq_none_iff.mpr hno, Option.getD_none]

/-- What spells an integer spells no record. -/
theorem Spells.not_integer (h : Spells s r) : Reading.integer? s = none := by
  rw [Option.eq_none_iff_forall_ne_some]
  intro i hi
  exact Reading.colon_not_mem_of_integer hi (colon_mem_of_parse (parse?_eq_some_iff.mpr ⟨h, rfl⟩))

end RecordId

namespace Value

def isInt : Value → Bool
  | int _ => true
  | _ => false

variable {table : Table} {v : Value} {i j : Int64}

/-- The integer that a literal comes down to is the id of the row that it denotes. -/
theorem idIn?_eq_some_iff : v.idIn? table = some i ↔ v.Denotes table i := by
  constructor
  · intro h
    cases v with
    | int => exact Option.some.inj h ▸ .integer _
    | record r =>
      simp only [idIn?, Option.ite_none_right_eq_some, Option.some.injEq] at h
      obtain ⟨rfl, rfl⟩ := h
      exact .record _
    | string s =>
      simp only [idIn?] at h
      split at h
      · rename_i hs
        exact .integerText (hs.trans h)
      · obtain ⟨r, hr, h⟩ := Option.bind_eq_some_iff.mp h
        simp only [Option.ite_none_right_eq_some, Option.some.injEq] at h
        obtain ⟨rfl, rfl⟩ := h
        exact .recordText (RecordId.parse?_eq_some_iff.mp hr).1
    | null | bool | float => cases h
  · intro h
    cases h with
    | integer => rfl
    | integerText hs => simp [idIn?, hs]
    | record => simp [idIn?]
    | recordText hs =>
      simp [idIn?, hs.not_integer, RecordId.parse?_eq_some_iff.mpr ⟨hs, rfl⟩]

/-- A literal denotes one row of a table at most. -/
theorem Denotes.unique (hi : v.Denotes table i) (hj : v.Denotes table j) : i = j :=
  Option.some.inj ((idIn?_eq_some_iff.mpr hi).symm.trans (idIn?_eq_some_iff.mpr hj))

end Value

/-! ## 2. What a filter says of an element -/

/-- A comparison with a literal, read on an element. What denotes no row of the table differs from
every row of it, and no row is equal to it, below it or above it. -/
def Comparison.SaysOf (table : Table) (id : Int64) : Comparison → Value → Prop
  | neq, v => ¬ v.Denotes table id
  | op, v => ∃ i, v.Denotes table i ∧ op.Relates id i

namespace Predicate

mutual

/-- The filter is put together from comparisons, memberships and connectives. -/
def isPlain : Predicate → Bool
  | compare .. | within _ | without _ => true
  | and ps | or ps => allPlain ps
  | _ => false

def allPlain : List Predicate → Bool
  | [] => true
  | p :: ps => p.isPlain && allPlain ps

end

mutual

/-- The filter, read on the element of a table with an id; plain filters alone say anything. -/
def SaysOf (table : Table) (id : Int64) : Predicate → Prop
  | compare op v => op.SaysOf table id v
  | within vs => ∃ v ∈ vs, v.Denotes table id
  | without vs => ∀ v ∈ vs, ¬ v.Denotes table id
  | and ps => AllSayOf table id ps
  | or ps => SomeSaysOf table id ps
  | _ => False

def AllSayOf (table : Table) (id : Int64) : List Predicate → Prop
  | [] => True
  | p :: ps => p.SaysOf table id ∧ AllSayOf table id ps

def SomeSaysOf (table : Table) (id : Int64) : List Predicate → Prop
  | [] => False
  | p :: ps => p.SaysOf table id ∨ SomeSaysOf table id ps

end

variable {truth : Truth} {table : Table} {id : Int64}

mutual

/-- On plain filters the two readings of a filter on an element are one. -/
theorem holdsOf_iff_saysOf (p : Predicate) (hp : p.isPlain = true) :
    p.HoldsOf truth table id ↔ p.SaysOf table id := by
  match p with
  | .compare op v =>
    cases op <;>
      simp only [HoldsOf, SaysOf, Comparison.SaysOf, ne_eq, Value.idIn?_eq_some_iff]
  | .within vs => simp only [HoldsOf, SaysOf, Value.idIn?_eq_some_iff]
  | .without vs =>
    simp only [HoldsOf, SaysOf, Value.idIn?_eq_some_iff]
    constructor
    · intro h v hv hid
      exact h ⟨v, hv, hid⟩
    · rintro h ⟨v, hv, hid⟩
      exact h v hv hid
  | .and ps =>
    simp only [HoldsOf, SaysOf]
    exact allHoldOf_iff_allSayOf ps hp
  | .or ps =>
    simp only [HoldsOf, SaysOf]
    exact anyHoldsOf_iff_someSaysOf ps hp
  | .present | .absent | .between _ _ | .inside _ _ | .outside _ _ | .text _ _ | .fullText _ _
  | .lambda _ => cases hp

theorem allHoldOf_iff_allSayOf (ps : List Predicate) (hps : allPlain ps = true) :
    AllHoldOf truth table id ps ↔ AllSayOf table id ps := by
  match ps with
  | [] => rfl
  | p :: ps =>
    obtain ⟨hp, hps⟩ := Bool.and_eq_true_iff.mp hps
    exact and_congr (holdsOf_iff_saysOf p hp) (allHoldOf_iff_allSayOf ps hps)

theorem anyHoldsOf_iff_someSaysOf (ps : List Predicate) (hps : allPlain ps = true) :
    AnyHoldsOf truth table id ps ↔ SomeSaysOf table id ps := by
  match ps with
  | [] => rfl
  | p :: ps =>
    obtain ⟨hp, hps⟩ := Bool.and_eq_true_iff.mp hps
    exact or_congr (holdsOf_iff_saysOf p hp) (anyHoldsOf_iff_someSaysOf ps hps)

end

/-! ## 3. The literals of a resolved filter -/

mutual

/-- The bounds of a filter's intervals, from left to right. -/
def bounds : Predicate → List Value
  | between a b | inside a b | outside a b => [a, b]
  | and ps | or ps => boundsOfAll ps
  | _ => []

def boundsOfAll : List Predicate → List Value
  | [] => []
  | p :: ps => p.bounds ++ boundsOfAll ps

end

mutual

theorem bounds_of_isPlain (p : Predicate) (hp : p.isPlain = true) : p.bounds = [] := by
  match p with
  | .compare _ _ | .within _ | .without _ => simp only [bounds]
  | .and ps | .or ps =>
    rw [bounds]
    exact boundsOfAll_of_allPlain ps hp
  | .present | .absent | .between _ _ | .inside _ _ | .outside _ _ | .text _ _ | .fullText _ _
  | .lambda _ => cases hp

theorem boundsOfAll_of_allPlain (ps : List Predicate) (hps : allPlain ps = true) :
    boundsOfAll ps = [] := by
  match ps with
  | [] => rfl
  | p :: ps =>
    obtain ⟨hp, hps⟩ := Bool.and_eq_true_iff.mp hps
    rw [boundsOfAll, bounds_of_isPlain p hp, boundsOfAll_of_allPlain ps hps, List.append_nil]

end

mutual

theorem isIdLiteral_of_testsIds (p : Predicate) (hp : p.testsIds = true) :
    ∀ v ∈ p.values, v.isIdLiteral = true := by
  match p with
  | .compare _ _ => simpa [values, testsIds] using hp
  | .within _ | .without _ => simpa only [values] using List.all_eq_true.mp hp
  | .between _ _ | .inside _ _ | .outside _ _ => simpa [values, testsIds] using hp
  | .and ps | .or ps =>
    rw [values]
    exact isIdLiteral_of_allTestIds ps hp
  | .present | .absent | .text _ _ | .fullText _ _ | .lambda _ => cases hp

theorem isIdLiteral_of_allTestIds (ps : List Predicate) (hps : allTestIds ps = true) :
    ∀ v ∈ valuesOfAll ps, v.isIdLiteral = true := by
  match ps with
  | [] => exact fun v hv => absurd hv List.not_mem_nil
  | p :: ps =>
    obtain ⟨hp, hps⟩ := Bool.and_eq_true_iff.mp hps
    rw [valuesOfAll, List.forall_mem_append]
    exact ⟨isIdLiteral_of_testsIds p hp, isIdLiteral_of_allTestIds ps hps⟩

end

/-- Of literals after resolving: there are bounds of intervals as they were written, and integers,
and nothing else. -/
structure Settled (written bounds values : List Value) : Prop where
  sublist : bounds.Sublist written
  integers : ∀ v ∈ values, v.isInt = true ∨ v ∈ bounds
  among : bounds ⊆ values

namespace Settled

variable {written written' bounds bounds' values values' : List Value}

theorem append (h : Settled written bounds values) (h' : Settled written' bounds' values') :
    Settled (written ++ written') (bounds ++ bounds') (values ++ values') where
  sublist := h.sublist.append h'.sublist
  integers v hv := by
    rw [List.mem_append]
    rcases List.mem_append.mp hv with hv | hv
    · exact (h.integers v hv).imp_right .inl
    · exact (h'.integers v hv).imp_right .inr
  among := List.append_subset.mpr ⟨List.subset_append_of_subset_left _ h.among,
    List.subset_append_of_subset_right _ h'.among⟩

/-- What is dropped takes its bounds with it. -/
theorem drop (h : Settled written' bounds values) : Settled (written ++ written') bounds values :=
  { h with sublist := h.sublist.trans (List.sublist_append_right _ _) }

theorem ofIntegers (h : ∀ v ∈ values, v.isInt = true) : Settled written [] values where
  sublist := List.nil_sublist _
  integers v hv := .inl (h v hv)
  among := List.nil_subset _

theorem ofBounds : Settled bounds bounds bounds where
  sublist := List.Sublist.refl _
  integers _ hv := .inr hv
  among := List.Subset.refl _

theorem isInt_iff (h : Settled written bounds values) :
    (∀ v ∈ values, v.isInt = true) ↔ ∀ v ∈ bounds, v.isInt = true :=
  ⟨fun hall v hv => hall v (h.among hv), fun hall v hv => (h.integers v hv).elim id (hall v)⟩

end Settled

theorem isInt_of_mem_idsIn {vs : List Value} : ∀ v ∈ idsIn table vs, v.isInt = true := by
  intro v hv
  obtain ⟨i, -, rfl⟩ := List.mem_map.mp hv
  rfl

mutual

/-- Resolving leaves the bounds of intervals, and integers in the place of every other literal. -/
theorem settled_resolveIds (p : Predicate) {q : Predicate} (h : p.resolveIds? table = some q) :
    Settled p.bounds q.bounds q.values := by
  match p with
  | .compare op v =>
    cases hv : v.idIn? table with
    | none =>
      cases op <;> simp only [resolveIds?, hv, Option.map_none, reduceCtorEq] at h <;> cases h <;>
        exact .ofIntegers nofun
    | some i =>
      cases op <;> simp only [resolveIds?, hv, Option.map_some] at h <;> cases h <;>
        exact .ofIntegers fun v hv => List.mem_singleton.mp hv ▸ rfl
  | .within vs =>
    cases h
    exact .ofIntegers isInt_of_mem_idsIn
  | .without vs =>
    simp only [resolveIds?] at h
    split at h
    · cases h
    · cases h
      exact .ofIntegers isInt_of_mem_idsIn
  | .and ps =>
    have hps : Settled (boundsOfAll ps) (boundsOfAll (resolveSome table ps))
        (valuesOfAll (resolveSome table ps)) := settled_resolveSome ps
    simp only [resolveIds?] at h
    split at h <;> cases h
    exact hps
  | .or ps =>
    obtain ⟨qs, hqs, rfl⟩ := Option.map_eq_some_iff.mp h
    exact settled_resolveEach ps hqs
  | .between _ _ | .inside _ _ | .outside _ _ =>
    cases h
    exact .ofBounds
  | .present | .absent | .text _ _ | .fullText _ _ | .lambda _ =>
    cases h
    exact .ofIntegers nofun

theorem settled_resolveSome (ps : List Predicate) :
    Settled (boundsOfAll ps) (boundsOfAll (resolveSome table ps))
      (valuesOfAll (resolveSome table ps)) := by
  match ps with
  | [] => exact .ofBounds
  | p :: ps =>
    have hps := settled_resolveSome ps
    simp only [resolveSome]
    split
    · rename_i q hq
      exact (settled_resolveIds p hq).append hps
    · exact hps.drop

theorem settled_resolveEach (ps : List Predicate) {qs : List Predicate}
    (h : resolveEach? table ps = some qs) :
    Settled (boundsOfAll ps) (boundsOfAll qs) (valuesOfAll qs) := by
  match ps with
  | [] =>
    cases h
    exact .ofBounds
  | p :: ps =>
    simp only [resolveEach?] at h
    split at h
    · cases h
    · rename_i q hq
      obtain ⟨qs, hqs, rfl⟩ := Option.map_eq_some_iff.mp h
      exact (settled_resolveIds p hq).append (settled_resolveEach ps hqs)

end

/-- **A resolved filter means what was written.** Every literal of it is an integer, and of an id it
says what the filter says of the element of the table with that id. Where resolving leaves no
filter, the filter says it of every element. -/
theorem resolved_saysOf_iff {p : Predicate} (hp : p.isPlain = true) (truth : Truth) (table : Table)
    (id : Int64) :
    (∀ q, p.resolveIds? table = some q → ∀ v ∈ q.values, v.isInt = true) ∧
      (OutcomeHolds truth id (p.resolveIds? table) ↔ p.SaysOf table id) := by
  refine ⟨fun q hq => ?_, (outcome_resolveIds p).trans (holdsOf_iff_saysOf p hp)⟩
  have hq := settled_resolveIds p hq
  rw [bounds_of_isPlain p hp] at hq
  rw [hq.isInt_iff, List.eq_nil_of_sublist_nil hq.sublist]
  exact fun v hv => absurd hv List.not_mem_nil

end Predicate

namespace People

/-- The seventh and the second person, whoever is before the first, and not the second robot. -/
def few : Predicate :=
  .and [.compare .neq (.string "Robot:2"),
    .or [.within [.string "7", .record ⟨person, 2⟩], .compare .lt (.string "Person:1")]]

/-- The second person is one of the few: of people a robot's id says nothing. -/
theorem second_among_few : few.isPlain = true ∧
    few.resolveIds? person =
      some (.and [.or [.within [.int 7, .int 2], .compare .lt (.int 1)]]) ∧
    few.SaysOf person 2 := by
  have hresolved : few.resolveIds? person =
      some (.and [.or [.within [.int 7, .int 2], .compare .lt (.int 1)]]) := rfl
  refine ⟨rfl, hresolved, (Predicate.resolved_saysOf_iff rfl asLabels person 2).2.mp ?_⟩
  rw [hresolved]
  exact ⟨.inl ⟨.int 2, by decide, rfl⟩, trivial⟩

end People

/-! ## 4. Filters that a hop takes -/

/-- **What is not resolved.** A resolved filter has the bounds of its intervals as they were
written, of which each is an id literal, and integers in all other places; so it has no text and no
record exactly if these bounds are integers. -/
theorem Filter.resolved_values_iff {f : Filter} {fullText : Bool} {table : Table} {q : Predicate}
    (hbucket : f.bucket? fullText = some .id) (hq : f.predicate.resolveIds? table = some q) :
    q.bounds.Sublist f.predicate.bounds ∧ (∀ v ∈ q.bounds, v.isIdLiteral = true) ∧
      ((∀ v ∈ q.values, v.isInt = true) ↔ ∀ v ∈ q.bounds, v.isInt = true) := by
  have hs := Predicate.settled_resolveIds f.predicate hq
  have htests : q.testsIds = true :=
    Predicate.resolvesToIds_of_testsIds _ (Filter.testsIds_of_bucket hbucket) table q hq
  refine ⟨hs.sublist, fun v hv => ?_, hs.isInt_iff⟩
  exact Predicate.isIdLiteral_of_testsIds q htests v (hs.among hv)

namespace People

/-- The people from the first up to the fifth. -/
def firstPeople : Filter :=
  ⟨idKey, .between (.string "Person:1") (.string "Person:5")⟩

/-- The bounds name people, and stay the texts that they are, down to the parameters of a
statement. A comparison with one of them becomes one with an integer. -/
theorem firstPeople_by_text : firstPeople.bucket? false = some .id ∧
    firstPeople.predicate.resolveIds? person = some firstPeople.predicate ∧
    (Value.string "Person:1").Denotes person 1 ∧
    Value.isInt (.string "Person:1") = false ∧
    (∃ f, firstPeople.predicate.condition .sqlite "ID" = .ok f ∧
      f.parameters = [.value (.string "Person:1"), .value (.string "Person:5")]) ∧
    (Predicate.compare .gte (.string "Person:1")).resolveIds? person =
      some (.compare .gte (.int 1)) :=
  ⟨rfl, rfl, Value.idIn?_eq_some_iff.mp (by decide +kernel), rfl, ⟨_, rfl, rfl⟩, rfl⟩

/-- Between integers nothing else is left. -/
theorem firstPeople_by_id :
    (Filter.bucket? false ⟨idKey, .between (.int 1) (.int 5)⟩ = some .id ∧
      (Predicate.between (.int 1) (.int 5)).resolveIds? person =
        some (.between (.int 1) (.int 5))) ∧
    ∀ v ∈ (Predicate.between (.int 1) (.int 5)).values, v.isInt = true := by
  have hbucket : Filter.bucket? false ⟨idKey, .between (.int 1) (.int 5)⟩ = some .id := rfl
  have hresolved : (Predicate.between (.int 1) (.int 5)).resolveIds? person =
      some (.between (.int 1) (.int 5)) := rfl
  exact ⟨⟨hbucket, hresolved⟩,
    (Filter.resolved_values_iff hbucket hresolved).2.2.mpr (by decide)⟩

end People

end TraversalSql
