import TraversalSql.Proofs.Composing
import TraversalSql.Proofs.Identifiers

/-!
# Names of columns

The columns of a table share one name space: its id is called `ID`, a property is called as the
description calls it, and a foreign key's name is made up of a schema, a label and an ending. In a
topology that was read from a description all of these are identifiers. A name that is made up has a
dot, which no identifier has, and can be cut into its parts again, so it belongs to one foreign key.
Nothing keeps a property from being called `ID`, though. That is the only way for two columns of a
table to have one name (`SchemaDescription.columns_share_name_iff`).
-/

set_option autoImplicit false

namespace TraversalSql

/-! ## 1. Foreign keys -/

theorem Direction.columnSuffix_inj {a b : Direction} (h : a.columnSuffix = b.columnSuffix) :
    a = b := by
  revert h
  cases a <;> cases b <;> decide

theorem Direction.length_columnSuffix {a : Direction} (ha : a ≠ .both) :
    a.columnSuffix.toList.length = 3 := by
  cases a with
  | outgoing => rfl
  | incoming => rfl
  | both => exact absurd rfl ha

namespace ForeignKey

theorem toList_column (k : ForeignKey) : k.column.toList = k.vertex.schema.toList
    ++ '.' :: (k.vertex.label.toList ++ k.direction.columnSuffix.toList) := by
  simp [column]

theorem dot_mem_column (k : ForeignKey) : '.' ∈ k.column.toList := by
  rw [k.toList_column]
  exact List.mem_append_right _ List.mem_cons_self

/-- The parts of a name can be read off it where the schema has no dot. -/
theorem column_inj {k k' : ForeignKey} (hk : '.' ∉ k.vertex.schema.toList)
    (hk' : '.' ∉ k'.vertex.schema.toList) (hkind : k.vertex.kind = k'.vertex.kind)
    (hd : k.direction ≠ .both) (hd' : k'.direction ≠ .both) (h : k.column = k'.column) :
    k = k' := by
  have hcut := congrArg (fun s => Text.cutFirst '.' s.toList) h
  simp only [toList_column] at hcut
  rw [Text.cutFirst_eq_some_iff.mpr ⟨rfl, hk⟩, Text.cutFirst_eq_some_iff.mpr ⟨rfl, hk'⟩] at hcut
  obtain ⟨hschema, hrest⟩ := Prod.mk.inj (Option.some.inj hcut)
  have hlengths := (Direction.length_columnSuffix hd).trans (Direction.length_columnSuffix hd').symm
  obtain ⟨hlabel, hsuffix⟩ := List.append_inj' hrest hlengths
  obtain ⟨⟨schema, label, kind⟩, direction⟩ := k
  obtain ⟨⟨schema', label', kind'⟩, direction'⟩ := k'
  obtain rfl : schema = schema' := String.toList_injective hschema
  obtain rfl : label = label' := String.toList_injective hlabel
  obtain rfl : kind = kind' := hkind
  obtain rfl := Direction.columnSuffix_inj (String.toList_injective hsuffix)
  rfl

end ForeignKey

/-! ## 2. All columns -/

namespace Topology

variable {T : Topology} {table : Table} {c c' : Column}

theorem dot_notMem_idColumn : '.' ∉ Table.idColumn.toList := by decide

theorem Named.dot_notMem (hT : T.Named) {p : String} (h : T.HasColumn table (.property p)) :
    '.' ∉ p.toList := by
  obtain ⟨ps, hps, hp⟩ := h
  obtain ⟨_, _, hnames⟩ := hT.of_properties hps
  have hp := hnames p (SortedMap.mem_keys_iff.mpr (SortedMap.contains_iff.mp hp))
  exact notMem_of_isIdentifier hp (by decide)

theorem Named.column_inj (hT : T.Named) (hc : T.Consistent) {k k' : ForeignKey}
    (hk : T.HasKey table k) (hk' : T.HasKey table k') (h : k.column = k'.column) : k = k' := by
  have hschema : ∀ {k}, T.HasKey table k → '.' ∉ k.vertex.schema.toList := by
    intro k hk
    obtain ⟨ps, hps⟩ := (hc.properties_of_hasKey hk).2
    exact notMem_of_isIdentifier (hT.of_properties hps).1 (by decide)
  have hkind := (hk.vertexKind hc).trans (hk'.vertexKind hc).symm
  exact ForeignKey.column_inj (hschema hk) (hschema hk') hkind (hc.keyDirection hk)
    (hc.keyDirection hk') h

/-- Of two columns with one name, one is the id, and the other a property called like it. -/
theorem Named.eq_or_of_name_eq (hT : T.Named) (hc : T.Consistent) (h : T.HasColumn table c)
    (h' : T.HasColumn table c') (hname : c.name = c'.name) :
    c = c' ∨ (c = .id ∧ c' = .property Table.idColumn) ∨
      (c = .property Table.idColumn ∧ c' = .id) := by
  cases c with
  | id =>
    cases c' with
    | id => exact Or.inl rfl
    | property p =>
      obtain rfl : Table.idColumn = p := hname
      exact Or.inr (Or.inl ⟨rfl, rfl⟩)
    | foreignKey k =>
      have hk : Table.idColumn = k.column := hname
      exact absurd k.dot_mem_column (hk ▸ dot_notMem_idColumn)
  | property p =>
    cases c' with
    | id =>
      obtain rfl : p = Table.idColumn := hname
      exact Or.inr (Or.inr ⟨rfl, rfl⟩)
    | property p' =>
      obtain rfl : p = p' := hname
      exact Or.inl rfl
    | foreignKey k =>
      obtain rfl : p = k.column := hname
      exact absurd k.dot_mem_column (hT.dot_notMem h)
  | foreignKey k =>
    cases c' with
    | id =>
      have hk : k.column = Table.idColumn := hname
      exact absurd k.dot_mem_column (hk ▸ dot_notMem_idColumn)
    | property p =>
      obtain rfl : k.column = p := hname
      exact absurd k.dot_mem_column (hT.dot_notMem h')
    | foreignKey k' => exact Or.inl (congrArg Column.foreignKey (hT.column_inj hc h h' hname))

end Topology

/-- No two columns of the table have one name. -/
def Topology.DistinctColumns (T : Topology) (table : Table) : Prop :=
  ∀ {c c' : Column}, T.HasColumn table c → T.HasColumn table c' → c.name = c'.name → c = c'

/-- **When two columns share a name.** In a topology that was read from a description, two columns
of a table have one name only if one of them is the id and the other is a property called `ID`; so
the names of a table's columns are distinct unless it has such a property. -/
theorem SchemaDescription.columns_share_name_iff {d : SchemaDescription} {T : Topology}
    (hd : d.topology = .ok T) (table : Table) :
    (∀ {c c' : Column}, T.HasColumn table c → T.HasColumn table c' →
      (c.name = c'.name ↔ c = c' ∨ (c = .id ∧ c' = .property Table.idColumn) ∨
        (c = .property Table.idColumn ∧ c' = .id))) ∧
    (T.DistinctColumns table ↔ ¬ T.HasColumn table (.property Table.idColumn)) := by
  obtain ⟨hbuilt, hnamed⟩ := topology_named hd
  have hshared : ∀ {c c' : Column}, T.HasColumn table c → T.HasColumn table c' →
      c.name = c'.name → c = c' ∨ (c = .id ∧ c' = .property Table.idColumn) ∨
        (c = .property Table.idColumn ∧ c' = .id) :=
    hnamed.eq_or_of_name_eq hbuilt.consistent
  refine ⟨?_, ?_, ?_⟩
  · intro c c' hc hc'
    refine ⟨hshared hc hc', ?_⟩
    rintro (rfl | ⟨rfl, rfl⟩ | ⟨rfl, rfl⟩) <;> rfl
  · -- a table with such a property has an id as well
    rintro hdistinct hproperty
    obtain ⟨ps, hps, _⟩ := id hproperty
    cases hdistinct (c := .id) ⟨ps, hps⟩ hproperty rfl
  · intro hnone c c' hc hc' hname
    rcases hshared hc hc' hname with rfl | ⟨_, rfl⟩ | ⟨rfl, _⟩
    · rfl
    · exact absurd hc' hnone
    · exact absurd hc hnone

/-! ## 3. People with an `ID`

Of each person the number of the identity card is known, and since when people know each other. -/

namespace Cardholders

def person : Table := ⟨"public", "Person", .vertex⟩

def knows : Table := ⟨"public", "knows", .edge⟩

def description : SchemaDescription where
  schema := "public"
  vertices := [⟨"Person", none, .ofList [("ID", .integer)]⟩]
  edges := [⟨"knows", none, .ofList [("since", .integer)], [("Person", "Person")]⟩]

/-- The description is accepted, and the number has the name of the person's id. -/
theorem number_named_id : ∃ T, description.topology = .ok T ∧ T.HasColumn person .id ∧
    T.HasColumn person (.property "ID") ∧ Column.id ≠ .property "ID" ∧
    Column.id.name = (Column.property "ID").name :=
  ⟨_, rfl, ⟨_, rfl⟩, ⟨_, rfl, rfl⟩, by decide, rfl⟩

/-- The friendships' columns have four names. -/
theorem knows_distinct : ∃ T, description.topology = .ok T ∧ T.DistinctColumns knows ∧
    ¬ T.DistinctColumns person := by
  have hd : ∃ T, description.topology = .ok T := ⟨_, rfl⟩
  obtain ⟨T, hT⟩ := hd
  have hknows := (SchemaDescription.columns_share_name_iff hT knows).2
  have hperson := (SchemaDescription.columns_share_name_iff hT person).2
  cases hT
  refine ⟨_, rfl, hknows.mpr ?_, ?_⟩
  · rintro ⟨_, hps, hid⟩
    cases hps
    cases hid
  · intro hdistinct
    exact hperson.mp hdistinct ⟨_, rfl, rfl⟩

end Cardholders

end TraversalSql
