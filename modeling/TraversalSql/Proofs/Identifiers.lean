import TraversalSql.Proofs.Results
import TraversalSql.Proofs.Topology
import TraversalSql.Schema.Description

/-!
# Names of a described schema

A topology that was read from a description is built label by label, and each label's names are
checked before it is added. So it is a built topology, and all names in it are identifiers.
-/

set_option autoImplicit false

namespace TraversalSql

namespace SortedMap

variable {κ ν : Type} [Ord κ] [Std.LawfulEqOrd κ]

/-- What a changed map holds was there before, or was written. -/
theorem mem_alterIn_cases {k : κ} {f : Option ν → ν} {l : List (κ × ν)} {e : κ × ν}
    (h : e ∈ alterIn k f l) :
    e ∈ l ∨ e = (k, f none) ∨ ∃ v, (k, v) ∈ l ∧ e = (k, f (some v)) := by
  induction l with
  | nil => exact Or.inr (Or.inl (List.mem_singleton.mp h))
  | cons b l ih =>
    obtain ⟨k', v⟩ := b
    simp only [alterIn] at h
    split at h
    · rcases List.mem_cons.mp h with rfl | h
      · exact Or.inr (Or.inl rfl)
      · exact Or.inl h
    · rename_i heq
      obtain rfl : k = k' := Std.LawfulEqOrd.eq_of_compare heq
      rcases List.mem_cons.mp h with rfl | h
      · exact Or.inr (Or.inr ⟨v, List.mem_cons_self, rfl⟩)
      · exact Or.inl (List.mem_cons_of_mem _ h)
    · rcases List.mem_cons.mp h with rfl | h
      · exact Or.inl List.mem_cons_self
      · rcases ih h with h | h | ⟨v', hv', rfl⟩
        · exact Or.inl (List.mem_cons_of_mem _ h)
        · exact Or.inr (Or.inl h)
        · exact Or.inr (Or.inr ⟨v', List.mem_cons_of_mem _ hv', rfl⟩)

theorem mem_keys_insertAll {k : κ} : ∀ {l : List (κ × ν)} {m : SortedMap κ ν},
    k ∈ (m.insertAll l).keys → k ∈ m.keys ∨ k ∈ l.map Prod.fst := by
  intro l
  induction l with
  | nil => exact fun h => Or.inl h
  | cons e l ih =>
    intro m h
    rcases ih (m := m.insert e.1 e.2) h with h | h
    · obtain ⟨x, hx, rfl⟩ := List.mem_map.mp h
      rcases mem_alterIn_cases hx with hx | rfl | ⟨v, _, rfl⟩
      · exact Or.inl (List.mem_map_of_mem hx)
      · exact Or.inr List.mem_cons_self
      · exact Or.inr List.mem_cons_self
    · exact Or.inr (List.mem_cons_of_mem _ h)

theorem mem_entries_of_find {κ ν : Type} [DecidableEq κ] {m : SortedMap κ ν} {k : κ} {v : ν}
    (h : m.find? k = some v) : (k, v) ∈ m.entries := by
  obtain ⟨before, behind, heq, _⟩ := List.lookup_eq_some_iff.mp h
  rw [heq]
  exact List.mem_append_right _ List.mem_cons_self

end SortedMap

/-- An identifier has no other characters than letters, digits and underscores. -/
theorem notMem_of_isIdentifier {s : String} {c : Char} (h : isIdentifier s = true)
    (hc : (c.isAlphanum || c == '_') = false) : c ∉ s.toList := by
  unfold isIdentifier at h
  split at h
  · cases h
  · rename_i first rest hs
    simp only [Bool.and_eq_true, List.all_eq_true] at h
    rw [hs, List.mem_cons, not_or]
    constructor
    · rintro rfl
      simp only [Char.isAlphanum, Bool.or_eq_false_iff] at hc
      simp [hc.1.1, hc.2] at h
    · intro hmem
      rw [h.2 c hmem] at hc
      cases hc

/-- The names of a table are identifiers. -/
def Table.Named (t : Table) (properties : Properties) : Prop :=
  isIdentifier t.schema = true ∧ isIdentifier t.label = true ∧
    ∀ p ∈ properties.keys, isIdentifier p = true

namespace Topology

/-- The names of all tables are identifiers. -/
structure Named (T : Topology) : Prop where
  vertices : ∀ e ∈ T.vertices.entries, e.1.Named e.2
  edges : ∀ e ∈ T.edges.entries, e.1.Named e.2.properties

variable {T T' : Topology} {schema label : String} {properties : Properties} {table : Table}

theorem Named.addVertexLabel (hT : T.Named)
    (hnames : (⟨schema, label, .vertex⟩ : Table).Named properties)
    (h : T.addVertexLabel schema label properties = .ok (table, T')) : T'.Named := by
  simp only [Topology.addVertexLabel] at h
  split at h
  · cases h
  · cases h
    refine ⟨?_, hT.edges⟩
    intro e he
    rcases SortedMap.mem_alterIn_cases he with he | rfl | ⟨_, _, rfl⟩
    · exact hT.vertices e he
    · exact hnames
    · exact hnames

/-- Connections change foreign keys only. -/
theorem Named.connect (hT : T.Named) {edge : Table} (hedge : edge.Named ∅) (source target : Table) :
    (T.connect edge source target).Named := by
  refine ⟨hT.vertices, ?_⟩
  intro e he
  rcases SortedMap.mem_alterIn_cases he with he | rfl | ⟨et, het, rfl⟩
  · exact hT.edges e he
  · exact hedge
  · exact hT.edges (edge, et) het

theorem Named.addEdgeLabel (hT : T.Named) {connections : List (Table × Table)}
    (hnames : (⟨schema, label, .edge⟩ : Table).Named properties)
    (h : T.addEdgeLabel schema label properties connections = .ok (table, T')) : T'.Named := by
  have hconnect : ∀ {connections : List (Table × Table)} {T : Topology}, T.Named →
      (connections.foldl (fun T c => T.connect ⟨schema, label, .edge⟩ c.1 c.2) T).Named := by
    intro connections
    induction connections with
    | nil => exact fun hT => hT
    | cons c connections ih =>
      intro T hT
      exact ih (hT.connect ⟨hnames.1, hnames.2.1, List.forall_mem_nil _⟩ c.1 c.2)
  have hadded : ∀ {old : Properties}, (∀ p ∈ old.keys, isIdentifier p = true) →
      (⟨schema, label, .edge⟩ : Table).Named (old.insertAll properties.entries) := by
    intro old hold
    refine ⟨hnames.1, hnames.2.1, ?_⟩
    intro p hp
    rcases SortedMap.mem_keys_insertAll hp with hp | hp
    · exact hold p hp
    · exact hnames.2.2 p hp
  simp only [Topology.addEdgeLabel] at h
  split at h
  · cases h
  · cases h
    refine hconnect ⟨hT.vertices, ?_⟩
    intro e he
    rcases SortedMap.mem_alterIn_cases he with he | rfl | ⟨et, het, rfl⟩
    · exact hT.edges e he
    · exact hadded (List.forall_mem_nil _)
    · exact hadded (hT.edges _ het).2.2

theorem Named.of_properties (hT : T.Named) (h : T.properties? table = some properties) :
    table.Named properties := by
  unfold properties? at h
  split at h
  · exact hT.vertices _ (SortedMap.mem_entries_of_find h)
  · obtain ⟨et, het, rfl⟩ := Option.map_eq_some_iff.mp h
    exact hT.edges _ (SortedMap.mem_entries_of_find het)

end Topology

/-! ## From a description -/

theorem isIdentifier_of_check {role : IdentifierRole} {s : String} {u : Unit}
    (h : checkIdentifier role s = .ok u) : isIdentifier s = true := by
  unfold checkIdentifier at h
  split at h
  · assumption
  · cases h

theorem forall_isIdentifier_of_check {role : IdentifierRole} : ∀ {names : List String} {u : Unit},
    names.forM (checkIdentifier role) = .ok u → ∀ p ∈ names, isIdentifier p = true := by
  intro names
  induction names with
  | nil => exact fun _ => List.forall_mem_nil _
  | cons name names ih =>
    intro u h
    rw [List.forM_eq_forM, List.forM_cons] at h
    obtain ⟨_, hname, hnames⟩ := bind_ok h
    exact List.forall_mem_cons.mpr ⟨isIdentifier_of_check hname, ih hnames⟩

theorem named_of_check {schema label : String} {role : IdentifierRole} {properties : Properties}
    {u : Unit} (kind : ElementKind) (h : checkNames schema label role properties = .ok u) :
    (⟨schema, label, kind⟩ : Table).Named properties := by
  obtain ⟨_, hschema, h⟩ := bind_ok h
  obtain ⟨_, hlabel, hnames⟩ := bind_ok h
  exact ⟨isIdentifier_of_check hschema, isIdentifier_of_check hlabel,
    forall_isIdentifier_of_check hnames⟩

/-- What each step of a fold keeps, the fold keeps. -/
theorem foldlM_invariant {ε α β : Type} {f : β → α → Except ε β} (I : β → Prop)
    (hstep : ∀ {b a b'}, I b → f b a = .ok b' → I b') : ∀ {l : List α} {b b' : β}, I b →
    l.foldlM f b = .ok b' → I b' := by
  intro l
  induction l with
  | nil =>
    intro b b' hb h
    cases h
    exact hb
  | cons a l ih =>
    intro b b' hb h
    rw [List.foldlM_cons] at h
    obtain ⟨b₁, h₁, h⟩ := bind_ok h
    exact ih (hstep hb h₁) h

namespace SchemaDescription

variable {d : SchemaDescription} {T T' : Topology}

theorem addVertex_named {v : VertexDescription} (hT : T.Built ∧ T.Named)
    (h : d.addVertex T v = .ok T') : T'.Built ∧ T'.Named := by
  obtain ⟨_, hnames, h⟩ := bind_ok h
  obtain ⟨⟨table, T₁⟩, hadd, h⟩ := bind_ok h
  cases h
  exact ⟨.vertex hT.1 hadd, hT.2.addVertexLabel (named_of_check .vertex hnames) hadd⟩

theorem addEdge_named {e : EdgeDescription} (hT : T.Built ∧ T.Named)
    (h : d.addEdge T e = .ok T') : T'.Built ∧ T'.Named := by
  obtain ⟨_, hnames, h⟩ := bind_ok h
  obtain ⟨⟨table, T₁⟩, hadd, h⟩ := bind_ok h
  cases h
  exact ⟨.edge hT.1 hadd, hT.2.addEdgeLabel (named_of_check .edge hnames) hadd⟩

/-- **A described topology is built, and its names are identifiers.** -/
theorem topology_named (h : d.topology = .ok T) : T.Built ∧ T.Named := by
  obtain ⟨_, _, h⟩ := bind_ok h
  obtain ⟨T₁, hvertices, hedges⟩ := bind_ok h
  have hempty : Topology.Built {} ∧ Topology.Named {} :=
    ⟨.empty, List.forall_mem_nil _, List.forall_mem_nil _⟩
  have h₁ := foldlM_invariant (fun T => T.Built ∧ T.Named) addVertex_named hempty hvertices
  exact foldlM_invariant (fun T => T.Built ∧ T.Named) addEdge_named h₁ hedges

end SchemaDescription

end TraversalSql
