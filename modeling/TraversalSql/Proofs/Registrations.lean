import Mathlib
import TraversalSql.Proofs.Topology

/-!
# Registering tables in place

A topology is filled by registering one label after the other, and a registration may be refused.
Here the registrations are computations on a topology in place: each looks up what it relies on and
then writes to the three maps one after the other, and a fault leaves whatever was written before it.
`Registration.run_eq` says that this is the same as making a new topology or none, so a refused
registration has written nothing. The main statement is about any sequence of registrations, refused
ones among them: the two views of the foreign-key graph are one graph (`Topology.SameGraph`).
-/

set_option autoImplicit false

namespace TraversalSql

/-! ## 1. Registrations -/

/-- A computation on a topology in place. A fault ends it; what was written until then stays. -/
abbrev InPlace := EStateM SchemaError Topology

/-- A label to register, with whatever arguments. -/
inductive Registration where
  | vertexLabel (schema label : String) (properties : Properties)
  | edgeLabel (schema label : String) (properties : Properties)
      (connections : List (Table × Table))

namespace Registration

/-- Refuse the end of a connection if it is no vertex table. -/
def checkEnd (edge v : Table) : InPlace Unit := do
  if (← get).vertices.contains v then return
  throw (.invalidConnection edge.text v.text)

/-- Look up the ends of all connections, from the left. -/
def checkEnds (edge : Table) : List (Table × Table) → InPlace Unit
  | [] => return
  | (source, target) :: rest => do
    checkEnd edge source
    checkEnd edge target
    checkEnds edge rest

/-- Write the connections, one after the other. -/
def connectAll (edge : Table) : List (Table × Table) → InPlace Unit
  | [] => return
  | (source, target) :: rest => do
    modify fun t => t.connect edge source target
    connectAll edge rest

/-- The registration in place. -/
def run : Registration → InPlace Table
  | vertexLabel schema label properties => do
    let table : Table := ⟨schema, label, .vertex⟩
    if (← get).vertices.contains table then throw (.duplicateLabel schema label)
    modify fun t => { t with vertices := t.vertices.insert table properties }
    modify fun t => { t with incidence := t.incidence.alter table fun old => old.getD {} }
    return table
  | edgeLabel schema label properties connections => do
    let table : Table := ⟨schema, label, .edge⟩
    checkEnds table connections
    modify fun t => { t with
      edges := t.edges.alter table fun old =>
        let old := old.getD {}
        { old with properties := old.properties.insertAll properties.entries } }
    connectAll table connections
    return table

/-- The registration as a function: a table and a new topology, or the reason why not. -/
def result (t : Topology) : Registration → Except SchemaError (Table × Topology)
  | vertexLabel schema label properties => t.addVertexLabel schema label properties
  | edgeLabel schema label properties connections =>
    t.addEdgeLabel schema label properties connections

/-- The topology that a registration leaves, refused or not. -/
def leaves (r : Registration) (t : Topology) : Topology :=
  match r.run t with
  | .ok _ t' => t'
  | .error _ t' => t'

end Registration

/-- The topology after a sequence of registrations, from the empty one on. -/
def Topology.after (rs : List Registration) : Topology := rs.foldl (fun t r => r.leaves t) {}

/-! ## 2. In place or not -/

namespace Registration

variable {t : Topology} {edge : Table}

theorem checkEnd_eq (edge v : Table) (t : Topology) :
    checkEnd edge v t
      = if t.vertices.contains v then .ok () t else .error (.invalidConnection edge.text v.text) t := by
  simp only [checkEnd, bind, EStateM.bind, get, getThe, MonadStateOf.get, EStateM.get]
  split <;> rfl

/-- Looking up the ends finds the first that is no vertex table, and writes nothing. -/
theorem checkEnds_eq (edge : Table) (connections : List (Table × Table)) (t : Topology) :
    checkEnds edge connections t
      = match t.danglingEnd? connections with
        | none => .ok () t
        | some v => .error (.invalidConnection edge.text v.text) t := by
  induction connections with
  | nil => rfl
  | cons c rest ih =>
    obtain ⟨source, target⟩ := c
    simp only [checkEnds, bind, EStateM.bind, checkEnd_eq, Topology.danglingEnd?,
      List.flatMap_cons, List.cons_append, List.nil_append, List.find?_cons] at ih ⊢
    cases t.vertices.contains source with
    | false => rfl
    | true =>
      simp only [if_true, Bool.not_true]
      cases t.vertices.contains target with
      | false => rfl
      | true => exact ih

theorem connectAll_eq (edge : Table) (connections : List (Table × Table)) (t : Topology) :
    connectAll edge connections t
      = .ok () (connections.foldl (fun t c => t.connect edge c.1 c.2) t) := by
  induction connections generalizing t with
  | nil => rfl
  | cons c rest ih => exact ih (t.connect edge c.1 c.2)

/-- **In place or not, a registration does the same.** In particular it is refused before anything
is written. -/
theorem run_eq (r : Registration) (t : Topology) :
    r.run t
      = match r.result t with
        | .ok (table, t') => .ok table t'
        | .error e => .error e t := by
  cases r with
  | vertexLabel schema label properties =>
    simp only [run, result, Topology.addVertexLabel, bind, EStateM.bind, get, getThe,
      MonadStateOf.get, EStateM.get]
    split <;> rfl
  | edgeLabel schema label properties connections =>
    simp only [run, result, Topology.addEdgeLabel, bind, EStateM.bind, checkEnds_eq]
    cases t.danglingEnd? connections with
    | some v => rfl
    | none =>
      simp only [modify, modifyGet, MonadStateOf.modifyGet, EStateM.modifyGet, connectAll_eq]
      rfl

/-- A registration leaves the topology that it makes, or the one it was given. -/
theorem leaves_eq (r : Registration) (t : Topology) :
    r.leaves t
      = match r.result t with
        | .ok (_, t') => t'
        | .error _ => t := by
  rw [leaves, run_eq]
  cases r.result t <;> rfl

theorem leaves_built (r : Registration) (ht : t.Built) : (r.leaves t).Built := by
  rw [leaves_eq]
  cases hr : r.result t with
  | error e => exact ht
  | ok made =>
    cases r with
    | vertexLabel schema label properties => exact .vertex ht hr
    | edgeLabel schema label properties connections => exact .edge ht hr

end Registration

theorem Topology.after_built (rs : List Registration) : (Topology.after rs).Built := by
  have hrun : ∀ (rs : List Registration) {t : Topology}, t.Built →
      (rs.foldl (fun t r => r.leaves t) t).Built := by
    intro rs
    induction rs with
    | nil => exact fun ht => ht
    | cons r rs ih => exact fun ht => ih (r.leaves_built ht)
  exact hrun rs .empty

/-! ## 3. One graph -/

namespace Topology

variable {t : Topology}

/-- The edge tables at the given side of a vertex table. -/
def edgesAt (t : Topology) (v : Table) (d : Direction) : SortedSet Table :=
  ((t.incidence? v).getD {}).side d

/-- The foreign keys of an edge table. -/
def keysOf (t : Topology) (e : Table) : SortedSet ForeignKey := (t.foreignKeys? e).getD ∅

/-- The foreign-key graph is the same seen from the edge tables and from the vertex tables. -/
structure SameGraph (t : Topology) : Prop where
  outgoing : ∀ e v, e ∈ t.edgesAt v .outgoing ↔ ⟨v, .outgoing⟩ ∈ t.keysOf e
  incoming : ∀ e v, e ∈ t.edgesAt v .incoming ↔ ⟨v, .incoming⟩ ∈ t.keysOf e
  /-- Every key points from an edge table to a vertex table, at one of the two ends. -/
  keys : ∀ e, ∀ k ∈ t.keysOf e, e ∈ t.tables .edge ∧ k.vertex ∈ t.tables .vertex ∧
    (k.direction = .outgoing ∨ k.direction = .incoming)
  /-- The vertex tables, and no others, have an entry. -/
  entries : ∀ v, (t.incidence? v).isSome ↔ v ∈ t.tables .vertex
  /-- The keys into a vertex table, and no others, are listed with their edge tables. -/
  into : ∀ v e k, (e, k) ∈ t.foreignKeysInto v ↔ k ∈ t.keysOf e ∧ k.vertex = v
  /-- None is listed twice. -/
  once : ∀ v, (t.foreignKeysInto v).Nodup

theorem mem_keysOf_iff {e : Table} {k : ForeignKey} : k ∈ t.keysOf e ↔ t.HasKey e k :=
  mem_foreignKeys_iff

theorem mem_vertexTables_iff {v : Table} :
    v ∈ t.tables .vertex ↔ ∃ ps, t.vertices.find? v = some ps :=
  SortedMap.mem_keys_iff

theorem Consistent.mem_edgesAt_iff (hc : t.Consistent) {e v : Table} {d : Direction}
    (hd : d ≠ .both) : e ∈ t.edgesAt v d ↔ t.HasKey e ⟨v, d⟩ := by
  unfold edgesAt incidence?
  cases hi : t.incidence.find? v with
  | some i => exact hc.sideIff hd hi
  | none =>
    -- a table without an entry is no vertex table, so no key points at it
    have hside : ({} : Incidence).side d = ∅ := by cases d <;> rfl
    simp only [Option.getD_none, hside, SortedSet.not_mem_empty, false_iff]
    intro hk
    obtain ⟨i, hi'⟩ := hc.incidenceIff.mpr (hc.keyVertex hk)
    rw [hi] at hi'
    cases hi'

theorem Consistent.mem_foreignKeysInto_iff (hc : t.Consistent) {v e : Table} {k : ForeignKey} :
    (e, k) ∈ t.foreignKeysInto v ↔ t.HasKey e k ∧ k.vertex = v := by
  simp only [foreignKeysInto, List.mem_flatMap, Prod.exists, List.mem_map, List.mem_filter,
    beq_iff_eq, Prod.mk.injEq, HasKey, hc.edgesAscend.mem_entries_iff]
  constructor
  · rintro ⟨e, et, he, k, ⟨hk, hv⟩, rfl, rfl⟩
    exact ⟨⟨et, he, hk⟩, hv⟩
  · rintro ⟨⟨et, he, hk⟩, hv⟩
    exact ⟨e, et, he, k, ⟨hk, hv⟩, rfl, rfl⟩

theorem Consistent.nodup_foreignKeysInto (hc : t.Consistent) (v : Table) :
    (t.foreignKeysInto v).Nodup := by
  unfold foreignKeysInto
  refine List.nodup_flatMap.mpr ⟨?_, ?_⟩
  · rintro ⟨e, et⟩ he
    have hkeys := (hc.keysAscend (hc.edgesAscend.mem_entries_iff.mp he)).nodup
    exact (hkeys.filter _).map fun k k' h => (Prod.mk.inj h).2
  · -- the lists of different edge tables differ in their first components
    refine hc.edgesAscend.imp fun {a b} hlt => ?_
    intro x ha hb
    obtain ⟨_, _, rfl⟩ := List.mem_map.mp ha
    obtain ⟨_, _, hx⟩ := List.mem_map.mp hb
    exact ne_of_compare_lt hlt (Prod.mk.inj hx).1.symm

theorem Consistent.sameGraph (hc : t.Consistent) : t.SameGraph where
  outgoing e v := (hc.mem_edgesAt_iff (d := .outgoing) nofun).trans mem_keysOf_iff.symm
  incoming e v := (hc.mem_edgesAt_iff (d := .incoming) nofun).trans mem_keysOf_iff.symm
  keys := by
    intro e k hk
    have hk := mem_keysOf_iff.mp hk
    refine ⟨?_, mem_vertexTables_iff.mpr (hc.keyVertex hk), ?_⟩
    · obtain ⟨et, het, _⟩ := hk
      exact SortedMap.mem_keys_iff.mpr ⟨et, het⟩
    · cases hd : k.direction with
      | outgoing => exact Or.inl rfl
      | incoming => exact Or.inr rfl
      | both => exact absurd hd (hc.keyDirection hk)
  entries v := by
    rw [Option.isSome_iff_exists, mem_vertexTables_iff]
    exact hc.incidenceIff
  into v e k := by rw [hc.mem_foreignKeysInto_iff, mem_keysOf_iff]
  once := hc.nodup_foreignKeysInto

/-- **The two views never drift apart.** After any registrations, refused ones among them, the
foreign-key graph is one graph, and a further one that is refused changes nothing. -/
theorem after_sameGraph (rs : List Registration) :
    (after rs).SameGraph ∧
    ∀ (r : Registration) (e : SchemaError) (t' : Topology),
      r.run (after rs) = .error e t' → t' = after rs := by
  refine ⟨(after_built rs).consistent.sameGraph, ?_⟩
  intro r e t' h
  rw [r.run_eq] at h
  split at h
  · cases h
  · cases h
    rfl

end Topology

end TraversalSql
