import TraversalSql.Proofs.BoundRoots
import TraversalSql.Proofs.Survivors

/-!
# Tables that no id names

Where every filter of a hop on the id lists records, the hop leaves all other tables away before it
looks at them. That is a shortcut: with such a table in the tree, the filters resolved against it
would have been empty memberships, and pruning would have cut its node off. The shortcut reads the
literals in its own way, records first and no integers, while resolving takes a text for an integer
if it can. The two never disagree, since a text with a colon spells no integer.
-/

set_option autoImplicit false

namespace TraversalSql

open QueryTree

/-! ## 1. Filters that name other tables only -/

/-- Literals that denote nothing in the table leave an empty membership. -/
theorem Predicate.resolveIds_of_pinned {p : Predicate} {vs : List Value} {table : Table}
    (h : p.pinned? = some vs) (hnone : ∀ v ∈ vs, v.idIn? table = none) :
    p.resolveIds? table = some (.within []) := by
  cases p with
  | compare op v =>
    cases op <;> simp only [pinned?, Option.some.injEq, reduceCtorEq] at h
    subst h
    simp [resolveIds?, hnone v List.mem_cons_self]
  | within ws =>
    obtain rfl : ws = vs := Option.some.inj h
    have hids : ws.filterMap (Value.idIn? table) = [] := List.filterMap_eq_nil_iff.mpr hnone
    rw [resolveIds?, idsIn, hids, List.map_nil]
  | present | absent | without | between | inside | outside | and | or | text | fullText
  | lambda => cases h

variable {h : Hop} {table : Table} {tables : List Table}

/-- None of the literals denotes anything in a table that none of them names. -/
theorem Hop.pinned_of_not_mem (ht : h.idTables? table.kind = some tables) (hno : table ∉ tables) :
    ∀ p ∈ h.idPredicates, ∃ vs, p.pinned? = some vs ∧ ∀ v ∈ vs, v.idIn? table = none := by
  intro p hp
  obtain ⟨vs, hvs, hnames⟩ := (pinned_of_idTables ht).2 p hp
  refine ⟨vs, hvs, fun v hv => Option.eq_none_iff_forall_ne_some.mpr fun i hi => hno ?_⟩
  obtain ⟨t, htm, hvt⟩ := hnames v hv
  exact Value.recordTable_eq hi hvt ▸ htm

/-- A root that is bound at all keeps filters that come to nothing. -/
theorem Run.keepsIds_of_resolveIds {settings : Settings} {binding : RootBinding}
    (hempty : ∀ p ∈ h.idPredicates, p.resolveIds? table = some (.within []))
    (hbound : rootBinding? settings h table = some binding) : keepsIds binding = true := by
  cases binding with
  | unconstrained | incoming => rfl
  | ids ids =>
    obtain ⟨hne, ⟨p, hp, hids⟩, -⟩ := rootBinding_ids hbound
    have hnil : p.boundIds? table = some [] := by
      have hq := hempty p (hp ▸ List.mem_singleton_self p)
      simp only [Predicate.boundIds?, hq, Option.bind_eq_bind, Option.bind_some]
      rfl
    exact absurd (Option.some.inj (hids.symm.trans hnil)) hne

/-! ## 2. Nodes that pruning cuts off -/

namespace QueryTree

variable {t t' grown : QueryTree} {id : Nat} {n : QueryNode} {F : Nat → Prop}

/-- A blocked node is cut off. At the root nothing can be, and the whole tree has no results. -/
theorem prune_of_blocked (hw : t.WellFormed) (hn : t.nodes[id]? = some n)
    (hlive : n.removed = false) (hblocked : n.Blocked) :
    if id = root then t.prune.unsatisfiable = true else ¬ t.prune.Live id := by
  have hpruned := isPruned_prune hw
  split
  · rename_i hroot
    exact hpruned.unsatisfiable.mpr (Or.inr ⟨n, hroot ▸ hn, hblocked⟩)
  · rename_i hroot
    rw [hpruned.survivor hroot ⟨n, hn, hlive⟩]
    exact fun hs => hs.way id ((mem_path_iff hw.parentLt).mpr (.refl id)) hroot n hn hblocked

/-- A hop whose filters come to nothing in a node's table blocks the node that it is put on, and
what grows below the node later changes nothing about it. -/
theorem blocked_of_applyTo {T : Topology} {p : Predicate} (hn : t.nodes[id]? = some n)
    (hp : p ∈ h.idPredicates) (hempty : p.resolveIds? n.table = some (.within []))
    (happly : h.applyTo T t id true = .ok t') (hx : Extends F t' grown) :
    ∃ m, grown.nodes[id]? = some m ∧ m.removed = n.removed ∧ m.Blocked := by
  obtain ⟨t₁, happly₁, -, hdress, -⟩ := applyTo_ok h T true hn
  obtain rfl : t' = t₁ := Except.ok.inj (happly.symm.trans happly₁)
  obtain ⟨m, hm, hcore⟩ := hx.core hdress
  have hids : m.idPredicates =
      n.idPredicates ++ h.idPredicates.filterMap (Predicate.resolveIds? n.table) :=
    QueryNode.eq_of_core QueryNode.idPredicates (fun _ => rfl) hcore
  have hlive : m.removed = (h.dress T true n).removed :=
    QueryNode.eq_of_core QueryNode.removed (fun _ => rfl) hcore
  refine ⟨m, hm, hlive, Or.inl ⟨.within [], ?_, .within⟩⟩
  rw [hids, List.mem_append]
  exact Or.inr (List.mem_filterMap.mpr ⟨p, hp, hempty⟩)

end QueryTree

/-! ## 3. Nothing is lost -/

/-- **Leaving tables away loses nothing.** Let the ids of a hop all name tables, and a table be none
of them. Each of the hop's filters on the id, resolved against the table, is an empty membership,
and it holds of no row of the table. Had the hop been put on a live node of the table all the same,
pruning would have cut the node off, whatever had grown below it meanwhile; at the root, which keeps
its filters if it is bound at all, the tree would have been without results. -/
theorem Hop.tables_left_away (ht : h.idTables? table.kind = some tables) (hno : table ∉ tables) :
    (∀ p ∈ h.idPredicates, ∃ q, p.resolveIds? table = some q ∧ q.isEmptyMembership = true) ∧
    (∀ p ∈ h.idPredicates, ∀ truth i, ¬ p.HoldsOf truth table i) ∧
    (∀ (T : Topology) (t t' grown : QueryTree) (id : Nat) (n : QueryNode),
      t.nodes[id]? = some n → n.table = table → n.removed = false →
      h.applyTo T t id true = .ok t' → Extends (fun _ => True) t' grown → grown.WellFormed →
        if id = root then grown.prune.unsatisfiable = true else ¬ grown.prune.Live id) ∧
    ∀ settings binding, Run.rootBinding? settings h table = some binding →
      Run.keepsIds binding = true := by
  have hempty : ∀ p ∈ h.idPredicates, p.resolveIds? table = some (.within []) := by
    intro p hp
    obtain ⟨vs, hvs, hnone⟩ := pinned_of_not_mem ht hno p hp
    exact Predicate.resolveIds_of_pinned hvs hnone
  refine ⟨fun p hp => ⟨_, hempty p hp, rfl⟩, fun p hp truth i hi => ?_, ?_,
    fun settings binding => Run.keepsIds_of_resolveIds hempty⟩
  · obtain ⟨vs, hvs, hnone⟩ := pinned_of_not_mem ht hno p hp
    obtain ⟨v, hv, hvi⟩ := (Predicate.holdsOf_of_pinned hvs).mp hi
    rw [hnone v hv] at hvi
    cases hvi
  · intro T t t' grown id n hn htable hlive happly hx hw
    obtain ⟨p, hp⟩ := List.exists_mem_of_ne_nil _ (pinned_of_idTables ht).1
    subst htable
    obtain ⟨m, hm, hkept, hblocked⟩ := blocked_of_applyTo hn hp (hempty p hp) happly hx
    exact prune_of_blocked hw hm (hkept.trans hlive) hblocked

namespace People

/-- Those whom a person knows, but the ids are of robots and of a person in another schema. -/
def strangers : Hop where
  kind := .move (.follow .outgoing ["knows"] .vertex)
  depth := 1
  idPredicates := [.compare .eq (.string "Robot:1"),
    .within [.record ⟨⟨"public", "Robot", .vertex⟩, 2⟩, .string "old.Person:3"]]

/-- What the hop sets at a friend. -/
def dressed : NodeEdit where
  depth := 1
  emit := false
  leftJoin := false
  intermediate := false
  filters := []
  idPredicates := [.within [], .within []]

/-- People are left away, and a friend that the hop is put on is cut off. -/
theorem strangers_left_away :
    strangers.idTables? person.kind = some [⟨"public", "Robot", .vertex⟩,
      ⟨"public", "Robot", .vertex⟩, ⟨"old", "Person", .vertex⟩] ∧
    (∀ p ∈ strangers.idPredicates,
      ∃ q, p.resolveIds? person = some q ∧ q.isEmptyMembership = true) ∧
    strangers.applyTo topology Boughs.friends 4 true =
      .ok (Boughs.friends.modify 4 (QueryNode.edit dressed)) ∧
    ¬ (Boughs.friends.modify 4 (QueryNode.edit dressed)).prune.Live 4 := by
  have htables : strangers.idTables? person.kind = some [⟨"public", "Robot", .vertex⟩,
      ⟨"public", "Robot", .vertex⟩, ⟨"old", "Person", .vertex⟩] := by decide
  have happly : strangers.applyTo topology Boughs.friends 4 true =
      .ok (Boughs.friends.modify 4 (QueryNode.edit dressed)) := rfl
  obtain ⟨hempty, -, hcut, -⟩ := Hop.tables_left_away htables (by decide)
  refine ⟨htables, hempty, happly, ?_⟩
  exact hcut topology _ _ _ 4 _ rfl rfl rfl happly (.refl _)
    (Boughs.edited_friends.editNode 4 dressed).wellFormed

end People

end TraversalSql
