import TraversalSql.Proofs.IntegerTexts
import TraversalSql.Proofs.Results
import TraversalSql.Proofs.StoredGraph
import TraversalSql.Tree.Build

/-!
# Filters on ids keep their meaning

A query tree never holds a filter on ids as the hop has it. The filter is resolved against the
table of the node, some tables are left away because no literal names them, and a root's filter
may be turned into a list of ids to run for. Each of these is harmless, and that is this file:

* `resolveIds_iff` – the resolved filter says of an id what the filter says of the element;
* `not_holds_of_isEmptyMembership` – what pruning takes for an empty membership holds of nothing;
* `matchesTable_of_passes` – a table with a row that passes a hop is not left away;
* `boundIds_iff` – the ids that a filter pins a root to are those it holds of.
-/

set_option autoImplicit false

namespace TraversalSql

namespace Predicate

variable {truth : Truth} {table : Table} {id : Int64}

/-! ## 1. Resolving -/

theorem mem_idsIn {vs : List Value} :
    (∃ v ∈ idsIn table vs, v.toInt? = some id) ↔ ∃ v ∈ vs, v.idIn? table = some id := by
  simp only [idsIn, List.mem_map, List.mem_filterMap]
  constructor
  · rintro ⟨_, ⟨i, ⟨v, hv, hi⟩, rfl⟩, hid⟩
    obtain rfl : i = id := by simpa [Value.toInt?] using hid
    exact ⟨v, hv, hi⟩
  · rintro ⟨v, hv, hi⟩
    exact ⟨.int id, ⟨id, ⟨v, hv, hi⟩, rfl⟩, rfl⟩

/-- What the outcome of resolving a filter says of an id; a filter that is gone holds always. -/
def OutcomeHolds (truth : Truth) (id : Int64) : Option Predicate → Prop
  | some q => q.HoldsAt truth id
  | none => True

theorem outcome_ordered {op : Comparison} {v : Value} (h : op ≠ .neq) :
    (OutcomeHolds truth id (resolveIds? table (.compare op v)) ↔
      (Predicate.compare op v).HoldsOf truth table id) := by
  cases hv : v.idIn? table with
  | none =>
    cases op <;> simp_all [resolveIds?, OutcomeHolds, HoldsAt, HoldsOf]
  | some i =>
    cases op <;> simp_all [resolveIds?, OutcomeHolds, HoldsAt, HoldsOf, Value.toInt?]

theorem outcome_without {vs : List Value} :
    (OutcomeHolds truth id (resolveIds? table (.without vs)) ↔
      (Predicate.without vs).HoldsOf truth table id) := by
  have hmem : (∃ v ∈ idsIn table vs, v.toInt? = some id) ↔ ∃ v ∈ vs, v.idIn? table = some id :=
    mem_idsIn
  simp only [resolveIds?, HoldsOf]
  split
  · rename_i hnil
    rw [hnil] at hmem
    simpa [OutcomeHolds] using hmem
  · simp only [OutcomeHolds, HoldsAt, hmem]

mutual

/-- **Resolving keeps the meaning.** What resolving returns says of an id what the filter says of
the element of the table with that id. -/
theorem outcome_resolveIds (p : Predicate) :
    OutcomeHolds truth id (p.resolveIds? table) ↔ p.HoldsOf truth table id := by
  match p with
  | .compare op v =>
    by_cases h : op = .neq
    · subst h
      cases hv : v.idIn? table with
      | none => simp [resolveIds?, hv, OutcomeHolds, HoldsOf]
      | some i =>
        simp only [resolveIds?, hv, OutcomeHolds, HoldsOf, HoldsAt, Value.toInt?, Option.map_some,
          Option.some.injEq, exists_eq_left', Comparison.Relates, ne_eq]
        exact not_congr eq_comm
    · exact outcome_ordered h
  | .within vs =>
    simp only [resolveIds?, OutcomeHolds, HoldsAt, HoldsOf]
    exact mem_idsIn
  | .without vs => exact outcome_without
  | .and ps =>
    have hall := allHoldAt_resolveSome ps
    simp only [resolveIds?, HoldsOf]
    split
    · rename_i hnil
      rw [hnil] at hall
      simpa [OutcomeHolds, AllHoldAt] using hall
    · simpa [OutcomeHolds, HoldsAt] using hall
  | .or ps =>
    have hany := anyHoldsAt_resolveEach ps
    simp only [resolveIds?, HoldsOf]
    cases hr : resolveEach? table ps with
    | none => simpa [hr, OutcomeHolds] using hany
    | some qs => simpa [hr, OutcomeHolds, HoldsAt] using hany
  | .present | .absent | .between _ _ | .inside _ _ | .outside _ _ | .text _ _ | .fullText _ _
  | .lambda _ => simp only [resolveIds?, OutcomeHolds, HoldsOf]

theorem allHoldAt_resolveSome (ps : List Predicate) :
    AllHoldAt truth id (resolveSome table ps) ↔ AllHoldOf truth table id ps := by
  match ps with
  | [] => simp [resolveSome, AllHoldAt, AllHoldOf]
  | p :: ps =>
    have hp := outcome_resolveIds p
    have hps := allHoldAt_resolveSome ps
    simp only [resolveSome, AllHoldOf]
    split
    · rename_i q hq
      rw [hq] at hp
      exact and_congr hp hps
    · rename_i hq
      rw [hq] at hp
      rw [← hp, hps]
      simp [OutcomeHolds]

/-- A disjunction is dropped if one of its parts is: then it holds. -/
theorem anyHoldsAt_resolveEach (ps : List Predicate) :
    (match resolveEach? table ps with
      | some qs => AnyHoldsAt truth id qs
      | none => True) ↔ AnyHoldsOf truth table id ps := by
  match ps with
  | [] => simp [resolveEach?, AnyHoldsAt, AnyHoldsOf]
  | p :: ps =>
    have hp := outcome_resolveIds p
    have hps := anyHoldsAt_resolveEach ps
    simp only [resolveEach?, AnyHoldsOf]
    cases hq : p.resolveIds? table with
    | none =>
      rw [hq] at hp
      rw [← hp]
      simp [OutcomeHolds]
    | some q =>
      rw [hq] at hp
      rw [← hp, ← hps]
      cases resolveEach? table ps with
      | none => simp
      | some qs => simp [AnyHoldsAt, OutcomeHolds]

end

/-- The resolved filters of a node hold of an id exactly if the hop's filters hold of the
element. -/
theorem resolveIds_iff (ps : List Predicate) :
    (∀ q ∈ ps.filterMap (resolveIds? table), q.HoldsAt truth id) ↔
      ∀ p ∈ ps, p.HoldsOf truth table id := by
  simp only [List.mem_filterMap]
  constructor
  · intro h p hp
    refine outcome_resolveIds p |>.mp ?_
    cases hr : p.resolveIds? table with
    | none => trivial
    | some q => exact h q ⟨p, hp, hr⟩
  · rintro h q ⟨p, hp, hr⟩
    have := (outcome_resolveIds p).mpr (h p hp)
    rwa [hr] at this

/-! ## 2. Empty memberships -/

mutual

theorem not_holdsAt_of_isEmptyMembership (p : Predicate) (h : p.isEmptyMembership = true) :
    ¬ p.HoldsAt truth id := by
  match p with
  | .within vs =>
    obtain rfl : vs = [] := List.isEmpty_iff.mp (by simpa [isEmptyMembership] using h)
    simp [HoldsAt]
  | .and ps =>
    simp only [isEmptyMembership] at h
    exact not_allHoldAt_of_anyEmptyMembership ps h
  | .or ps =>
    simp only [isEmptyMembership, Bool.and_eq_true] at h
    exact not_anyHoldsAt_of_allEmptyMembership ps h.2
  | .compare _ _ | .without _ | .present | .absent | .between _ _ | .inside _ _ | .outside _ _
  | .text _ _ | .fullText _ _ | .lambda _ => simp [isEmptyMembership] at h

theorem not_allHoldAt_of_anyEmptyMembership (ps : List Predicate)
    (h : anyEmptyMembership ps = true) : ¬ AllHoldAt truth id ps := by
  match ps with
  | [] => simp [anyEmptyMembership] at h
  | p :: ps =>
    simp only [anyEmptyMembership, Bool.or_eq_true] at h
    rintro ⟨hp, hps⟩
    rcases h with h | h
    · exact not_holdsAt_of_isEmptyMembership p h hp
    · exact not_allHoldAt_of_anyEmptyMembership ps h hps

theorem not_anyHoldsAt_of_allEmptyMembership (ps : List Predicate)
    (h : allEmptyMembership ps = true) : ¬ AnyHoldsAt truth id ps := by
  match ps with
  | [] => simp [AnyHoldsAt]
  | p :: ps =>
    simp only [allEmptyMembership, Bool.and_eq_true] at h
    rintro (hp | hps)
    · exact not_holdsAt_of_isEmptyMembership p h.1 hp
    · exact not_anyHoldsAt_of_allEmptyMembership ps h.2 hps

end

mutual

/-- The same for a property, whatever truth is assigned to predicates. -/
theorem not_holds_of_isEmptyMembership (p : Predicate) (v : Value)
    (h : p.isEmptyMembership = true) : ¬ truth.holds p v := by
  match p with
  | .within vs =>
    obtain rfl : vs = [] := List.isEmpty_iff.mp (by simpa [isEmptyMembership] using h)
    exact truth.withinNil v
  | .and ps =>
    simp only [isEmptyMembership] at h
    obtain ⟨p, hp, hno⟩ := exists_fails_of_anyEmptyMembership ps v h
    exact fun hall => hno ((truth.andIff ps v).mp hall p hp)
  | .or ps =>
    simp only [isEmptyMembership, Bool.and_eq_true] at h
    intro hany
    obtain ⟨p, hp, hyes⟩ := (truth.orIff ps v).mp hany
    exact all_fail_of_allEmptyMembership ps v h.2 p hp hyes
  | .compare _ _ | .without _ | .present | .absent | .between _ _ | .inside _ _ | .outside _ _
  | .text _ _ | .fullText _ _ | .lambda _ => simp [isEmptyMembership] at h

theorem exists_fails_of_anyEmptyMembership (ps : List Predicate) (v : Value)
    (h : anyEmptyMembership ps = true) : ∃ p ∈ ps, ¬ truth.holds p v := by
  match ps with
  | [] => simp [anyEmptyMembership] at h
  | p :: ps =>
    simp only [anyEmptyMembership, Bool.or_eq_true] at h
    rcases h with h | h
    · exact ⟨p, List.mem_cons_self, not_holds_of_isEmptyMembership p v h⟩
    · obtain ⟨q, hq, hno⟩ := exists_fails_of_anyEmptyMembership ps v h
      exact ⟨q, List.mem_cons_of_mem _ hq, hno⟩

theorem all_fail_of_allEmptyMembership (ps : List Predicate) (v : Value)
    (h : allEmptyMembership ps = true) : ∀ p ∈ ps, ¬ truth.holds p v := by
  match ps with
  | [] => simp
  | p :: ps =>
    simp only [allEmptyMembership, Bool.and_eq_true] at h
    have hp := not_holds_of_isEmptyMembership p v h.1
    exact List.forall_mem_cons.mpr ⟨hp, all_fail_of_allEmptyMembership ps v h.2⟩

end

/-! ## 3. Ids that a filter pins -/

theorem mapM_toInt_ints (is : List Int64) :
    (is.map Value.int).mapM Value.toInt? = some is := by
  have hid : is.mapM (Value.toInt? ∘ Value.int) = some (is.map id) := mapM_some fun _ _ => rfl
  rw [List.mapM_map, hid, List.map_id]

/-- The filter is an equality with the only id of the list, or a membership of the list. -/
inductive Lists : Predicate → List Int64 → Prop
  | one (i : Int64) : Lists (.compare .eq (.int i)) [i]
  | many (ids : List Int64) : Lists (.within (ids.map .int)) ids

theorem Lists.holdsAt_iff {q : Predicate} {ids : List Int64} (h : q.Lists ids) :
    q.HoldsAt truth id ↔ id ∈ ids := by
  cases h <;> simp [HoldsAt, Value.toInt?, Comparison.Relates]

/-- A filter that pins rows to ids is resolved to one that lists them. If there are any, they are
those that its literals denote, in the order of these. -/
theorem boundIds_spec {p : Predicate} {ids : List Int64} (h : p.boundIds? table = some ids) :
    ∃ q, p.resolveIds? table = some q ∧ q.Lists ids ∧
      (ids ≠ [] → ∃ vs, p.pinned? = some vs ∧ ids = vs.filterMap (Value.idIn? table)) := by
  simp only [boundIds?, Option.bind_eq_bind, Option.bind_eq_some_iff] at h
  obtain ⟨q, hq, h⟩ := h
  refine ⟨q, hq, ?_⟩
  cases p with
  | compare op v =>
    cases hv : v.idIn? table with
    | none =>
      -- the literal denotes no row: an empty membership, or nothing at all for `neq`
      cases op <;> simp only [resolveIds?, hv, Option.map_none, Option.some.injEq,
        reduceCtorEq] at hq
      all_goals
        subst hq
        simp only [List.mapM_nil, Option.pure_def, Option.some.injEq] at h
        subst h
        exact ⟨.many [], fun hne => absurd rfl hne⟩
    | some i =>
      cases op <;> simp only [resolveIds?, hv, Option.map_some, Option.some.injEq] at hq
      case eq =>
        subst hq
        obtain rfl : [i] = ids := by simpa [Value.toInt?] using h
        exact ⟨.one i, fun _ => ⟨[v], rfl, by simp [hv]⟩⟩
      all_goals
        subst hq
        simp at h
  | within vs =>
    simp only [resolveIds?, Option.some.injEq] at hq
    subst hq
    simp only [idsIn, mapM_toInt_ints, Option.some.injEq] at h
    subst h
    exact ⟨.many _, fun _ => ⟨vs, rfl, rfl⟩⟩
  | without vs =>
    simp only [resolveIds?] at hq
    split at hq <;> cases hq
    simp at h
  | and ps =>
    simp only [resolveIds?] at hq
    split at hq <;> cases hq
    simp at h
  | or ps =>
    simp only [resolveIds?, Option.map_eq_some_iff] at hq
    obtain ⟨qs, _, rfl⟩ := hq
    simp at h
  | present | absent | between | inside | outside | text | fullText | lambda =>
    simp only [resolveIds?, Option.some.injEq] at hq
    subst hq
    simp at h

/-- The ids that a filter pins a table's rows to are those that it holds of. -/
theorem boundIds_iff {p : Predicate} {ids : List Int64} (h : p.boundIds? table = some ids) :
    p.HoldsOf truth table id ↔ id ∈ ids := by
  obtain ⟨q, hq, hlists, -⟩ := boundIds_spec h
  have hr : OutcomeHolds truth id (p.resolveIds? table) ↔ p.HoldsOf truth table id :=
    outcome_resolveIds p
  rw [← hr, hq]
  exact hlists.holdsAt_iff

end Predicate

/-! ## 4. Tables that no literal names -/

/-- A text that spells an integer holds no colon, so it is no record's text. -/
theorem Reading.colon_not_mem_of_integer {s : String} {i : Int64} (h : integer? s = some i) :
    ':' ∉ s.toList := by
  intro hc
  rcases (integral_of_integer? h).mem hc with hc | hc | hc <;> exact absurd hc (by decide)

theorem RecordId.colon_mem_of_parse {s : String} {kind : ElementKind} {r : RecordId}
    (h : RecordId.parse? s kind = some r) : ':' ∈ s.toList := by
  by_contra hc
  have hcut : Text.splitLast ':' s = none := by
    simp [Text.splitLast, (Text.cutLast_eq_none_iff ':' s.toList).mpr hc]
  simp [RecordId.parse?, hcut] at h

/-- A literal that denotes a row of a table and names a table at all names that one. -/
theorem Value.recordTable_eq {v : Value} {table t : Table} {i : Int64}
    (hi : v.idIn? table = some i) (ht : v.recordTable? table.kind = some t) : t = table := by
  cases v with
  | record r =>
    simp only [Value.idIn?] at hi
    split at hi
    · rename_i heq
      simp only [Value.recordTable?, Option.some.injEq] at ht
      exact ht.symm.trans heq
    · cases hi
  | string s =>
    simp only [Value.recordTable?, Option.map_eq_some_iff] at ht
    obtain ⟨r, hr, rfl⟩ := ht
    simp only [Value.idIn?] at hi
    split at hi
    · rename_i n hn
      exact absurd (RecordId.colon_mem_of_parse hr) (Reading.colon_not_mem_of_integer hn)
    · simp only [hr, Option.bind_some] at hi
      split at hi
      · assumption
      · cases hi
  | null | bool | int | float => cases ht

theorem exists_mem_of_mapM {α β : Type} {f : α → Option β} {l : List α} {r : List β}
    (h : l.mapM f = some r) : ∀ a ∈ l, ∃ b ∈ r, f a = some b := by
  induction l generalizing r with
  | nil => intro a ha; exact absurd ha List.not_mem_nil
  | cons x l ih =>
    simp only [List.mapM_cons, Option.bind_eq_bind, Option.bind_eq_some_iff, Option.pure_def,
      Option.some.injEq] at h
    obtain ⟨y, hy, ys, hys, rfl⟩ := h
    refine List.forall_mem_cons.mpr ⟨⟨y, List.mem_cons_self, hy⟩, fun a ha => ?_⟩
    obtain ⟨b, hb, hab⟩ := ih hys a ha
    exact ⟨b, List.mem_cons_of_mem _ hb, hab⟩

/-- A filter that lists literals holds of what one of them denotes. -/
theorem Predicate.holdsOf_of_pinned {p : Predicate} {vs : List Value} {truth : Truth}
    {table : Table} {id : Int64} (h : p.pinned? = some vs) :
    p.HoldsOf truth table id ↔ ∃ v ∈ vs, v.idIn? table = some id := by
  cases p with
  | compare op v =>
    cases op <;> simp only [pinned?, Option.some.injEq, reduceCtorEq] at h
    subst h
    simp [HoldsOf, Comparison.Relates]
  | within ws =>
    cases h
    rfl
  | present | absent | without | between | inside | outside | and | or | text | fullText
  | lambda => cases h

/-- Where a hop's ids all name tables, it has a filter on the id, and every such filter lists
literals that name some of these tables. -/
theorem Hop.pinned_of_idTables {h : Hop} {kind : ElementKind} {tables : List Table}
    (ht : h.idTables? kind = some tables) : h.idPredicates ≠ [] ∧
      ∀ p ∈ h.idPredicates, ∃ vs, p.pinned? = some vs ∧
        ∀ v ∈ vs, ∃ t ∈ tables, v.recordTable? kind = some t := by
  simp only [idTables?] at ht
  split at ht
  · cases ht
  · rename_i hne
    simp only [Option.bind_eq_bind, Option.bind_eq_some_iff] at ht
    obtain ⟨pinned, hpinned, htables⟩ := ht
    refine ⟨mt List.isEmpty_iff.mpr hne, fun p hp => ?_⟩
    obtain ⟨vs, hvs, hpin⟩ := exists_mem_of_mapM hpinned p hp
    exact ⟨vs, hpin, fun v hv =>
      exists_mem_of_mapM htables v (List.mem_flatten.mpr ⟨vs, hvs, hv⟩)⟩

/-- Where a hop's ids all name tables, an element that satisfies its filters on the id is in one
of them. -/
theorem Hop.mem_idTables {h : Hop} {truth : Truth} {table : Table} {id : Int64}
    {tables : List Table} (ht : h.idTables? table.kind = some tables)
    (hid : ∀ p ∈ h.idPredicates, p.HoldsOf truth table id) : table ∈ tables := by
  obtain ⟨hne, hpinned⟩ := pinned_of_idTables ht
  -- one filter is enough: some literal of it denotes the element
  obtain ⟨p, hp⟩ := List.exists_mem_of_ne_nil _ hne
  obtain ⟨vs, hvs, hnames⟩ := hpinned p hp
  obtain ⟨v, hv, hi⟩ := (Predicate.holdsOf_of_pinned hvs).mp (hid p hp)
  obtain ⟨t, htm, hvt⟩ := hnames v hv
  exact Value.recordTable_eq hi hvt ▸ htm

/-! ## 5. Filters on properties -/

/-- Rows of a table with properties pass the filters of a hop exactly if the table is not left
away and they pass the filters that apply to it. -/
theorem Hop.filtersFor_iff {T : Topology} {truth : Truth} {h : Hop} {v : Visit} {ps : Properties}
    (hps : T.properties? v.table = some ps) :
    (∀ f ∈ h.filters, f.Passes T truth v) ↔
      ∃ fs, h.filtersFor? T v.table = some fs ∧
        ∀ f ∈ fs, truth.holds f.predicate (v.row.value f.key) := by
  simp only [Filter.Passes, filtersFor?, hps, Option.getD_some, Option.bind_eq_bind,
    Option.bind_some]
  constructor
  · intro hall
    refine ⟨h.filters.filter fun f => ps.contains f.key, if_pos ?_, fun f hf => ?_⟩
    · refine List.all_eq_true.mpr fun f hf => ?_
      have hpass := hall f hf
      by_cases hk : ps.contains f.key = true
      · rw [hk, Bool.true_or]
      · rw [if_neg hk] at hpass
        rw [hpass, Bool.or_true]
    · obtain ⟨hmem, hk⟩ := List.mem_filter.mp hf
      have hpass := hall f hmem
      rwa [if_pos hk] at hpass
  · rintro ⟨fs, hfs, hall⟩ f hf
    split at hfs
    · rename_i hadmit
      cases hfs
      by_cases hk : ps.contains f.key = true
      · rw [if_pos hk]
        exact hall f (List.mem_filter.mpr ⟨hf, hk⟩)
      · rw [if_neg hk]
        have := List.all_eq_true.mp hadmit f hf
        simpa [hk] using this
    · cases hfs

/-- A table with a row that passes a hop is not left away. -/
theorem Hop.matchesTable_of_passes {T : Topology} {truth : Truth} {h : Hop} {v : Visit}
    {ps : Properties} (hps : T.properties? v.table = some ps) (hv : h.Passes T truth v) :
    h.matchesTable T v.table = true := by
  simp only [matchesTable, Bool.and_eq_true]
  refine ⟨⟨List.all_eq_true.mpr hv.label, ?_⟩, ?_⟩
  · split
    · rename_i tables ht
      exact List.contains_iff_mem.mpr (mem_idTables ht hv.id)
    · rfl
  · obtain ⟨fs, hfs, _⟩ := (filtersFor_iff hps).mp hv.filters
    rw [hfs]
    rfl

end TraversalSql
