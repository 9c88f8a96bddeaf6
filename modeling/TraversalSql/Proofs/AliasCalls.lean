import Mathlib.Data.Finmap
import TraversalSql.Proofs.Decoding
import TraversalSql.Proofs.Identifiers

/-!
# Requests for aliases, and resets

Aliases are handed out on request, and a reset forgets them all. After any requests and resets, the
keys that were requested since the last reset and the aliases `alias1`, `alias2` and so on, as many
as there are such keys, belong to each other one to one (`AliasTable.Paired`).

A table of aliases has one list, and a key's alias is its place there. To look up both ways without
a search one keeps a map for either way and a counter, three things that a request has to change
together (`AliasStore`). They never drift apart, and nobody who asks can tell a store from a table
(`AliasStore.Mirrors`).
-/

set_option autoImplicit false

namespace TraversalSql

/-! ## 1. Calls -/

/-- A call that may change which key has which alias. -/
inductive AliasCall where
  | request (key : AliasKey)
  | reset

namespace AliasCall

/-- The keys that were requested since the last reset, after one more call. -/
def record (ks : List AliasKey) : AliasCall → List AliasKey
  | request k => ks ++ [k]
  | reset => []

/-- The keys that were requested since the last reset, each as often as it was requested. -/
def requested (calls : List AliasCall) : List AliasKey := calls.foldl record []

end AliasCall

namespace AliasTable

/-- The table that a call leaves. -/
def call (t : AliasTable) : AliasCall → AliasTable
  | .request k => (t.request k).2
  | .reset => ∅

/-- The table that calls leave, from an empty one on. -/
def after (calls : List AliasCall) : AliasTable := calls.foldl call ∅

/-! ## 2. The table -/

variable {t : AliasTable} {ks : List AliasKey} {k k' : AliasKey} {name : String}

theorem find?_eq_some_iff : t.find? k = some name ↔ k ∈ t.keys ∧ name = t.name k := by
  rw [find?, AliasTable.name, List.idxOf_eq_getD_idxOf?]
  cases h : t.keys.idxOf? k with
  | none => simp [List.idxOf?_eq_none_iff.mp h]
  | some i =>
    have hk : k ∈ t.keys := List.isSome_idxOf?.mp (by rw [h]; rfl)
    simp [hk, eq_comm]

theorem find?_eq_none_iff : t.find? k = none ↔ k ∉ t.keys := by
  rw [find?, Option.map_eq_none_iff, List.idxOf?_eq_none_iff]

theorem keyOf?_eq_some_iff (hnodup : t.keys.Nodup) :
    t.keyOf? name = some k ↔ t.find? k = some name := by
  have hentry : ∀ {k}, t.keyOf? name = some k → t.find? k = some name := by
    intro k h
    have hmem : (name, k) ∈ (⟨t.entries⟩ : SortedMap String AliasKey).entries :=
      SortedMap.mem_entries_of_find h
    exact find?_eq_some_iff.mpr ((mem_entries hnodup).mp hmem)
  refine ⟨hentry, ?_⟩
  intro h
  obtain ⟨hk, rfl⟩ := find?_eq_some_iff.mp h
  obtain ⟨k', hk'⟩ := Option.ne_none_iff_exists'.mp (keyOf?_name hnodup hk)
  obtain ⟨_, hname⟩ := find?_eq_some_iff.mp (hentry hk')
  rw [hk', name_inj hk hname]

theorem ascending_snapshot (t : AliasTable) : t.snapshot.Ascending := SortedMap.ascending_ofList _

theorem mem_snapshot_iff (hnodup : t.keys.Nodup) :
    (name, k) ∈ t.snapshot.entries ↔ t.find? k = some name :=
  (mem_snapshot hnodup).trans find?_eq_some_iff.symm

theorem request_known (h : t.find? k = some name) : t.request k = (name, t) := by
  rw [request, h]

theorem request_new (h : t.find? k = none) :
    t.request k = (aliasName (t.keys.length + 1), ⟨t.keys ++ [k]⟩) := by
  rw [request, h]

theorem request_snd (t : AliasTable) (k : AliasKey) : (t.request k).2 = t.add k := by
  cases h : t.find? k with
  | none => rw [request_new h, add, if_neg (find?_eq_none_iff.mp h)]
  | some name => rw [request_known h, add, if_pos (find?_eq_some_iff.mp h).1]

/-- A new key gets the next alias, and every other key keeps its own. -/
theorem find?_concat (h : t.find? k = none) (k' : AliasKey) :
    (⟨t.keys ++ [k]⟩ : AliasTable).find? k'
      = if k' = k then some (aliasName (t.keys.length + 1)) else t.find? k' := by
  have hk := find?_eq_none_iff.mp h
  refine Option.ext fun name => ?_
  rw [find?_eq_some_iff, AliasTable.name, List.idxOf_append]
  by_cases hne : k' = k
  · subst hne
    simp [hk, eq_comm]
  · rw [if_neg hne, find?_eq_some_iff, AliasTable.name]
    by_cases hk' : k' ∈ t.keys
    · simp [hk']
    · simp [hk', hne]

/-- No key has the next alias yet. -/
theorem keyOf?_next (hnodup : t.keys.Nodup) : t.keyOf? (aliasName (t.keys.length + 1)) = none := by
  refine Option.eq_none_iff_forall_ne_some.mpr ?_
  intro k hk
  obtain ⟨hmem, hname⟩ := find?_eq_some_iff.mp ((keyOf?_eq_some_iff hnodup).mp hk)
  have hlt : t.keys.idxOf k < t.keys.length := List.idxOf_lt_length_of_mem hmem
  exact absurd (Nat.succ.inj (aliasName_injective hname)) (Nat.ne_of_gt hlt)

theorem keyOf?_concat (hnodup : t.keys.Nodup) (k : AliasKey) (name : String) :
    (⟨t.keys ++ [k]⟩ : AliasTable).keyOf? name
      = if name = aliasName (t.keys.length + 1) then some k else t.keyOf? name := by
  have hentries : (⟨t.keys ++ [k]⟩ : AliasTable).entries
      = t.entries ++ [(aliasName (t.keys.length + 1), k)] := by
    simp [entries, List.zipIdx_append]
  rw [keyOf?, hentries, List.lookup_append]
  split
  · rename_i heq
    subst heq
    rw [← keyOf?, keyOf?_next hnodup]
    simp
  · rename_i hne
    have hother : ([(aliasName (t.keys.length + 1), k)] : List _).lookup name = none := by
      simpa using hne
    rw [hother, Option.or_none, keyOf?]

/-- The key asked for has the alias that was answered. -/
theorem find?_request (t : AliasTable) (k : AliasKey) :
    (t.request k).2.find? k = some (t.request k).1 := by
  cases h : t.find? k with
  | none => rw [request_new h, find?_concat h, if_pos rfl]
  | some name => rw [request_known h, h]

/-- The table has the keys of the list, each once. -/
structure Has (t : AliasTable) (ks : List AliasKey) : Prop where
  nodup : t.keys.Nodup
  mem_iff : ∀ {k}, k ∈ t.keys ↔ k ∈ ks

theorem Has.call (h : t.Has ks) (c : AliasCall) : (t.call c).Has (c.record ks) := by
  cases c with
  | request k =>
    refine ⟨?_, ?_⟩
    · rw [AliasTable.call, request_snd]
      exact nodup_add h.nodup
    · intro k'
      rw [AliasTable.call, request_snd, mem_add, h.mem_iff, AliasCall.record, List.mem_append,
        List.mem_singleton]
  | reset => exact ⟨List.nodup_nil, Iff.rfl⟩

theorem after_has (calls : List AliasCall) : (after calls).Has (AliasCall.requested calls) := by
  have hrun : ∀ (calls : List AliasCall) (t : AliasTable) (ks : List AliasKey), t.Has ks →
      (calls.foldl AliasTable.call t).Has (calls.foldl AliasCall.record ks) := by
    intro calls
    induction calls with
    | nil => exact fun _ _ h => h
    | cons c calls ih => exact fun t ks h => ih _ _ (h.call c)
  exact hrun calls ∅ [] ⟨List.nodup_nil, Iff.rfl⟩

/-- The keys of the list and the first aliases, as many as there are different keys, belong to each
other one to one. -/
structure Paired (t : AliasTable) (ks : List AliasKey) : Prop where
  count : t.keys.length = ks.dedup.length
  known : ∀ {k}, (∃ name, t.find? k = some name) ↔ k ∈ ks
  named : ∀ {name}, (∃ k, t.keyOf? name = some k) ↔ ∃ i < ks.dedup.length, name = aliasName (i + 1)
  inverse : ∀ {k name}, t.find? k = some name ↔ t.keyOf? name = some k
  /-- Keys that differ in any of their parts have different aliases. -/
  different : ∀ {k k' name name'}, t.find? k = some name → t.find? k' = some name' →
    (k.depth ≠ k'.depth ∨ k.table ≠ k'.table ∨ k.column ≠ k'.column ∨ k.labels ≠ k'.labels) →
    name ≠ name'
  answered : ∀ k, (t.request k).2.find? k = some (t.request k).1
  /-- A request for a key that has an alias changes nothing. -/
  again : ∀ {k name}, t.find? k = some name → t.request k = (name, t)
  /-- A request for any other key is answered with the next alias. -/
  next : ∀ {k}, t.find? k = none → (t.request k).1 = aliasName (ks.dedup.length + 1)
  listed : ∀ {name k}, (name, k) ∈ t.snapshot.entries ↔ t.find? k = some name
  ascending : t.snapshot.Ascending

theorem Has.length_eq (h : t.Has ks) : t.keys.length = ks.dedup.length := by
  refine ((List.perm_ext_iff_of_nodup h.nodup ks.nodup_dedup).mpr ?_).length_eq
  intro k
  rw [h.mem_iff, List.mem_dedup]

theorem Has.paired (h : t.Has ks) : t.Paired ks where
  count := h.length_eq
  known := by
    intro k
    simp [find?_eq_some_iff, h.mem_iff]
  named := by
    intro name
    simp only [keyOf?_eq_some_iff h.nodup, find?_eq_some_iff, ← h.length_eq]
    constructor
    · rintro ⟨k, hk, rfl⟩
      exact ⟨t.keys.idxOf k, List.idxOf_lt_length_of_mem hk, rfl⟩
    · rintro ⟨i, hi, rfl⟩
      refine ⟨t.keys[i], List.getElem_mem hi, ?_⟩
      rw [AliasTable.name, h.nodup.idxOf_getElem i hi]
  inverse := (keyOf?_eq_some_iff h.nodup).symm
  different := by
    rintro k k' name name' hk hk' hne rfl
    obtain ⟨hmem, hname⟩ := find?_eq_some_iff.mp hk
    obtain ⟨_, hname'⟩ := find?_eq_some_iff.mp hk'
    obtain rfl := name_inj hmem (hname.symm.trans hname')
    simp at hne
  answered := find?_request t
  again := request_known
  next := by
    intro k hk
    rw [request_new hk, h.length_eq]
  listed := mem_snapshot_iff h.nodup
  ascending := t.ascending_snapshot

end AliasTable

/-! ## 3. A map each way, and a counter -/

/-- Aliases by key, keys by alias, and how many aliases were handed out. -/
structure AliasStore where
  counter : Nat
  byKey : Finmap fun _ : AliasKey => String
  byAlias : Finmap fun _ : String => AliasKey

namespace AliasStore

instance : EmptyCollection AliasStore := ⟨⟨0, ∅, ∅⟩⟩

/-- The alias of a key. A key without one gets the next, which is written to both maps. -/
def request (s : AliasStore) (k : AliasKey) : String × AliasStore :=
  match s.byKey.lookup k with
  | some name => (name, s)
  | none =>
    let number := s.counter + 1
    let name := aliasName number
    (name, ⟨number, s.byKey.insert k name, s.byAlias.insert name k⟩)

/-- The store that a call leaves. -/
def call (s : AliasStore) : AliasCall → AliasStore
  | .request k => (s.request k).2
  | .reset => ∅

/-- The store that calls leave, from an empty one on. -/
def after (calls : List AliasCall) : AliasStore := calls.foldl call ∅

/-- The store finds what the table finds, both ways. -/
structure Agrees (s : AliasStore) (t : AliasTable) : Prop where
  counter : s.counter = t.keys.length
  byKey : ∀ k, s.byKey.lookup k = t.find? k
  byAlias : ∀ name, s.byAlias.lookup name = t.keyOf? name

variable {s : AliasStore} {t : AliasTable} {ks : List AliasKey} {k : AliasKey} {name : String}

theorem agrees_empty : Agrees ∅ ∅ where
  counter := rfl
  byKey _ := Finmap.lookup_empty _
  byAlias _ := Finmap.lookup_empty _

theorem request_known (h : s.byKey.lookup k = some name) : s.request k = (name, s) := by
  rw [request, h]

theorem request_new (h : s.byKey.lookup k = none) : s.request k
    = (aliasName (s.counter + 1), ⟨s.counter + 1, s.byKey.insert k (aliasName (s.counter + 1)),
        s.byAlias.insert (aliasName (s.counter + 1)) k⟩) := by
  rw [request, h]

theorem Agrees.request (h : s.Agrees t) (hnodup : t.keys.Nodup) (k : AliasKey) :
    (s.request k).1 = (t.request k).1 ∧ (s.request k).2.Agrees (t.request k).2 := by
  cases hk : t.find? k with
  | some name =>
    rw [AliasTable.request_known hk, request_known ((h.byKey k).trans hk)]
    exact ⟨rfl, h⟩
  | none =>
    rw [AliasTable.request_new hk, request_new ((h.byKey k).trans hk), h.counter]
    refine ⟨rfl, by simp, ?_, ?_⟩
    · intro k'
      rw [AliasTable.find?_concat hk]
      split
      · rename_i heq
        rw [heq, Finmap.lookup_insert]
      · rename_i hne
        rw [Finmap.lookup_insert_of_ne _ hne, h.byKey]
    · intro name
      rw [AliasTable.keyOf?_concat hnodup]
      split
      · rename_i heq
        rw [heq, Finmap.lookup_insert]
      · rename_i hne
        rw [Finmap.lookup_insert_of_ne _ hne, h.byAlias]

theorem Agrees.call (h : s.Agrees t) (hnodup : t.keys.Nodup) (c : AliasCall) :
    (s.call c).Agrees (t.call c) := by
  cases c with
  | request k => exact (h.request hnodup k).2
  | reset => exact agrees_empty

theorem after_agrees (calls : List AliasCall) : (after calls).Agrees (.after calls) := by
  have hrun : ∀ (calls : List AliasCall) (s : AliasStore) (t : AliasTable) (ks : List AliasKey),
      s.Agrees t → t.Has ks →
      (calls.foldl AliasStore.call s).Agrees (calls.foldl AliasTable.call t) := by
    intro calls
    induction calls with
    | nil => exact fun _ _ _ h _ => h
    | cons c calls ih => exact fun s t ks h ht => ih _ _ _ (h.call ht.nodup c) (ht.call c)
  exact hrun calls ∅ ∅ [] agrees_empty ⟨List.nodup_nil, Iff.rfl⟩

/-- Whoever asks gets the same from the store as from the table. -/
structure Mirrors (s : AliasStore) (t : AliasTable) : Prop where
  finds : s.Agrees t
  answers : ∀ k, (s.request k).1 = (t.request k).1
  size : s.byKey.keys.card = t.keys.length
  /-- The entries by alias come in any order. -/
  snapshot : ∀ l : List (Σ _ : String, AliasKey), (l : Multiset _) = s.byAlias.entries →
    SortedMap.ofList (l.map fun x => (x.1, x.2)) = t.snapshot

theorem Agrees.size_eq (h : s.Agrees t) (hnodup : t.keys.Nodup) :
    s.byKey.keys.card = t.keys.length := by
  have hkeys : s.byKey.keys = t.keys.toFinset := by
    ext k
    simp [Finmap.mem_keys, Finmap.mem_iff, h.byKey, AliasTable.find?_eq_some_iff]
  rw [hkeys, List.toFinset_card_of_nodup hnodup]

theorem Agrees.snapshot_eq (h : s.Agrees t) (hnodup : t.keys.Nodup)
    {l : List (Σ _ : String, AliasKey)} (hl : (l : Multiset _) = s.byAlias.entries) :
    SortedMap.ofList (l.map fun x => (x.1, x.2)) = t.snapshot := by
  have hmem : ∀ {name k}, (name, k) ∈ l.map (fun x => (x.1, x.2)) ↔ t.keyOf? name = some k := by
    intro name k
    rw [← h.byAlias, Finmap.lookup_eq_some_iff, ← hl, Multiset.mem_coe, List.mem_map]
    constructor
    · rintro ⟨⟨name', k'⟩, hx, heq⟩
      cases heq
      exact hx
    · exact fun hx => ⟨_, hx, rfl⟩
  refine (SortedMap.ascending_ofList _).ext t.ascending_snapshot ?_
  intro name k
  have hlisted : t.snapshot.find? name = some k ↔ t.keyOf? name = some k := by
    rw [← t.ascending_snapshot.mem_entries_iff, AliasTable.mem_snapshot_iff hnodup,
      AliasTable.keyOf?_eq_some_iff hnodup]
  refine Iff.trans ?_ hlisted.symm
  rw [SortedMap.find?_ofList, hmem]
  intro name k k' hk hk'
  exact Option.some.inj ((hmem.mp hk).symm.trans (hmem.mp hk'))

theorem Agrees.mirrors (h : s.Agrees t) (hnodup : t.keys.Nodup) : s.Mirrors t where
  finds := h
  answers k := (h.request hnodup k).1
  size := h.size_eq hnodup
  snapshot _ hl := h.snapshot_eq hnodup hl

end AliasStore

/-- **Aliases and keys are in bijection.** After any requests and resets, the keys that were
requested since the last reset have the first aliases, one each, and a store of two maps and a
counter that heard the same calls answers as the table does. -/
theorem AliasTable.after_paired (calls : List AliasCall) :
    (AliasTable.after calls).Paired (AliasCall.requested calls) ∧
    (AliasStore.after calls).Mirrors (AliasTable.after calls) := by
  have hhas := after_has calls
  exact ⟨hhas.paired, (AliasStore.after_agrees calls).mirrors hhas.nodup⟩

end TraversalSql
