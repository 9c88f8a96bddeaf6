import Mathlib.Data.List.Basic
import Mathlib.Data.List.Pairwise
import TraversalSql.Sorted.Set
import TraversalSql.Sorted.Map

/-!
# Sorted sets and maps keep their order

Both collections are lists whose order is a matter of convention: nothing in the types says that
the members ascend. What says it is `Ascending`, and this file shows that every operation keeps it.
From the order follow the two facts that the rest of the theory reads off a collection: a member
stands in the list once, and a map answers at a key what was last written there.
-/

set_option autoImplicit false

namespace TraversalSql

variable {α κ ν : Type}

theorem ne_of_compare_lt [Ord α] [Std.TransOrd α] {a b : α} (h : compare a b = .lt) : a ≠ b := by
  rintro rfl
  have hrefl : compare a a = .eq := Std.ReflOrd.compare_self
  rw [hrefl] at h
  cases h

/-! ## 1. Sets -/

namespace SortedSet

/-- The members stand in strictly ascending order. -/
def Ascending [Ord α] (s : SortedSet α) : Prop :=
  s.toList.Pairwise fun a b => compare a b = .lt

@[simp] theorem mem_toList {s : SortedSet α} {a : α} : a ∈ s.toList ↔ a ∈ s := Iff.rfl

@[simp] theorem not_mem_empty {a : α} : a ∉ (∅ : SortedSet α) := by
  intro h
  exact absurd (mem_toList.mpr h) List.not_mem_nil

@[simp] theorem mem_insert [Ord α] [Std.LawfulEqOrd α] {s : SortedSet α} {a x : α} :
    x ∈ s.insert a ↔ x = a ∨ x ∈ s := mem_insertInto a x s.toList

@[simp] theorem mem_insertAll [Ord α] [Std.LawfulEqOrd α] {x : α} :
    ∀ {l : List α} {s : SortedSet α}, x ∈ s.insertAll l ↔ x ∈ l ∨ x ∈ s := by
  intro l
  induction l with
  | nil => simp [insertAll]
  | cons a l ih =>
    intro s
    rw [show s.insertAll (a :: l) = (s.insert a).insertAll l from rfl, ih, mem_insert,
      List.mem_cons, or_left_comm, or_assoc]

theorem ascending_empty [Ord α] : (∅ : SortedSet α).Ascending := List.Pairwise.nil

theorem pairwise_insertInto [Ord α] [Std.TransOrd α] [Std.LawfulEqOrd α] (a : α) {l : List α}
    (h : l.Pairwise fun a b => compare a b = .lt) :
    (insertInto a l).Pairwise fun a b => compare a b = .lt := by
  induction l with
  | nil => exact List.pairwise_singleton _ _
  | cons b l ih =>
    obtain ⟨hb, hl⟩ := List.pairwise_cons.mp h
    simp only [insertInto]
    split
    · rename_i hab
      refine List.pairwise_cons.mpr ⟨fun x hx => ?_, h⟩
      rcases List.mem_cons.mp hx with rfl | hx
      · exact hab
      · exact Std.TransCmp.lt_trans hab (hb x hx)
    · exact h
    · rename_i hab
      refine List.pairwise_cons.mpr ⟨fun x hx => ?_, ih hl⟩
      rcases (mem_insertInto a x l).mp hx with rfl | hx
      · exact Std.OrientedCmp.lt_of_gt hab
      · exact hb x hx

theorem Ascending.insert [Ord α] [Std.TransOrd α] [Std.LawfulEqOrd α] {s : SortedSet α}
    (h : s.Ascending) (a : α) : (s.insert a).Ascending := pairwise_insertInto a h

theorem Ascending.insertAll [Ord α] [Std.TransOrd α] [Std.LawfulEqOrd α] :
    ∀ (l : List α) {s : SortedSet α}, s.Ascending → (s.insertAll l).Ascending
  | [], _, h => h
  | a :: l, _, h => Ascending.insertAll l (h.insert a)

theorem Ascending.nodup [Ord α] [Std.TransOrd α] {s : SortedSet α} (h : s.Ascending) :
    s.toList.Nodup := List.Pairwise.imp ne_of_compare_lt h

theorem insertInto_of_lt [Ord α] [Std.TransOrd α] {a : α} {l : List α}
    (h : ∀ b ∈ l, compare b a = .lt) : insertInto a l = l ++ [a] := by
  induction l with
  | nil => rfl
  | cons b l ih =>
    have hb : compare a b = .gt := Std.OrientedCmp.gt_of_lt (h b List.mem_cons_self)
    simp only [insertInto, hb, ih fun x hx => h x (List.mem_cons_of_mem _ hx), List.cons_append]

/-- Adding the members of a set one after the other gives the set. -/
theorem insertAll_toList [Ord α] [Std.TransOrd α] {s : SortedSet α} (h : s.Ascending) :
    (∅ : SortedSet α).insertAll s.toList = s := by
  have hgrow : ∀ (l before : List α),
      (before ++ l).Pairwise (fun a b => compare a b = .lt) →
        (⟨before⟩ : SortedSet α).insertAll l = ⟨before ++ l⟩ := by
    intro l
    induction l with
    | nil => intro before _; simp [insertAll]
    | cons a l ih =>
      intro before hasc
      have hbefore : insertInto a before = before ++ [a] :=
        insertInto_of_lt fun b hb => (List.pairwise_append.mp hasc).2.2 b hb a List.mem_cons_self
      have hnext := ih (before ++ [a]) (by simpa using hasc)
      rw [← hbefore] at hnext
      show (⟨insertInto a before⟩ : SortedSet α).insertAll l = _
      rw [hnext, hbefore]
      simp
  exact hgrow s.toList [] h

end SortedSet

/-! ## 2. Maps -/

namespace SortedMap

/-- The keys stand in strictly ascending order. -/
def Ascending [Ord κ] (m : SortedMap κ ν) : Prop :=
  m.entries.Pairwise fun a b => compare a.1 b.1 = .lt

theorem ascending_empty [Ord κ] : (∅ : SortedMap κ ν).Ascending := List.Pairwise.nil

theorem mem_alterIn [Ord κ] [Std.LawfulEqOrd κ] {k : κ} {f : Option ν → ν} {l : List (κ × ν)}
    {e : κ × ν} (h : e ∈ alterIn k f l) : e.1 = k ∨ e ∈ l := by
  induction l with
  | nil => exact Or.inl (by rw [List.mem_singleton.mp h])
  | cons b l ih =>
    simp only [alterIn] at h
    split at h
    · rcases List.mem_cons.mp h with rfl | h
      · exact Or.inl rfl
      · exact Or.inr h
    · rename_i hk
      rcases List.mem_cons.mp h with rfl | h
      · exact Or.inl (Std.LawfulEqOrd.eq_of_compare hk).symm
      · exact Or.inr (List.mem_cons_of_mem _ h)
    · rcases List.mem_cons.mp h with rfl | h
      · exact Or.inr List.mem_cons_self
      · exact (ih h).imp_right (List.mem_cons_of_mem _)

theorem Ascending.alter [Ord κ] [Std.TransOrd κ] [Std.LawfulEqOrd κ] {m : SortedMap κ ν}
    (h : m.Ascending) (k : κ) (f : Option ν → ν) : (m.alter k f).Ascending := by
  obtain ⟨l⟩ := m
  induction l with
  | nil => exact List.pairwise_singleton _ _
  | cons b l ih =>
    obtain ⟨hb, hl⟩ := List.pairwise_cons.mp h
    have ih : (alterIn k f l).Pairwise fun a b => compare a.1 b.1 = .lt := ih hl
    simp only [Ascending, entries_alter, alterIn]
    split
    · rename_i hk
      refine List.pairwise_cons.mpr ⟨fun x hx => ?_, h⟩
      rcases List.mem_cons.mp hx with rfl | hx
      · exact hk
      · exact Std.TransCmp.lt_trans hk (hb x hx)
    · exact List.pairwise_cons.mpr ⟨hb, hl⟩
    · rename_i hk
      refine List.pairwise_cons.mpr ⟨fun x hx => ?_, ih⟩
      rcases mem_alterIn hx with hx | hx
      · exact hx ▸ Std.OrientedCmp.lt_of_gt hk
      · exact hb x hx

theorem Ascending.nodup_keys [Ord κ] [Std.TransOrd κ] {m : SortedMap κ ν} (h : m.Ascending) :
    m.keys.Nodup := List.pairwise_map.mpr (List.Pairwise.imp ne_of_compare_lt h)

@[simp] theorem find?_empty [BEq κ] (k : κ) : (∅ : SortedMap κ ν).find? k = none := rfl

theorem lookup_cons_self [DecidableEq κ] (k : κ) (v : ν) (l : List (κ × ν)) :
    ((k, v) :: l).lookup k = some v := by
  rw [List.lookup_cons, beq_self_eq_true]

theorem lookup_cons_of_ne [DecidableEq κ] {k k' : κ} (h : k' ≠ k) (v : ν) (l : List (κ × ν)) :
    ((k, v) :: l).lookup k' = l.lookup k' := by
  rw [List.lookup_cons, beq_eq_false_iff_ne.mpr h]

theorem lookup_eq_none_of_lt [Ord κ] [Std.TransOrd κ] [DecidableEq κ] {k : κ} {l : List (κ × ν)}
    (h : ∀ e ∈ l, compare k e.1 = .lt) : l.lookup k = none :=
  List.lookup_eq_none_iff.mpr fun e he => bne_iff_ne.mpr (ne_of_compare_lt (h e he))

/-- A changed map answers what was written at the key, and elsewhere what it answered before. -/
theorem find?_alter [Ord κ] [Std.TransOrd κ] [Std.LawfulEqOrd κ] [DecidableEq κ]
    {m : SortedMap κ ν} (h : m.Ascending) (k : κ) (f : Option ν → ν) (k' : κ) :
    (m.alter k f).find? k' = if k' = k then some (f (m.find? k)) else m.find? k' := by
  obtain ⟨l⟩ := m
  simp only [find?, entries_alter]
  induction l with
  | nil =>
    by_cases hk : k' = k
    · subst hk
      rw [alterIn, lookup_cons_self, if_pos rfl, List.lookup_nil]
    · rw [alterIn, lookup_cons_of_ne hk, if_neg hk]
  | cons b l ih =>
    obtain ⟨hb, hl⟩ := List.pairwise_cons.mp h
    obtain ⟨kb, vb⟩ := b
    simp only [alterIn]
    split
    · rename_i hlt
      have hnone : ((kb, vb) :: l).lookup k = none := by
        refine lookup_eq_none_of_lt fun e he => ?_
        rcases List.mem_cons.mp he with rfl | he
        · exact hlt
        · exact Std.TransCmp.lt_trans hlt (hb e he)
      by_cases hk : k' = k
      · subst hk
        rw [hnone, lookup_cons_self, if_pos rfl]
      · rw [lookup_cons_of_ne hk, if_neg hk]
    · rename_i heq
      obtain rfl : k = kb := Std.LawfulEqOrd.eq_of_compare heq
      by_cases hk : k' = k
      · subst hk
        rw [lookup_cons_self, lookup_cons_self, if_pos rfl]
      · rw [lookup_cons_of_ne hk, lookup_cons_of_ne hk, if_neg hk]
    · rename_i hgt
      have hkb : k ≠ kb := (ne_of_compare_lt (Std.OrientedCmp.lt_of_gt hgt)).symm
      by_cases hk' : k' = kb
      · subst hk'
        rw [lookup_cons_self, lookup_cons_self, if_neg hkb.symm]
      · rw [lookup_cons_of_ne hk', lookup_cons_of_ne hk', lookup_cons_of_ne hkb]
        exact ih hl

theorem mem_keys_iff [DecidableEq κ] {m : SortedMap κ ν} {k : κ} :
    k ∈ m.keys ↔ ∃ v, m.find? k = some v := by
  obtain ⟨l⟩ := m
  simp only [keys, find?]
  induction l with
  | nil => simp
  | cons b l ih =>
    obtain ⟨kb, vb⟩ := b
    by_cases hk : k = kb
    · subst hk
      simp
    · simp only [List.map_cons, List.mem_cons, hk, false_or, ih, lookup_cons_of_ne hk]

theorem contains_iff [BEq κ] {m : SortedMap κ ν} {k : κ} :
    m.contains k = true ↔ ∃ v, m.find? k = some v := Option.isSome_iff_exists

theorem Ascending.mem_entries_iff [Ord κ] [Std.TransOrd κ] [DecidableEq κ] {m : SortedMap κ ν}
    (h : m.Ascending) {k : κ} {v : ν} : (k, v) ∈ m.entries ↔ m.find? k = some v := by
  obtain ⟨l⟩ := m
  induction l with
  | nil => simp [find?]
  | cons b l ih =>
    obtain ⟨hb, hl⟩ := List.pairwise_cons.mp h
    have ih : (k, v) ∈ l ↔ l.lookup k = some v := ih hl
    obtain ⟨kb, vb⟩ := b
    by_cases hk : k = kb
    · subst hk
      have hnot : (k, v) ∉ l := fun hmem => ne_of_compare_lt (hb _ hmem) rfl
      simp only [find?, lookup_cons_self, List.mem_cons, hnot, or_false, Prod.mk.injEq, true_and,
        Option.some.injEq, eq_comm]
    · simp only [find?, lookup_cons_of_ne hk, List.mem_cons, Prod.mk.injEq, hk, false_and,
        false_or, ih]

/-- A map is determined by what it answers. -/
theorem Ascending.ext [Ord κ] [Std.TransOrd κ] [DecidableEq κ] {m m' : SortedMap κ ν}
    (h : m.Ascending) (h' : m'.Ascending)
    (hfind : ∀ {k v}, m.find? k = some v ↔ m'.find? k = some v) : m = m' := by
  obtain ⟨l⟩ := m
  obtain ⟨l'⟩ := m'
  have hnodup : ∀ {l : List (κ × ν)}, (⟨l⟩ : SortedMap κ ν).Ascending → l.Nodup := fun h =>
    List.Pairwise.imp (fun hlt heq => ne_of_compare_lt hlt (congrArg Prod.fst heq)) h
  have hperm : l.Perm l' := by
    refine (List.perm_ext_iff_of_nodup (hnodup h) (hnodup h')).mpr ?_
    intro ⟨k, v⟩
    exact h.mem_entries_iff.trans (hfind.trans h'.mem_entries_iff.symm)
  refine congrArg SortedMap.mk (List.Perm.eq_of_pairwise ?_ h h' hperm)
  intro a b _ _ hab hba
  exact absurd (Std.TransCmp.lt_trans hab hba) (ne_of_compare_lt · rfl)

section Written

variable [Ord κ] [Std.TransOrd κ] [Std.LawfulEqOrd κ]

theorem ascending_insertAll : ∀ {l : List (κ × ν)} {m : SortedMap κ ν}, m.Ascending →
    (m.insertAll l).Ascending := by
  intro l
  induction l with
  | nil => exact fun h => h
  | cons a l ih =>
    intro m h
    exact ih (h.alter a.1 _)

/-- A map holds what was written into it, if nothing that was written contradicts another. -/
theorem find?_insertAll [DecidableEq κ] : ∀ {l : List (κ × ν)} {m : SortedMap κ ν}, m.Ascending →
    (∀ {k v v'}, m.find? k = some v ∨ (k, v) ∈ l → m.find? k = some v' ∨ (k, v') ∈ l → v = v') →
    ∀ {k v}, (m.insertAll l).find? k = some v ↔ m.find? k = some v ∨ (k, v) ∈ l := by
  intro l
  induction l with
  | nil =>
    intro m _ _ k v
    exact (or_iff_left List.not_mem_nil).symm
  | cons a l ih =>
    intro m hm hagree
    obtain ⟨ka, va⟩ := a
    -- what was there under the key is what is written
    have hinsert : ∀ {k v}, (m.insert ka va).find? k = some v ↔
        m.find? k = some v ∨ (k, v) = (ka, va) := by
      intro k v
      rw [insert, find?_alter hm]
      by_cases hk : k = ka
      · subst hk
        rw [if_pos rfl, Option.some.injEq, Prod.mk.injEq]
        constructor
        · exact fun h => Or.inr ⟨rfl, h.symm⟩
        · rintro (h | ⟨_, h⟩)
          · exact hagree (Or.inr List.mem_cons_self) (Or.inl h)
          · exact h.symm
      · rw [if_neg hk, Prod.mk.injEq]
        exact ⟨Or.inl, fun h => h.resolve_right fun h' => hk h'.1⟩
    have hwritten : ∀ {k v}, (m.insert ka va).find? k = some v ∨ (k, v) ∈ l ↔
        m.find? k = some v ∨ (k, v) ∈ (ka, va) :: l := by
      intro k v
      rw [hinsert, List.mem_cons, or_assoc]
    intro k v
    rw [← hwritten]
    exact ih (hm.alter ka _) fun h h' => hagree (hwritten.mp h) (hwritten.mp h')

theorem ascending_ofList (l : List (κ × ν)) : (ofList l).Ascending :=
  ascending_insertAll ascending_empty

theorem find?_ofList [DecidableEq κ] {l : List (κ × ν)}
    (hagree : ∀ {k v v'}, (k, v) ∈ l → (k, v') ∈ l → v = v') {k : κ} {v : ν} :
    (ofList l).find? k = some v ↔ (k, v) ∈ l := by
  have hempty : ∀ {k : κ} {v : ν}, (∅ : SortedMap κ ν).find? k = some v ∨ (k, v) ∈ l ↔
      (k, v) ∈ l := by
    intro k v
    rw [find?_empty]
    exact or_iff_right nofun
  rw [ofList, find?_insertAll ascending_empty fun h h' => hagree (hempty.mp h) (hempty.mp h'),
    hempty]

end Written

end SortedMap

end TraversalSql
