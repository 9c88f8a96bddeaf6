import Mathlib.Data.List.Nodup
import TraversalSql.Sql.Select

/-!
# Aliases name one column each

Aliases are numbered in the order of first use. Two keys that are in use never share an alias, and
no two sub-selects share a name, since a number can be read back from its text.
-/

set_option autoImplicit false

namespace TraversalSql

theorem toString_injective : Function.Injective (toString : Nat → String) := by
  intro m n h
  rw [Nat.toString_eq_ofList_toDigits, Nat.toString_eq_ofList_toDigits] at h
  have hdigits : Nat.toDigits 10 m = Nat.toDigits 10 n := by simpa using congrArg String.toList h
  have hnumber := congrArg (Nat.ofDigitChars 10 · 0) hdigits
  simpa using hnumber

theorem append_toString_injective (s : String) :
    Function.Injective fun n : Nat => s ++ toString n := by
  intro m n h
  have hlist := congrArg String.toList h
  simp only [String.toList_append, List.append_cancel_left_eq] at hlist
  exact toString_injective (String.toList_injective hlist)

theorem aliasName_injective : Function.Injective aliasName := append_toString_injective "alias"

theorem subSelectName_injective : Function.Injective subSelectName := append_toString_injective "a"

namespace AliasTable

variable {ks : List AliasKey} {k k' : AliasKey} {t : AliasTable}

theorem mem_add : k ∈ (t.add k').keys ↔ k ∈ t.keys ∨ k = k' := by
  unfold add
  split
  · rename_i hmem
    constructor
    · exact Or.inl
    · rintro (h | rfl)
      · exact h
      · exact hmem
  · rw [List.mem_append, List.mem_singleton]

theorem nodup_add (h : t.keys.Nodup) : (t.add k).keys.Nodup := by
  unfold add
  split
  · exact h
  · rename_i hnot
    exact List.nodup_append_comm.mp (List.nodup_cons.mpr ⟨hnot, h⟩)

/-- The keys in use are the ones of the list, each once. -/
theorem ofList_spec (ks : List AliasKey) :
    (∀ k, k ∈ (ofList ks).keys ↔ k ∈ ks) ∧ (ofList ks).keys.Nodup := by
  have hfold : ∀ (ks : List AliasKey) (t : AliasTable), t.keys.Nodup →
      (∀ k, k ∈ (ks.foldl add t).keys ↔ k ∈ t.keys ∨ k ∈ ks) ∧ (ks.foldl add t).keys.Nodup := by
    intro ks
    induction ks with
    | nil =>
      intro t h
      exact ⟨by simp, h⟩
    | cons k' ks ih =>
      intro t h
      obtain ⟨hmem, hnodup⟩ := ih (t.add k') (nodup_add h)
      refine ⟨?_, hnodup⟩
      intro k
      rw [List.foldl_cons, hmem, mem_add, List.mem_cons, or_assoc]
  obtain ⟨hmem, hnodup⟩ := hfold ks ∅ List.nodup_nil
  refine ⟨?_, hnodup⟩
  intro k
  have hempty : k ∉ (∅ : AliasTable).keys := List.not_mem_nil
  exact (hmem k).trans (or_iff_right hempty)

/-- **Keys in use have different aliases.** -/
theorem name_inj (hk : k ∈ t.keys) (h : t.name k = t.name k') : k = k' := by
  have hidx : t.keys.idxOf k = t.keys.idxOf k' := Nat.succ.inj (aliasName_injective h)
  exact (List.idxOf_inj hk).mp hidx

end AliasTable

/-! ## What is left of a list without repetitions -/

section Distinct

variable {α κ : Type} [DecidableEq κ] {key : α → κ} {a : α} {l : List α} {seen : List κ}

theorem mem_of_mem_distinctOn (h : a ∈ distinctOn key seen l) : a ∈ l := by
  induction l generalizing seen with
  | nil => cases h
  | cons b l ih =>
    rw [distinctOn] at h
    split at h
    · exact List.mem_cons_of_mem _ (ih h)
    · rcases List.mem_cons.mp h with rfl | h
      · exact List.mem_cons_self
      · exact List.mem_cons_of_mem _ (ih h)

/-- Every key that was not seen before is kept. -/
theorem exists_mem_distinctOn (key : α → κ) (h : a ∈ l) (hseen : key a ∉ seen) :
    ∃ b ∈ distinctOn key seen l, key b = key a := by
  induction l generalizing seen with
  | nil => cases h
  | cons b l ih =>
    rw [distinctOn]
    rcases List.mem_cons.mp h with rfl | h
    · have hnot : seen.contains (key a) = false := by simpa using hseen
      simp only [hnot, Bool.false_eq_true, if_false]
      exact ⟨a, List.mem_cons_self, rfl⟩
    · split
      · exact ih h hseen
      · by_cases hab : key a = key b
        · exact ⟨b, List.mem_cons_self, hab.symm⟩
        · have hnot : key a ∉ key b :: seen := by simp [hab, hseen]
          obtain ⟨b', hb', hkey⟩ := ih h hnot
          exact ⟨b', List.mem_cons_of_mem _ hb', hkey⟩

theorem nodup_distinctOn (key : α → κ) (seen : List κ) (l : List α) :
    ((distinctOn key seen l).map key).Nodup ∧ ∀ a ∈ distinctOn key seen l, key a ∉ seen := by
  induction l generalizing seen with
  | nil => exact ⟨List.nodup_nil, nofun⟩
  | cons b l ih =>
    rw [distinctOn]
    split
    · exact ih seen
    · rename_i hb
      have hb : key b ∉ seen := by simpa using hb
      obtain ⟨hnodup, hfresh⟩ := ih (key b :: seen)
      refine ⟨?_, ?_⟩
      · rw [List.map_cons, List.nodup_cons]
        refine ⟨?_, hnodup⟩
        intro hmem
        obtain ⟨a, ha, hkey⟩ := List.mem_map.mp hmem
        exact hfresh a ha (hkey ▸ List.mem_cons_self)
      · intro a ha
        rcases List.mem_cons.mp ha with rfl | ha
        · exact hb
        · exact fun hmem => hfresh a ha (List.mem_cons_of_mem _ hmem)

end Distinct

end TraversalSql
