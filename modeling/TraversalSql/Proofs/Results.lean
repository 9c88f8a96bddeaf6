import Mathlib.Data.List.Forall2

/-!
# Computations that may fail

What a result of a composed computation says about its parts, for sequences, changes of the value
or of the error, and lists of computations that are run from left to right. Such a list and the
list of its results agree place by place, and a few lemmas read that relation.
-/

set_option autoImplicit false

namespace TraversalSql

variable {ε ε' α β γ : Type}

/-! ## One computation -/

theorem bind_ok {x : Except ε α} {f : α → Except ε β} {b : β} (h : x >>= f = .ok b) :
    ∃ a, x = .ok a ∧ f a = .ok b := by
  cases x with
  | error e => cases h
  | ok a => exact ⟨a, rfl, h⟩

theorem map_ok {x : Except ε α} {f : α → β} {b : β} (h : x.map f = .ok b) :
    ∃ a, x = .ok a ∧ f a = b := by
  cases x with
  | error e => cases h
  | ok a => exact ⟨a, rfl, Except.ok.inj h⟩

theorem mapError_ok {x : Except ε α} {f : ε → ε'} {v : α} (h : x.mapError f = .ok v) :
    x = .ok v := by
  cases x with
  | error e => cases h
  | ok u => rw [Except.ok.inj h]

theorem eq_ok_of_toOption {x : Except ε α} {a : α} (h : x.toOption = some a) : x = .ok a := by
  cases x with
  | error e => cases h
  | ok b => rw [Option.some.inj h]

/-! ## A list of computations -/

/-- Where every call has a result and does nothing else, so has the list of calls. -/
theorem mapM_eq_pure {m : Type → Type} [Monad m] [LawfulMonad m] {f : α → m β} {k : α → β}
    {l : List α} (h : ∀ a ∈ l, f a = pure (k a)) : l.mapM f = pure (l.map k) := by
  induction l with
  | nil => exact List.mapM_nil
  | cons a l ih =>
    obtain ⟨ha, hl⟩ := List.forall_mem_cons.mp h
    rw [List.mapM_cons, ha, ih hl, pure_bind, pure_bind, List.map_cons]

theorem mapM_some {f : α → Option β} {k : α → β} {l : List α} (h : ∀ a ∈ l, f a = some (k a)) :
    l.mapM f = some (l.map k) :=
  mapM_eq_pure h

variable {f : α → Except ε β} {l : List α}

theorem mapM_ok {k : α → β} (h : ∀ a ∈ l, f a = .ok (k a)) : l.mapM f = .ok (l.map k) :=
  mapM_eq_pure h

/-- Where every call succeeds, all of them do. -/
theorem mapM_of_forall {R : α → β → Prop} (h : ∀ a ∈ l, ∃ b, f a = .ok b ∧ R a b) :
    ∃ bs, l.mapM f = .ok bs ∧ List.Forall₂ R l bs := by
  induction l with
  | nil => exact ⟨[], rfl, .nil⟩
  | cons a l ih =>
    obtain ⟨b, hb, hr⟩ := h a List.mem_cons_self
    obtain ⟨bs, hbs, hall⟩ := ih fun a ha => h a (List.mem_cons_of_mem _ ha)
    refine ⟨b :: bs, ?_, .cons hr hall⟩
    rw [List.mapM_cons, hb, hbs]
    rfl

theorem mapM_error {e : ε} (h : l.mapM f = .error e) : ∃ a ∈ l, f a = .error e := by
  induction l with
  | nil => cases h
  | cons a l ih =>
    rw [List.mapM_cons] at h
    cases hf : f a with
    | error e' =>
      rw [hf] at h
      cases h
      exact ⟨a, List.mem_cons_self, hf⟩
    | ok b =>
      rw [hf] at h
      cases hl : l.mapM f with
      | error e' =>
        rw [hl] at h
        cases h
        obtain ⟨a', ha', hf'⟩ := ih hl
        exact ⟨a', List.mem_cons_of_mem _ ha', hf'⟩
      | ok bs =>
        rw [hl] at h
        cases h

theorem forall₂_of_mapM {r : List β} (h : l.mapM f = .ok r) :
    List.Forall₂ (fun a b => f a = .ok b) l r := by
  induction l generalizing r with
  | nil =>
    cases h
    exact .nil
  | cons a l ih =>
    rw [List.mapM_cons] at h
    obtain ⟨b, hb, h⟩ := bind_ok h
    obtain ⟨bs, hbs, h⟩ := bind_ok h
    cases h
    exact .cons hb (ih hbs)

/-- Where every result is what a function gives, the list of results is what it gives of the
list. -/
theorem mapM_eq_map {k : α → β} {r : List β} (hk : ∀ a ∈ l, ∀ {b : β}, f a = .ok b → b = k a)
    (h : l.mapM f = .ok r) : r = l.map k := by
  induction l generalizing r with
  | nil =>
    cases h
    rfl
  | cons a l ih =>
    rw [List.mapM_cons] at h
    obtain ⟨b, hb, h⟩ := bind_ok h
    obtain ⟨bs, hbs, h⟩ := bind_ok h
    cases h
    rw [List.map_cons, hk a List.mem_cons_self hb,
      ih (fun a ha => hk a (List.mem_cons_of_mem _ ha)) hbs]

/-- A list of changes, none of which is refused. The invariant speaks of the changes to come. -/
theorem foldlM_ok {I : List α → β → Prop} {f : β → α → Except ε β} {g : β → α → β}
    (hstep : ∀ {a l s}, I (a :: l) s → f s a = .ok (g s a) ∧ I l (g s a)) :
    ∀ {l : List α} {s : β}, I l s → l.foldlM f s = .ok (l.foldl g s) := by
  intro l
  induction l with
  | nil => exact fun _ => rfl
  | cons a l ih =>
    intro s hs
    obtain ⟨hok, hs⟩ := hstep hs
    rw [List.foldlM_cons, hok]
    exact ih hs

/-! ## Lists that agree place by place -/

section Forall₂

variable {R : α → β → Prop} {as : List α} {bs : List β}

theorem exists_of_mem_left (h : List.Forall₂ R as bs) {a : α} (ha : a ∈ as) : ∃ b ∈ bs, R a b := by
  induction h with
  | nil => cases ha
  | cons hr _ ih =>
    rcases List.mem_cons.mp ha with rfl | ha
    · exact ⟨_, List.mem_cons_self, hr⟩
    · obtain ⟨b, hb, hr⟩ := ih ha
      exact ⟨b, List.mem_cons_of_mem _ hb, hr⟩

theorem exists_of_mem_right (h : List.Forall₂ R as bs) {b : β} (hb : b ∈ bs) : ∃ a ∈ as, R a b :=
  exists_of_mem_left h.flip hb

theorem getElem?_of_forall₂ (h : List.Forall₂ R as bs) : ∀ {i : Nat} {b : β}, bs[i]? = some b →
    ∃ a, as[i]? = some a ∧ R a b := by
  induction h with
  | nil => nofun
  | cons hr _ ih =>
    intro i b hb
    cases i with
    | zero =>
      cases hb
      exact ⟨_, rfl, hr⟩
    | succ i => exact ih hb

theorem map_eq_of_forall₂ {f : α → γ} {k : β → γ} (h : List.Forall₂ R as bs)
    (hR : ∀ a b, R a b → k b = f a) : bs.map k = as.map f := by
  induction h with
  | nil => rfl
  | cons hr _ ih => rw [List.map_cons, List.map_cons, hR _ _ hr, ih]

end Forall₂

end TraversalSql
