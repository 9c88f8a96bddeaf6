import Mathlib.Data.List.Permutation
import TraversalSql.Proofs.Memberships
import TraversalSql.Proofs.SortKeys

/-!
# Windows over sorted rows

A window brings rows into order and keeps a slice of them. What the order is depends on all keys at
once: a key that is shorter counts as null where it ends, and it takes the direction of whatever it
is compared with. Where the keys of a list hold no doubles and never disagree about a direction
(`PathRow.Comparable`), one list of directions fits them all, and the comparison is the
lexicographic one along it (`RowKey.compare_eq_compareAlong`). That one is an order of all keys,
with ties, so the rows have one stable arrangement, and the window shows the places of its slice.
-/

set_option autoImplicit false

namespace TraversalSql

theorem transCmp_map {α β : Type} (f : α → β) (cmp : β → β → Ordering) [Std.TransCmp cmp] :
    Std.TransCmp fun a b => cmp (f a) (f b) where
  eq_swap {_ _} := @Std.OrientedCmp.eq_swap β cmp _ _ _
  isLE_trans {_ _ _} := @Std.TransCmp.isLE_trans β cmp _ _ _ _

/-! ## 1. Values -/

namespace Value

def bool? : Value → Option Bool
  | bool b => some b
  | _ => none

def int? : Value → Option Int64
  | int i => some i
  | _ => none

def string? : Value → Option String
  | string s => some s
  | _ => none

def record? : Value → Option RecordId
  | record r => some r
  | _ => none

/-- The order of values that are no doubles: by type, and then by what they hold. -/
def orderByParts : Value → Value → Ordering :=
  compareLex (compareOn rank) (compareLex (compareOn bool?) (compareLex (compareOn int?)
    (compareLex (compareOn string?) (compareOn record?))))

instance : Std.TransCmp orderByParts :=
  inferInstanceAs (Std.TransCmp (compareLex (compareOn rank) (compareLex (compareOn bool?)
    (compareLex (compareOn int?) (compareLex (compareOn string?) (compareOn record?))))))

theorem order_eq_orderByParts {a b : Value} (ha : a.isFloat = false) (hb : b.isFloat = false) :
    a.order b = a.orderByParts b := by
  have hsome : ∀ {α : Type} [Ord α] (x y : α), compare (some x) (some y) = compare x y :=
    fun _ _ => rfl
  cases a <;> cases b <;>
    simp_all [order, orderByParts, compareLex, compareOn, rank, bool?, int?, string?, record?,
      isFloat, Nat.compare_eq_ite_lt]

end Value

theorem SortDirection.transCmp_orient (d : SortDirection) {α : Type} (cmp : α → α → Ordering)
    [Std.TransCmp cmp] : Std.TransCmp fun a b => d.orient (cmp a b) := by
  cases d with
  | asc => exact inferInstanceAs (Std.TransCmp cmp)
  | desc =>
    have hswap : (fun a b => SortDirection.desc.orient (cmp a b)) = fun a b => cmp b a := by
      funext a b
      exact Std.OrientedCmp.eq_swap.symm
    rw [hswap]
    exact Std.TransCmp.opposite

/-! ## 2. Keys along a list of directions -/

namespace RowKey

/-- The value at the first place of a key. -/
def firstValue (k : RowKey) : Value := (k.head?.map Prod.fst).getD .null

/-- Compare keys place by place in the directions of a list, as far as it goes. -/
def compareAlong : List SortDirection → RowKey → RowKey → Ordering
  | [] => fun _ _ => .eq
  | d :: ds =>
    compareLex (fun a b => d.orient (a.firstValue.orderByParts b.firstValue))
      (fun a b => compareAlong ds a.tail b.tail)

/-- Along one list of directions all keys are in order, whatever they hold. -/
instance transCmp_compareAlong (ds : List SortDirection) : Std.TransCmp (compareAlong ds) := by
  induction ds with
  | nil => exact { eq_swap := rfl, isLE_trans := fun _ _ => rfl }
  | cons d ds ih =>
    have := transCmp_map firstValue Value.orderByParts
    have := d.transCmp_orient fun a b : RowKey => a.firstValue.orderByParts b.firstValue
    have := transCmp_map (List.tail (α := Value × SortDirection)) (compareAlong ds)
    exact inferInstanceAs (Std.TransCmp (compareLex _ _))

/-- The key holds no doubles, and its directions are the first ones of the list. -/
inductive Fits : List SortDirection → RowKey → Prop
  | nil (ds : List SortDirection) : Fits ds []
  | cons {v : Value} {d : SortDirection} {ds : List SortDirection} {k : RowKey} :
      v.isFloat = false → Fits ds k → Fits (d :: ds) ((v, d) :: k)

theorem fits_of_prefix {ds : List SortDirection} {k : RowKey} (h : k.map Prod.snd <+: ds)
    (hfree : ∀ x ∈ k, x.1.isFloat = false) : Fits ds k := by
  induction k generalizing ds with
  | nil => exact .nil ds
  | cons x k ih =>
    obtain ⟨v, d⟩ := x
    obtain ⟨hv, hfree⟩ := List.forall_mem_cons.mp hfree
    cases ds with
    | nil => exact absurd (List.prefix_nil.mp h) (List.cons_ne_nil _ _)
    | cons e ds =>
      obtain ⟨rfl, hk⟩ := List.cons_prefix_cons.mp h
      exact .cons hv (ih hk hfree)

/-- Keys that fit the list are compared along it. -/
theorem compare_eq_compareAlong {ds : List SortDirection} {a b : RowKey} (ha : Fits ds a)
    (hb : Fits ds b) : RowKey.compare a b = compareAlong ds a b := by
  induction ds generalizing a b with
  | nil =>
    cases ha
    cases hb
    rw [RowKey.compare, compareAlong]
  | cons d ds ih =>
    have hnull : Value.null.isFloat = false := rfl
    cases ha with
    | nil =>
      cases hb with
      | nil =>
        have hrest := ih (.nil ds) (.nil ds)
        rw [RowKey.compare] at hrest
        rw [RowKey.compare, hrest]
        cases d <;> rfl
      | cons hu hb =>
        rw [RowKey.compare, Value.order_eq_orderByParts hnull hu, ih (.nil ds) hb]
        rfl
    | cons hv ha =>
      cases hb with
      | nil =>
        rw [RowKey.compare, Value.order_eq_orderByParts hv hnull, ih ha (.nil ds)]
        rfl
      | cons hu hb =>
        rw [RowKey.compare, Value.order_eq_orderByParts hv hu, ih ha hb]
        rfl

/-- The comparison orders the keys of a list, with ties. -/
structure Preorders (keys : List RowKey) : Prop where
  swap : ∀ a ∈ keys, ∀ b ∈ keys, RowKey.compare b a = (RowKey.compare a b).swap
  less : ∀ a ∈ keys, ∀ b ∈ keys, ∀ c ∈ keys, RowKey.compare a b = .lt → RowKey.compare b c = .lt →
    RowKey.compare a c = .lt
  equal : ∀ a ∈ keys, ∀ b ∈ keys, ∀ c ∈ keys, RowKey.compare a b = .eq → RowKey.compare b c = .eq →
    RowKey.compare a c = .eq
  atMost : ∀ a ∈ keys, ∀ b ∈ keys, ∀ c ∈ keys, (RowKey.compare a b).isLE = true →
    (RowKey.compare b c).isLE = true → (RowKey.compare a c).isLE = true

theorem preorders_of_eq {keys : List RowKey} (cmp : RowKey → RowKey → Ordering) [Std.TransCmp cmp]
    (h : ∀ a ∈ keys, ∀ b ∈ keys, RowKey.compare a b = cmp a b) : Preorders keys where
  swap a ha b hb := by
    rw [h b hb a ha, h a ha b hb]
    exact Std.OrientedCmp.eq_swap
  less a ha b hb c hc := by
    rw [h a ha b hb, h b hb c hc, h a ha c hc]
    exact Std.TransCmp.lt_trans
  equal a ha b hb c hc := by
    rw [h a ha b hb, h b hb c hc, h a ha c hc]
    exact Std.TransCmp.eq_trans
  atMost a ha b hb c hc := by
    rw [h a ha b hb, h b hb c hc, h a ha c hc]
    exact Std.TransCmp.isLE_trans

end RowKey

/-! ## 3. Rows that can be compared -/

namespace PathRow

/-- The keys of the rows hold no doubles, and where two of them have a place in common, they have
one direction there. -/
structure Comparable (rows : List PathRow) : Prop where
  free : ∀ r ∈ rows, ∀ x ∈ r.sortKey, x.1.isFloat = false
  agree : ∀ r ∈ rows, ∀ s ∈ rows, ∀ (i : Nat) (x y : Value × SortDirection),
    r.sortKey[i]? = some x → s.sortKey[i]? = some y → x.2 = y.2

/-- The direction at a place: that of the first row whose key has the place. -/
def directionAt (rows : List PathRow) (i : Nat) : SortDirection :=
  ((rows.findSome? fun r => r.sortKey[i]?).map Prod.snd).getD .asc

/-- Directions for at least as many places as any of the rows has. -/
def directions (rows : List PathRow) : List SortDirection :=
  (List.range (rows.map fun r => r.sortKey.length).sum).map (directionAt rows)

variable {rows : List PathRow}

theorem Comparable.directionAt_eq (h : Comparable rows) {r : PathRow} (hr : r ∈ rows) {i : Nat}
    {x : Value × SortDirection} (hx : r.sortKey[i]? = some x) : directionAt rows i = x.2 := by
  unfold directionAt
  cases hfound : rows.findSome? fun r => r.sortKey[i]? with
  | none =>
    rw [List.findSome?_eq_none_iff.mp hfound r hr] at hx
    cases hx
  | some y =>
    obtain ⟨s, hs, hy⟩ := List.exists_of_findSome?_eq_some hfound
    exact h.agree s hs r hr i y x hy hx

/-- The directions fit every row. -/
theorem Comparable.fits (h : Comparable rows) {r : PathRow} (hr : r ∈ rows) :
    RowKey.Fits (directions rows) r.sortKey := by
  refine RowKey.fits_of_prefix ?_ (h.free r hr)
  rw [List.prefix_iff_getElem?]
  intro i hi
  rw [List.length_map] at hi
  have hlong : i < (rows.map fun r => r.sortKey.length).sum :=
    Nat.lt_of_lt_of_le hi (List.le_sum_of_mem (List.mem_map_of_mem hr))
  rw [directions, List.getElem?_map, List.getElem?_range hlong, Option.map_some,
    h.directionAt_eq hr (List.getElem?_eq_getElem hi), List.getElem_map]

theorem Comparable.compare_eq (h : Comparable rows) {r s : PathRow} (hr : r ∈ rows)
    (hs : s ∈ rows) : RowKey.compare r.sortKey s.sortKey
      = RowKey.compareAlong (directions rows) r.sortKey s.sortKey :=
  RowKey.compare_eq_compareAlong (h.fits hr) (h.fits hs)

theorem Comparable.preorders (h : Comparable rows) :
    RowKey.Preorders (rows.map PathRow.sortKey) := by
  refine RowKey.preorders_of_eq (RowKey.compareAlong (directions rows)) ?_
  intro a ha b hb
  obtain ⟨r, hr, rfl⟩ := List.mem_map.mp ha
  obtain ⟨s, hs, rfl⟩ := List.mem_map.mp hb
  exact h.compare_eq hr hs

theorem Comparable.compare_swap (h : Comparable rows) {r s : PathRow} (hr : r ∈ rows)
    (hs : s ∈ rows) : RowKey.compare s.sortKey r.sortKey
      = (RowKey.compare r.sortKey s.sortKey).swap :=
  h.preorders.swap _ (List.mem_map_of_mem hr) _ (List.mem_map_of_mem hs)

/-- Rows agree about directions if those of each are the first ones of one list. -/
theorem comparable_of_prefix (ds : List SortDirection)
    (hfree : ∀ r ∈ rows, ∀ x ∈ r.sortKey, x.1.isFloat = false)
    (hds : ∀ r ∈ rows, r.sortKey.map Prod.snd <+: ds) : Comparable rows where
  free := hfree
  agree := by
    have hplace : ∀ r ∈ rows, ∀ (i : Nat) (x : Value × SortDirection), r.sortKey[i]? = some x →
        ds[i]? = some x.2 := by
      intro r hr i x hx
      obtain ⟨hi, rfl⟩ := List.getElem?_eq_some_iff.mp hx
      have hi' : i < (r.sortKey.map Prod.snd).length := by rwa [List.length_map]
      rw [List.prefix_iff_getElem?.mp (hds r hr) i hi', List.getElem_map]
    intro r hr s hs i x y hx hy
    have hboth := (hplace r hr i x hx).symm.trans (hplace s hs i y hy)
    exact Option.some.inj hboth

/-! ## 4. The stable arrangement -/

/-- The rows, each with the position it had: smaller keys first, and rows whose keys are equal in
the order they had. -/
structure Arrangement (rows : List PathRow) (placed : List (PathRow × Nat)) : Prop where
  perm : placed.Perm rows.zipIdx
  ascending : placed.Pairwise fun x y => RowKey.compare x.1.sortKey y.1.sortKey = .lt ∨
    RowKey.compare x.1.sortKey y.1.sortKey = .eq ∧ x.2 < y.2

variable {placed placed' : List (PathRow × Nat)}

theorem mem_of_perm_zipIdx (h : placed.Perm rows.zipIdx) {x : PathRow × Nat} (hx : x ∈ placed) :
    x.1 ∈ rows :=
  List.mem_of_getElem? (List.mem_zipIdx_iff_getElem?.mp (h.mem_iff.mp hx))

/-- There is only one. -/
theorem Arrangement.unique (h : Arrangement rows placed) (hrows : Comparable rows)
    (h' : Arrangement rows placed') : placed' = placed := by
  refine List.Perm.eq_of_pairwise ?_ h'.ascending h.ascending (h'.perm.trans h.perm.symm)
  intro x y hx hy hxy hyx
  have hswap := hrows.compare_swap (mem_of_perm_zipIdx h'.perm hx) (mem_of_perm_zipIdx h.perm hy)
  -- no two entries precede each other
  rcases hxy with hlt | ⟨heq, hpos⟩
  · rw [hswap, hlt] at hyx
    simp at hyx
  · rw [hswap, heq] at hyx
    simp at hyx
    omega

/-- The key of the first row is at most that of the second, along the directions of all rows. -/
def atMost (rows : List PathRow) (r s : PathRow) : Bool :=
  (RowKey.compareAlong (directions rows) r.sortKey s.sortKey).isLE

theorem atMost_trans {r s t : PathRow} : atMost rows r s = true → atMost rows s t = true →
    atMost rows r t = true := Std.TransCmp.isLE_trans

theorem atMost_total (r s : PathRow) : (atMost rows r s || atMost rows s r) = true := by
  have hswap : RowKey.compareAlong (directions rows) s.sortKey r.sortKey
      = (RowKey.compareAlong (directions rows) r.sortKey s.sortKey).swap := Std.OrientedCmp.eq_swap
  unfold atMost
  rw [hswap]
  cases RowKey.compareAlong (directions rows) r.sortKey s.sortKey <;> rfl

theorem Comparable.mergeSort_eq (h : Comparable rows) :
    rows.mergeSort PathRow.precedes = rows.mergeSort (atMost rows) := by
  have hmap := List.map_mergeSort (f := id) (l := rows) (r := PathRow.precedes)
    (s := atMost rows) fun r hr s hs => congrArg Ordering.isLE (h.compare_eq hr hs)
  rwa [List.map_id, List.map_id] at hmap

/-- Sorting the rows together with their positions arranges them. -/
theorem Comparable.exists_arrangement (h : Comparable rows) :
    ∃ placed, Arrangement rows placed ∧ placed.map Prod.fst = rows.mergeSort PathRow.precedes := by
  have hperm := List.mergeSort_perm rows.zipIdx (List.zipIdxLE (atMost rows))
  have hsorted : (rows.zipIdx.mergeSort (List.zipIdxLE (atMost rows))).Pairwise
      fun x y => List.zipIdxLE (atMost rows) x y = true := by
    refine List.pairwise_mergeSort ?_ ?_ rows.zipIdx
    · exact List.zipIdxLE_trans fun _ _ _ => atMost_trans
    · exact List.zipIdxLE_total atMost_total
  have hpositions : (rows.zipIdx.mergeSort (List.zipIdxLE (atMost rows))).Pairwise
      fun x y => x.2 ≠ y.2 := by
    rw [← List.pairwise_map, ← List.Nodup, (hperm.map Prod.snd).nodup_iff, List.zipIdx_map_snd]
    exact List.nodup_range'
  refine ⟨_, ⟨hperm, ?_⟩, ?_⟩
  · refine (hsorted.and hpositions).imp_of_mem ?_
    rintro x y hx hy ⟨hle, hne⟩
    have hx := mem_of_perm_zipIdx hperm hx
    have hy := mem_of_perm_zipIdx hperm hy
    simp only [List.zipIdxLE, atMost, ← h.compare_eq hx hy, ← h.compare_eq hy hx,
      h.compare_swap hx hy] at hle
    cases hcmp : RowKey.compare x.1.sortKey y.1.sortKey with
    | lt => exact Or.inl rfl
    | eq =>
      rw [hcmp] at hle
      have hpos : x.2 ≤ y.2 := by simpa using hle
      exact Or.inr ⟨rfl, Nat.lt_of_le_of_ne hpos hne⟩
    | gt =>
      rw [hcmp] at hle
      simp at hle
  · rw [h.mergeSort_eq]
    exact List.mergeSort_zipIdx

end PathRow

/-! ## 5. The window -/

theorem Slice.getElem?_apply_eq_some {α : Type} {s : Slice} {l : List α} {i : Nat} {a : α} :
    (s.apply l)[i]? = some a ↔
      (∀ high, s.high = some high → s.low + i < high) ∧ l[s.low + i]? = some a := by
  unfold Slice.apply Slice.count
  cases s.high with
  | none => simp
  | some high =>
    simp only [Option.map_some, Option.some.injEq, forall_eq', List.getElem?_take,
      List.getElem?_drop]
    have hcut : i < high - s.low ↔ s.low + i < high := by omega
    split
    · simp [hcut.mp ‹_›]
    · simp [mt hcut.mpr ‹_›]

namespace ResultWindow

/-- The first place that the window shows. -/
def low (w : ResultWindow) : Nat := (w.range.map Slice.low).getD 0

/-- The place that the window ends before, if it ends. -/
def high? (w : ResultWindow) : Option Nat := w.range.bind Slice.high

theorem getElem?_apply_eq_some {w : ResultWindow} {rows : List PathRow} {i : Nat} {r : PathRow} :
    (w.apply rows)[i]? = some r ↔ (∀ high, w.high? = some high → w.low + i < high) ∧
      (rows.mergeSort PathRow.precedes)[w.low + i]? = some r := by
  unfold ResultWindow.apply low high?
  cases w.range with
  | none => simp
  | some s => exact Slice.getElem?_apply_eq_some

/-- **A window is a stable sort and then a slice.** Where the keys of the rows hold no doubles and
agree about directions, the comparison orders them, with ties. So the rows have one stable
arrangement, and the window shows its places from the lower bound up to, but not including, the
upper one. It shows nothing if there are none. -/
theorem apply_arranged (w : ResultWindow) {rows : List PathRow} (h : PathRow.Comparable rows) :
    RowKey.Preorders (rows.map PathRow.sortKey) ∧
    ∃ placed, PathRow.Arrangement rows placed ∧
      (∀ placed', PathRow.Arrangement rows placed' → placed' = placed) ∧
      (∀ i r, (w.apply rows)[i]? = some r ↔
        (∀ high, w.high? = some high → w.low + i < high) ∧
          (placed.map Prod.fst)[w.low + i]? = some r) ∧
      ((rows.length ≤ w.low ∨ ∃ high, w.high? = some high ∧ high ≤ w.low) → w.apply rows = []) := by
  obtain ⟨placed, harranged, hsorted⟩ := h.exists_arrangement
  refine ⟨h.preorders, placed, harranged, fun _ h' => harranged.unique h h', ?_, ?_⟩
  · intro i r
    rw [hsorted]
    exact getElem?_apply_eq_some
  · intro hout
    refine List.eq_nil_iff_forall_not_mem.mpr ?_
    intro r hr
    obtain ⟨i, hi⟩ := List.mem_iff_getElem?.mp hr
    obtain ⟨hhigh, hplace⟩ := getElem?_apply_eq_some.mp hi
    rcases hout with hlow | ⟨high, heq, hle⟩
    · obtain ⟨hlt, _⟩ := List.getElem?_eq_some_iff.mp hplace
      rw [List.length_mergeSort] at hlt
      omega
    · have hlt := hhigh high heq
      omega

end ResultWindow

/-! ## 6. Six rows

Their keys have different lengths, and second places that are sorted in descending order. -/

namespace SixRows

def row (i : Nat) (key : RowKey) : PathRow := ⟨.regular, i, [], key⟩

def rows : List PathRow :=
  [row 0 [(.int 5, .asc), (.string "b", .desc)], row 1 [], row 2 [(.null, .asc)],
    row 3 [(.int 5, .asc)], row 4 [(.int 5, .asc), (.string "b", .desc)],
    row 5 [(.bool true, .asc), (.int 1, .desc)]]

/-- The two rows without a value come first, as they came, and of the last three the one whose key
ends early comes last. -/
def arranged : List (PathRow × Nat) :=
  [1, 2, 5, 0, 4, 3].filterMap fun i => rows[i]?.map fun r => (r, i)

theorem second_and_third_shown :
    PathRow.Comparable rows ∧ PathRow.Arrangement rows arranged ∧
    (ResultWindow.apply ⟨some ⟨1, some 3⟩⟩ rows)[0]? = some (row 2 [(.null, .asc)]) ∧
    (ResultWindow.apply ⟨some ⟨1, some 3⟩⟩ rows)[1]?
      = some (row 5 [(.bool true, .asc), (.int 1, .desc)]) ∧
    (ResultWindow.apply ⟨some ⟨1, some 3⟩⟩ rows)[2]? = none ∧
    ResultWindow.apply ⟨some ⟨4, some 2⟩⟩ rows = [] := by
  have hrows : PathRow.Comparable rows :=
    PathRow.comparable_of_prefix [.asc, .desc] (by decide) (by decide)
  have harranged : PathRow.Arrangement rows arranged := ⟨by decide, of_decide_eq_true (by cbv)⟩
  obtain ⟨-, placed, -, hunique, hshown, -⟩ := ResultWindow.apply_arranged ⟨some ⟨1, some 3⟩⟩ hrows
  obtain ⟨-, _, -, -, -, hblank⟩ := ResultWindow.apply_arranged ⟨some ⟨4, some 2⟩⟩ hrows
  obtain rfl := hunique arranged harranged
  refine ⟨hrows, harranged, (hshown 0 _).mpr ⟨?_, rfl⟩, (hshown 1 _).mpr ⟨?_, rfl⟩, ?_,
    hblank (Or.inr ⟨2, rfl, by decide⟩)⟩
  · rintro _ ⟨⟩
    decide
  · rintro _ ⟨⟩
    decide
  · refine Option.eq_none_iff_forall_ne_some.mpr ?_
    intro r hr
    exact absurd (((hshown 2 r).mp hr).1 3 rfl) (by decide)

end SixRows

end TraversalSql
