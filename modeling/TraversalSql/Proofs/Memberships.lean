import Mathlib.Data.List.Dedup
import TraversalSql.Proofs.SortKeys

/-!
# Membership conditions

A condition on a column is true, false or unknown of the column's value: a null is neither equal to
a value nor different from it. This file reads the conditions that membership tests are written as
(`Fragment.verdict?`), and says what they come to for the value of a column.
-/

set_option autoImplicit false

namespace TraversalSql

/-! ## 1. Verdicts -/

/-- What a condition says of a value; none where it is unknown. -/
abbrev Verdict := Option Bool

namespace Verdict

def not (v : Verdict) : Verdict := v.map Bool.not

/-- The verdict of conditions of which one has to hold. -/
def any (vs : List Verdict) : Verdict :=
  if some true ∈ vs then some true else if none ∈ vs then none else some false

theorem any_eq_true_iff {vs : List Verdict} : any vs = some true ↔ some true ∈ vs := by
  unfold any
  split
  · exact iff_of_true rfl ‹_›
  · split
    · exact iff_of_false nofun ‹_›
    · exact iff_of_false (by simp) ‹_›

theorem any_eq_none_iff {vs : List Verdict} :
    any vs = none ↔ some true ∉ vs ∧ none ∈ vs := by
  unfold any
  split
  · exact iff_of_false nofun fun h => h.1 ‹_›
  · split
    · exact iff_of_true rfl ⟨‹_›, ‹_›⟩
    · exact iff_of_false nofun fun h => absurd h.2 ‹_›

theorem not_ne_false_iff {v : Verdict} : v.not ≠ some false ↔ v ≠ some true := by
  cases v with
  | none => exact iff_of_true nofun nofun
  | some b => cases b <;> simp [not]

end Verdict

namespace Value

/-- Whether two values are equal, as a database compares them: a record id counts as the id in its
table. -/
def equals (x v : Value) : Verdict :=
  if x.isNull || v.isNull then none else some (x.stored.order v.stored == .eq)

/-- Whether a value is one of a list. -/
def isIn (x : Value) (vs : List Value) : Verdict := .any (vs.map x.equals)

theorem isIn_eq_true_iff {x : Value} {vs : List Value} :
    x.isIn vs = some true ↔ ∃ v ∈ vs, x.equals v = some true := by
  rw [isIn, Verdict.any_eq_true_iff, List.mem_map]

theorem equals_eq_none_iff {x v : Value} : x.equals v = none ↔ x = .null ∨ v = .null := by
  unfold equals
  cases x <;> cases v <;> simp [isNull]

/-- Membership is unknown if the value is null, or if a null is listed and nothing equal to it. -/
theorem isIn_eq_none_iff {x : Value} {vs : List Value} (hne : vs ≠ []) :
    x.isIn vs = none ↔ x = .null ∨ (.null ∈ vs ∧ ∀ v ∈ vs, x.equals v ≠ some true) := by
  simp only [isIn, Verdict.any_eq_none_iff, List.mem_map, not_exists, not_and]
  constructor
  · rintro ⟨htrue, v, hv, hnone⟩
    rcases equals_eq_none_iff.mp hnone with rfl | rfl
    · exact Or.inl rfl
    · exact Or.inr ⟨hv, htrue⟩
  · rintro (rfl | ⟨hnull, htrue⟩)
    · obtain ⟨v, hv⟩ := List.exists_mem_of_ne_nil vs hne
      exact ⟨fun _ _ => nofun, v, hv, rfl⟩
    · exact ⟨htrue, .null, hnull, equals_eq_none_iff.mpr (Or.inr rfl)⟩

end Value

/-! ## 2. Conditions -/

namespace Fragment

theorem joined_eq_intercalate (sep : String) (fs : List Fragment) :
    joined sep fs = [Piece.text sep].intercalate fs := by
  induction fs with
  | nil => rfl
  | cons f fs ih =>
    cases fs with
    | nil => simp [joined]
    | cons g fs =>
      rw [joined, ih, List.intercalate_cons_cons]
      exact List.cons_ne_nil g fs

/-- The parts that stand between separators. -/
def parts (sep : String) (f : Fragment) : List Fragment := List.splitOn (.text sep) f

/-- What stands between an opening text and a closing parenthesis. -/
def enclosed? (opening : String) : Fragment → Option Fragment
  | .text s :: rest =>
    if s = opening ∧ rest.getLast? = some (.text ")") then some rest.dropLast else none
  | _ => none

/-- The value of a parameter that stands alone. -/
def literal? : Fragment → Option Value
  | [.param (.value v)] => some v
  | _ => none

/-- The verdict of a membership test on a column with the value `x`. -/
def testVerdict? (column : String) (x : Value) (f : Fragment) : Option Verdict :=
  if f = [.text "1 = 1"] then some (some true)
  else if f = [.text "1 = 0"] then some (some false)
  else match f.enclosed? (column ++ " IN ("), f.enclosed? (column ++ " NOT IN (") with
    | some list, _ => ((list.parts ", ").mapM literal?).map x.isIn
    | none, some list => ((list.parts ", ").mapM literal?).map fun vs => (x.isIn vs).not
    | none, none => none

/-- The verdict of a membership test, or of several of which one has to hold. -/
def verdict? (column : String) (x : Value) (f : Fragment) : Option Verdict :=
  match f.enclosed? "(" with
  | some body => ((body.parts " OR ").mapM (testVerdict? column x)).map Verdict.any
  | none => f.testVerdict? column x

variable {column : String} {x : Value}

theorem mem_joined {sep : String} {fs : List Fragment} {piece : Piece} (h : piece ∈ joined sep fs) :
    piece = .text sep ∨ ∃ f ∈ fs, piece ∈ f := by
  fun_induction joined sep fs with
  | case1 => cases h
  | case2 f => exact Or.inr ⟨f, List.mem_singleton_self _, h⟩
  | case3 f fs _ ih =>
    simp only [List.mem_append, List.mem_singleton] at h
    rcases h with (h | h) | h
    · exact Or.inr ⟨f, List.mem_cons_self, h⟩
    · exact Or.inl h
    · exact (ih h).imp_right fun ⟨g, hg, hmem⟩ => ⟨g, List.mem_cons_of_mem _ hg, hmem⟩

theorem parts_joined {sep : String} {fs : List Fragment} (hne : fs ≠ [])
    (hsep : ∀ f ∈ fs, .text sep ∉ f) : (joined sep fs).parts sep = fs := by
  rw [joined_eq_intercalate, parts, List.splitOn_intercalate _ hsep hne]

theorem enclosed?_cons (opening : String) (body : Fragment) :
    enclosed? opening (.text opening :: body ++ [.text ")"]) = some body := by
  simp [enclosed?]

theorem enclosed?_of_ne {opening s : String} (h : s ≠ opening) (rest : Fragment) :
    enclosed? opening (.text s :: rest) = none := by
  simp [enclosed?, h]

theorem mapM_literal? (vs : List Value) :
    (vs.map fun v => [Piece.value v]).mapM literal? = some vs := by
  have hid : vs.mapM (literal? ∘ fun v => [Piece.value v]) = some (vs.map id) :=
    mapM_some fun _ _ => rfl
  rw [List.mapM_map, hid, List.map_id]

theorem literals_joined {vs : List Value} (hne : vs ≠ []) :
    ((joined ", " (vs.map fun v => [.value v])).parts ", ").mapM literal? = some vs := by
  rw [parts_joined (by simpa using hne), mapM_literal?]
  intro f hf
  obtain ⟨v, _, rfl⟩ := List.mem_map.mp hf
  simp [Piece.value]

/-- A membership condition says whether a value is listed, or not listed. -/
theorem testVerdict?_memberCondition (negated : Bool) (vs : List Value) :
    (Predicate.memberCondition column negated vs).testVerdict? column x
      = some (if negated then (x.isIn vs).not else x.isIn vs) := by
  cases vs with
  | nil => cases negated <;> rfl
  | cons v vs =>
    have hne : v :: vs ≠ [] := List.cons_ne_nil v vs
    unfold Predicate.memberCondition testVerdict?
    cases negated with
    | false =>
      rw [if_neg (by simp), if_neg (by simp), if_neg (by simp), if_neg (by simp), enclosed?_cons]
      simp only [literals_joined hne]
      rfl
    | true =>
      have hopening : column ++ " NOT IN (" ≠ column ++ " IN (" := by simp
      rw [if_neg (by simp), if_neg (by simp), if_neg (by simp), if_pos rfl, enclosed?_cons,
        List.cons_append, enclosed?_of_ne hopening]
      simp only [literals_joined hne]
      rfl

/-- What a membership test begins with is longer than what stands around and between tests. -/
theorem opening_ne {short : String} (h : short.toList.length < 5) (negated : Bool) :
    column ++ (if negated then " NOT IN (" else " IN (") ≠ short := by
  rintro rfl
  cases negated with
  | false => simp at h
  | true =>
    simp at h
    omega

/-- A membership condition does not stand in parentheses. -/
theorem enclosed?_memberCondition (negated : Bool) (vs : List Value) :
    (Predicate.memberCondition column negated vs).enclosed? "(" = none := by
  unfold Predicate.memberCondition
  split
  · exact enclosed?_of_ne (by cases negated <;> decide) _
  · exact enclosed?_of_ne (opening_ne (by decide) negated) _

theorem verdict?_memberCondition (negated : Bool) (vs : List Value) :
    (Predicate.memberCondition column negated vs).verdict? column x
      = some (if negated then (x.isIn vs).not else x.isIn vs) := by
  rw [verdict?, enclosed?_memberCondition, testVerdict?_memberCondition]

theorem or_notMem_memberCondition (negated : Bool) (vs : List Value) :
    Piece.text " OR " ∉ Predicate.memberCondition column negated vs := by
  unfold Predicate.memberCondition
  split
  · cases negated <;> decide
  · intro h
    rcases List.mem_append.mp h with h | h
    · rcases List.mem_cons.mp h with h | h
      · exact opening_ne (by decide) negated (Piece.text.inj h).symm
      · rcases mem_joined h with h | ⟨f, hf, hmem⟩
        · exact absurd h (by decide)
        · obtain ⟨v, _, rfl⟩ := List.mem_map.mp hf
          cases List.mem_singleton.mp hmem
    · exact absurd h (by decide)

/-- Several membership conditions of which one has to hold. -/
theorem verdict?_alternatives {lists : List (List Value)} (hne : lists ≠ []) :
    (Predicate.connected " OR " "1 = 0"
      (lists.map (Predicate.memberCondition column false))).verdict? column x
        = some (.any (lists.map x.isIn)) := by
  have hparts : ((lists.map (Predicate.memberCondition column false)).mapM
      (testVerdict? column x)) = some (lists.map x.isIn) := by
    clear hne
    induction lists with
    | nil => rfl
    | cons vs lists ih =>
      rw [List.map_cons, List.mapM_cons, testVerdict?_memberCondition, ih]
      rfl
  rw [Predicate.connected, if_neg (by simpa using hne), verdict?, enclosed?_cons]
  simp only
  rw [parts_joined (by simpa using hne), hparts]
  · rfl
  · intro f hf
    obtain ⟨vs, _, rfl⟩ := List.mem_map.mp hf
    exact or_notMem_memberCondition false vs

end Fragment

namespace Predicate

/-- The predicate asks for a value of one of the lists: it is one membership test, or several of
which one has to hold. -/
inductive AsksFor : Predicate → List (List Value) → Prop
  | one (vs : List Value) : AsksFor (.within vs) [vs]
  | oneOf {lists : List (List Value)} : lists ≠ [] → AsksFor (.or (lists.map .within)) lists

theorem valuesOfAll_within (lists : List (List Value)) :
    valuesOfAll (lists.map .within) = lists.flatten := by
  induction lists with
  | nil => rfl
  | cons vs lists ih => rw [List.map_cons, valuesOfAll, values, ih, List.flatten_cons]

theorem conditions_within (d : Dialect) (column : String) (lists : List (List Value)) :
    conditions d column (lists.map .within) = .ok (lists.map (memberCondition column false)) := by
  induction lists with
  | nil => rfl
  | cons vs lists ih =>
    rw [List.map_cons, conditions, condition, ih]
    rfl

namespace AsksFor

variable {p : Predicate} {lists : List (List Value)}

theorem values_eq (h : p.AsksFor lists) : p.values = lists.flatten := by
  cases h with
  | one vs => simp [values]
  | oneOf _ => rw [values, valuesOfAll_within]

theorem membership?_eq (h : p.AsksFor lists) : p.membership? = some (.within, p.values) := by
  cases h with
  | one vs => rfl
  | oneOf hne =>
    have hall : ((lists.map .within).all isWithin) = true := by
      simp [isWithin]
    have hempty : (lists.map Predicate.within).isEmpty = false := by
      simpa using hne
    rw [membership?, hall, hempty]
    rfl

/-- The condition is true of the values that are listed somewhere. -/
theorem verdict (h : p.AsksFor lists) (d : Dialect) (column : String) (x : Value) :
    ∃ f verdict, p.condition d column = .ok f ∧ f.verdict? column x = some verdict ∧
      (verdict = some true ↔ ∃ v ∈ p.values, x.equals v = some true) := by
  rw [h.values_eq]
  cases h with
  | one vs =>
    refine ⟨_, _, rfl, Fragment.verdict?_memberCondition false vs, ?_⟩
    rw [List.flatten_singleton]
    exact Value.isIn_eq_true_iff
  | oneOf hne =>
    refine ⟨_, _, by rw [condition, conditions_within]; rfl, Fragment.verdict?_alternatives hne, ?_⟩
    rw [Verdict.any_eq_true_iff]
    simp only [List.mem_map, Value.isIn_eq_true_iff, List.mem_flatten]
    constructor
    · rintro ⟨vs, hvs, v, hv, heq⟩
      exact ⟨v, ⟨vs, hvs, hv⟩, heq⟩
    · rintro ⟨v, ⟨vs, hvs, hv⟩, heq⟩
      exact ⟨vs, hvs, v, hv, heq⟩

end AsksFor

end Predicate

/-! ## 3. Distinct values -/

namespace Value

def isFloat : Value → Bool
  | float _ => true
  | _ => false

/-- The value is neither a double nor a record id: it compares equal to nothing but itself. -/
def Exact : Value → Prop
  | float _ | record _ => False
  | null | bool _ | int _ | string _ => True

theorem exact_stored {v : Value} (h : v.isFloat = false) : v.stored.Exact := by
  cases v <;> trivial

theorem exact_of_mem_stored {vs : List Value} (h : ∀ v ∈ vs, v.isFloat = false) :
    ∀ w ∈ vs.map stored, w.Exact := by
  intro w hw
  obtain ⟨v, hv, rfl⟩ := List.mem_map.mp hw
  exact exact_stored (h v hv)

variable {a b c v w : Value} {vs ws : List Value}

theorem order_eq_iff (ha : a.Exact) (hb : b.Exact) : a.order b = .eq ↔ a = b := by
  cases a <;> cases b <;> simp_all [order, Exact, rank]

theorem order_lt_trans (ha : a.Exact) (hb : b.Exact) (hc : c.Exact) (hab : a.order b = .lt)
    (hbc : b.order c = .lt) : a.order c = .lt := by
  -- values of one type are compared as such, all others by the places of their types
  cases a <;> cases b <;> cases c <;> simp only [order] at hab hbc ⊢ <;>
    first
    | contradiction
    | exact Std.TransCmp.lt_trans hab hbc
    | exact hab
    | exact hbc

theorem mem_placeInto (hv : v.Exact) (hws : ∀ w ∈ ws, w.Exact) :
    a ∈ v.placeInto ws ↔ a = v ∨ a ∈ ws := by
  induction ws with
  | nil => simp [placeInto]
  | cons w ws ih =>
    obtain ⟨hw, hws⟩ := List.forall_mem_cons.mp hws
    unfold placeInto
    split
    · exact List.mem_cons
    · rename_i heq
      obtain rfl := (order_eq_iff hv hw).mp heq
      simp
    · rw [List.mem_cons, ih hws, List.mem_cons]
      exact or_left_comm

/-- The list is ascending, and no two of its values are alike. -/
def Ascending (vs : List Value) : Prop := vs.Pairwise fun a b => a.order b = .lt

theorem ascending_placeInto (hv : v.Exact) (hws : ∀ w ∈ ws, w.Exact) (h : Ascending ws) :
    Ascending (v.placeInto ws) := by
  induction ws with
  | nil => exact List.pairwise_singleton _ _
  | cons w ws ih =>
    obtain ⟨hw, hrest⟩ := List.forall_mem_cons.mp hws
    obtain ⟨hbelow, hascending⟩ := List.pairwise_cons.mp h
    unfold placeInto
    split
    · rename_i hlt
      refine List.pairwise_cons.mpr ⟨?_, h⟩
      intro u hu
      rcases List.mem_cons.mp hu with rfl | hu
      · exact hlt
      · exact order_lt_trans hv hw (hrest u hu) hlt (hbelow u hu)
    · rename_i heq
      obtain rfl := (order_eq_iff hv hw).mp heq
      exact h
    · rename_i hgt
      refine List.pairwise_cons.mpr ⟨?_, ih hrest hascending⟩
      intro u hu
      rcases (mem_placeInto hv hrest).mp hu with rfl | hu
      · rw [order_swap, hgt]
        rfl
      · exact hbelow u hu

theorem distinct_append (vs : List Value) (v : Value) :
    distinct (vs ++ [v]) = v.stored.placeInto (distinct vs) := by
  rw [distinct, List.foldl_append]
  rfl

/-- The distinct values of a list are its stored values, in ascending order. -/
theorem distinct_spec (h : ∀ v ∈ vs, v.isFloat = false) :
    (∀ a, a ∈ distinct vs ↔ a ∈ vs.map stored) ∧ Ascending (distinct vs) := by
  induction vs using List.reverseRecOn with
  | nil => exact ⟨fun _ => Iff.rfl, .nil⟩
  | append_singleton vs v ih =>
    have hvs : ∀ v' ∈ vs, v'.isFloat = false := fun v' hv' => h v' (List.mem_append_left _ hv')
    have hv : v.stored.Exact := exact_stored (h v (by simp))
    obtain ⟨hmem, hascending⟩ := ih hvs
    have hexact : ∀ w ∈ distinct vs, w.Exact :=
      fun w hw => exact_of_mem_stored hvs w ((hmem w).mp hw)
    rw [distinct_append]
    refine ⟨?_, ascending_placeInto hv hexact hascending⟩
    intro a
    rw [mem_placeInto hv hexact, hmem, List.map_append, List.mem_append, or_comm]
    exact or_congr_right List.mem_singleton.symm

theorem Ascending.nodup (h : Ascending vs) : vs.Nodup := by
  refine h.imp ?_
  rintro a b hlt rfl
  have hswap := order_swap a a
  rw [hlt] at hswap
  cases hswap

/-- The values of a list that differ, in order, from all that come behind them. -/
def differing : List Value → List Value
  | [] => []
  | v :: vs => if vs.any fun w => v.order w == .eq then differing vs else v :: differing vs

theorem differing_eq_dedup (h : ∀ v ∈ vs, v.Exact) : differing vs = vs.dedup := by
  induction vs with
  | nil => rfl
  | cons v vs ih =>
    obtain ⟨hv, hvs⟩ := List.forall_mem_cons.mp h
    have hany : (vs.any fun w => v.order w == .eq) = true ↔ v ∈ vs := by
      rw [List.any_eq_true]
      constructor
      · rintro ⟨w, hw, heq⟩
        rw [(order_eq_iff hv (hvs w hw)).mp (beq_iff_eq.mp heq)]
        exact hw
      · intro hmem
        exact ⟨v, hmem, beq_iff_eq.mpr ((order_eq_iff hv hv).mpr rfl)⟩
    rw [differing, ih hvs]
    by_cases hmem : v ∈ vs
    · rw [if_pos (hany.mpr hmem), List.dedup_cons_of_mem hmem]
    · rw [if_neg (mt hany.mp hmem), List.dedup_cons_of_notMem hmem]

/-- As many values are distinct as differ in order. -/
theorem length_distinct (h : ∀ v ∈ vs, v.isFloat = false) :
    (distinct vs).length = (differing (vs.map stored)).length := by
  obtain ⟨hmem, hascending⟩ := distinct_spec h
  rw [differing_eq_dedup (exact_of_mem_stored h)]
  refine List.Perm.length_eq ?_
  refine (List.perm_ext_iff_of_nodup hascending.nodup (List.nodup_dedup _)).mpr ?_
  intro a
  rw [hmem, List.mem_dedup]

end Value

end TraversalSql
