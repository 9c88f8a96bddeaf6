import Mathlib.Data.List.Forall2
import TraversalSql.Sql.Compose
import TraversalSql.Tree.Expand

/-!
# Literals and the SQL of a filter

Two predicates are alike if they are built in the same way and differ in their literals only, with
a null where the other has one (`Predicate.Like`). Which literal may stand for which is left open
(`Exchange`), so that the place of every literal can be followed into a statement.

Nothing that is decided about a predicate looks at its literals: not whether it lets any row
through, not whether it needs a temporary table, and not how it is written as SQL, where the
literals are parameters.
-/

set_option autoImplicit false

namespace TraversalSql

/-! ## 1. Outcomes that agree -/

/-- Both outcomes are faults, of whatever kind, or both are results that are related. -/
def Agree {ε α β : Type} (R : α → β → Prop) : Except ε α → Except ε β → Prop
  | .ok a, .ok b => R a b
  | .error _, .error _ => True
  | _, _ => False

namespace Agree

variable {ε ε' α β γ δ : Type} {R : α → β → Prop} {S : γ → δ → Prop}

theorem refl (r : Except ε α) : Agree Eq r r := by
  cases r with
  | error e => trivial
  | ok a => exact rfl

theorem mono {R' : α → β → Prop} {r : Except ε α} {s : Except ε β} (h : Agree R r s)
    (hR : ∀ a b, R a b → R' a b) : Agree R' r s := by
  cases r <;> cases s <;> first | exact h | exact hR _ _ h

theorem bind {r : Except ε α} {s : Except ε β} {f : α → Except ε γ} {g : β → Except ε δ}
    (h : Agree R r s) (hfg : ∀ a b, R a b → Agree S (f a) (g b)) : Agree S (r >>= f) (s >>= g) := by
  cases r with
  | error e =>
    cases s with
    | error e' => trivial
    | ok b => exact h.elim
  | ok a =>
    cases s with
    | error e' => exact h.elim
    | ok b => exact hfg a b h

theorem map {r : Except ε α} {s : Except ε β} {f : α → γ} {g : β → δ} (h : Agree R r s)
    (hfg : ∀ a b, R a b → S (f a) (g b)) : Agree S (r.map f) (s.map g) :=
  h.bind hfg

theorem mapError {r : Except ε α} {s : Except ε β} (f : ε → ε') (h : Agree R r s) :
    Agree R (r.mapError f) (s.mapError f) := by
  cases r <;> cases s <;> exact h

theorem mapM {f : α → Except ε γ} {g : β → Except ε δ} {as : List α} {bs : List β}
    (h : List.Forall₂ R as bs) (hfg : ∀ a b, R a b → Agree S (f a) (g b)) :
    Agree (List.Forall₂ S) (as.mapM f) (bs.mapM g) := by
  induction h with
  | nil => exact .nil
  | cons hab _ ih =>
    rw [List.mapM_cons, List.mapM_cons]
    apply bind (hfg _ _ hab)
    intro c d hcd
    apply bind ih
    intro cs ds hcds
    exact List.Forall₂.cons hcd hcds

theorem mapM_same {f : α → Except ε γ} {g : α → Except ε δ} (as : List α)
    (h : ∀ a, Agree S (f a) (g a)) : Agree (List.Forall₂ S) (as.mapM f) (as.mapM g) := by
  apply mapM (R := Eq) (List.forall₂_same.mpr fun _ _ => rfl)
  intro a b hab
  subst hab
  exact h a

end Agree

/-! ## 2. Predicates that are alike -/

/-- Which literals may stand for each other: nulls for nulls only. -/
structure Exchange where
  settings : Settings
  rel : Value → Value → Prop
  null_iff : ∀ {v w : Value}, rel v w → v.isNull = w.isNull

namespace Predicate

/-- The predicates are built in the same way from literals that may stand for each other. The
literal of a text test is what a statement is given in its place. Full-text searches are not alike,
since the words of a query are counted. -/
inductive Like (x : Exchange) : Predicate → Predicate → Prop
  | compare {op : Comparison} {v w : Value} (h : x.rel v w) : Like x (compare op v) (compare op w)
  | present : Like x present present
  | absent : Like x absent absent
  | within {vs ws : List Value} (h : List.Forall₂ x.rel vs ws) : Like x (within vs) (within ws)
  | without {vs ws : List Value} (h : List.Forall₂ x.rel vs ws) : Like x (without vs) (without ws)
  | between {a b a' b' : Value} (low : x.rel a a') (high : x.rel b b') :
    Like x (between a b) (between a' b')
  | inside {a b a' b' : Value} (low : x.rel a a') (high : x.rel b b') :
    Like x (inside a b) (inside a' b')
  | outside {a b a' b' : Value} (low : x.rel a a') (high : x.rel b b') :
    Like x (outside a b) (outside a' b')
  | and {ps qs : List Predicate} (h : List.Forall₂ (Like x) ps qs) : Like x (and ps) (and qs)
  | or {ps qs : List Predicate} (h : List.Forall₂ (Like x) ps qs) : Like x (or ps) (or qs)
  | text {test : TextTest} {s s' : String}
    (h : x.rel (.string (x.settings.dialect.textLiteral test s))
      (.string (x.settings.dialect.textLiteral test s'))) : Like x (text test s) (text test s')
  | lambda {code code' : String} : Like x (lambda code) (lambda code')

variable {x : Exchange}

namespace Like

theorem isAbsent {p q : Predicate} (h : p.Like x q) : q.isAbsent = p.isAbsent := by
  cases h <;> rfl

mutual

/-- Whether a predicate lets any row through does not depend on its literals. -/
theorem isEmptyMembership : ∀ {p q : Predicate}, p.Like x q →
    q.isEmptyMembership = p.isEmptyMembership
  | _, _, .within h => by cases h <;> rfl
  | _, _, .and h => anyEmptyMembership h
  | _, _, .or h => by
    rw [Predicate.isEmptyMembership, Predicate.isEmptyMembership, allEmptyMembership h]
    cases h <;> rfl
  | _, _, .compare _ | _, _, .present | _, _, .absent | _, _, .without _ | _, _, .between _ _
  | _, _, .inside _ _ | _, _, .outside _ _ | _, _, .text _ | _, _, .lambda => rfl

theorem anyEmptyMembership : ∀ {ps qs : List Predicate}, List.Forall₂ (Like x) ps qs →
    Predicate.anyEmptyMembership qs = Predicate.anyEmptyMembership ps
  | _, _, .nil => rfl
  | _, _, .cons h hs => by
    rw [Predicate.anyEmptyMembership, Predicate.anyEmptyMembership, h.isEmptyMembership,
      anyEmptyMembership hs]

theorem allEmptyMembership : ∀ {ps qs : List Predicate}, List.Forall₂ (Like x) ps qs →
    Predicate.allEmptyMembership qs = Predicate.allEmptyMembership ps
  | _, _, .nil => rfl
  | _, _, .cons h hs => by
    rw [Predicate.allEmptyMembership, Predicate.allEmptyMembership, h.isEmptyMembership,
      allEmptyMembership hs]

end

mutual

theorem length_values : ∀ {p q : Predicate}, p.Like x q → q.values.length = p.values.length
  | _, _, .within h | _, _, .without h => h.length_eq.symm
  | _, _, .and h | _, _, .or h => length_valuesOfAll h
  | _, _, .compare _ | _, _, .present | _, _, .absent | _, _, .between _ _ | _, _, .inside _ _
  | _, _, .outside _ _ | _, _, .text _ | _, _, .lambda => rfl

theorem length_valuesOfAll : ∀ {ps qs : List Predicate}, List.Forall₂ (Like x) ps qs →
    (valuesOfAll qs).length = (valuesOfAll ps).length
  | _, _, .nil => rfl
  | _, _, .cons h hs => by
    rw [valuesOfAll, valuesOfAll, List.length_append, List.length_append, h.length_values,
      length_valuesOfAll hs]

end

end Like

end Predicate

theorem Value.length_placeInto_le (v : Value) (vs : List Value) :
    (v.placeInto vs).length ≤ vs.length + 1 := by
  induction vs with
  | nil => exact Nat.le_refl _
  | cons w ws ih =>
    rw [placeInto]
    split
    · exact Nat.le_refl _
    · exact Nat.le_succ _
    · exact Nat.succ_le_succ ih

theorem Value.length_distinct_le (vs : List Value) : (Value.distinct vs).length ≤ vs.length := by
  have hfold : ∀ placed : List Value,
      (vs.foldl (fun placed v => v.stored.placeInto placed) placed).length
        ≤ placed.length + vs.length := by
    induction vs with
    | nil => exact fun placed => Nat.le_refl _
    | cons v vs ih =>
      intro placed
      have hplaced := v.stored.length_placeInto_le placed
      have hrest := ih (v.stored.placeInto placed)
      rw [List.foldl_cons, List.length_cons]
      omega
  have hall := hfold []
  rw [List.length_nil, Nat.zero_add] at hall
  exact hall

namespace Predicate

theorem values_of_membership {p : Predicate} {kind : BulkKind} {vs : List Value}
    (h : p.membership? = some (kind, vs)) : vs = p.values := by
  cases p with
  | within ws | without ws =>
    cases h
    rfl
  | or ps =>
    simp only [membership?, Option.ite_none_right_eq_some] at h
    cases h.2
    rfl
  | _ => cases h

/-- A predicate of few values needs no temporary table. -/
theorem bulk?_eq_none {p : Predicate} {threshold : Nat} (h : p.values.length ≤ threshold) :
    p.bulk? threshold = none := by
  unfold bulk?
  cases hm : p.membership? with
  | none => rfl
  | some m =>
    obtain ⟨kind, vs⟩ := m
    have hlength := Value.length_distinct_le vs
    rw [← values_of_membership hm] at h
    exact if_neg (Nat.not_lt.mpr (Nat.le_trans hlength h))

end Predicate

/-! ## 3. SQL that is alike -/

/-- The pieces are the same, or parameters that may stand for each other. -/
inductive Piece.Like (x : Exchange) : Piece → Piece → Prop
  | same (p : Piece) : Like x p p
  | exchanged {v w : Value} (h : x.rel v w) : Like x (.value v) (.value w)

namespace Fragment

variable {x : Exchange}

/-- The fragments have the same text, and parameters that may stand for each other. -/
abbrev Like (x : Exchange) : Fragment → Fragment → Prop := List.Forall₂ (Piece.Like x)

namespace Like

theorem refl (f : Fragment) : Like x f f := List.forall₂_same.mpr fun p _ => .same p

theorem sql {f g : Fragment} (h : Like x f g) : g.sql = f.sql := by
  unfold Fragment.sql
  congr 1
  induction h with
  | nil => rfl
  | cons hp _ ih =>
    rw [List.map_cons, List.map_cons, ih]
    cases hp <;> rfl

/-- Text in front of fragments that are alike. -/
theorem text {f g : Fragment} (s : String) (h : Like x f g) :
    Like x (.text s :: f) (.text s :: g) :=
  .cons (.same _) h

theorem append {f g f' g' : Fragment} (h : Like x f g) (h' : Like x f' g') :
    Like x (f ++ f') (g ++ g') :=
  List.rel_append h h'

theorem flatMap {α β : Type} {R : α → β → Prop} {as : List α} {bs : List β} {k : α → Fragment}
    {k' : β → Fragment} (h : List.Forall₂ R as bs) (hk : ∀ a b, R a b → Like x (k a) (k' b)) :
    Like x (as.flatMap k) (bs.flatMap k') := by
  induction h with
  | nil => exact .nil
  | cons hab _ ih => exact (hk _ _ hab).append ih

theorem joined {fs gs : List Fragment} (sep : String) (h : List.Forall₂ (Like x) fs gs) :
    Like x (Fragment.joined sep fs) (Fragment.joined sep gs) := by
  induction h with
  | nil => exact .nil
  | cons hf htail ih =>
    cases htail with
    | nil => exact hf
    | cons _ _ => exact (hf.append (refl [.text sep])).append ih

end Like

end Fragment

namespace Predicate

variable {x : Exchange}

/-- Only nulls are told apart from other literals. -/
theorem condition_compare (d : Dialect) (column : String) (op : Comparison) (v : Value) :
    (compare op v).condition d column = .ok (match op, v.isNull with
      | .eq, true => [.text (column ++ " IS NULL")]
      | .neq, true => [.text (column ++ " IS NOT NULL")]
      | _, _ => [.text (column ++ " " ++ op.sqlOperator ++ " "), .value v]) := by
  cases op <;> cases v <;> rfl

namespace Like

theorem memberCondition {vs ws : List Value} (h : List.Forall₂ x.rel vs ws) (column : String)
    (negated : Bool) : Fragment.Like x (Predicate.memberCondition column negated vs)
      (Predicate.memberCondition column negated ws) := by
  have hvalues : List.Forall₂ (Fragment.Like x) (vs.map fun v => [.value v])
      (ws.map fun w => [.value w]) := by
    rw [List.forall₂_map_left_iff, List.forall₂_map_right_iff]
    exact h.imp fun v w hvw => .cons (.exchanged hvw) .nil
  cases h with
  | nil => exact .refl _
  | cons _ _ => exact ((Fragment.Like.joined ", " hvalues).text _).append (.refl _)

theorem pairCondition {a b a' b' : Value} (hlow : x.rel a a') (hhigh : x.rel b b')
    (column lowOp connective highOp : String) :
    Fragment.Like x (Predicate.pairCondition column lowOp a connective highOp b)
      (Predicate.pairCondition column lowOp a' connective highOp b') :=
  Fragment.Like.text _ (.cons (.exchanged hlow)
    (Fragment.Like.text _ (.cons (.exchanged hhigh) (Fragment.Like.refl _))))

theorem connected {fs gs : List Fragment} (h : List.Forall₂ (Fragment.Like x) fs gs)
    (connective empty : String) : Fragment.Like x (Predicate.connected connective empty fs)
      (Predicate.connected connective empty gs) := by
  cases h with
  | nil => exact .refl _
  | cons hf hs => exact ((Fragment.Like.joined connective (.cons hf hs)).text _).append (.refl _)

mutual

/-- Predicates that are alike have conditions that are alike, or have none. -/
theorem condition (column : String) : ∀ {p q : Predicate}, p.Like x q →
    Agree (Fragment.Like x) (p.condition x.settings.dialect column)
      (q.condition x.settings.dialect column)
  | _, _, .compare h => by
    rw [condition_compare, condition_compare, x.null_iff h]
    show Fragment.Like x _ _
    split
    · exact Fragment.Like.refl _
    · exact Fragment.Like.refl _
    · exact Fragment.Like.text _ (.cons (.exchanged h) .nil)
  | _, _, .present | _, _, .absent => Fragment.Like.refl (x := x) _
  | _, _, .within h => memberCondition h column false
  | _, _, .without h => memberCondition h column true
  | _, _, .between low high | _, _, .inside low high | _, _, .outside low high =>
    pairCondition low high column _ _ _
  | _, _, .and h => (conditions column h).map fun _ _ hfs => connected hfs _ _
  | _, _, .or h => (conditions column h).map fun _ _ hfs => connected hfs _ _
  | _, _, .text h => Fragment.Like.text _ (.cons (.exchanged h) (Fragment.Like.refl _))
  | _, _, .lambda => trivial

theorem conditions (column : String) : ∀ {ps qs : List Predicate}, List.Forall₂ (Like x) ps qs →
    Agree (List.Forall₂ (Fragment.Like x)) (Predicate.conditions x.settings.dialect column ps)
      (Predicate.conditions x.settings.dialect column qs)
  | _, _, .nil => List.Forall₂.nil
  | _, _, .cons h hs =>
    (condition column h).bind fun _ _ hf => (conditions column hs).bind fun _ _ hfs =>
      List.Forall₂.cons hf hfs

end

end Like

end Predicate

end TraversalSql
