import TraversalSql.Proofs.StoredGraph
import TraversalSql.Proofs.Arena

/-!
# Walks, and the rows along a path of nodes

There are two ways to say which rows a run goes over. A walk (`Run.IsWalk`) is said by the hops and
the stored graph alone: it starts at a row that passes the root hop and goes on, hop by hop, along
foreign keys. A path of a query tree says it by its nodes: each row is in the node's table, passes
the filters that the node holds, and is joined to the row before it by the node's key
(`QueryTree.Answers`). This file has the two definitions and what follows from each on its own;
that they agree is `Proofs/Descent.lean`.
-/

set_option autoImplicit false

namespace TraversalSql

variable {T : Topology} (g : StoredGraph T) (truth : Truth)

/-! ## 1. Walks -/

/-- From a row the hop reaches another one, over the rows listed. The last of these is the row
that is reached; a hop between vertices goes over the row of an edge first. -/
inductive Hop.Reaches (h : Hop) (u : Visit) : List Visit → Visit → Prop
  | edge {direction d : Direction} {labels : List String} {e : Table} {row : Row} :
      h.kind = .move (.follow direction labels .edge) → d ∈ direction.resolved →
      row ∈ g.rows e → followsEdge labels e = true → row.key ⟨u.table, d⟩ = some u.row.id →
      h.Passes T truth ⟨e, some d, row⟩ → Reaches h u [⟨e, some d, row⟩] ⟨e, some d, row⟩
  | vertex {direction d : Direction} {labels : List String} {e x : Table} {row row' : Row} :
      h.kind = .move (.follow direction labels .vertex) → d ∈ direction.resolved →
      row ∈ g.rows e → followsEdge labels e = true → row.key ⟨u.table, d⟩ = some u.row.id →
      row' ∈ g.rows x → row.key ⟨x, d.opposite⟩ = some row'.id →
      h.Passes T truth ⟨x, some d, row'⟩ →
      Reaches h u [⟨e, some d, row⟩, ⟨x, some d, row'⟩] ⟨x, some d, row'⟩
  | endpoint {direction d : Direction} {x : Table} {row : Row} :
      h.kind = .move (.endpoint direction) → d ∈ direction.resolved → row ∈ g.rows x →
      u.row.key ⟨x, d⟩ = some row.id → h.Passes T truth ⟨x, some d, row⟩ →
      Reaches h u [⟨x, some d, row⟩] ⟨x, some d, row⟩

/-- One hop after the other, from a row over the rows listed to a last one. -/
inductive Run.Follows : List Hop → Visit → List Visit → Visit → Prop
  | nil (u : Visit) : Follows [] u [] u
  | cons {h : Hop} {hs : List Hop} {u v x : Visit} {ext w : List Visit} :
      h.Reaches g truth u ext v → Follows hs v w x → Follows (h :: hs) u (ext ++ w) x

/-- The row is one that a root hop starts from. -/
structure Hop.Starts (h : Hop) (v : Visit) : Prop where
  row : v.row ∈ g.rows v.table
  kind : v.table.kind = h.kind.target
  direction : v.direction = none
  passes : h.Passes T truth v

/-- The rows are a walk along the hops, the first of which is the root. -/
def Run.IsWalk : List Hop → List Visit → Prop
  | root :: hops, v :: w => root.Starts g truth v ∧ ∃ x, Follows g truth hops v w x
  | _, _ => False

variable {g truth} {h : Hop} {hs hs' : List Hop} {u v x : Visit} {ext w w' : List Visit}

theorem Hop.Reaches.row_mem (hr : h.Reaches g truth u ext v) : v.row ∈ g.rows v.table := by
  cases hr with
  | edge _ _ hrow => exact hrow
  | vertex _ _ _ _ _ hrow => exact hrow
  | endpoint _ _ hrow => exact hrow

theorem Hop.Reaches.getLast (hr : h.Reaches g truth u ext v) : (u :: ext).getLast? = some v := by
  cases hr with
  | edge => rfl
  | vertex => rfl
  | endpoint => rfl

/-- How many rows a hop goes over depends on the hop alone. -/
theorem Hop.Reaches.length_eq {u' v' : Visit} {ext' : List Visit}
    (hr : h.Reaches g truth u ext v) (hr' : h.Reaches g truth u' ext' v') :
    ext.length = ext'.length := by
  cases hr with
  | edge hk =>
    cases hr' with
    | edge => rfl
    | vertex hk' => rw [hk] at hk'; cases hk'
    | endpoint => rfl
  | vertex hk =>
    cases hr' with
    | edge hk' => rw [hk] at hk'; cases hk'
    | vertex => rfl
    | endpoint hk' => rw [hk] at hk'; cases hk'
  | endpoint hk =>
    cases hr' with
    | edge => rfl
    | vertex hk' => rw [hk] at hk'; cases hk'
    | endpoint => rfl

namespace Run

theorem Follows.length_eq (hf : Follows g truth hs u w x) :
    ∀ {u' x' : Visit} {w' : List Visit}, Follows g truth hs u' w' x' → w.length = w'.length := by
  induction hf with
  | nil =>
    intro u' x' w' hf'
    cases hf'
    rfl
  | cons hr _ ih =>
    intro u' x' w' hf'
    cases hf' with
    | cons hr' hf' => rw [List.length_append, List.length_append, hr.length_eq hr', ih hf']

theorem Follows.append (hf : Follows g truth hs u w v) (hf' : Follows g truth hs' v w' x) :
    Follows g truth (hs ++ hs') u (w ++ w') x := by
  induction hf with
  | nil => exact hf'
  | cons hr _ ih =>
    rw [List.append_assoc]
    exact .cons hr (ih hf')

theorem Follows.split (hs : List Hop) : ∀ {hs' : List Hop} {u x : Visit} {w : List Visit},
    Follows g truth (hs ++ hs') u w x →
    ∃ w₁ w₂ v, w = w₁ ++ w₂ ∧ Follows g truth hs u w₁ v ∧ Follows g truth hs' v w₂ x := by
  induction hs with
  | nil =>
    intro hs' u x w hf
    exact ⟨[], w, u, rfl, .nil u, hf⟩
  | cons h hs ih =>
    intro hs' u x w hf
    cases hf with
    | cons hr hf =>
      obtain ⟨w₁, w₂, v, rfl, hf₁, hf₂⟩ := ih hf
      exact ⟨_, w₂, v, (List.append_assoc _ _ _).symm, .cons hr hf₁, hf₂⟩

/-- The rows tell where they end. -/
theorem Follows.getLast (hf : Follows g truth hs u w x) : (u :: w).getLast? = some x := by
  induction hf with
  | nil => rfl
  | cons hr _ ih =>
    cases hr with
    | edge => exact ih
    | vertex => exact ih
    | endpoint => exact ih

/-- Rows along more hops that begin with rows along the first ones go on from where these end. -/
theorem Follows.extend_iff (hf : Follows g truth hs u w v) :
    Follows g truth (hs ++ hs') u (w ++ w') x ↔ Follows g truth hs' v w' x := by
  constructor
  · intro hall
    obtain ⟨w₁, w₂, v', hw, hf₁, hf₂⟩ := Follows.split hs hall
    obtain ⟨rfl, rfl⟩ := List.append_inj hw (hf.length_eq hf₁)
    have hv : some v = some v' := hf.getLast.symm.trans hf₁.getLast
    cases hv
    exact hf₂
  · exact hf.append

theorem isWalk_cons {root : Hop} : IsWalk g truth (root :: hs) (v :: w) ↔
    root.Starts g truth v ∧ ∃ x, Follows g truth hs v w x := Iff.rfl

theorem IsWalk.exists_cons {hops : List Hop} (hw : IsWalk g truth hops w) :
    ∃ root hs v w', hops = root :: hs ∧ w = v :: w' := by
  cases hops with
  | nil => exact hw.elim
  | cons root hs =>
    cases w with
    | nil => exact hw.elim
    | cons v w' => exact ⟨root, hs, v, w', rfl, rfl⟩

/-- A walk goes on along more hops from the row it ends at. -/
theorem IsWalk.extend_iff {hops : List Hop} (hw : IsWalk g truth hops w)
    (hv : w.getLast? = some v) :
    IsWalk g truth (hops ++ hs') (w ++ w') ↔ ∃ x, Follows g truth hs' v w' x := by
  obtain ⟨root, hs, u, w₀, rfl, rfl⟩ := hw.exists_cons
  obtain ⟨hstart, x, hf⟩ := isWalk_cons.mp hw
  obtain rfl : v = x := Option.some.inj (hv.symm.trans hf.getLast)
  rw [List.cons_append, List.cons_append, isWalk_cons, and_iff_right hstart]
  exact exists_congr fun x => hf.extend_iff

end Run

/-! ## 2. The rows along a path of nodes -/

variable (g truth)

/-- The row is one that a node stands for. -/
structure QueryNode.Admits (n : QueryNode) (v : Visit) : Prop where
  table : v.table = n.table
  direction : v.direction = n.direction
  row : v.row ∈ g.rows v.table
  filters : ∀ f ∈ n.filters, truth.holds f.predicate (v.row.value f.key)
  ids : ∀ p ∈ n.idPredicates, p.HoldsAt truth v.row.id

/-- The row of a node is joined to the one before it. The key is a column of whichever of the two
is in an edge table. -/
def QueryNode.Joins (n : QueryNode) (u v : Visit) : Prop :=
  ∃ k, n.joinKey = some k ∧
    if n.table.isEdge then v.row.key k = some u.row.id else u.row.key k = some v.row.id

/-- A statement is run for the id. -/
def RootBinding.Admits (id : Int64) : RootBinding → Prop
  | ids is => id ∈ is
  | unconstrained | incoming => True

namespace QueryTree

/-- The rows, one for each node, satisfy the joins and filters of the nodes, starting from a row
before them. -/
inductive Matches (t : QueryTree) : Visit → List Nat → List Visit → Prop
  | nil (u : Visit) : Matches t u [] []
  | cons {u v : Visit} {c : Nat} {ids : List Nat} {w : List Visit} {n : QueryNode} :
      t.nodes[c]? = some n → n.Admits g truth v → n.Joins u v → Matches t v ids w →
      Matches t u (c :: ids) (v :: w)

/-- The rows satisfy the joins and filters of a path of nodes that begins with the root. -/
def Answers (t : QueryTree) : List Nat → List Visit → Prop
  | c :: ids, v :: w =>
    (∃ n, t.nodes[c]? = some n ∧ n.Admits g truth v) ∧ t.binding.Admits v.row.id ∧
      t.Matches g truth v ids w
  | _, _ => False

variable {g truth} {t t' : QueryTree} {ids ids' : List Nat} {a b c p : Nat} {n : QueryNode}

theorem Matches.append (hm : t.Matches g truth u ids w) (hv : (u :: w).getLast? = some v)
    (hm' : t.Matches g truth v ids' w') : t.Matches g truth u (ids ++ ids') (w ++ w') := by
  induction hm with
  | nil =>
    cases hv
    exact hm'
  | cons hn ha hj _ ih => exact .cons hn ha hj (ih hv)

/-- The last row is one that the last node lets through. -/
theorem Matches.getLast (hm : t.Matches g truth u ids w) : ∀ {p c : Nat} {n m : QueryNode},
    t.Descends p ids c → t.nodes[p]? = some n → n.Admits g truth u → t.nodes[c]? = some m →
    ∃ v, (u :: w).getLast? = some v ∧ m.Admits g truth v := by
  induction hm with
  | nil u =>
    intro p c n m hd hn ha hm
    cases hd
    rw [hn] at hm
    cases hm
    exact ⟨u, rfl, ha⟩
  | cons hc ha' _ _ ih =>
    intro p c n m hd _ _ hm
    cases hd with
    | cons _ _ hd => exact ih hd hc ha' hm

theorem Answers.append (ha : t.Answers g truth ids w) (hv : w.getLast? = some v)
    (hm : t.Matches g truth v ids' w') : t.Answers g truth (ids ++ ids') (w ++ w') := by
  cases ids with
  | nil => exact ha.elim
  | cons c ids =>
    cases w with
    | nil => exact ha.elim
    | cons u w => exact ⟨ha.1, ha.2.1, ha.2.2.append hv hm⟩

/-- A tree whose nodes let through what those of another one do is matched by what matches the
other one. -/
theorem Matches.mono (hm : t.Matches g truth u ids w)
    (hn : ∀ {i : Nat} {n : QueryNode}, t.nodes[i]? = some n → ∃ n', t'.nodes[i]? = some n' ∧
      (∀ v, n.Admits g truth v → n'.Admits g truth v) ∧ ∀ u v, n.Joins u v → n'.Joins u v) :
    t'.Matches g truth u ids w := by
  induction hm with
  | nil u => exact .nil u
  | cons hc ha hj _ ih =>
    obtain ⟨n', hn', hadmits, hjoins⟩ := hn hc
    exact .cons hn' (hadmits _ ha) (hjoins _ _ hj) ih

/-- No two children of a node agree in table and direction. -/
structure Branches (t : QueryTree) : Prop where
  distinct : ∀ {p c c' : Nat} {n m m' : QueryNode}, t.nodes[p]? = some n → c ∈ n.children →
    c' ∈ n.children → t.nodes[c]? = some m → t.nodes[c']? = some m' → m.table = m'.table →
    m.direction = m'.direction → c = c'

/-- The rows tell which nodes they were read from. -/
theorem Branches.unique (hb : t.Branches) (hd : t.Descends p ids a) :
    ∀ {u : Visit} {w : List Visit} {ids' : List Nat}, t.Descends p ids' b →
    t.Matches g truth u ids w → t.Matches g truth u ids' w → ids = ids' := by
  induction hd with
  | nil =>
    intro u w ids' _ hm hm'
    cases hm
    cases hm'
    rfl
  | cons hn hc _ ih =>
    intro u w ids' hd' hm hm'
    cases hm with
    | cons hc₁ ha hj hm =>
      cases hm' with
      | cons hc₂ ha' hj' hm' =>
        cases hd' with
        | cons hn' hc' hd' =>
          rw [hn] at hn'
          cases hn'
          obtain rfl := hb.distinct hn hc hc' hc₁ hc₂ (ha.table.symm.trans ha'.table)
            (ha.direction.symm.trans ha'.direction)
          rw [ih hd' hm hm']

end QueryTree

end TraversalSql
