import TraversalSql.Proofs.Statements

/-!
# Runs without optional parts

The walks that statements return are known phase by phase. For a run that moves from the root on
and has no optional part this comes down to two lists: the regular statements return the walks
along all hops, the emit statements those that end at an emitted hop before the last. If a run has
no trees at all, a move leaves from another kind of element than the hop before it arrives at, and
there was no walk to return.
-/

set_option autoImplicit false

namespace TraversalSql

variable {T : Topology} {g : StoredGraph T} {truth : Truth} {h hop : Hop} {rest : List Hop}
  {run : Run} {u v x : Visit} {w : List Visit}

/-! ## 1. Kinds along a walk -/

theorem Hop.Reaches.kinds (hc : T.Consistent) (hu : u.row ∈ g.rows u.table) {ext : List Visit}
    (hr : h.Reaches g truth u ext v) : v.table.kind = h.kind.target ∧
      ∀ {m : Move}, h.kind = .move m → m.source = u.table.kind := by
  cases hr with
  | edge hk _ hrow _ hkey _ =>
    have hkey' := g.ownKeys hrow hkey
    refine ⟨by rw [hk]; exact hkey'.edgeKind hc, fun {m} hm => ?_⟩
    rw [hk] at hm
    cases hm
    exact (hkey'.vertexKind hc).symm
  | vertex hk _ hrow _ hkey _ hkey₂ _ =>
    refine ⟨by rw [hk]; exact (g.ownKeys hrow hkey₂).vertexKind hc, fun {m} hm => ?_⟩
    rw [hk] at hm
    cases hm
    exact ((g.ownKeys hrow hkey).vertexKind hc).symm
  | endpoint hk _ _ hkey _ =>
    have hkey' := g.ownKeys hu hkey
    refine ⟨by rw [hk]; exact hkey'.vertexKind hc, fun {m} hm => ?_⟩
    rw [hk] at hm
    cases hm
    exact (hkey'.edgeKind hc).symm

/-- Along a walk every move leaves from the kind of element that the hop before arrives at. -/
theorem Run.Follows.kinds (hc : T.Consistent) {hs : List Hop} (hf : Follows g truth hs u w x) :
    ∀ {prev : Hop}, u.row ∈ g.rows u.table → u.table.kind = prev.kind.target →
    ∀ {k : Nat} {h p : Hop} {m : Move}, hs[k]? = some h → (prev :: hs)[k]? = some p →
      h.kind = .move m → m.source = p.kind.target := by
  induction hf with
  | nil =>
    intro prev _ _ k h p m hk
    cases hk
  | @cons h hs u v x ext w hr _ ih =>
    intro prev hu hkind k h' p m hk hp hm
    obtain ⟨htarget, hsource⟩ := hr.kinds hc hu
    cases k with
    | zero =>
      cases hk
      cases hp
      exact (hsource hm).trans hkind
    | succ k => exact ih hr.row_mem htarget hk hp hm

/-! ## 2. The walks of a run -/

namespace Run

/-- **The statements of a run without optional parts return its walks, each once.** The regular
ones return the walks along all hops, the emit ones the walks that end at an emitted hop before the
last. A run that is refused has no walk along all its hops. -/
theorem statements_of_moves (hT : T.Built) (hr : run.Placed hop rest)
    (hmoves : ∀ h ∈ rest, ∃ m, h.kind = .move m) (hplain : ∀ h ∈ run.hops, h.leftJoin = false)
    (settings : Settings) (g : StoredGraph T) (truth : Truth) :
    match run.trees settings T with
    | .error e => (∃ parent child, e = .kindAlternation parent child) ∧
        (∃ k h prev m, run.hops[k + 1]? = some h ∧ run.hops[k]? = some prev ∧
          h.kind = .move m ∧ m.source ≠ prev.kind.target) ∧
        ∀ w, ¬ IsWalk g truth run.hops w
    | .ok trees =>
      (∀ t ∈ trees, ∀ phase, ∃ all, t.pathStacks phase = .ok all) ∧
      (∀ w, (∃ i j, AnsweredAt g truth trees .regular w i j) ↔ IsWalk g truth run.hops w) ∧
      (∀ w, (∃ i j, AnsweredAt g truth trees .emit w i j) ↔
        ∃ d h, d + 1 < run.hops.length ∧ run.hops[d]? = some h ∧ h.emit = true ∧
          IsWalk g truth (run.hops.take (d + 1)) w) ∧
      (∀ w i j, ¬ AnsweredAt g truth trees .optional w i j) ∧
      (∀ phase w i j i' j', AnsweredAt g truth trees phase w i j →
        AnsweredAt g truth trees phase w i' j' → i = i' ∧ j = j') := by
  have hc := hT.consistent
  have hnone : ∀ {i : Nat} {h : Hop}, run.hops[i]? = some h → h.leftJoin = false :=
    fun hh => hplain _ (List.mem_of_getElem? hh)
  cases htrees : run.trees settings T with
  | error e =>
    obtain ⟨k, h, prev, source, hk, hprev, hkind, hknown, harr⟩ := hr.trees_error hc htrees
    obtain ⟨m, hm⟩ := hmoves h (List.mem_of_getElem? hk)
    have hrefuse : m.source ≠ prev.kind.target := by
      intro heq
      obtain ⟨as, has⟩ := (Hop.arrivals_of_move hc hm hknown).1 (heq.trans hkind.symm)
      rw [harr] at has
      cases has
    refine ⟨?_, ⟨k, h, prev, m, by rw [hr.hops]; exact hk, by rw [hr.hops]; exact hprev, hm,
      hrefuse⟩, ?_⟩
    · obtain ⟨parent, child, has⟩ :=
        (Hop.arrivals_of_move hc hm hknown).2 fun heq => hrefuse (heq.trans hkind)
      rw [harr] at has
      cases has
      exact ⟨parent, child, rfl⟩
    · intro w hw
      rw [hr.hops] at hw
      obtain ⟨_, _, v, w', heq, rfl⟩ := hw.exists_cons
      cases heq
      obtain ⟨hs, x, hf⟩ := isWalk_cons.mp hw
      exact hrefuse (hf.kinds hc hs.row hs.kind hk hprev hm)
  | ok trees =>
    refine ⟨fun t ht phase => ⟨_, QueryTree.pathStacks_eq (hr.wellFormed hc htrees t ht) phase⟩, fun w => ?_, fun w => ?_, ?_,
      fun phase w i j i' j' h h' => hr.answered_unique hc htrees h h'⟩
    · rw [hr.answered_iff hc htrees]
      constructor
      · rintro ⟨d, hd, hw⟩
        rwa [show d + 1 = run.hops.length from hd, List.take_length] at hw
      · intro hw
        refine ⟨rest.length, ?_, ?_⟩
        · rw [hr.hops]
          rfl
        · rwa [show rest.length + 1 = run.hops.length by rw [hr.hops]; rfl, List.take_length]
    · rw [hr.answered_iff hc htrees]
      constructor
      · rintro ⟨d, ⟨hlt, ⟨h, hh, hemit⟩, _⟩, hw⟩
        exact ⟨d, h, hlt, hh, hemit, hw⟩
      · rintro ⟨d, h, hlt, hh, hemit, hw⟩
        exact ⟨d, ⟨hlt, ⟨h, hh, hemit⟩, fun h' hh' => hnone hh'⟩, hw⟩
    · intro w i j hij
      obtain ⟨d, ⟨h, hh, hleft⟩, _⟩ := (hr.answered_iff hc htrees .optional).mp ⟨i, j, hij⟩
      exact absurd (hleft.symm.trans (hnone hh)) (by decide)

end Run

/-! ## 3. A small graph

Two people, one of whom knows the other. -/

namespace People

def person : Table := ⟨"public", "Person", .vertex⟩

def knows : Table := ⟨"public", "knows", .edge⟩

def vertices : Topology where
  vertices := (∅ : SortedMap Table Properties).insert person ∅
  incidence := (∅ : SortedMap Table Incidence).alter person fun old => old.getD {}

def topology : Topology :=
  { vertices with edges := vertices.edges.alter knows fun old => old.getD {} }.connect
    knows person person

theorem built : topology.Built := by
  have hvertex : Topology.addVertexLabel {} "public" "Person" ∅ = .ok (person, vertices) := rfl
  have hedge : vertices.addEdgeLabel "public" "knows" ∅ [(person, person)]
      = .ok (knows, topology) := rfl
  exact .edge (.vertex .empty hvertex) hedge

def row (id : Int64) : Row where
  id := id
  value _ := .null
  key _ := none

/-- The first person knows the second. -/
def friendship : Row where
  id := 7
  value _ := .null
  key k :=
    if k = ⟨person, .outgoing⟩ then some 1 else if k = ⟨person, .incoming⟩ then some 2 else none

def rows (table : Table) : List Row :=
  if table = person then [row 1, row 2] else if table = knows then [friendship] else []

def graph : StoredGraph topology where
  rows := rows
  uniqueIds table := by
    unfold rows
    split
    · decide
    · split <;> decide
  ownTables {table r} hr := by
    unfold rows at hr
    split at hr
    · rename_i heq
      subst heq
      exact ⟨_, rfl⟩
    · split at hr
      · rename_i heq
        subst heq
        exact ⟨_, rfl⟩
      · cases hr
  ownKeys {table r k i} hr hk := by
    unfold rows at hr
    split at hr
    · simp only [List.mem_cons, List.not_mem_nil, or_false] at hr
      rcases hr with rfl | rfl <;> cases hk
    · split at hr
      · rename_i heq
        subst heq
        rw [List.mem_singleton.mp hr] at hk
        simp only [friendship] at hk
        split at hk
        · rename_i hk'
          subst hk'
          exact ⟨_, rfl, SortedSet.mem_insert.mpr (Or.inr (SortedSet.mem_insert.mpr (Or.inl rfl)))⟩
        · split at hk
          · rename_i hk'
            subst hk'
            exact ⟨_, rfl, SortedSet.mem_insert.mpr (Or.inl rfl)⟩
          · cases hk
      · cases hr

/-- A predicate says of a text what it says of it as a label. -/
def asLabels : Truth where
  holds p v := p.matchesTable ⟨"", (match v with | .string s => s | _ => ""), .vertex⟩ = true
  withinNil _ := by simp [Predicate.matchesTable]
  andIff ps v := by
    rw [Predicate.matchesTable]
    induction ps with
    | nil => simp [Predicate.allMatchTable]
    | cons p ps ih => simp [Predicate.allMatchTable, ih]
  orIff ps v := by
    rw [Predicate.matchesTable]
    induction ps with
    | nil => simp [Predicate.anyMatchesTable]
    | cons p ps ih => simp [Predicate.anyMatchesTable, ih]

def everyone : Hop := { kind := .graphRoot .vertex, depth := 0 }

/-- The people that someone knows, perhaps as an optional part. -/
def friends (optional : Bool) : Hop :=
  { kind := .move (.follow .outgoing [] .vertex), depth := 1, leftJoin := optional }

def start : Visit := ⟨person, none, row 1⟩

def reached : List Visit :=
  [⟨knows, some .outgoing, friendship⟩, ⟨person, some .outgoing, row 2⟩]

theorem placed (optional : Bool) :
    Run.Placed ⟨[everyone, friends optional]⟩ everyone [friends optional] where
  hops := rfl
  isRoot := rfl
  depths {i h} hi := by
    match i with
    | 0 => cases hi; rfl
    | 1 => cases hi; rfl
    | _ + 2 => cases hi

theorem starts {r : Row} (hr : r ∈ rows person) :
    everyone.Starts graph asLabels ⟨person, none, r⟩ :=
  ⟨hr, rfl, rfl, nofun, nofun, nofun⟩

theorem isWalk_reached (optional : Bool) :
    Run.IsWalk graph asLabels [everyone, friends optional] (start :: reached) := by
  have hreach : (friends optional).Reaches graph asLabels start reached
      ⟨person, some .outgoing, row 2⟩ :=
    .vertex rfl List.mem_cons_self List.mem_cons_self rfl rfl
      (List.mem_cons_of_mem _ List.mem_cons_self) rfl ⟨nofun, nofun, nofun⟩
  exact ⟨starts List.mem_cons_self, _, .cons hreach (.nil _)⟩

/-- One regular statement returns the friendship, and only one. -/
theorem statements_of_friends :
    ∃ trees, Run.trees {} topology ⟨[everyone, friends false]⟩ = .ok trees ∧
      ∃! ij : Nat × Nat,
        Run.AnsweredAt graph asLabels trees .regular (start :: reached) ij.1 ij.2 := by
  have hmoves : ∀ h ∈ [friends false], ∃ m, h.kind = .move m := fun h hh =>
    ⟨_, congrArg Hop.kind (List.mem_singleton.mp hh)⟩
  have hplain : ∀ h ∈ [everyone, friends false], h.leftJoin = false := by decide
  have hall := Run.statements_of_moves built (placed false) hmoves hplain {} graph asLabels
  cases htrees : Run.trees {} topology ⟨[everyone, friends false]⟩ with
  | error e =>
    rw [htrees] at hall
    exact absurd (isWalk_reached false) (hall.2.2 _)
  | ok trees =>
    rw [htrees] at hall
    obtain ⟨_, hregular, _, _, hunique⟩ := hall
    obtain ⟨i, j, hij⟩ := (hregular _).mpr (isWalk_reached false)
    refine ⟨trees, rfl, (i, j), hij, fun ij hij' => ?_⟩
    obtain ⟨hi, hj⟩ := hunique _ _ _ _ _ _ hij' hij
    exact Prod.ext hi hj

end People

end TraversalSql
