import TraversalSql.Proofs.Executions
import TraversalSql.Proofs.Identifiers

/-!
# Comparing sort keys

Where rows of several statements are brought into order in memory, their sort keys are compared
place by place, in the direction of the left key. A key has a place for every sort key that its
table has, so what stands at one place of two keys need not be the same sort key, and two
directions can meet (`RowKey.Clashes`). The comparison is the same from both sides exactly where
they do not, so always for rows of one statement, and wherever a run sorts in one direction only.
-/

set_option autoImplicit false

namespace TraversalSql

/-! ## 1. Keys -/

/-- Values are compared the same way from both sides. -/
theorem Value.order_swap (a b : Value) : a.order b = (b.order a).swap := by
  cases a <;> cases b <;> simp only [Value.order, Double.compareTotal] <;>
    exact Std.OrientedCmp.eq_swap

namespace SortDirection

theorem orient_swap (d : SortDirection) (o : Ordering) : d.orient o.swap = (d.orient o).swap := by
  cases d <;> rfl

@[simp] theorem orient_eq (d : SortDirection) : d.orient .eq = .eq := by
  cases d <;> rfl

theorem orient_ne_eq (d : SortDirection) {o : Ordering} (h : o ≠ .eq) : d.orient o ≠ .eq := by
  cases d <;> cases o <;> simp_all [orient]

theorem orient_inj {d e : SortDirection} {o : Ordering} (h : o ≠ .eq) :
    d.orient o = e.orient o ↔ d = e := by
  cases d <;> cases e <;> cases o <;> simp_all [orient]

end SortDirection

namespace RowKey

/-- Two directions meet at the first place where the values of the keys differ. -/
def Clashes : RowKey → RowKey → Prop
  | (a, d) :: as, (b, e) :: bs => if a.order b = .eq then Clashes as bs else d ≠ e
  | _, _ => False

theorem then_of_ne_eq {o o' : Ordering} (h : o ≠ .eq) : o.then o' = o := by
  cases o <;> simp_all [Ordering.then]

theorem compare_nil_swap (b : RowKey) : RowKey.compare [] b = (RowKey.compare b []).swap := by
  induction b with
  | nil => simp [RowKey.compare]
  | cons x b ih =>
    obtain ⟨v, d⟩ := x
    rw [RowKey.compare, RowKey.compare, ih, Ordering.swap_then, Value.order_swap .null v,
      d.orient_swap]

/-- Keys are compared the same way from both sides, unless two directions meet. -/
theorem compare_swap_iff (a b : RowKey) :
    RowKey.compare a b = (RowKey.compare b a).swap ↔ ¬ a.Clashes b := by
  induction a generalizing b with
  | nil =>
    rw [Clashes]
    · exact iff_of_true (compare_nil_swap b) id
    · exact nofun
  | cons x a ih =>
    obtain ⟨v, d⟩ := x
    cases b with
    | nil =>
      rw [Clashes]
      · refine iff_of_true ?_ id
        rw [compare_nil_swap, Ordering.swap_swap]
      · exact nofun
    | cons y b =>
      obtain ⟨u, e⟩ := y
      simp only [RowKey.compare, Clashes, Ordering.swap_then, Value.order_swap u v, e.orient_swap,
        Ordering.swap_swap]
      by_cases ho : v.order u = .eq
      · simp only [ho, SortDirection.orient_eq, Ordering.eq_then, if_true]
        exact ih b
      · rw [then_of_ne_eq (d.orient_ne_eq ho), then_of_ne_eq (e.orient_ne_eq ho), if_neg ho,
          SortDirection.orient_inj ho, not_not]

/-- Where two directions meet, they stand at one place. -/
theorem Clashes.place {a b : RowKey} (h : a.Clashes b) : ∃ (i : Nat) (d e : SortDirection),
    (a.map Prod.snd)[i]? = some d ∧ (b.map Prod.snd)[i]? = some e ∧ d ≠ e := by
  induction a generalizing b with
  | nil => exact h.elim
  | cons x a ih =>
    obtain ⟨v, d⟩ := x
    cases b with
    | nil => exact h.elim
    | cons y b =>
      obtain ⟨u, e⟩ := y
      rw [Clashes] at h
      split at h
      · obtain ⟨i, d', e', ha, hb, hne⟩ := ih h
        exact ⟨i + 1, d', e', ha, hb, hne⟩
      · exact ⟨0, d, e, rfl, rfl, h⟩

end RowKey

/-! ## 2. Rows of statements -/

/-- The row is read from some result of the statement. -/
def Statement.Yields (s : Statement) (r : PathRow) : Prop :=
  ∃ result rows, Assembler.pathRows s result = .ok rows ∧ r ∈ rows

theorem RowFormat.directions_decoder {f : RowFormat} {columns : List String} {d : RowDecoder}
    (h : f.decoder columns = .ok d) : d.sortColumns.map Prod.snd = f.orderBy.map Prod.snd := by
  obtain ⟨layouts, _, h⟩ := bind_ok h
  obtain ⟨sortColumns, hsort, h⟩ := bind_ok h
  cases h
  refine map_eq_of_forall₂ (forall₂_of_mapM hsort) ?_
  intro key place hplace
  unfold RowFormat.sortColumn at hplace
  split at hplace
  · cases hplace
    rfl
  · cases hplace

theorem RowDecoder.directions_decode {d : RowDecoder} {row : List Value} {elements : List Element}
    {key : RowKey} (h : d.decode row = .ok (elements, key)) :
    key.map Prod.snd = d.sortColumns.map Prod.snd := by
  obtain ⟨found, _, h⟩ := bind_ok h
  obtain ⟨cells, hcells, h⟩ := bind_ok h
  cases h
  refine map_eq_of_forall₂ (forall₂_of_mapM hcells) ?_
  intro place v hv
  obtain ⟨_, _, hv⟩ := bind_ok hv
  cases hv
  rfl

/-- The key of a row has the directions of the statement that it comes from. -/
theorem Statement.Yields.directions {s : Statement} {r : PathRow} (h : s.Yields r) :
    r.sortKey.map Prod.snd = s.orderBy.map Prod.snd := by
  obtain ⟨result, rows, hrows, hr⟩ := h
  obtain ⟨d, hd, hrows⟩ := bind_ok hrows
  obtain ⟨decoded, hdecoded, hrows⟩ := bind_ok hrows
  cases hrows
  obtain ⟨⟨elements, key⟩, hmem, rfl⟩ := List.mem_map.mp hr
  obtain ⟨row, _, hrow⟩ :=
    exists_of_mem_right (forall₂_of_mapM hdecoded) (List.mem_filter.mp hmem).1
  exact (RowDecoder.directions_decode hrow).trans (RowFormat.directions_decoder hd)

theorem Statement.map_orderBy (s : Statement) :
    s.orderBy.map Prod.snd = s.select.orderBy.map Prod.snd := by
  rw [Statement.orderBy, List.map_map]
  rfl

/-! ## 3. Directions of a run -/

theorem meets_lift {α : Type} {x : Except SqlError α} {w : Workspace} {Q : α → Workspace → Prop} :
    Meets (fun _ => True) (liftM x : Compose α) w Q ↔ ∀ a, x = .ok a → Q a w := by
  cases x with
  | error e => exact iff_of_true trivial nofun
  | ok a =>
    rw [meets_ok]
    constructor
    · intro h b hb
      exact Except.ok.inj hb ▸ h
    · intro h
      exact h a rfl

/-- Some node of the tree asks for the direction. -/
def QueryTree.SortsIn (t : QueryTree) (d : SortDirection) : Prop :=
  ∃ (id : Nat) (n : QueryNode), t.nodes[id]? = some n ∧ ∃ spec ∈ n.order, spec.direction = d

namespace Composer

theorem sortColumns_direction {path : List (Nat × QueryNode)}
    {sort : List (NodeColumn × SortDirection)} (h : sortColumns path = .ok sort) :
    ∀ x ∈ sort, ∃ y ∈ path, ∃ spec ∈ y.2.order, spec.direction = x.2 := by
  obtain ⟨columns, hcolumns, h⟩ := bind_ok h
  cases h
  intro x hx
  obtain ⟨col, hcol, rfl⟩ := List.mem_filterMap.mp hx
  obtain ⟨cols, hcols, hcol⟩ := List.mem_flatten.mp hcol
  obtain ⟨y, hy, hnode⟩ := exists_of_mem_right (forall₂_of_mapM hcolumns) hcols
  obtain ⟨spec, hspec, hone⟩ := exists_of_mem_right (forall₂_of_mapM hnode) hcol
  obtain ⟨found, _, hone⟩ := bind_ok hone
  obtain ⟨column, _, rfl⟩ := Option.map_eq_some_iff.mp (Except.ok.inj hone)
  exact ⟨y, List.mem_reverse.mp hy, spec, hspec, rfl⟩

theorem path_nodes (c : Composer) {nodes : List Nat} {path : List (Nat × QueryNode)}
    (h : c.path nodes = .ok path) : ∀ x ∈ path, c.tree.nodes[x.1]? = some x.2 := by
  intro x hx
  obtain ⟨id, _, hid⟩ := exists_of_mem_right (forall₂_of_mapM h) hx
  obtain ⟨n, hn, hid⟩ := bind_ok hid
  cases hid
  unfold Composer.node QueryTree.node at hn
  split at hn
  · cases hn
    assumption
  · cases hn

/-- A statement is sorted by what the sort keys of its path denote. -/
theorem statement_sorts (c : Composer) (stack : PathStack) (strip : Bool) (w : Workspace) :
    Meets (fun _ => True) (c.statement stack strip) w fun s _ =>
      ∃ path sort keys, c.path stack.nodes = .ok path ∧ sortColumns path = .ok sort ∧
        c.keys (sort.map Prod.fst) = .ok keys ∧
        s.select.orderBy = keys.zip (sort.map Prod.snd) := by
  simp only [statement, stackSelect, meets_bind, meets_lift]
  intro root _ path hpath sort hsort
  refine (meets_any _ _).mono ?_
  intro _ w₁ _ segments _
  split <;>
  · simp only [meets_bind]
    refine (meets_any _ _).mono ?_
    intro r w₂ _
    simp only [meets_lift, meets_pure]
    exact fun keys hkeys top _ => ⟨path, sort, keys, hpath, hsort, hkeys, rfl⟩

/-- A statement sorts in the directions that its tree asks for. -/
theorem statement_directions (c : Composer) (stack : PathStack) (strip : Bool) (w : Workspace) :
    Meets (fun _ => True) (c.statement stack strip) w fun s _ =>
      ∀ d ∈ s.select.orderBy.map Prod.snd, c.tree.SortsIn d := by
  refine (c.statement_sorts stack strip w).mono ?_
  rintro s _ ⟨path, sort, keys, hpath, hsort, -, horder⟩ d hd
  rw [horder] at hd
  obtain ⟨x, hx, rfl⟩ := List.mem_map.mp hd
  obtain ⟨y, hy, hyx⟩ := List.mem_map.mp (List.of_mem_zip hx).2
  obtain ⟨z, hz, spec, hspec, hd⟩ := sortColumns_direction hsort y hy
  exact ⟨z.1, z.2, c.path_nodes hpath z hz, spec, hspec, hd.trans hyx⟩

end Composer

/-- A run that sorts in one direction has statements that do. -/
theorem Run.directions_of_plan {T : Topology} (hT : T.Built) {settings : Settings} {n : Numbering}
    {run : Run} {plan : Plan} (hok : run.plan settings T n = .ok plan) {s : Statement}
    (hs : s ∈ plan.statements) {d : SortDirection} (hd : d ∈ s.orderBy.map Prod.snd) :
    ∃ h ∈ run.hops, ∃ spec ∈ h.order, spec.direction = d := by
  obtain ⟨trees, queue, strip, htrees, hqueue, hall⟩ := plan_ok hok
  obtain ⟨⟨t, stack⟩, hx, b, hstatement⟩ := exists_of_mem_right hall hs
  have ht := (mem_stacksOf hqueue hx).1
  rw [s.map_orderBy] at hd
  obtain ⟨w, hsorts⟩ := QueryTree.statement_meets
    (Composer.statement_directions ⟨t, settings⟩ stack strip _) hstatement
  obtain ⟨id, m, hm, spec, hspec, hdir⟩ := hsorts d hd
  obtain ⟨h, hh, hspec'⟩ := ((trees_fit hT.consistent htrees ht).2.node hm).order spec hspec
  exact ⟨h, hh, spec, hspec', hdir⟩

/-- **When rows are compared consistently.** Two rows, read by any statements of a plan, are
compared the same way from both sides exactly if no two directions meet in their keys. They meet
only in rows of two statements, and only if the run sorts in two directions. -/
theorem FusedChain.rows_compare_swap_iff (chain : FusedChain) {T : Topology} (hT : T.Built)
    (settings : Settings) {plans : List Plan} (hok : chain.plans settings T = .ok plans)
    {plan : Plan} (hplan : plan ∈ plans) {s t : Statement} (hs : s ∈ plan.statements)
    (ht : t ∈ plan.statements) {r r' : PathRow} (hr : s.Yields r) (hr' : t.Yields r') :
    (RowKey.compare r.sortKey r'.sortKey = (RowKey.compare r'.sortKey r.sortKey).swap ↔
      ¬ r.sortKey.Clashes r'.sortKey) ∧
    (r.sortKey.Clashes r'.sortKey → s ≠ t ∧ ∃ run ∈ chain.runs,
      ∃ h ∈ run.hops, ∃ x ∈ h.order, ∃ k ∈ run.hops, ∃ y ∈ k.order,
        x.direction ≠ y.direction) := by
  refine ⟨RowKey.compare_swap_iff _ _, ?_⟩
  intro hclash
  obtain ⟨i, d, e, hd, he, hne⟩ := hclash.place
  rw [hr.directions] at hd
  rw [hr'.directions] at he
  constructor
  · rintro rfl
    exact hne (Option.some.inj (hd.symm.trans he))
  · obtain ⟨run, hrun, n, hrunPlan⟩ := exists_of_mem_right (planRuns_ok hok) hplan
    obtain ⟨h, hh, x, hx, rfl⟩ := Run.directions_of_plan hT hrunPlan hs (List.mem_of_getElem? hd)
    obtain ⟨k, hk, y, hy, rfl⟩ := Run.directions_of_plan hT hrunPlan ht (List.mem_of_getElem? he)
    exact ⟨run, hrun, h, hh, x, hx, k, hk, y, hy, hne⟩

/-! ## 4. A crew

People have a name and an age, and robots have an age only. -/

namespace Crew

def person : Table := ⟨"public", "Person", .vertex⟩

def robot : Table := ⟨"public", "Robot", .vertex⟩

def personal : Properties := .ofList [("age", .integer), ("name", .string)]

def technical : Properties := .ofList [("age", .integer)]

def people : Topology where
  vertices := (∅ : SortedMap Table Properties).insert person personal
  incidence := (∅ : SortedMap Table Incidence).alter person fun old => old.getD {}

def topology : Topology where
  vertices := people.vertices.insert robot technical
  incidence := people.incidence.alter robot fun old => old.getD {}

theorem built : topology.Built := by
  have hperson : Topology.addVertexLabel {} "public" "Person" personal = .ok (person, people) := rfl
  have hrobot : people.addVertexLabel "public" "Robot" technical = .ok (robot, topology) := rfl
  exact .vertex (.vertex .empty hperson) hrobot

/-- Everyone by name, and the oldest first among those of one name. -/
def byNameThenAge : Traversal where
  steps := [.plain (.graph .vertex []),
    .plain (.order [⟨.property "name", .asc⟩, ⟨.property "age", .desc⟩])]

def chain : FusedChain := byNameThenAge.fuse ({} : Settings).fusion

/-- Two people, as the statement of people returns them. -/
def annAndBob : ResultSet :=
  ⟨["alias1", "alias2", "alias3"],
    [[.int 1, .int 30, .string "ann"], [.int 2, .int 40, .string "bob"]]⟩

/-- A robot, as the statement of robots returns it. -/
def bolt : ResultSet := ⟨["alias1", "alias2"], [[.int 3, .int 5]]⟩

/-- The only plan, with its statements of people and of robots, and the rows that they yield. -/
structure Answered where
  plans : List Plan
  plan : Plan
  people : Statement
  robots : Statement
  ann : PathRow
  bob : PathRow
  bolt : PathRow

def answered : Option Answered := do
  let plans ← (chain.plans {} topology).toOption
  let plan ← plans[0]?
  let people ← plan.statements[0]?
  let robots ← plan.statements[1]?
  let named ← (Assembler.pathRows people annAndBob).toOption
  let unnamed ← (Assembler.pathRows robots bolt).toOption
  return ⟨plans, plan, people, robots, ← named[0]?, ← named[1]?, ← unnamed[0]?⟩

/-- What was answered comes from the plan. -/
structure Answered.Sound (x : Answered) : Prop where
  planned : chain.plans {} topology = .ok x.plans
  plan : x.plan ∈ x.plans
  people : x.people ∈ x.plan.statements
  robots : x.robots ∈ x.plan.statements
  ann : x.people.Yields x.ann
  bob : x.people.Yields x.bob
  bolt : x.robots.Yields x.bolt

theorem answered_sound {x : Answered} (h : answered = some x) : x.Sound := by
  simp only [answered, Option.bind_eq_bind, Option.bind_eq_some_iff, Option.pure_def] at h
  obtain ⟨plans, hplans, plan, hplan, people, hpeople, robots, hrobots, named, hnamed, unnamed,
    hunnamed, ann, hann, bob, hbob, bolt', hbolt, hx⟩ := h
  obtain rfl := Option.some.inj hx
  have hnamed := eq_ok_of_toOption hnamed
  have hunnamed := eq_ok_of_toOption hunnamed
  exact {
    planned := eq_ok_of_toOption hplans
    plan := List.mem_of_getElem? hplan
    people := List.mem_of_getElem? hpeople
    robots := List.mem_of_getElem? hrobots
    ann := ⟨_, _, hnamed, List.mem_of_getElem? hann⟩
    bob := ⟨_, _, hnamed, List.mem_of_getElem? hbob⟩
    bolt := ⟨_, _, hunnamed, List.mem_of_getElem? hbolt⟩ }

theorem answered_keys : answered.map (fun x =>
    (x.plan.window.isSome, [x.ann.sortKey, x.bob.sortKey, x.bolt.sortKey]))
      = some (true, [[(.string "ann", .asc), (.int 30, .desc)],
          [(.string "bob", .asc), (.int 40, .desc)], [(.int 5, .desc)]]) := by
  decide +kernel

/-- A name meets an age, each in its own direction: Ann stands behind the robot, and the robot
stands behind Ann. -/
theorem directions_meet : ∃ plans plan, chain.plans {} topology = .ok plans ∧ plan ∈ plans ∧
    plan.window.isSome = true ∧ ∃ s ∈ plan.statements, ∃ t ∈ plan.statements, ∃ r r',
      s.Yields r ∧ t.Yields r' ∧ RowKey.compare r.sortKey r'.sortKey = .gt ∧
        RowKey.compare r'.sortKey r.sortKey = .gt := by
  obtain ⟨x, hx, hkeys⟩ := Option.map_eq_some_iff.mp answered_keys
  have hsound := answered_sound hx
  simp only [Prod.mk.injEq, List.cons.injEq, and_true] at hkeys
  obtain ⟨hwindow, hann, _, hbolt⟩ := hkeys
  refine ⟨x.plans, x.plan, hsound.planned, hsound.plan, hwindow, x.people, hsound.people, x.robots,
    hsound.robots, x.ann, x.bolt, hsound.ann, hsound.bolt, ?_, ?_⟩
  · rw [hann, hbolt]
    cbv
  · rw [hann, hbolt]
    cbv

/-- Two people have keys of one statement. -/
theorem people_compared : topology.Built ∧ ∃ plans plan, chain.plans {} topology = .ok plans ∧
    plan ∈ plans ∧ ∃ s ∈ plan.statements, ∃ r r', s.Yields r ∧ s.Yields r' ∧
      r.sortKey = [(.string "ann", .asc), (.int 30, .desc)] ∧
      r'.sortKey = [(.string "bob", .asc), (.int 40, .desc)] ∧
      RowKey.compare r.sortKey r'.sortKey = (RowKey.compare r'.sortKey r.sortKey).swap := by
  obtain ⟨x, hx, hkeys⟩ := Option.map_eq_some_iff.mp answered_keys
  have hsound := answered_sound hx
  simp only [Prod.mk.injEq, List.cons.injEq, and_true] at hkeys
  obtain ⟨_, hann, hbob, _⟩ := hkeys
  obtain ⟨hiff, hclash⟩ := chain.rows_compare_swap_iff built {} hsound.planned hsound.plan
    hsound.people hsound.people hsound.ann hsound.bob
  exact ⟨built, x.plans, x.plan, hsound.planned, hsound.plan, x.people, hsound.people, x.ann,
    x.bob, hsound.ann, hsound.bob, hann, hbob, hiff.mpr fun h => (hclash h).1 rfl⟩

end Crew

end TraversalSql
