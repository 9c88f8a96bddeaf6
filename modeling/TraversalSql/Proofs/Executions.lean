import Mathlib.Algebra.GroupWithZero.Nat
import Mathlib.Algebra.Order.BigOperators.Group.List
import Mathlib.Algebra.Order.Group.Nat
import TraversalSql.Proofs.Results
import TraversalSql.Proofs.Stacks
import TraversalSql.Rows.Assembler

/-!
# Executions and slices

Whether a slice is cut out by the database or in memory is decided when a plan is made, from the
executions that its stacks will need; how many there are is settled later, when the plan is run.
This file shows that the two agree: the schedule of a plan has as many executions as were counted,
where nothing flows in, and what flows in is counted as too many for a slice in SQL. So a slice is
taken once (`Plan.SlicesOnce`), by the only execution that there is or by the window.
-/

set_option autoImplicit false

namespace TraversalSql

/-! ## 1. The parts of a plan -/

theorem meets_any {α : Type} (m : Compose α) (w : Workspace) :
    Meets (fun _ => True) m w fun _ _ => True := by
  unfold Meets
  split <;> trivial

/-- What a statement has from its stack and its tree, whatever its select is. -/
structure Statement.Frames (s : Statement) (t : QueryTree) (stack : PathStack) (strip : Bool) :
    Prop where
  phase : s.phase = stack.phase
  rootBinding : s.rootBinding = t.binding
  slice : s.select.slice = if strip then none else s.range
  range : s.range = stack.nodes.reverse.findSome? fun id => t.nodes[id]?.bind QueryNode.range

variable {settings : Settings} {T : Topology} {n : Numbering} {run : Run} {plan : Plan}

theorem Composer.statement_frames (c : Composer) (stack : PathStack) (strip : Bool)
    (w : Workspace) :
    Meets (fun _ => True) (c.statement stack strip) w fun s _ => s.Frames c.tree stack strip := by
  simp only [Composer.statement, meets_bind]
  refine (meets_any _ _).mono ?_
  intro r w' _
  refine (meets_any _ _).mono ?_
  intro root w'' _
  exact ⟨rfl, rfl, rfl, rfl⟩

/-- What composing a statement always leads to holds of the statement of a tree. -/
theorem QueryTree.statement_meets {t : QueryTree} {stack : PathStack} {strip : Bool} {b : Nat}
    {s : Statement} {E : SqlError → Prop} {Q : Statement → Workspace → Prop}
    (hmeets : Meets E (Composer.statement ⟨t, settings⟩ stack strip)
      { bulkTables := b } Q)
    (hok : t.statement settings b stack strip = .ok s) : ∃ w, Q s w := by
  unfold QueryTree.statement at hok
  split at hok
  · cases hok
  · split at hok
    · cases hok
    · simp only [bind, Except.bind] at hok
      split at hok
      · cases hok
      · rename_i r hrun
        obtain rfl : r.1 = s := Except.ok.inj hok
        exact ⟨r.2, hmeets.of_run hrun⟩

/-- How many executions the stacks of a plan need. -/
def neededFor (queue : List (QueryTree × PathStack)) : Nat :=
  (queue.map fun x => x.1.binding.executions).sum

theorem foldl_executions (queue : List (QueryTree × PathStack)) (k : Nat) :
    queue.foldl (fun k x => k + x.1.binding.executions) k = k + neededFor queue := by
  induction queue generalizing k with
  | nil => rfl
  | cons x queue ih =>
    rw [List.foldl_cons, ih]
    simp only [neededFor, List.map_cons, List.sum_cons, Nat.add_assoc]

/-- The rows of a run are sorted and cut in memory. -/
def Run.isWindowed (run : Run) (executions : Nat) : Bool :=
  decide (executions > 1) && run.hasOrderOrRange

/-- A plan and the stacks it was made from. -/
structure Plan.From (plan : Plan) (run : Run) (queue : List (QueryTree × PathStack)) : Prop where
  executions : plan.executions = neededFor queue
  window : plan.window
    = if run.isWindowed plan.executions then some ⟨run.lastRange⟩ else none
  statements : List.Forall₂
    (fun x s => Statement.Frames s x.1 x.2 (run.isWindowed plan.executions)) queue plan.statements

theorem Run.plan_from (hok : run.plan settings T n = .ok plan) :
    ∃ trees queue, run.trees settings T = .ok trees ∧ stacksOf trees = .ok queue ∧
      plan.From run queue := by
  obtain ⟨trees, htrees, hok⟩ := bind_ok hok
  obtain ⟨queue, hqueue, hok⟩ := bind_ok hok
  obtain ⟨ss, hss, hok⟩ := bind_ok hok
  simp only [foldl_executions, Nat.zero_add] at hss hok
  cases hok
  refine ⟨trees, queue, mapError_ok htrees, mapError_ok hqueue, rfl, rfl, ?_⟩
  refine (statementsOf_spec hss).imp ?_
  rintro x s ⟨b, hs⟩
  obtain ⟨w, hframes⟩ := QueryTree.statement_meets
    (Composer.statement_frames ⟨x.1, settings⟩ x.2 _ _) hs
  exact hframes

/-! ## 2. Schedules -/

/-- How many executions the statements of a plan need. -/
theorem Plan.From.executions_eq {queue : List (QueryTree × PathStack)} (h : plan.From run queue) :
    plan.executions = (plan.statements.map fun s => s.rootBinding.executions).sum := by
  rw [h.executions, neededFor]
  have hstatements := h.statements
  clear h
  generalize plan.statements = ss at hstatements ⊢
  induction hstatements with
  | nil => rfl
  | cons hs _ ih =>
    rw [List.map_cons, List.map_cons, List.sum_cons, List.sum_cons, ih, hs.rootBinding]

namespace Assembler

variable {σ : Type} (a : Assembler σ)

theorem executionsOf_length (index : Nat) {s : Statement} (h : s.rootBinding ≠ .incoming) :
    ∃ es, a.executionsOf index s = .ok es ∧ es.length = s.rootBinding.executions := by
  unfold executionsOf
  cases hb : s.rootBinding with
  | unconstrained => exact ⟨_, rfl, rfl⟩
  | ids is => exact ⟨_, rfl, List.length_map _⟩
  | incoming => exact absurd hb h

/-- A plan into which nothing flows runs as often as was counted. -/
theorem schedule_length {queue : List (QueryTree × PathStack)} (hfrom : a.plan.From run queue)
    (hfree : ∀ s ∈ a.plan.statements, s.rootBinding ≠ .incoming) :
    ∃ es, a.schedule = .ok es ∧ es.length = a.plan.executions := by
  rw [hfrom.executions_eq, schedule]
  suffices h : ∀ (ss : List Statement) (k : Nat), (∀ s ∈ ss, s.rootBinding ≠ .incoming) →
      ∃ parts, (ss.zipIdx k).mapM (fun x => a.executionsOf x.2 x.1) = .ok parts ∧
        parts.flatten.length = (ss.map fun s => s.rootBinding.executions).sum by
    obtain ⟨parts, hparts, hlength⟩ := h _ 0 hfree
    exact ⟨parts.flatten, by rw [hparts]; rfl, hlength⟩
  intro ss
  induction ss with
  | nil => exact fun k _ => ⟨[], rfl, rfl⟩
  | cons s ss ih =>
    intro k hss
    obtain ⟨es, hes, hlength⟩ := a.executionsOf_length k (hss s List.mem_cons_self)
    obtain ⟨parts, hparts, hsum⟩ := ih (k + 1) fun s' hs' => hss s' (List.mem_cons_of_mem _ hs')
    refine ⟨es :: parts, ?_, ?_⟩
    · rw [List.zipIdx_cons, List.mapM_cons, hes, hparts]
      rfl
    · rw [List.flatten_cons, List.length_append, hlength, hsum, List.map_cons, List.sum_cons]

end Assembler

/-- What flows in counts as more than one execution. -/
theorem Plan.From.not_incoming {queue : List (QueryTree × PathStack)} (h : plan.From run queue)
    (hfew : plan.executions ≤ 1) : ∀ s ∈ plan.statements, s.rootBinding ≠ .incoming := by
  intro s hs hincoming
  have hle : s.rootBinding.executions ≤ plan.executions := by
    rw [h.executions_eq]
    exact List.le_sum_of_mem (List.mem_map_of_mem hs)
  rw [hincoming] at hle
  exact absurd (Nat.le_trans hle hfew) (by decide)

/-! ## 3. Slices -/

/-- The SQL of a select up to the clause that keeps a slice of its rows. -/
def Select.uncut (d : Dialect) (s : Select) : Fragment :=
  let w : SqlWriter := ⟨d, s.aliases⟩
  w.path s.body ++ w.absences s.absences ++ [.text (w.orderBy s.orderBy)]

theorem Select.sql_fragment (d : Dialect) (s : Select) :
    (s.fragment d).sql = (s.uncut d).sql ++ (s.slice.bind d.sliceClause?).getD "" := by
  simp only [Select.fragment, SqlWriter.select, Select.uncut, Fragment.sql_append, SqlWriter.slice,
    String.append_assoc]
  congr 2

/-- A search from the end finds what the last element that has something has. -/
theorem findSome?_reverse_eq_some_iff {α β : Type} {f : α → Option β} {l : List α} {b : β} :
    l.reverse.findSome? f = some b ↔ ∃ before a behind, l = before ++ a :: behind ∧ f a = some b ∧
      ∀ k ∈ behind, f k = none := by
  rw [List.findSome?_eq_some_iff]
  constructor
  · rintro ⟨l₁, a, l₂, hl, ha, hnone⟩
    refine ⟨l₂.reverse, a, l₁.reverse, ?_, ha, fun k hk => hnone k (List.mem_reverse.mp hk)⟩
    rw [← List.reverse_reverse l, hl]
    simp
  · rintro ⟨before, a, behind, rfl, ha, hnone⟩
    refine ⟨behind.reverse, a, before.reverse, ?_, ha, fun k hk => hnone k (List.mem_reverse.mp hk)⟩
    simp

/-- The slice of a run is taken once. Without a window it stands in the SQL, and if it matters
there is one execution at most; with a window it stands in no statement, and the window has the
slice that the last hop asks for. What a statement asks for is the slice of the last node on its
path that has one. -/
structure Plan.SlicesOnce (settings : Settings) (T : Topology) (run : Run) (plan : Plan) : Prop where
  single : run.hasOrderOrRange = true → plan.window = none →
    ∀ {σ : Type} (a : Assembler σ), a.plan = plan → ∃ es, a.schedule = .ok es ∧ es.length ≤ 1
  cut : plan.window = none → ∀ s ∈ plan.statements,
    s.sql = (s.select.uncut s.dialect).sql ++ (s.range.bind s.dialect.sliceClause?).getD ""
  asked : ∃ trees queue, run.trees settings T = .ok trees ∧ stacksOf trees = .ok queue ∧
    List.Forall₂ (fun x s => ∀ r, s.range = some r ↔
      ∃ before id behind, x.2.nodes = before ++ id :: behind ∧
        x.1.nodes[id]?.bind QueryNode.range = some r ∧
        ∀ k ∈ behind, x.1.nodes[k]?.bind QueryNode.range = none) queue plan.statements
  uncut : ∀ w, plan.window = some w → ∀ s ∈ plan.statements, s.sql = (s.select.uncut s.dialect).sql
  range : ∀ w, plan.window = some w → ∀ r, w.range = some r ↔
    ∃ before h behind, run.hops = before ++ h :: behind ∧ h.range = some r ∧
      ∀ k ∈ behind, k.range = none
  counted : (∀ s ∈ plan.statements, s.rootBinding ≠ .incoming) →
    ∀ {σ : Type} (a : Assembler σ), a.plan = plan →
      ∃ es, a.schedule = .ok es ∧ es.length = plan.executions

theorem Plan.From.slicesOnce {trees : List QueryTree} {queue : List (QueryTree × PathStack)}
    (h : plan.From run queue) (htrees : run.trees settings T = .ok trees)
    (hqueue : stacksOf trees = .ok queue) : plan.SlicesOnce settings T run := by
  have hwindow := h.window
  have hsql : ∀ s ∈ plan.statements, s.sql = (s.select.uncut s.dialect).sql ++
      ((if run.isWindowed plan.executions then none else s.range).bind
        s.dialect.sliceClause?).getD "" := by
    intro s hs
    obtain ⟨x, _, hframes⟩ := exists_of_mem_right h.statements hs
    rw [← hframes.slice]
    exact s.select.sql_fragment s.dialect
  refine ⟨?_, ?_, ⟨trees, queue, htrees, hqueue, ?_⟩, ?_, ?_, ?_⟩
  · intro horder hnone σ a ha
    have hfew : plan.executions ≤ 1 := by
      by_contra hmany
      have hw : run.isWindowed plan.executions = true := by
        simp [Run.isWindowed, horder, Nat.lt_of_not_le hmany]
      rw [hwindow, hw] at hnone
      cases hnone
    subst ha
    obtain ⟨es, hes, hlength⟩ := a.schedule_length h (h.not_incoming hfew)
    exact ⟨es, hes, hlength ▸ hfew⟩
  · intro hnone s hs
    rw [hsql s hs]
    split at hwindow
    · rw [hnone] at hwindow
      cases hwindow
    · rename_i hw
      rw [if_neg hw]
  · refine h.statements.imp fun x s hframes r => ?_
    rw [hframes.range]
    exact findSome?_reverse_eq_some_iff
  · intro w hw s hs
    rw [hsql s hs]
    split at hwindow
    · rename_i hw'
      rw [if_pos hw']
      exact String.append_empty
    · rw [hw] at hwindow
      cases hwindow
  · intro w hw r
    rw [hw] at hwindow
    split at hwindow
    · cases hwindow
      exact findSome?_reverse_eq_some_iff
    · cases hwindow
  · intro hfree σ a ha
    subst ha
    exact a.schedule_length h hfree

theorem planRuns_ok : ∀ {runs : List Run} {n : Numbering} {plans : List Plan},
    planRuns settings T n runs = .ok plans →
      List.Forall₂ (fun run plan => ∃ n, run.plan settings T n = .ok plan) runs plans := by
  intro runs
  induction runs with
  | nil =>
    intro n plans hok
    cases hok
    exact .nil
  | cons run runs ih =>
    intro n plans hok
    simp only [planRuns, bind, Except.bind] at hok
    split at hok
    · cases hok
    · rename_i plan hplan
      split at hok
      · cases hok
      · rename_i rest hrest
        cases hok
        exact .cons ⟨n, hplan⟩ (ih hrest)

/-- **A slice is taken once.** Of every run of a chain, however the chain was made. -/
theorem FusedChain.plans_sliceOnce (chain : FusedChain) (settings : Settings) (T : Topology)
    {plans : List Plan} (hok : chain.plans settings T = .ok plans) :
    List.Forall₂ (fun run plan => plan.SlicesOnce settings T run) chain.runs plans := by
  refine (planRuns_ok hok).imp ?_
  rintro run plan ⟨n, hplan⟩
  obtain ⟨trees, queue, htrees, hqueue, hfrom⟩ := Run.plan_from hplan
  exact hfrom.slicesOnce htrees hqueue

namespace People

/-- The first person, and of the elements that flow on, the first two friends. -/
def firstFriends : Traversal where
  steps := [.plain (.graph .vertex []), .plain (.range (.limit 1)), .plain (.interpreted "dedup()"),
    .plain (.move (.follow .outgoing [] .vertex)), .plain (.range (.limit 2))]

/-- The database keeps the first person, and the friends are counted in memory. -/
theorem firstFriends_sliceOnce : ∃ plans,
    (firstFriends.fuse ({} : Settings).fusion).plans {} topology = .ok plans ∧
    plans.map Plan.window = [none, some ⟨some (.limit 2)⟩] ∧
    List.Forall₂ (fun run plan => plan.SlicesOnce {} topology run)
      (firstFriends.fuse ({} : Settings).fusion).runs plans := by
  have hwindows : ((firstFriends.fuse ({} : Settings).fusion).plans {} topology).toOption.map
      (fun plans => plans.map Plan.window) = some [none, some ⟨some (.limit 2)⟩] := by
    decide +kernel
  obtain ⟨plans, hplans, hwindows⟩ := Option.map_eq_some_iff.mp hwindows
  have hok := eq_ok_of_toOption hplans
  exact ⟨plans, hok, hwindows, FusedChain.plans_sliceOnce _ {} topology hok⟩

end People

end TraversalSql
