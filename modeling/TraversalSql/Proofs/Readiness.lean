import TraversalSql.Proofs.Courses
import TraversalSql.Proofs.TemporaryNames

/-!
# Temporary tables are ready

A statement joins temporary tables that somebody has to fill. This file shows that whenever a run
asks the database, the tables of the statement it asks for are there: each was created and filled
before, without a refusal, and none was dropped. However often the statement runs, its tables are
created once. The end of a run is final: what is requested after it brings nothing, and the
database hears nothing (`Assembler.conversation_ready`).

The queries of a conversation are the asks of the course, in order, so this is about courses:
which tables are filled on a course, and what stands before an ask.
-/

set_option autoImplicit false

namespace TraversalSql

/-! ## 1. Calls of a course -/

/-- The call is answered with rows. -/
def DatabaseCall.isQuery : DatabaseCall → Bool
  | query .. => true
  | execute .. => false

/-- An element of two lists put together stands in the first or behind it. -/
theorem append_eq_append_cons {α : Type} {xs ys before after : List α} {x : α}
    (h : xs ++ ys = before ++ x :: after) :
    (∃ between, xs = before ++ x :: between ∧ after = between ++ ys) ∨
    ∃ between, before = xs ++ between ∧ ys = between ++ x :: after := by
  rcases List.append_eq_append_iff.mp h with ⟨between, hbefore, hys⟩ | ⟨between, hxs, hafter⟩
  · exact Or.inr ⟨between, hbefore, hys⟩
  · cases between with
    | nil => exact Or.inr ⟨[], by simpa using hxs.symm, by simpa using hafter.symm⟩
    | cons y between =>
      obtain ⟨rfl, rfl⟩ := List.cons.inj hafter
      exact Or.inl ⟨between, hxs, rfl⟩

theorem append_eq_append_cons_of_notMem {α : Type} {xs ys before after : List α} {x : α}
    (h : xs ++ ys = before ++ x :: after) (hx : x ∉ xs) :
    ∃ between, before = xs ++ between ∧ ys = between ++ x :: after := by
  refine (append_eq_append_cons h).resolve_left ?_
  rintro ⟨between, rfl, _⟩
  exact hx (by simp)

namespace TemporaryTable

variable (t u : TemporaryTable) (d : Dialect) (vs : List Value)

theorem mem_filling {c : DatabaseCall} :
    c ∈ t.filling d vs ↔ c = t.creation d ∨ ∃ v ∈ vs, t.insertion d v = c := by
  rw [filling, List.mem_cons, List.mem_map]

theorem isQuery_of_mem_filling {c : DatabaseCall} (h : c ∈ t.filling d vs) :
    c.isQuery = false := by
  rcases (t.mem_filling d vs).mp h with rfl | ⟨v, _, rfl⟩ <;> rfl

theorem removal_notMem_filling : u.removal d ∉ t.filling d vs := by
  intro h
  rcases (t.mem_filling d vs).mp h with h | ⟨v, _, h⟩
  · exact creation_ne_removal h.symm
  · exact insertion_ne_removal h

/-- Filling a table is one creation. -/
theorem count_filling : (t.filling d vs).count (u.creation d) = [t.creation d].count (u.creation d) := by
  have hnone : (vs.map (t.insertion d)).count (u.creation d) = 0 := by
    rw [List.count_eq_zero, List.mem_map]
    rintro ⟨v, _, h⟩
    exact creation_ne_insertion h.symm
  rw [filling, ← List.singleton_append, List.count_append, hnone, Nat.add_zero]

end TemporaryTable

theorem Interrupts.eq_singleton {c : DatabaseCall} {turns : List Turn}
    (h : Interrupts [c] turns) : turns = [⟨c, false⟩] := by
  obtain ⟨before, c', after, hcalls, rfl⟩ := h
  cases before with
  | nil =>
    obtain ⟨rfl, _⟩ := List.cons.inj hcalls
    rfl
  | cons b before => simp at hcalls

section Calls

variable {d : Dialect} {deeds done rest : List Deed}

theorem mem_callsOf {c : DatabaseCall} :
    c ∈ callsOf d deeds ↔ ∃ deed ∈ deeds, c ∈ deed.calls d := List.mem_flatMap

theorem removal_notMem_callsOf (t : TemporaryTable) : t.removal d ∉ callsOf d deeds := by
  intro h
  obtain ⟨deed, _, h⟩ := mem_callsOf.mp h
  cases deed with
  | start _ => cases h
  | fill u => exact u.temporary.removal_notMem_filling t d u.values h
  | ask sql params => cases List.mem_singleton.mp h

/-- On a course a table is created as often as it is filled. -/
theorem count_callsOf (deeds : List Deed) (t : TemporaryTable) :
    (callsOf d deeds).count (t.creation d)
      = ((filledBy deeds).map fun u => u.temporary.creation d).count (t.creation d) := by
  induction deeds with
  | nil => rfl
  | cons deed deeds ih =>
    rw [callsOf, List.flatMap_cons, List.count_append, ← callsOf, ih]
    cases deed with
    | start _ => exact Nat.zero_add _
    | ask sql params =>
      rw [Deed.calls, List.count_eq_zero.mpr (by simp [TemporaryTable.creation]), Nat.zero_add]
      rfl
    | fill u =>
      rw [Deed.calls, u.temporary.count_filling, ← List.count_append]
      rfl

theorem filling_infix {t : BulkTable} (h : .fill t ∈ deeds) :
    granted (t.temporary.filling d t.values) <:+: granted (callsOf d deeds) := by
  obtain ⟨xs, ys, rfl⟩ := List.append_of_mem h
  refine ⟨granted (callsOf d xs), granted (callsOf d ys), ?_⟩
  simp [callsOf, Deed.calls]

theorem countP_isQuery (deeds : List Deed) :
    (granted (callsOf d deeds)).countP (fun t => t.call.isQuery) = deeds.countP Deed.isAsk := by
  induction deeds with
  | nil => rfl
  | cons deed deeds ih =>
    rw [callsOf, List.flatMap_cons, granted_append, List.countP_append, ← callsOf, ih,
      List.countP_cons, Nat.add_comm]
    congr 1
    cases deed with
    | start _ => rfl
    | ask sql params => rfl
    | fill u =>
      rw [List.countP_eq_zero.mpr]
      · rfl
      · intro t ht
        rw [u.temporary.isQuery_of_mem_filling d u.values (mem_granted.mp ht).1]
        exact Bool.false_ne_true

/-- A query is one of a course that was gone along, or it comes behind it. -/
theorem query_of_granted {tail before after : List Turn} {sql : String} {params : List Value}
    {g : Bool} (h : granted (callsOf d done) ++ tail = before ++ ⟨.query sql params, g⟩ :: after) :
    (∃ xs ys, done = xs ++ .ask sql params :: ys ∧ before = granted (callsOf d xs)) ∨
    ∃ between, before = granted (callsOf d done) ++ between ∧
      tail = between ++ ⟨.query sql params, g⟩ :: after := by
  induction done generalizing before with
  | nil => exact Or.inr ⟨before, rfl, h⟩
  | cons deed done ih =>
    rw [callsOf, List.flatMap_cons, granted_append, List.append_assoc, ← callsOf] at h
    have hdeed : (deed = .ask sql params ∧ before = []) ∨
        ∃ between, before = granted (deed.calls d) ++ between ∧
          granted (callsOf d done) ++ tail = between ++ ⟨.query sql params, g⟩ :: after := by
      cases deed with
      | start _ => exact Or.inr ⟨before, rfl, h⟩
      | fill u =>
        refine Or.inr (append_eq_append_cons_of_notMem h ?_)
        intro hmem
        cases u.temporary.isQuery_of_mem_filling d u.values (mem_granted.mp hmem).1
      | ask sql' params' =>
        cases before with
        | nil =>
          obtain ⟨heq, _⟩ := List.cons.inj h
          cases heq
          exact Or.inl ⟨rfl, rfl⟩
        | cons t before =>
          obtain ⟨rfl, hrest⟩ := List.cons.inj h
          exact Or.inr ⟨before, rfl, hrest⟩
    rcases hdeed with ⟨rfl, rfl⟩ | ⟨between, rfl, hrest⟩
    · exact Or.inl ⟨[], done, rfl, rfl⟩
    · rcases ih hrest with ⟨xs, ys, rfl, rfl⟩ | ⟨between', rfl, htail⟩
      · exact Or.inl ⟨deed :: xs, ys, rfl, by simp [callsOf]⟩
      · exact Or.inr ⟨between', by simp [callsOf], htail⟩

/-- A query is the only call that it interrupts. -/
theorem query_of_stub {stub : List Turn} {sql : String} {params : List Value} {g : Bool}
    (h : Database.Stub d rest stub) (hmem : ⟨.query sql params, g⟩ ∈ stub) :
    stub = [⟨.query sql params, false⟩] ∧ ∃ ys, rest = .ask sql params :: ys := by
  rcases h with rfl | ⟨deed, ys, rfl, hturns⟩
  · cases hmem
  · have hcall := hturns.mem_calls _ hmem
    cases deed with
    | start _ => cases hcall
    | fill u => cases u.temporary.isQuery_of_mem_filling d u.values hcall
    | ask sql' params' =>
      cases List.mem_singleton.mp hcall
      exact ⟨hturns.eq_singleton, ys, rfl⟩

theorem stub_begins {stub : List Turn} (h : Database.Stub d rest stub) :
    stub.map Turn.call <+: callsOf d rest := by
  rcases h with rfl | ⟨deed, ys, rfl, hturns⟩
  · exact List.nil_prefix
  · exact hturns.prefix_calls.trans (List.prefix_append ..)

end Calls

/-! ## 2. Deletions -/

/-- A deletion creates the table of its ids once. -/
theorem DropTarget.Cleared.count_eq {d : Dialect} {u : DropTarget} {turns : List Turn}
    (h : u.Cleared d turns) (t : TemporaryTable) :
    (turns.map Turn.call).count (t.creation d) = [u.temporary.creation d].count (t.creation d) := by
  obtain ⟨ids, deletions, answer, hbegins, rfl⟩ := h
  have hdeletions : (deletions.map Turn.call).count (t.creation d) = 0 := by
    rw [List.count_eq_zero]
    exact fun h => u.notMem_deletions d (by simp) (hbegins.subset h)
  have hremoval : [u.temporary.removal d].count (t.creation d) = 0 := by
    rw [List.count_eq_zero, List.mem_singleton]
    exact TemporaryTable.creation_ne_removal
  simp only [List.map_append, map_call_granted, List.count_append, hdeletions, Nat.add_zero,
    u.temporary.count_filling]
  exact (congrArg _ hremoval).trans (Nat.add_zero _)

namespace Clearings

variable {d : Dialect} {ts : List DropTarget} {turns : List Turn}

/-- Deleting asks for no rows. -/
theorem isQuery (h : Clearings d ts turns) : ∀ t ∈ turns, t.call.isQuery = false := by
  induction h with
  | none ts => exact nofun
  | skip _ ih => exact ih
  | @clear t ts first turns hfirst _ ih =>
    obtain ⟨ids, deletions, answer, hbegins, rfl⟩ := hfirst
    intro x hx
    simp only [List.mem_append, List.mem_singleton] at hx
    rcases hx with ((hx | hx) | rfl) | hx
    · exact t.temporary.isQuery_of_mem_filling d ids (mem_granted.mp hx).1
    · obtain ⟨sql, _, hsql⟩ := List.mem_map.mp (hbegins.subset (List.mem_map_of_mem hx))
      rw [← hsql]
      rfl
    · rfl
    · exact ih x hx
  | @refused t ts ids turns hturns =>
    intro x hx
    exact t.temporary.isQuery_of_mem_filling d ids (hturns.mem_calls x hx)

/-- In deletions a table is created at most as often as something is deleted with it. -/
theorem count_le (h : Clearings d ts turns) (t : TemporaryTable) :
    (turns.map Turn.call).count (t.creation d)
      ≤ (ts.map fun u => u.temporary.creation d).count (t.creation d) := by
  induction h with
  | none ts => exact Nat.zero_le _
  | skip _ ih => exact Nat.le_trans ih List.count_le_count_cons
  | @clear u ts first turns hfirst _ ih =>
    rw [List.map_append, List.count_append, List.map_cons, List.count_cons, Nat.add_comm]
    refine Nat.add_le_add ih ?_
    rw [hfirst.count_eq, List.count_singleton]
  | @refused u ts ids turns hturns =>
    refine Nat.le_trans (hturns.prefix_calls.sublist.count_le _) ?_
    rw [u.temporary.count_filling, List.count_singleton, List.map_cons, List.count_cons]
    exact Nat.le_add_left _ _

end Clearings

/-! ## 3. Courses -/

@[simp] theorem filledBy_map_fill (ts : List BulkTable) : filledBy (ts.map .fill) = ts := by
  induction ts with
  | nil => rfl
  | cons t ts ih => exact congrArg (t :: ·) ih

theorem Execution.filledBy_loads (loaded : List Nat) (e : Execution) :
    filledBy (e.loads loaded) = if e.index ∈ loaded then [] else e.statement.bulkTables := by
  unfold loads
  simp only [List.contains_iff_mem]
  split
  · rfl
  · exact filledBy_map_fill _

/-- The statements whose tables are filled after an execution is prepared. -/
theorem Execution.started_loads (loaded : List Nat) (e : Execution) :
    ((e.loads loaded).filterMap Deed.started?).reverse ++ loaded
      = if e.index ∈ loaded then loaded else e.index :: loaded := by
  unfold loads
  simp only [List.contains_iff_mem]
  split
  · rfl
  · have hnone : (e.statement.bulkTables.map Deed.fill).filterMap Deed.started? = [] := by
      simp [Deed.started?]
    show (e.index :: (e.statement.bulkTables.map Deed.fill).filterMap Deed.started?).reverse ++ _ = _
    rw [hnone]
    rfl

theorem Execution.ask_notMem_loads (loaded : List Nat) (e : Execution) (sql : String)
    (params : List Value) : .ask sql params ∉ e.loads loaded := by
  unfold loads
  split
  · exact List.not_mem_nil
  · simp

theorem Execution.countP_loads (loaded : List Nat) (e : Execution) :
    (e.loads loaded).countP Deed.isAsk = 0 := by
  rw [List.countP_eq_zero]
  intro deed hdeed
  cases deed with
  | start _ => exact Bool.false_ne_true
  | fill _ => exact Bool.false_ne_true
  | ask sql params => exact absurd hdeed (e.ask_notMem_loads loaded sql params)

/-- The tables of an execution's statement are filled before it, or they were filled already. -/
theorem Execution.fill_mem_loads {loaded : List Nat} {e : Execution} {t : BulkTable}
    (ht : t ∈ e.statement.bulkTables) : e.index ∈ loaded ∨ .fill t ∈ e.loads loaded := by
  rw [← mem_filledBy, e.filledBy_loads]
  split
  · exact Or.inl ‹_›
  · exact Or.inr ht

namespace Assembler

variable {σ : Type} (a : Assembler σ)

theorem runs_of_mem_executions : ∀ e ∈ a.executions, a.Runs e := by
  unfold executions
  split
  · rename_i es hes
    exact a.schedule_runs hes
  · exact fun e he => absurd he List.not_mem_nil

/-- Statements run in the order in which the plan lists them. -/
theorem executions_sorted : (a.executions.map Execution.index).Pairwise (· ≤ ·) := by
  unfold executions
  split
  · rename_i es hes
    obtain ⟨parts, hparts, hes⟩ := bind_ok hes
    cases hes
    refine pairwise_flatten (f := fun x : Statement × Nat => x.2)
      ((forall₂_of_mapM hparts).imp ?_) ?_
    · intro x part hpart e he
      exact (a.executionsOf_spec hpart e he).1
    · rw [List.zipIdx_map_snd]
      exact List.pairwise_le_range'
  · exact .nil

variable {a} {es : List Execution} {loaded : List Nat} {k : Nat}

/-- The tables that are filled on a course are tables of the statements from the `k`-th on, if the
tables of those before it are filled already. -/
theorem filledBy_courseOf (hes : ∀ e ∈ es, a.Runs e)
    (hsorted : (es.map Execution.index).Pairwise (· ≤ ·))
    (hk : ∀ e ∈ es, e.index ∈ loaded ∨ k ≤ e.index) :
    (filledBy (courseOf loaded es)).Sublist
      ((a.plan.statements.drop k).flatMap Statement.bulkTables) := by
  induction es generalizing loaded k with
  | nil => exact List.nil_sublist _
  | cons e es ih =>
    have hrest := fun e' he' => hes e' (List.mem_cons_of_mem _ he')
    rw [List.map_cons, List.pairwise_cons] at hsorted
    rw [courseOf, filledBy_append, e.filledBy_loads, e.started_loads]
    by_cases hloaded : e.index ∈ loaded
    · rw [if_pos hloaded, if_pos hloaded, List.nil_append]
      cases e.statement.bind e.rootId with
      | error fault => exact List.nil_sublist _
      | ok params => exact ih hrest hsorted.2 fun e' he' => hk e' (List.mem_cons_of_mem _ he')
    · have hi : k ≤ e.index := (hk e List.mem_cons_self).resolve_left hloaded
      have hlater : ∀ e' ∈ es, e'.index ∈ e.index :: loaded ∨ e.index + 1 ≤ e'.index := by
        intro e' he'
        rcases Nat.eq_or_lt_of_le (hsorted.1 _ (List.mem_map_of_mem he')) with heq | hlt
        · exact Or.inl (heq ▸ List.mem_cons_self)
        · exact Or.inr hlt
      have hrun : a.plan.statements[e.index]? = some e.statement := hes e List.mem_cons_self
      obtain ⟨hlt, hget⟩ := List.getElem?_eq_some_iff.mp hrun
      refine List.Sublist.trans ?_ ((List.drop_sublist_drop_left a.plan.statements hi).flatMap _)
      rw [if_neg hloaded, if_neg hloaded, List.drop_eq_getElem_cons hlt, hget, List.flatMap_cons]
      refine (List.Sublist.refl _).append ?_
      cases e.statement.bind e.rootId with
      | error fault => exact List.nil_sublist _
      | ok params => exact ih hrest hsorted.2 hlater

/-- On its course a run fills tables of its plan, each at most as often as the plan lists it. -/
theorem filledBy_course (a : Assembler σ) : (filledBy a.course).Sublist a.plan.bulkTables :=
  filledBy_courseOf a.runs_of_mem_executions a.executions_sorted fun _ _ => Or.inr (Nat.zero_le _)

/-- Executions of one index run one statement. -/
theorem Runs.statement_eq {e e' : Execution} (h : a.Runs e) (h' : a.Runs e')
    (hindex : e.index = e'.index) : e.statement = e'.statement := by
  unfold Runs at h h'
  rw [hindex] at h
  exact Option.some.inj (h.symm.trans h')

/-- The asks of a course belong to its executions, in order. The tables of a statement are filled
before it is asked, unless they were filled at the beginning. -/
theorem ask_of_courseOf {done rest : List Deed} {sql : String} {params : List Value}
    (hes : ∀ e ∈ es, a.Runs e) (h : courseOf loaded es = done ++ .ask sql params :: rest) :
    ∃ e, es[done.countP Deed.isAsk]? = some e ∧ e.statement.sql = sql ∧
      e.statement.bind e.rootId = .ok params ∧
      ∀ t ∈ e.statement.bulkTables, e.index ∈ loaded ∨ .fill t ∈ done := by
  induction es generalizing loaded done with
  | nil => exact absurd h (by simp [courseOf])
  | cons e es ih =>
    rw [courseOf] at h
    obtain ⟨later, rfl, hlater⟩ :=
      append_eq_append_cons_of_notMem h (e.ask_notMem_loads loaded sql params)
    rw [List.countP_append, e.countP_loads, Nat.zero_add]
    cases hbind : e.statement.bind e.rootId with
    | error fault =>
      rw [hbind] at hlater
      exact absurd hlater (by simp)
    | ok params' =>
      rw [hbind, e.started_loads] at hlater
      cases later with
      | nil =>
        obtain ⟨heq, _⟩ := List.cons.inj hlater
        cases heq
        refine ⟨e, rfl, rfl, hbind, ?_⟩
        intro t ht
        rw [List.append_nil]
        exact e.fill_mem_loads ht
      | cons deed later =>
        obtain ⟨rfl, hrest⟩ := List.cons.inj hlater
        obtain ⟨e', he', hsql, hparams, hfilled⟩ :=
          ih (fun e' he' => hes e' (List.mem_cons_of_mem _ he')) hrest
        refine ⟨e', ?_, hsql, hparams, ?_⟩
        · rw [List.countP_cons_of_pos rfl]
          exact he'
        · intro t ht
          rcases hfilled t ht with hloaded | hfill
          · have hmem : e'.index = e.index ∨ e'.index ∈ loaded := by
              split at hloaded
              · exact Or.inr hloaded
              · exact List.mem_cons.mp hloaded
            rcases hmem with hindex | hloaded
            · have hruns : a.Runs e' := hes e' (List.mem_cons_of_mem _ (List.mem_of_getElem? he'))
              have hstatement := hruns.statement_eq (hes e List.mem_cons_self) hindex
              rw [hindex]
              exact (e.fill_mem_loads (hstatement ▸ ht)).imp_right (List.mem_append_left _)
            · exact Or.inl hloaded
          · exact Or.inr (List.mem_append_right _ (List.mem_cons_of_mem _ hfill))

/-! ## 4. Conversations -/

variable {w : σ} {n : Nat}

/-- A query of a conversation is one of the course, and everything before it was granted. -/
theorem ask_of_conversation {before after : List Turn} {sql : String} {params : List Value}
    {g : Bool} (h : a.conversation w n = before ++ ⟨.query sql params, g⟩ :: after) :
    ∃ done rest, a.course = done ++ .ask sql params :: rest ∧
      before = granted (callsOf a.plan.dialect done) := by
  obtain ⟨heard, filled, drops, hheard, hdrops, hconversation⟩ := a.conversation_heard w n
  have hnotMem : ∀ turns : List Turn, (∀ t ∈ turns, t.call.isQuery = false) →
      ∀ between, turns ≠ between ++ ⟨.query sql params, g⟩ :: after := by
    rintro turns hturns between rfl
    cases hturns ⟨.query sql params, g⟩ (by simp)
  have hdrop : ∀ t ∈ drops, t.call.isQuery = false := by
    intro t ht
    obtain ⟨u, _, hu⟩ := List.mem_map.mp (hdrops ▸ List.mem_map_of_mem ht)
    rw [← hu]
    rfl
  rw [hconversation] at h
  cases hheard with
  | @reading done rest stub hcourse hstub =>
    rw [List.append_assoc] at h
    rcases query_of_granted h with ⟨xs, ys, rfl, rfl⟩ | ⟨between, rfl, htail⟩
    · exact ⟨xs, ys ++ rest, by rw [hcourse, List.append_assoc, List.cons_append], rfl⟩
    · by_cases hmem : (⟨.query sql params, g⟩ : Turn) ∈ stub
      · obtain ⟨rfl, ys, rfl⟩ := query_of_stub hstub hmem
        cases between with
        | nil => exact ⟨done, ys, hcourse, List.append_nil _⟩
        | cons t between => exact absurd (List.cons.inj htail).2 (hnotMem drops hdrop between)
      · obtain ⟨between', _, hdrops⟩ := append_eq_append_cons_of_notMem htail hmem
        exact absurd hdrops (hnotMem drops hdrop between')
  | @deleting turns hturns =>
    rw [List.append_assoc] at h
    rcases query_of_granted h with ⟨xs, ys, hcourse, rfl⟩ | ⟨between, rfl, htail⟩
    · exact ⟨xs, ys, hcourse, rfl⟩
    · refine absurd htail (hnotMem _ ?_ _)
      intro t ht
      rcases List.mem_append.mp ht with ht | ht
      · exact hturns.isQuery t ht
      · exact hdrop t ht

variable (a w n)

/-- A temporary table is created at most as often as the plan lists one like it. -/
theorem count_conversation_le (t : TemporaryTable) :
    ((a.conversation w n).map Turn.call).count (t.creation a.plan.dialect)
      ≤ (a.plan.temporaryTables.map fun u => u.creation a.plan.dialect).count
          (t.creation a.plan.dialect) := by
  obtain ⟨heard, filled, drops, hheard, hdrops, hconversation⟩ := a.conversation_heard w n
  have hnone : (drops.map Turn.call).count (t.creation a.plan.dialect) = 0 := by
    rw [hdrops, List.count_eq_zero, List.mem_map]
    rintro ⟨u, _, hu⟩
    exact TemporaryTable.creation_ne_removal hu.symm
  have hcourse : (callsOf a.plan.dialect a.course).count (t.creation a.plan.dialect)
      ≤ (a.plan.bulkTables.map fun u => u.temporary.creation a.plan.dialect).count
          (t.creation a.plan.dialect) := by
    rw [count_callsOf]
    exact ((filledBy_course a).map _).count_le _
  rw [hconversation, List.map_append, List.count_append, hnone, Nat.add_zero, Plan.temporaryTables,
    List.map_append, List.count_append, List.map_map, List.map_map]
  cases hheard with
  | @reading done rest stub hsplit hstub =>
    have hbegins : (granted (callsOf a.plan.dialect done) ++ stub).map Turn.call
        <+: callsOf a.plan.dialect a.course := by
      rw [List.map_append, map_call_granted, hsplit, callsOf_append, List.prefix_append_right_inj]
      exact stub_begins hstub
    exact Nat.le_trans (hbegins.sublist.count_le _) (Nat.le_trans hcourse (Nat.le_add_right _ _))
  | @deleting turns hturns =>
    rw [List.map_append, map_call_granted, List.count_append]
    exact Nat.add_le_add hcourse (hturns.count_le t)

theorem advance_ends (previous : List Element) (pending : List Execution) (buffer : List PathRow)
    (s : Session σ) (h : (a.advance previous s pending buffer).1 = none ∨
      ∃ fault, (a.advance previous s pending buffer).1 = some (.error fault)) :
    (a.advance previous s pending buffer).2.1 = .done := by
  induction pending generalizing buffer s with
  | nil =>
    cases buffer with
    | nil => rfl
    | cons row buffer => simp [advance] at h
  | cons e pending ih =>
    cases buffer with
    | cons row buffer => simp [advance] at h
    | nil =>
      rw [advance] at h ⊢
      cases hrun : a.run e s with
      | mk outcome s' =>
        rw [hrun] at h
        cases outcome with
        | error fault => rfl
        | ok rows => exact ih rows s' h

/-- A request that brings no row ends the run. -/
theorem next_ends (p : Progress) (s : Session σ)
    (h : (a.next p s).1 = none ∨ ∃ fault, (a.next p s).1 = some (.error fault)) :
    (a.next p s).2.1 = .done := by
  cases p with
  | done => rfl
  | running pending buffer previous => exact a.advance_ends previous pending buffer s h
  | fresh =>
    rw [next] at h ⊢
    cases hstart : a.start s with
    | mk outcome s' =>
      rw [hstart] at h
      cases outcome with
      | error fault => rfl
      | ok x => exact a.advance_ends [] x.1 x.2 s' h

/-- Once a run has ended it stays as it is. -/
theorem after_ended (h : (a.after w n).1 = .done) {m : Nat} (hm : n ≤ m) :
    a.after w m = a.after w n := by
  induction hm with
  | refl => rfl
  | step _ ih =>
    rw [after, ih, h]
    exact Prod.ext h.symm rfl

variable {w n}

/-- What a run asks is its next execution, and the tables of the statement are ready. -/
structure Asks (a : Assembler σ) (before : List Turn) (sql : String) (params : List Value)
    (e : Execution) : Prop where
  /-- As many executions asked before as queries were made. -/
  next : a.executions[before.countP fun t => t.call.isQuery]? = some e
  runs : a.Runs e
  sql : e.statement.sql = sql
  params : e.statement.bind e.rootId = .ok params
  /-- Each table was created and filled, and nothing of it was refused. -/
  filled : ∀ t ∈ e.statement.bulkTables,
    granted (t.temporary.filling a.plan.dialect t.values) <:+: before
  /-- No temporary table was dropped. -/
  kept : ∀ (t : TemporaryTable) g, ⟨t.removal a.plan.dialect, g⟩ ∉ before

/-- **Temporary tables are ready.** Of every conversation with a database, whatever it answers,
however many rows are asked for, and whatever flows in: the tables of each statement that is asked
are filled before and not dropped; no table is created more often than the plan lists it, and that
is once in the plan of a run; and a request behind a fault or the end brings nothing and makes no
call. -/
theorem conversation_ready (a : Assembler σ) (w : σ) (n : Nat) :
    (∀ before sql params g after,
      a.conversation w n = before ++ ⟨.query sql params, g⟩ :: after →
        ∃ e, a.Asks before sql params e) ∧
    (∀ t : TemporaryTable, ((a.conversation w n).map Turn.call).count (t.creation a.plan.dialect)
      ≤ (a.plan.temporaryTables.map fun u => u.creation a.plan.dialect).count
          (t.creation a.plan.dialect)) ∧
    (∀ settings T numbering run, Run.plan settings T numbering run = .ok a.plan →
      ∀ t : TemporaryTable,
        ((a.conversation w n).map Turn.call).count (t.creation a.plan.dialect) ≤ 1) ∧
    ((a.item w n = none ∨ ∃ fault, a.item w n = some (.error fault)) →
      ∀ m > n, a.item w m = none ∧ (a.after w (m + 1)).2 = (a.after w m).2) := by
  refine ⟨?_, a.count_conversation_le w n, ?_, ?_⟩
  · intro before sql params g after h
    obtain ⟨done, rest, hcourse, rfl⟩ := ask_of_conversation h
    obtain ⟨e, he, hsql, hparams, hfilled⟩ := ask_of_courseOf a.runs_of_mem_executions hcourse
    refine ⟨e, ?_, a.runs_of_mem_executions e (List.mem_of_getElem? he), hsql, hparams, ?_, ?_⟩
    · rw [countP_isQuery]
      exact he
    · intro t ht
      exact filling_infix ((hfilled t ht).resolve_left List.not_mem_nil)
    · intro t g hmem
      exact removal_notMem_callsOf t (mem_granted.mp hmem).1
  · intro settings T numbering run hplan t
    exact Nat.le_trans (a.count_conversation_le w n t)
      (List.nodup_iff_count_le_one.mp (Run.plan_creations_nodup hplan a.plan.dialect) _)
  · intro hend m hm
    have hdone : (a.after w (n + 1)).1 = .done := a.next_ends _ _ hend
    have hm' := a.after_ended w (n + 1) hdone hm
    refine ⟨?_, ?_⟩
    · rw [item, hm', hdone]
      rfl
    · rw [a.after_ended w (n + 1) hdone (Nat.le_succ_of_le hm), hm']

end Assembler

/-! ## 5. Two people by name

Of two people that flow in, those are asked for that have one of two names. Two names are too many
for the statement, which runs once for each of the people. -/

namespace Crew

def named : Run where
  hops := [{ kind := .incomingRoot .vertex, depth := 0
             filters := [⟨"name", .within [.string "ann", .string "bob"]⟩] }]

def oneName : Settings := { bulkThreshold := 1 }

/-- The table of the two names. -/
def names : BulkTable := ⟨1, .within, [.string "ann", .string "bob"]⟩

/-- A database that refuses to insert the value, and knows nobody. -/
def without (v : Value) : Database Unit where
  query _ _ _ := (.ok ⟨["alias1", "alias2", "alias3"], []⟩, ())
  execute _ params _ := (if params = [v] then .error "no" else .ok (), ())

/-- A run of a plan for two people. -/
def runOf (plan : Plan) (refused : Value) : Assembler Unit :=
  ⟨without refused, plan, true, some [⟨person, 1⟩, ⟨person, 2⟩]⟩

theorem named_plan : (named.plan oneName people {}).toOption.map (fun plan =>
      (plan.dialect, plan.statements.map Statement.bulkTables,
        ((runOf plan .null).conversation () 1).map fun t => t.call.isQuery))
    = some (.sqlite, [[names]], [false, false, false, true, true, false]) := by
  decide +kernel

/-- The table is filled once and asked for twice. -/
theorem names_ready : ∃ plan, named.plan oneName people {} = .ok plan ∧
    ((runOf plan .null).conversation () 1).countP (fun t => t.call.isQuery) = 2 ∧
    (((runOf plan .null).conversation () 1).map Turn.call).count (names.temporary.creation .sqlite)
      ≤ 1 ∧
    ∀ before sql params g after,
      (runOf plan .null).conversation () 1 = before ++ ⟨.query sql params, g⟩ :: after →
        granted (names.temporary.filling .sqlite names.values) <:+: before := by
  obtain ⟨plan, hplan, hfacts⟩ := Option.map_eq_some_iff.mp named_plan
  have hok := eq_ok_of_toOption hplan
  simp only [Prod.mk.injEq] at hfacts
  obtain ⟨hdialect, htables, hqueries⟩ := hfacts
  obtain ⟨hasked, _, honce, _⟩ := (runOf plan .null).conversation_ready () 1
  have honce' := honce _ _ _ _ hok names.temporary
  rw [show (runOf plan .null).plan.dialect = .sqlite from hdialect] at honce'
  refine ⟨plan, hok, ?_, honce', ?_⟩
  · have hcount := congrArg (List.countP id) hqueries
    rw [List.countP_map] at hcount
    exact hcount
  · intro before sql params g after h
    obtain ⟨e, he⟩ := hasked before sql params g after h
    have hstatement : e.statement ∈ plan.statements := List.mem_of_getElem? he.runs
    have hbulk := htables ▸ List.mem_map_of_mem hstatement
    rw [← hdialect]
    exact he.filled names (by rw [List.mem_singleton.mp hbulk]; exact List.mem_singleton_self _)

end Crew

end TraversalSql
