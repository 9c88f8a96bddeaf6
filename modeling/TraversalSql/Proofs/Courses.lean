import TraversalSql.Proofs.Assembly
import TraversalSql.Proofs.Transcripts

/-!
# The course of a run

What a run asks of the database is settled before it begins, but for how far it gets: for each
execution of the schedule in turn, the temporary tables of its statement are filled, unless they
were filled for an earlier execution, and then the statement is asked (`Assembler.course`). A run
goes along its course until it is stopped, by a refused call, by an answer that it cannot read or
because nobody wants more rows. If it reaches the end, elements may be deleted. At last the
temporary tables that were filled are dropped. `Assembler.conversation_heard` says this of the
transcript of every run, for every database and any number of requests.
-/

set_option autoImplicit false

namespace TraversalSql

/-! ## 1. Deeds -/

/-- One of the things that a run does until all rows are read. -/
inductive Deed where
  /-- The temporary tables of a statement are about to be filled. -/
  | start (index : Nat)
  | fill (t : BulkTable)
  | ask (sql : String) (params : List Value)
deriving DecidableEq, Repr

namespace Deed

def calls (d : Dialect) : Deed → List DatabaseCall
  | start _ => []
  | fill t => t.temporary.filling d t.values
  | ask sql params => [.query sql params]

def started? : Deed → Option Nat
  | start index => some index
  | _ => none

def filled? : Deed → Option BulkTable
  | fill t => some t
  | _ => none

def isAsk : Deed → Bool
  | ask .. => true
  | _ => false

end Deed

/-- The calls of deeds done one after the other. -/
def callsOf (d : Dialect) (deeds : List Deed) : List DatabaseCall := deeds.flatMap (Deed.calls d)

/-- The temporary tables that were filled. -/
def filledBy (deeds : List Deed) : List BulkTable := deeds.filterMap Deed.filled?

@[simp] theorem callsOf_append (d : Dialect) (xs ys : List Deed) :
    callsOf d (xs ++ ys) = callsOf d xs ++ callsOf d ys := List.flatMap_append

@[simp] theorem filledBy_append (xs ys : List Deed) :
    filledBy (xs ++ ys) = filledBy xs ++ filledBy ys := List.filterMap_append

theorem mem_filledBy {deeds : List Deed} {t : BulkTable} : t ∈ filledBy deeds ↔ .fill t ∈ deeds := by
  constructor
  · intro h
    obtain ⟨deed, hdeed, heq⟩ := List.mem_filterMap.mp h
    cases deed with
    | fill u =>
      cases heq
      exact hdeed
    | start _ => cases heq
    | ask _ _ => cases heq
  · exact fun h => List.mem_filterMap.mpr ⟨_, h, rfl⟩

namespace Database

variable {σ α β : Type} (db : Database σ) (d : Dialect)

/-- Between two sessions the deeds were done. -/
def Does (s : Session σ) (deeds : List Deed) (s' : Session σ) : Prop :=
  db.Passes s (granted (callsOf d deeds)) (deeds.filterMap Deed.started?)
    ((filledBy deeds).map BulkTable.name) s'

/-- What was still called when only the deeds `rest` were left: nothing, or the calls of the first
of them up to one that was refused. -/
def Stub (rest : List Deed) (stub : List Turn) : Prop :=
  stub = [] ∨ ∃ deed after, rest = deed :: after ∧ Interrupts (deed.calls d) stub

/-- Between two sessions the first of the deeds were done, and then it was no use to go on. -/
def Breaks (s : Session σ) (deeds : List Deed) (s' : Session σ) : Prop :=
  ∃ done rest stub, deeds = done ++ rest ∧ Stub d rest stub ∧
    db.Passes s (granted (callsOf d done) ++ stub) (done.filterMap Deed.started?)
      ((filledBy done).map BulkTable.name) s'

/-- In the session the act does the deeds, or breaks them off when it fails. -/
def Follows (m : Act σ α) (s : Session σ) (deeds : List Deed) : Prop :=
  match m s with
  | (.ok _, s') => db.Does d s deeds s'
  | (.error _, s') => db.Breaks d s deeds s'

variable {db d} {s s' s'' : Session σ} {xs ys : List Deed}

theorem Does.trans (h : db.Does d s xs s') (h' : db.Does d s' ys s'') :
    db.Does d s (xs ++ ys) s'' := by
  have hpasses := Passes.trans h h'
  rw [← granted_append, ← callsOf_append, ← List.filterMap_append, ← List.map_append,
    ← filledBy_append] at hpasses
  exact hpasses

theorem Does.breaks (h : db.Does d s xs s') (h' : db.Breaks d s' ys s'') :
    db.Breaks d s (xs ++ ys) s'' := by
  obtain ⟨done, rest, stub, rfl, hstub, hpasses⟩ := h'
  refine ⟨xs ++ done, rest, stub, (List.append_assoc ..).symm, hstub, ?_⟩
  have hpasses := Passes.trans h hpasses
  rw [← List.append_assoc, ← granted_append, ← callsOf_append, ← List.filterMap_append,
    ← List.map_append, ← filledBy_append] at hpasses
  exact hpasses

/-- What is broken off is broken off whatever was to come after it. -/
theorem Breaks.append (h : db.Breaks d s xs s') (ys : List Deed) :
    db.Breaks d s (xs ++ ys) s' := by
  obtain ⟨done, rest, stub, rfl, hstub, hpasses⟩ := h
  refine ⟨done, rest ++ ys, stub, List.append_assoc .., ?_, hpasses⟩
  rcases hstub with rfl | ⟨deed, after, rfl, hturns⟩
  · exact Or.inl rfl
  · exact Or.inr ⟨deed, after ++ ys, rfl, hturns⟩

/-- After the last deed too a run may fail, without a call. -/
theorem Does.ended (h : db.Does d s xs s') : db.Breaks d s xs s' := by
  refine ⟨xs, [], [], (List.append_nil _).symm, Or.inl rfl, ?_⟩
  rw [List.append_nil]
  exact h

theorem Follows.of_ok {m : Act σ α} (h : db.Follows d m s xs) {v : α} (hrun : m s = (.ok v, s')) :
    db.Does d s xs s' := by
  unfold Follows at h
  rw [hrun] at h
  exact h

theorem Follows.of_error {m : Act σ α} (h : db.Follows d m s xs) {fault : ExecutionError}
    (hrun : m s = (.error fault, s')) : db.Breaks d s xs s' := by
  unfold Follows at h
  rw [hrun] at h
  exact h

theorem Follows.lift (x : Except ExecutionError α) :
    db.Follows d (liftM x : Act σ α) s [] := by
  cases x with
  | error fault => exact Does.ended (Passes.refl s)
  | ok v => exact Passes.refl s

theorem Follows.bind {m : Act σ α} {f : α → Act σ β} (hm : db.Follows d m s xs)
    (hf : ∀ v s', db.Does d s xs s' → db.Follows d (f v) s' ys) :
    db.Follows d (m >>= f) s (xs ++ ys) := by
  unfold Follows
  rw [Act.bind_apply]
  cases hrun : m s with
  | mk outcome s' =>
    cases outcome with
    | error fault => exact (hm.of_error hrun).append ys
    | ok v =>
      have hdone := hm.of_ok hrun
      have hrest := hf v s' hdone
      cases hrun' : f v s' with
      | mk outcome' s'' =>
        cases outcome' with
        | ok u =>
          simp only [hrun']
          exact hdone.trans (hrest.of_ok hrun')
        | error fault =>
          simp only [hrun']
          exact hdone.breaks (hrest.of_error hrun')

theorem Makes.follows {m : Act σ α} {deed : Deed} (h : db.Makes m (deed.calls d))
    (hstarted : deed.started? = none) (hfilled : deed.filled? = none) :
    db.Follows d m s [deed] := by
  have hs := h s
  have hcalls : callsOf d [deed] = deed.calls d := by simp [callsOf]
  unfold Follows
  cases hrun : m s with
  | mk outcome s' =>
    rw [hrun] at hs
    cases outcome with
    | ok v =>
      show db.Passes _ _ _ _ _
      rw [hcalls, filledBy, List.filterMap_cons_none hstarted, List.filterMap_cons_none hfilled]
      exact hs
    | error fault =>
      obtain ⟨turns, hturns, hpasses⟩ := hs
      exact ⟨[], [deed], turns, rfl, Or.inr ⟨deed, [], rfl, hturns⟩, hpasses⟩

variable (db d)

theorem loadTables_cons_apply (t : BulkTable) (ts : List BulkTable) (s : Session σ) :
    db.loadTables d (t :: ts) s
      = match db.materialize (d.createTemporary t.name t.column t.type)
          (d.insertTemporary t.name t.column) t.values s with
        | (.ok _, s') => db.loadTables d ts { s' with temporaries := s'.temporaries ++ [t.name] }
        | (.error fault, s') => (.error fault, s') := by
  rw [loadTables, Act.bind_apply]
  cases db.materialize (d.createTemporary t.name t.column t.type)
      (d.insertTemporary t.name t.column) t.values s with
  | mk outcome s' => cases outcome <;> rfl

/-- A temporary table is noted once it is filled. -/
theorem loadTables_follows (ts : List BulkTable) (s : Session σ) :
    db.Follows d (db.loadTables d ts) s (ts.map .fill) := by
  induction ts generalizing s with
  | nil => exact Passes.refl s
  | cons t ts ih =>
    have hmake := db.materialize_makes (d.createTemporary t.name t.column t.type)
      (d.insertTemporary t.name t.column) t.values s
    unfold Follows
    rw [loadTables_cons_apply]
    cases hrun : db.materialize (d.createTemporary t.name t.column t.type)
        (d.insertTemporary t.name t.column) t.values s with
    | mk outcome s' =>
      rw [hrun] at hmake
      cases outcome with
      | error fault =>
        obtain ⟨turns, hturns, hpasses⟩ := hmake
        exact ⟨[], _, turns, rfl, Or.inr ⟨.fill t, ts.map .fill, rfl, hturns⟩, hpasses⟩
      | ok v =>
        let noted : Session σ := { s' with temporaries := s'.temporaries ++ [t.name] }
        have hfill : db.Does d s [.fill t] noted := by
          have hcalls : callsOf d [.fill t] = t.temporary.filling d t.values := List.append_nil _
          unfold Does
          rw [hcalls]
          refine ⟨⟨hmake.calls, hmake.transcript, hmake.world⟩, hmake.loaded, ?_⟩
          exact congrArg (· ++ [t.name]) (hmake.temporaries.trans (List.append_nil _))
        have hrest := ih noted
        simp only
        cases hrun' : db.loadTables d ts noted with
        | mk outcome' s'' =>
          cases outcome' with
          | ok u => exact hfill.trans (hrest.of_ok hrun')
          | error fault => exact hfill.breaks (hrest.of_error hrun')

end Database

/-! ## 2. Reading -/

/-- What is done for an execution before its statement is asked. -/
def Execution.loads (loaded : List Nat) (e : Execution) : List Deed :=
  if loaded.contains e.index = true then []
  else .start e.index :: e.statement.bulkTables.map .fill

/-- What is done for executions, where the tables of the statements `loaded` are filled. An
execution whose statement cannot be written out is the last. -/
def courseOf : (loaded : List Nat) → List Execution → List Deed
  | _, [] => []
  | loaded, e :: es => e.loads loaded ++
    match e.statement.bind e.rootId with
    | .error _ => []
    | .ok params => .ask e.statement.sql params ::
        courseOf (((e.loads loaded).filterMap Deed.started?).reverse ++ loaded) es

namespace Assembler

variable {σ : Type} (a : Assembler σ) (e : Execution) (s : Session σ)

theorem load_follows :
    a.database.Follows a.plan.dialect (a.load e.index e.statement) s (e.loads s.loaded) := by
  unfold Database.Follows
  rw [load_apply, Execution.loads]
  by_cases hloaded : s.loaded.contains e.index = true
  · rw [if_pos hloaded, if_pos hloaded]
    exact Database.Passes.refl s
  · rw [if_neg hloaded, if_neg hloaded]
    have hstart : a.database.Does a.plan.dialect s [.start e.index]
        { s with loaded := e.index :: s.loaded } :=
      ⟨⟨(List.append_nil _).symm, rfl, rfl⟩, rfl, (List.append_nil _).symm⟩
    have hrest := a.database.loadTables_follows a.plan.dialect e.statement.bulkTables
      { s with loaded := e.index :: s.loaded }
    cases hrun : a.database.loadTables a.plan.dialect e.statement.bulkTables
        { s with loaded := e.index :: s.loaded } with
    | mk outcome s' =>
      cases outcome with
      | ok v => exact hstart.trans (hrest.of_ok hrun)
      | error fault => exact hstart.breaks (hrest.of_error hrun)

/-- An execution whose statement can be written out asks for it. -/
theorem run_follows {params : List Value} (h : e.statement.bind e.rootId = .ok params) :
    a.database.Follows a.plan.dialect (a.run e) s
      (e.loads s.loaded ++ [.ask e.statement.sql params]) := by
  refine (a.load_follows e s).bind ?_
  intro _ s' _
  rw [h]
  have hask : a.database.Follows a.plan.dialect (a.database.ask e.statement.sql params) s'
      [.ask e.statement.sql params] :=
    (a.database.ask_makes e.statement.sql params).follows rfl rfl
  have hread := hask.bind fun result s _ => Database.Follows.lift
    ((pathRows e.statement result).mapError ExecutionError.undecodable)
  exact hread

/-- An execution whose statement cannot be written out fails. -/
theorem run_unwritable {fault : SqlError} (h : e.statement.bind e.rootId = .error fault) :
    ∃ fault s', a.run e s = (.error fault, s') ∧
      a.database.Breaks a.plan.dialect s (e.loads s.loaded) s' := by
  have hload := a.load_follows e s
  have hrun : a.run e s = match a.load e.index e.statement s with
      | (.ok _, s') => (.error (.unwritable fault), s')
      | (.error fault, s') => (.error fault, s') := by
    rw [run, Act.bind_apply, h]
    cases a.load e.index e.statement s with
    | mk outcome s' => cases outcome <;> rfl
  rw [hrun]
  cases hrun : a.load e.index e.statement s with
  | mk outcome s' =>
    cases outcome with
    | ok v => exact ⟨_, s', rfl, (hload.of_ok hrun).ended⟩
    | error fault => exact ⟨fault, s', rfl, hload.of_error hrun⟩

variable {e s}

/-- An execution does the first part of the course that is left. -/
theorem run_course (es : List Execution) {rows : List PathRow} {s' : Session σ}
    (h : a.run e s = (.ok rows, s')) : ∃ deeds, a.database.Does a.plan.dialect s deeds s' ∧
      courseOf s.loaded (e :: es) = deeds ++ courseOf s'.loaded es := by
  cases hbind : e.statement.bind e.rootId with
  | error fault =>
    obtain ⟨fault, s'', hrun, _⟩ := a.run_unwritable e s hbind
    rw [h] at hrun
    cases hrun
  | ok params =>
    have hdone := (a.run_follows e s hbind).of_ok h
    refine ⟨_, hdone, ?_⟩
    have hloaded := hdone.loaded
    rw [List.filterMap_append, List.filterMap_cons_none rfl, List.filterMap_nil,
      List.append_nil] at hloaded
    rw [courseOf, hbind, hloaded, List.append_assoc]
    rfl

/-- A failing execution breaks off the course that is left. -/
theorem run_breaks {es : List Execution} {fault : ExecutionError} {s' : Session σ}
    (h : a.run e s = (.error fault, s')) :
    a.database.Breaks a.plan.dialect s (courseOf s.loaded (e :: es)) s' := by
  cases hbind : e.statement.bind e.rootId with
  | error fault' =>
    obtain ⟨_, s'', hrun, hbreaks⟩ := a.run_unwritable e s hbind
    rw [h] at hrun
    cases hrun
    exact hbreaks.append _
  | ok params =>
    have hbreaks := (a.run_follows e s hbind).of_error h
    rw [courseOf, hbind]
    have happend := hbreaks.append
      (courseOf (((e.loads s.loaded).filterMap Deed.started?).reverse ++ s.loaded) es)
    rw [List.append_assoc] at happend
    exact happend

theorem drain_follows (es : List Execution) (s : Session σ) :
    a.database.Follows a.plan.dialect (a.drain es) s (courseOf s.loaded es) := by
  induction es generalizing s with
  | nil => exact Database.Passes.refl s
  | cons e es ih =>
    unfold Database.Follows
    rw [drain, Act.bind_apply]
    cases hrun : a.run e s with
    | mk outcome s' =>
      cases outcome with
      | error fault => exact a.run_breaks hrun
      | ok rows =>
        obtain ⟨deeds, hdone, hcourse⟩ := a.run_course es hrun
        have hrest : a.database.Follows a.plan.dialect
            ((do return rows ++ (← a.drain es)) : Act σ (List PathRow)) s'
            (courseOf s'.loaded es) := by
          rw [← List.append_nil (courseOf s'.loaded es)]
          exact (ih s').bind fun _ _ _ => Database.Passes.refl _
        rw [hcourse]
        simp only
        cases hrun' : ((do return rows ++ (← a.drain es)) : Act σ (List PathRow)) s' with
        | mk outcome' s'' =>
          cases outcome' with
          | ok u => exact hdone.trans (hrest.of_ok hrun')
          | error fault => exact hdone.breaks (hrest.of_error hrun')

end Assembler

/-! ## 3. Deleting -/

/-- The turns of one deletion: the ids are collected, the deletions run, perhaps not to the end, and
the temporary table is dropped. -/
def DropTarget.Cleared (d : Dialect) (t : DropTarget) (turns : List Turn) : Prop :=
  ∃ ids deletions answer,
    deletions.map Turn.call <+: (t.deletes d).map (fun sql => .execute sql []) ∧
    turns = granted (t.temporary.filling d ids) ++ deletions ++ [⟨t.temporary.removal d, answer⟩]

/-- The turns of deletions one after the other. A table from which nothing is to be deleted is
passed over, and the rest of them is left where ids are refused. -/
inductive Clearings (d : Dialect) : List DropTarget → List Turn → Prop
  | none (ts : List DropTarget) : Clearings d ts []
  | skip {t : DropTarget} {ts : List DropTarget} {turns : List Turn} :
      Clearings d ts turns → Clearings d (t :: ts) turns
  | clear {t : DropTarget} {ts : List DropTarget} {first turns : List Turn} :
      t.Cleared d first → Clearings d ts turns → Clearings d (t :: ts) (first ++ turns)
  | refused {t : DropTarget} {ts : List DropTarget} {ids : List Value} {turns : List Turn} :
      Interrupts (t.temporary.filling d ids) turns → Clearings d (t :: ts) turns

theorem Interrupts.prefix_calls {cs : List DatabaseCall} {ts : List Turn} (h : Interrupts cs ts) :
    ts.map Turn.call <+: cs := by
  obtain ⟨before, c, after, rfl, rfl⟩ := h
  refine ⟨after, ?_⟩
  simp

namespace Database

variable {σ : Type} (db : Database σ) (d : Dialect)

theorem dropElements_apply (t : DropTarget) (ids : List Int64) (s : Session σ) :
    db.dropElements d t ids s = match db.materialize (t.createSql d) (t.insertSql d)
        (ids.map .int) s with
      | (.ok _, s') => ((db.runDeletes (t.deletes d) s').1,
          (db.perform (t.cleanupSql d) [] (db.runDeletes (t.deletes d) s').2).2)
      | (.error fault, s') => (.error fault, s') := by
  rw [dropElements, Act.bind_apply]
  cases db.materialize (t.createSql d) (t.insertSql d) (ids.map .int) s with
  | mk outcome s' =>
    cases outcome with
    | error fault => rfl
    | ok v =>
      simp only
      rw [Act.bind_apply]
      cases db.runDeletes (t.deletes d) s' with
      | mk result s'' => cases result <;> rfl

/-- The deletion of some elements fails before they are collected, or the temporary table of their
ids is dropped. -/
theorem dropElements_passes (t : DropTarget) (ids : List Int64) (s : Session σ) :
    ∃ turns, db.Passes s turns [] [] (db.dropElements d t ids s).2 ∧
      (t.Cleared d turns ∨ ((db.dropElements d t ids s).1.isOk = false ∧
        Interrupts (t.temporary.filling d (ids.map .int)) turns)) := by
  have hmake := db.materialize_makes (t.createSql d) (t.insertSql d) (ids.map .int) s
  rw [dropElements_apply]
  cases hrun : db.materialize (t.createSql d) (t.insertSql d) (ids.map .int) s with
  | mk outcome s' =>
    rw [hrun] at hmake
    cases outcome with
    | error fault =>
      obtain ⟨turns, hturns, hpasses⟩ := hmake
      exact ⟨turns, hpasses, Or.inr ⟨rfl, hturns⟩⟩
    | ok v =>
      have hdeletes := db.runDeletes_makes (t.deletes d) s'
      simp only
      cases hrun' : db.runDeletes (t.deletes d) s' with
      | mk result s'' =>
        rw [hrun'] at hdeletes
        have hdrop := db.perform_passes (t.cleanupSql d) [] s''
        obtain ⟨deletions, hbegins, hdeletes⟩ : ∃ deletions : List Turn,
            deletions.map Turn.call <+: (t.deletes d).map (fun sql => .execute sql []) ∧
              db.Passes s' deletions [] [] s'' := by
          cases result with
          | ok u => exact ⟨_, by rw [map_call_granted], hdeletes⟩
          | error fault =>
            obtain ⟨turns, hturns, hpasses⟩ := hdeletes
            exact ⟨turns, hturns.prefix_calls, hpasses⟩
        exact ⟨_, (hmake.trans hdeletes).trans hdrop, Or.inl ⟨_, _, _, hbegins, rfl⟩⟩

end Database

namespace Assembler

variable {σ : Type} (a : Assembler σ)

theorem dropRows_passes (rows : List PathRow) (ts : List DropTarget) (s : Session σ) :
    ∃ turns, Clearings a.plan.dialect ts turns ∧
      a.database.Passes s turns [] [] (a.dropRows rows ts s).2 := by
  induction ts generalizing s with
  | nil => exact ⟨[], .none [], .refl s⟩
  | cons t ts ih =>
    cases hids : terminalIds rows t.table with
    | nil =>
      have hskip : a.dropRows rows (t :: ts) s = a.dropRows rows ts s := by
        simp only [dropRows, hids]
      obtain ⟨turns, hturns, hpasses⟩ := ih s
      exact ⟨turns, .skip hturns, hskip ▸ hpasses⟩
    | cons id ids =>
      have hfirst := a.database.dropElements_passes a.plan.dialect t (id :: ids) s
      simp only [dropRows, hids]
      rw [Act.bind_apply]
      cases hrun : a.database.dropElements a.plan.dialect t (id :: ids) s with
      | mk outcome s' =>
        rw [hrun] at hfirst
        obtain ⟨first, hfirst, hcleared⟩ := hfirst
        cases outcome with
        | error fault =>
          rcases hcleared with hcleared | ⟨_, hturns⟩
          · refine ⟨first ++ [], .clear hcleared (.none ts), ?_⟩
            rw [List.append_nil]
            exact hfirst
          · exact ⟨first, .refused hturns, hfirst⟩
        | ok u =>
          rcases hcleared with hcleared | ⟨hfailed, _⟩
          · obtain ⟨turns, hturns, hpasses⟩ := ih s'
            exact ⟨first ++ turns, .clear hcleared hturns, hfirst.trans hpasses⟩
          · cases hfailed

/-! ## 4. Requests -/

/-- The executions of a run; none if the plan cannot be scheduled. -/
def executions : List Execution :=
  match a.schedule with
  | .ok es => es
  | .error _ => []

/-- What a run is to do until all rows are read. -/
def course : List Deed := courseOf [] a.executions

/-- How far a run has come after some requests. -/
def after (w : σ) : Nat → Progress × Session σ
  | 0 => (.fresh, { world := w })
  | n + 1 => (a.next (after w n).1 (after w n).2).2

/-- What a request brings after some requests before it. -/
def item (w : σ) (n : Nat) : Item := (a.next (a.after w n).1 (a.after w n).2).1

/-- All that is said between a run and a database until, after some requests, no more rows are
wanted. -/
def conversation (w : σ) (n : Nat) : List Turn :=
  a.database.transcript w (a.close (a.after w n).2).calls

/-- What a database hears of a run until temporary tables are dropped in the end, and the temporary
tables that are filled then. -/
inductive Heard : List Turn → List BulkTable → Prop
  | reading {done rest : List Deed} {stub : List Turn} : a.course = done ++ rest →
      Database.Stub a.plan.dialect rest stub →
      Heard (granted (callsOf a.plan.dialect done) ++ stub) (filledBy done)
  | deleting {turns : List Turn} : Clearings a.plan.dialect (a.plan.drop.getD []) turns →
      Heard (granted (callsOf a.plan.dialect a.course) ++ turns) (filledBy a.course)

/-- From its beginning a run came to the session, and it goes no further. -/
def Ends (w : σ) (s : Session σ) : Prop :=
  ∃ turns opened filled, a.Heard turns filled ∧
    a.database.Passes { world := w } turns opened (filled.map BulkTable.name) s

/-- From its beginning a run came to the session, and the executions are left. -/
def Proceeds (w : σ) (pending : List Execution) (s : Session σ) : Prop :=
  ∃ deeds, a.database.Does a.plan.dialect { world := w } deeds s ∧
    a.course = deeds ++ courseOf s.loaded pending

/-- The sessions that a run comes to, by how far it has come. -/
inductive Reaches (w : σ) : Progress → Session σ → Prop
  | fresh : Reaches w .fresh { world := w }
  | running {pending : List Execution} {buffer : List PathRow} {previous : List Element}
      {s : Session σ} : a.Proceeds w pending s → Reaches w (.running pending buffer previous) s
  | done {s : Session σ} : a.Ends w s → Reaches w .done (a.database.cleanUp a.plan.dialect s)

variable {a} {w : σ} {s s' : Session σ} {pending : List Execution}

theorem Proceeds.ends_of_breaks (h : a.Proceeds w pending s)
    (hbreaks : a.database.Breaks a.plan.dialect s (courseOf s.loaded pending) s') :
    a.Ends w s' := by
  obtain ⟨deeds, hdone, hcourse⟩ := h
  obtain ⟨done, rest, stub, hsplit, hstub, hpasses⟩ := hdone.breaks hbreaks
  exact ⟨_, _, filledBy done, .reading (hcourse.trans hsplit) hstub, hpasses⟩

theorem Proceeds.ends (h : a.Proceeds w pending s) : a.Ends w s :=
  h.ends_of_breaks ⟨[], _, [], rfl, Or.inl rfl, .refl s⟩

/-- An execution takes a run further. -/
theorem Proceeds.run {e : Execution} {rows : List PathRow} (h : a.Proceeds w (e :: pending) s)
    (hrun : a.run e s = (.ok rows, s')) : a.Proceeds w pending s' := by
  obtain ⟨deeds, hdone, hcourse⟩ := h
  obtain ⟨more, hmore, hrest⟩ := a.run_course pending hrun
  refine ⟨deeds ++ more, hdone.trans hmore, ?_⟩
  rw [hcourse, hrest, List.append_assoc]

theorem Proceeds.drain {rows : List PathRow} (h : a.Proceeds w pending s)
    (hrun : a.drain pending s = (.ok rows, s')) : a.Proceeds w [] s' := by
  obtain ⟨deeds, hdone, hcourse⟩ := h
  refine ⟨a.course, ?_, (List.append_nil _).symm⟩
  rw [hcourse]
  exact hdone.trans ((a.drain_follows pending s).of_ok hrun)

/-- A run that has nothing left to read goes on with deletions at most. -/
theorem Proceeds.ends_of_clearings {turns : List Turn} (h : a.Proceeds w [] s)
    (hturns : Clearings a.plan.dialect (a.plan.drop.getD []) turns)
    (hpasses : a.database.Passes s turns [] [] s') : a.Ends w s' := by
  obtain ⟨deeds, hdone, hcourse⟩ := h
  obtain rfl : deeds = a.course := (hcourse.trans (List.append_nil _)).symm
  have hall := Database.Passes.trans hdone hpasses
  rw [List.append_nil, List.append_nil] at hall
  exact ⟨_, _, _, .deleting hturns, hall⟩

/-- A request leads from one of the sessions that a run comes to to another. -/
theorem Proceeds.advance (previous : List Element) (buffer : List PathRow)
    (h : a.Proceeds w pending s) :
    a.Reaches w (a.advance previous s pending buffer).2.1 (a.advance previous s pending buffer).2.2 := by
  induction pending generalizing buffer s with
  | nil =>
    cases buffer with
    | nil =>
      rw [Assembler.advance]
      exact .done h.ends
    | cons row buffer =>
      rw [Assembler.advance]
      exact .running h
  | cons e pending ih =>
    cases buffer with
    | cons row buffer =>
      rw [Assembler.advance]
      exact .running h
    | nil =>
      rw [Assembler.advance]
      cases hrun : a.run e s with
      | mk outcome s' =>
        cases outcome with
        | error fault => exact .done (h.ends_of_breaks (a.run_breaks hrun))
        | ok rows => exact ih rows (h.run hrun)

variable (a w)

/-- A run began: it failed, or it has executions left, or it is at its end and hands out nothing. -/
def Begins : Except ExecutionError (List Execution × List PathRow) × Session σ → Prop
  | (.error _, s) => a.Ends w s
  | (.ok (pending, buffer), s) =>
    a.Proceeds w pending s ∨ (pending = [] ∧ buffer = [] ∧ a.Ends w s)

/-- Before anything is done, everything is left to do. -/
theorem proceeds_executions : a.Proceeds w a.executions { world := w } :=
  ⟨[], .refl _, rfl⟩

/-- Reading everything at once takes a run to the end of its course. -/
theorem begins_drain (es : List Execution) (f : List PathRow → List PathRow)
    (h : a.Proceeds w es { world := w }) :
    a.Begins w ((do return ([], f (← a.drain es)) : Act σ (List Execution × List PathRow))
      { world := w }) := by
  have hdrain := a.drain_follows es { world := w }
  rw [Act.bind_apply]
  cases hrun : a.drain es { world := w } with
  | mk outcome s =>
    cases outcome with
    | error fault => exact h.ends_of_breaks (hdrain.of_error hrun)
    | ok rows => exact Or.inl (h.drain hrun)

/-- A run that deletes reads everything, and it ends with the deletions. -/
theorem begins_dropRows (es : List Execution) {targets : List DropTarget}
    (hdrop : a.plan.drop = some targets) (h : a.Proceeds w es { world := w }) :
    a.Begins w ((do
        a.dropRows (← a.drain es) targets
        return ([], []) : Act σ (List Execution × List PathRow)) { world := w }) := by
  have hdrain := a.drain_follows es { world := w }
  rw [Act.bind_apply]
  cases hrun : a.drain es { world := w } with
  | mk outcome s =>
    cases outcome with
    | error fault => exact h.ends_of_breaks (hdrain.of_error hrun)
    | ok rows =>
      obtain ⟨turns, hturns, hpasses⟩ := a.dropRows_passes rows targets s
      have hends := (h.drain hrun).ends_of_clearings (by rw [hdrop]; exact hturns) hpasses
      simp only
      rw [Act.bind_apply]
      cases hrows : a.dropRows rows targets s with
      | mk outcome' s' =>
        rw [hrows] at hends
        cases outcome' with
        | error fault => exact hends
        | ok u => exact Or.inr ⟨rfl, rfl, hends⟩

theorem begins_start : a.Begins w (a.start { world := w }) := by
  have hall := a.proceeds_executions w
  unfold executions at hall
  cases hschedule : a.schedule with
  | error fault =>
    have hstart : a.start { world := w } = (.error fault, { world := w }) := by
      unfold start
      rw [hschedule]
      rfl
    rw [hschedule] at hall
    rw [hstart]
    exact hall.ends
  | ok es =>
    rw [hschedule] at hall
    unfold start
    rw [hschedule]
    cases hdrop : a.plan.drop with
    | some targets => exact a.begins_dropRows w es hdrop hall
    | none =>
      cases a.plan.window with
      | some window => exact a.begins_drain w es window.apply hall
      | none =>
        cases a.lazyResults with
        | true => exact Or.inl hall
        | false => exact a.begins_drain w es id hall

/-- **Every request** leads a run from one of the sessions that it comes to to another. -/
theorem reaches_after (n : Nat) : a.Reaches w (a.after w n).1 (a.after w n).2 := by
  induction n with
  | zero => exact .fresh
  | succ n ih =>
    rw [after]
    generalize a.after w n = state at ih
    obtain ⟨progress, s⟩ := state
    cases ih with
    | done hends => exact .done hends
    | running h => exact h.advance _ _
    | fresh =>
      have hbegins := a.begins_start w
      simp only [next]
      cases hstart : a.start { world := w } with
      | mk outcome s =>
        rw [hstart] at hbegins
        cases outcome with
        | error fault => exact .done hbegins
        | ok x =>
          obtain ⟨pending, buffer⟩ := x
          rcases hbegins with h | ⟨rfl, rfl, hends⟩
          · exact h.advance _ _
          · exact .done hends

/-- Closing a run drops the temporary tables that are filled. -/
theorem Ends.close {s : Session σ} (h : a.Ends w s) :
    ∃ heard filled drops, a.Heard heard filled ∧
      drops.map Turn.call = filled.map (fun t => t.temporary.removal a.plan.dialect) ∧
      a.database.Takes { world := w } (heard ++ drops) (a.close s) := by
  obtain ⟨heard, opened, filled, hheard, hpasses⟩ := h
  obtain ⟨⟨drops, hdrops, htakes⟩, _⟩ := a.database.cleanUp_takes a.plan.dialect s
  refine ⟨heard, filled, drops, hheard, ?_, hpasses.toTakes.trans htakes⟩
  rw [hdrops, hpasses.temporaries, List.nil_append, List.map_map]
  rfl

/-- A run that is closed stays as it is when it is closed again. -/
theorem close_cleanUp (s : Session σ) : a.close (a.database.cleanUp a.plan.dialect s)
    = a.database.cleanUp a.plan.dialect s := by
  have hnone := (a.database.cleanUp_takes a.plan.dialect s).2
  show ((a.database.dropAll a.plan.dialect (a.database.cleanUp a.plan.dialect s).temporaries)
    { a.database.cleanUp a.plan.dialect s with temporaries := [] }).2 = _
  rw [hnone]
  show { a.database.cleanUp a.plan.dialect s with temporaries := [] } = _
  rw [← hnone]

/-- **What a database hears of a run**, whatever it answers and however many rows are asked for: the
course of the run up to some point, perhaps deletions, and then the removal of each temporary table
that was filled. -/
theorem conversation_heard (n : Nat) :
    ∃ heard filled drops, a.Heard heard filled ∧
      drops.map Turn.call = filled.map (fun t => t.temporary.removal a.plan.dialect) ∧
      a.conversation w n = heard ++ drops := by
  suffices h : ∃ s, a.Ends w s ∧ a.close (a.after w n).2 = a.close s by
    obtain ⟨s, hends, hclose⟩ := h
    obtain ⟨heard, filled, drops, hheard, hdrops, htakes⟩ := hends.close
    refine ⟨heard, filled, drops, hheard, hdrops, ?_⟩
    rw [conversation, hclose]
    exact htakes.transcript_eq
  have hreaches := a.reaches_after w n
  generalize a.after w n = state at hreaches
  obtain ⟨progress, s⟩ := state
  cases hreaches with
  | fresh => exact ⟨_, (a.proceeds_executions w).ends, rfl⟩
  | running h => exact ⟨s, h.ends, rfl⟩
  | @done s hends => exact ⟨s, hends, a.close_cleanUp s⟩

end Assembler

end TraversalSql
