import TraversalSql.Proofs.Executions
import TraversalSql.Proofs.Identifiers

/-!
# Lazy and eager assembly

A plan hands out its rows one by one. In lazy mode each statement runs when its rows are asked
for, in eager mode all of them run before the first row. For a database that gives the same answer
to the same call every time (`Database.AnswersAs`) this file says what is handed out, in terms of
what each execution reads (`Responder.read`), with no session and no buffer, and shows that both
modes hand out that, except that an eager run with a fault hands out nothing but the fault.
-/

set_option autoImplicit false

namespace TraversalSql

/-! ## 1. What is read -/

/-- The answers of a database that depend on the call alone. -/
structure Responder where
  query : String → List Value → Except String ResultSet
  execute : String → List Value → Except String Unit

/-- The answers of the database are those of the responder, in every state. -/
def Database.AnswersAs {σ : Type} (db : Database σ) (r : Responder) : Prop :=
  ∀ sql params world, (db.query sql params world).1 = r.query sql params ∧
    (db.execute sql params world).1 = r.execute sql params

/-- The rows of some executions up to the first that fails, and the fault. -/
structure Readout where
  rows : List PathRow
  fault : Option ExecutionError

namespace Responder

variable (r : Responder) (d : Dialect)

def perform (sql : String) (params : List Value) : Except ExecutionError Unit :=
  (r.execute sql params).mapError (.refused sql)

def insertAll (insert : String) : List Value → Except ExecutionError Unit
  | [] => pure ()
  | v :: vs => do
    r.perform insert [v]
    insertAll insert vs

def materialize (create insert : String) (values : List Value) : Except ExecutionError Unit := do
  r.perform create []
  r.insertAll insert values

def loadTables : List BulkTable → Except ExecutionError Unit
  | [] => pure ()
  | t :: ts => do
    r.materialize (d.createTemporary t.name t.column t.type) (d.insertTemporary t.name t.column)
      t.values
    loadTables ts

/-- What one execution reads, if nothing was done before it. -/
def read (e : Execution) : Except ExecutionError (List PathRow) := do
  r.loadTables d e.statement.bulkTables
  let params ← (e.statement.bind e.rootId).mapError ExecutionError.unwritable
  let result ← (r.query e.statement.sql params).mapError (.refused e.statement.sql)
  (Assembler.pathRows e.statement result).mapError ExecutionError.undecodable

/-- What executions read, one after the other. -/
def readout : List Execution → Readout
  | [] => ⟨[], none⟩
  | e :: es =>
    match r.read d e with
    | .error fault => ⟨[], some fault⟩
    | .ok rows => ⟨rows ++ (readout es).rows, (readout es).fault⟩

end Responder

/-- Rows as they are handed out: each without what it shares with the one before it. -/
def handedOut (previous : List Element) : List PathRow → List PathRow
  | [] => []
  | row :: rows => row.share previous :: handedOut row.fragments rows

namespace Readout

variable (x : Readout)

/-- What is read after rows that were read before. -/
def behind (before : List PathRow) : Readout := { x with rows := before ++ x.rows }

/-- The rows, and then the fault. -/
def lazyItems (previous : List Element) : List (Except ExecutionError PathRow) :=
  (handedOut previous x.rows).map .ok ++ x.fault.toList.map .error

/-- The rows, or nothing but the fault. -/
def eagerItems : List (Except ExecutionError PathRow) :=
  match x.fault with
  | none => (handedOut [] x.rows).map .ok
  | some fault => [.error fault]

/-- All rows, if there is no fault. -/
def collected : Except ExecutionError (List PathRow) :=
  match x.fault with
  | none => .ok x.rows
  | some fault => .error fault

end Readout

/-! ## 2. Acts without a session -/

/-- In every session whose filled tables belong to statements with the property, the act comes to
the given end, and unless it fails, the filled tables of the session still do. -/
def Act.Mirrors {σ α : Type} (P : Nat → Prop) (m : Act σ α) (x : Except ExecutionError α) : Prop :=
  ∀ s : Session σ, (∀ i ∈ s.loaded, P i) →
    (m s).1 = x ∧ ∀ v, x = .ok v → ∀ i ∈ (m s).2.loaded, P i

namespace Act.Mirrors

variable {σ α β : Type} {P : Nat → Prop}

theorem pure (v : α) : (Pure.pure v : Act σ α).Mirrors P (.ok v) :=
  fun _ hs => ⟨rfl, fun _ _ => hs⟩

theorem lift (x : Except ExecutionError α) : (liftM x : Act σ α).Mirrors P x :=
  fun _ hs => ⟨rfl, fun _ _ => hs⟩

theorem bind {m : Act σ α} {x : Except ExecutionError α} {f : α → Act σ β}
    {y : α → Except ExecutionError β} (hm : m.Mirrors P x) (hf : ∀ v, (f v).Mirrors P (y v)) :
    (m >>= f).Mirrors P (x >>= y) := by
  intro s hs
  obtain ⟨hx, hkeep⟩ := hm s hs
  cases hrun : m s with
  | mk outcome s' =>
    rw [hrun] at hx hkeep
    subst hx
    have hstep : (m >>= f) s = match outcome with
        | .ok v => f v s'
        | .error fault => (.error fault, s') := by
      show (StateT.bind m (ExceptT.bindCont f)) s = _
      simp only [StateT.bind, hrun]
      cases outcome <;> rfl
    rw [hstep]
    cases outcome with
    | error fault => exact ⟨rfl, nofun⟩
    | ok v => exact hf v s' (hkeep v rfl)

end Act.Mirrors

section Mirrors

variable {σ : Type} {db : Database σ} {r : Responder} (hdb : db.AnswersAs r) {P : Nat → Prop}

include hdb

theorem ask_mirrors (sql : String) (params : List Value) :
    (db.ask sql params).Mirrors P ((r.query sql params).mapError (.refused sql)) := by
  intro s hs
  refine ⟨?_, fun _ _ => hs⟩
  show (db.query sql params s.world).1.mapError _ = _
  rw [(hdb sql params s.world).1]

theorem perform_mirrors (sql : String) (params : List Value) :
    (db.perform sql params).Mirrors P (r.perform sql params) := by
  intro s hs
  refine ⟨?_, fun _ _ => hs⟩
  show (db.execute sql params s.world).1.mapError _ = _
  rw [(hdb sql params s.world).2]
  rfl

theorem insertAll_mirrors (insert : String) (vs : List Value) :
    (db.insertAll insert vs).Mirrors P (r.insertAll insert vs) := by
  induction vs with
  | nil => exact .pure ()
  | cons v vs ih => exact (perform_mirrors hdb _ _).bind fun _ => ih

theorem materialize_mirrors (create insert : String) (values : List Value) :
    (db.materialize create insert values).Mirrors P (r.materialize create insert values) :=
  (perform_mirrors hdb _ _).bind fun _ => insertAll_mirrors hdb _ _

theorem loadTables_mirrors (d : Dialect) (ts : List BulkTable) :
    (db.loadTables d ts).Mirrors P (r.loadTables d ts) := by
  induction ts with
  | nil => exact .pure ()
  | cons t ts ih =>
    have hnoted : (modify fun s => { s with temporaries := s.temporaries ++ [t.name] } :
        Act σ Unit).Mirrors P (.ok ()) := fun s hs => ⟨rfl, fun _ _ => hs⟩
    exact (materialize_mirrors hdb _ _ _).bind fun _ => hnoted.bind fun _ => ih

end Mirrors

/-! ## 3. Executions -/

namespace Assembler

variable {σ : Type} (a : Assembler σ) {r : Responder} (hdb : a.database.AnswersAs r)

/-- Whatever statement of the plan stands there, its tables can be filled. -/
def Loadable (r : Responder) (i : Nat) : Prop :=
  ∀ s, a.plan.statements[i]? = some s → r.loadTables a.plan.dialect s.bulkTables = .ok ()

/-- The execution is one of a statement of the plan. -/
def Runs (e : Execution) : Prop := a.plan.statements[e.index]? = some e.statement

theorem load_apply (i : Nat) (statement : Statement) (s : Session σ) :
    a.load i statement s = if s.loaded.contains i = true then (.ok (), s)
      else a.database.loadTables a.plan.dialect statement.bulkTables
        { s with loaded := i :: s.loaded } := by
  show (if s.loaded.contains i = true then (Pure.pure () : Act σ Unit) else _) s = _
  split <;> rfl

include hdb

/-- Tables are filled once; filling them again would come to the same end. -/
theorem load_mirrors {e : Execution} (he : a.Runs e) :
    (a.load e.index e.statement).Mirrors (a.Loadable r)
      (r.loadTables a.plan.dialect e.statement.bulkTables) := by
  intro s hs
  rw [load_apply]
  split
  · rename_i hc
    rw [hs _ (List.contains_iff_mem.mp hc) _ he]
    exact ⟨rfl, fun _ _ => hs⟩
  · -- the session counts the tables as filled before they are
    obtain ⟨hx, hkeep⟩ := loadTables_mirrors (P := (· ∈ e.index :: s.loaded)) hdb a.plan.dialect
      e.statement.bulkTables { s with loaded := e.index :: s.loaded } fun i hi => hi
    refine ⟨hx, ?_⟩
    intro v hv i hi
    rcases List.mem_cons.mp (hkeep v hv i hi) with rfl | hi
    · intro s' hs'
      rw [Option.some.inj (hs'.symm.trans he)]
      exact hv
    · exact hs i hi

theorem run_mirrors {e : Execution} (he : a.Runs e) :
    (a.run e).Mirrors (a.Loadable r) (r.read a.plan.dialect e) :=
  (a.load_mirrors hdb he).bind fun _ => (Act.Mirrors.lift _).bind fun _ =>
    (ask_mirrors hdb _ _).bind fun _ => .lift _

theorem drain_mirrors {es : List Execution} (hes : ∀ e ∈ es, a.Runs e) :
    (a.drain es).Mirrors (a.Loadable r) (r.readout a.plan.dialect es).collected := by
  induction es with
  | nil => exact .pure []
  | cons e es ih =>
    have hrest := ih fun e' he' => hes e' (List.mem_cons_of_mem _ he')
    have h := (a.run_mirrors hdb (hes e List.mem_cons_self)).bind fun rows =>
      hrest.bind fun rest => .pure (rows ++ rest)
    have heq : (r.readout a.plan.dialect (e :: es)).collected =
        (r.read a.plan.dialect e).bind fun rows =>
          (r.readout a.plan.dialect es).collected.bind fun rest => .ok (rows ++ rest) := by
      simp only [Responder.readout]
      cases r.read a.plan.dialect e with
      | error fault => rfl
      | ok rows =>
        unfold Readout.collected
        simp only [Except.bind]
        cases (r.readout a.plan.dialect es).fault <;> rfl
    rw [heq]
    exact h

end Assembler

/-! ## 4. Items -/

namespace Assembler

variable {σ : Type} (a : Assembler σ) (n : Nat) (e : Execution) (pending : List Execution)
  (row : PathRow) (buffer : List PathRow) (previous : List Element) (s : Session σ)

/-- What the first `n` requests bring, up to the end. -/
def items : Nat → Progress → Session σ → List (Except ExecutionError PathRow)
  | 0, _, _ => []
  | n + 1, p, s =>
    match a.next p s with
    | (none, _, _) => []
    | (some item, p, s) => item :: items n p s

theorem items_done : a.items n .done s = [] := by
  cases n <;> rfl

theorem items_end : a.items (n + 1) (.running [] [] previous) s = [] := by
  simp only [items, next, advance, finish]

theorem items_row : a.items (n + 1) (.running pending (row :: buffer) previous) s
    = .ok (row.share previous) :: a.items n (.running pending buffer row.fragments) s := by
  simp only [items, next, advance]

theorem items_run : a.items (n + 1) (.running (e :: pending) [] previous) s
    = match a.run e s with
      | (.error fault, _) => [.error fault]
      | (.ok rows, s) => a.items (n + 1) (.running pending rows previous) s := by
  simp only [items, next, advance]
  cases a.run e s with
  | mk outcome s' =>
    cases outcome with
    | error fault => simp only [finish, items_done]
    | ok rows => rfl

theorem items_fresh : a.items (n + 1) .fresh s
    = match a.start s with
      | (.error fault, _) => [.error fault]
      | (.ok (pending, buffer), s) => a.items (n + 1) (.running pending buffer []) s := by
  simp only [items, next]
  cases a.start s with
  | mk outcome s' =>
    cases outcome with
    | error fault => simp only [finish, items_done]
    | ok x => rfl

variable {r : Responder} (hdb : a.database.AnswersAs r)

include hdb

/-- A run under way hands out its buffer, and then what it reads. -/
theorem items_running (hpending : ∀ e ∈ pending, a.Runs e) (hs : ∀ i ∈ s.loaded, a.Loadable r i) :
    a.items n (.running pending buffer previous) s
      = ((r.readout a.plan.dialect pending).behind buffer |>.lazyItems previous).take n := by
  induction n generalizing pending buffer previous s with
  | zero => rfl
  | succ n ih =>
    -- a request runs statements until one has a row
    induction pending generalizing buffer s with
    | nil =>
      cases buffer with
      | nil => rw [items_end]; rfl
      | cons row buffer => rw [items_row, ih [] buffer row.fragments s hpending hs]; rfl
    | cons e pending ihp =>
      cases buffer with
      | cons row buffer => rw [items_row, ih (e :: pending) buffer row.fragments s hpending hs]; rfl
      | nil =>
        obtain ⟨hread, hkeep⟩ := a.run_mirrors hdb (hpending e List.mem_cons_self) s hs
        rw [items_run, Responder.readout]
        cases hrun : a.run e s with
        | mk outcome s' =>
          rw [hrun] at hread hkeep
          rw [← hread]
          cases outcome with
          | error fault => simp [Readout.behind, Readout.lazyItems, handedOut]
          | ok rows =>
            exact ihp rows s' (fun e' he' => hpending e' (List.mem_cons_of_mem _ he'))
              (hkeep rows hread.symm)

/-- A lazy run hands out what it reads. -/
theorem items_lazy {es : List Execution} (hschedule : a.schedule = .ok es)
    (hes : ∀ e ∈ es, a.Runs e) (hdrop : a.plan.drop = none) (hwindow : a.plan.window = none)
    (hlazy : a.lazyResults = true) (hs : ∀ i ∈ s.loaded, a.Loadable r i) :
    a.items n .fresh s = ((r.readout a.plan.dialect es).lazyItems []).take n := by
  have hstart : a.start s = (.ok (es, []), s) := by
    unfold start
    rw [hschedule, hdrop, hwindow, hlazy]
    rfl
  cases n with
  | zero => rfl
  | succ n =>
    rw [items_fresh, hstart]
    exact a.items_running (n + 1) es [] [] s hdb hes hs

/-- An eager run hands out what it reads, or the fault alone. -/
theorem items_eager {es : List Execution} (hschedule : a.schedule = .ok es)
    (hes : ∀ e ∈ es, a.Runs e) (hdrop : a.plan.drop = none) (hwindow : a.plan.window = none)
    (heager : a.lazyResults = false) (hs : ∀ i ∈ s.loaded, a.Loadable r i) :
    a.items n .fresh s = (r.readout a.plan.dialect es).eagerItems.take n := by
  have hmirrors : a.start.Mirrors (a.Loadable r)
      ((r.readout a.plan.dialect es).collected >>= fun rows => .ok ([], rows)) := by
    have hstart : a.start = (do return ([], ← a.drain es)) := by
      unfold start
      rw [hschedule, hdrop, hwindow, heager]
      rfl
    rw [hstart]
    exact (a.drain_mirrors hdb hes).bind fun rows => .pure ([], rows)
  obtain ⟨hx, hkeep⟩ := hmirrors s hs
  cases n with
  | zero => rfl
  | succ n =>
    rw [items_fresh]
    cases hrun : a.start s with
    | mk outcome s' =>
      rw [hrun] at hx hkeep
      cases hfault : (r.readout a.plan.dialect es).fault with
      | some fault =>
        simp only [Readout.collected, hfault] at hx
        obtain rfl : outcome = .error fault := hx
        simp [Readout.eagerItems, hfault]
      | none =>
        simp only [Readout.collected, hfault] at hx hkeep
        obtain rfl : outcome = .ok ([], (r.readout a.plan.dialect es).rows) := hx
        simp only
        rw [a.items_running (n + 1) [] _ [] s' hdb (List.forall_mem_nil _) (hkeep _ rfl)]
        simp [Responder.readout, Readout.behind, Readout.lazyItems, Readout.eagerItems, hfault]

end Assembler

/-! ## 5. Phases -/

/-- The place of a phase among the phases. -/
def Phase.rank : Phase → Nat
  | regular => 0
  | optional => 1
  | emit => 2

/-- Parts that have the ranks of what they come from stand in the order of it. -/
theorem pairwise_flatten {α β : Type} {f : α → Nat} {g : β → Nat} {as : List α}
    {parts : List (List β)} (hparts : List.Forall₂ (fun x ys => ∀ y ∈ ys, g y = f x) as parts)
    (has : (as.map f).Pairwise (· ≤ ·)) : (parts.flatten.map g).Pairwise (· ≤ ·) := by
  induction hparts with
  | nil => exact .nil
  | @cons x ys as parts hys hparts ih =>
    rw [List.map_cons, List.pairwise_cons] at has
    rw [List.flatten_cons, List.map_append, List.pairwise_append]
    refine ⟨?_, ih has.2, ?_⟩
    · rw [List.pairwise_map]
      refine List.pairwise_of_forall_mem_list ?_
      intro y hy y' hy'
      rw [hys y hy, hys y' hy']
    · intro k hk k' hk'
      obtain ⟨y, hy, rfl⟩ := List.mem_map.mp hk
      obtain ⟨y', hy', rfl⟩ := List.mem_map.mp hk'
      obtain ⟨ys', hys', hy'⟩ := List.mem_flatten.mp hy'
      obtain ⟨x', hx', h⟩ := exists_of_mem_right hparts hys'
      rw [hys y hy, h y' hy']
      exact has.1 _ (List.mem_map_of_mem hx')

/-- Stacks are listed phase by phase. -/
theorem stacksOf_phases {trees : List QueryTree} {queue : List (QueryTree × PathStack)}
    (hqueue : stacksOf trees = .ok queue) :
    (queue.map fun x => x.2.phase.rank).Pairwise (· ≤ ·) := by
  obtain ⟨found, hfound, hqueue⟩ := bind_ok hqueue
  cases hqueue
  have hranks : (Phase.all.map Phase.rank).Pairwise (· ≤ ·) := by decide
  refine pairwise_flatten ?_ hranks
  rw [List.forall₂_map_right_iff]
  refine (forall₂_of_mapM hfound).imp ?_
  intro phase parts hparts x hx
  obtain ⟨part, hpart, hx⟩ := List.mem_flatten.mp hx
  obtain ⟨t, _, ht⟩ := exists_of_mem_right (forall₂_of_mapM hparts) hpart
  obtain ⟨listed, hlisted, ht⟩ := bind_ok ht
  cases ht
  obtain ⟨stack, hstack, rfl⟩ := List.mem_map.mp hx
  rw [QueryTree.pathStacks_ok hlisted] at hstack
  split at hstack
  · cases hstack
  · obtain ⟨id, _, rfl⟩ := List.mem_map.mp hstack
    rfl

theorem Plan.From.phases {plan : Plan} {run : Run} {queue : List (QueryTree × PathStack)}
    (h : plan.From run queue) {trees : List QueryTree} (hqueue : stacksOf trees = .ok queue) :
    (plan.statements.map fun s => s.phase.rank).Pairwise (· ≤ ·) := by
  have hphases : (plan.statements.map fun s => s.phase.rank) = queue.map fun x => x.2.phase.rank :=
    map_eq_of_forall₂ h.statements fun x s hs => congrArg Phase.rank hs.phase
  rw [hphases]
  exact stacksOf_phases hqueue

namespace Assembler

variable {σ : Type} (a : Assembler σ)

theorem executionsOf_spec {i : Nat} {s : Statement} {es : List Execution}
    (h : a.executionsOf i s = .ok es) : ∀ e ∈ es, e.index = i ∧ e.statement = s := by
  unfold executionsOf at h
  intro e he
  split at h
  · cases h
    rw [List.mem_singleton.mp he]
    exact ⟨rfl, rfl⟩
  · cases h
    obtain ⟨id, _, rfl⟩ := List.mem_map.mp he
    exact ⟨rfl, rfl⟩
  · split at h
    · cases h
    · cases h
      obtain ⟨id, _, rfl⟩ := List.mem_map.mp he
      exact ⟨rfl, rfl⟩

/-- With elements that flow in, nothing is missing for a schedule. -/
theorem schedule_ok {records : List RecordId} (h : a.incoming = some records) :
    ∃ es, a.schedule = .ok es := by
  have hexecutions : ∀ x : Statement × Nat, ∃ es, a.executionsOf x.2 x.1 = .ok es := by
    intro x
    unfold executionsOf
    split
    · exact ⟨_, rfl⟩
    · exact ⟨_, rfl⟩
    · rw [h]
      exact ⟨_, rfl⟩
  choose f hf using hexecutions
  exact ⟨_, by rw [schedule, mapM_ok fun x _ => hf x]; rfl⟩

theorem schedule_runs {es : List Execution} (h : a.schedule = .ok es) : ∀ e ∈ es, a.Runs e := by
  obtain ⟨parts, hparts, h⟩ := bind_ok h
  cases h
  intro e he
  obtain ⟨part, hpart, he⟩ := List.mem_flatten.mp he
  obtain ⟨x, hx, hexecutions⟩ := exists_of_mem_right (forall₂_of_mapM hparts) hpart
  obtain ⟨hindex, hstatement⟩ := a.executionsOf_spec hexecutions e he
  rw [Runs, hindex, hstatement]
  exact List.mk_mem_zipIdx_iff_getElem?.mp hx

theorem schedule_phases {es : List Execution} (h : a.schedule = .ok es)
    (hphases : (a.plan.statements.map fun s => s.phase.rank).Pairwise (· ≤ ·)) :
    (es.map fun e => e.statement.phase.rank).Pairwise (· ≤ ·) := by
  obtain ⟨parts, hparts, h⟩ := bind_ok h
  cases h
  refine pairwise_flatten (f := fun x : Statement × Nat => x.1.phase.rank)
    ((forall₂_of_mapM hparts).imp ?_) ?_
  · intro x part hpart e he
    rw [(a.executionsOf_spec hpart e he).2]
  · have hfst := congrArg (List.map fun s => s.phase.rank) (List.zipIdx_map_fst 0 a.plan.statements)
    rw [List.map_map] at hfst
    exact hfst ▸ hphases

end Assembler

namespace Responder

variable (r : Responder) (d : Dialect)

theorem read_phase {e : Execution} {rows : List PathRow} (h : r.read d e = .ok rows) :
    ∀ row ∈ rows, row.phase = e.statement.phase := by
  obtain ⟨_, _, h⟩ := bind_ok h
  obtain ⟨_, _, h⟩ := bind_ok h
  obtain ⟨_, _, h⟩ := bind_ok h
  obtain ⟨_, _, h⟩ := bind_ok (mapError_ok h)
  obtain ⟨_, _, h⟩ := bind_ok h
  cases h
  intro row hrow
  obtain ⟨_, _, rfl⟩ := List.mem_map.mp hrow
  rfl

/-- The rows that are read come from the first executions. -/
theorem readout_parts (es : List Execution) :
    ∃ done parts, done.Sublist es ∧ (r.readout d es).rows = parts.flatten ∧
      List.Forall₂ (fun e rows => ∀ row ∈ rows, row.phase.rank = e.statement.phase.rank)
        done parts := by
  induction es with
  | nil => exact ⟨[], [], .slnil, rfl, .nil⟩
  | cons e es ih =>
    rw [readout]
    cases hread : r.read d e with
    | error fault => exact ⟨[], [], List.nil_sublist _, rfl, .nil⟩
    | ok rows =>
      obtain ⟨done, parts, hdone, hparts, hphases⟩ := ih
      refine ⟨e :: done, rows :: parts, hdone.cons_cons e, ?_, .cons ?_ hphases⟩
      · rw [List.flatten_cons, hparts]
      · intro row hrow
        rw [r.read_phase d hread row hrow]

theorem readout_phases {es : List Execution}
    (h : (es.map fun e => e.statement.phase.rank).Pairwise (· ≤ ·)) :
    ((r.readout d es).rows.map fun row => row.phase.rank).Pairwise (· ≤ ·) := by
  obtain ⟨done, parts, hdone, hparts, hphases⟩ := r.readout_parts d es
  rw [hparts]
  exact pairwise_flatten hphases (h.sublist (hdone.map _))

end Responder

theorem map_phase_handedOut (previous : List Element) (rows : List PathRow) :
    (handedOut previous rows).map (fun row => row.phase.rank)
      = rows.map fun row => row.phase.rank := by
  induction rows generalizing previous with
  | nil => rfl
  | cons row rows ih =>
    rw [handedOut, List.map_cons, List.map_cons, ih]
    rfl

/-! ## 6. Both modes -/

/-- A run of a plan from its beginning, with records that flow in. -/
def Plan.itemsOf {σ : Type} (plan : Plan) (db : Database σ) (records : List RecordId)
    (lazyResults : Bool) (world : σ) (n : Nat) : List (Except ExecutionError PathRow) :=
  Assembler.items ⟨db, plan, lazyResults, some records⟩ n .fresh { world := world }

/-- **Lazy and eager assembly agree.** For a plan that neither deletes nor has a window, a lazy run
hands out the rows of its executions up to the first fault, and then the fault; an eager run hands
out the same where there is no fault, and the fault alone where there is one. The rows come phase
by phase. -/
theorem Run.plan_items_agree {settings : Settings} {T : Topology} {n : Numbering} {run : Run}
    {plan : Plan} (hok : run.plan settings T n = .ok plan) (hdrop : plan.drop = none)
    (hwindow : plan.window = none) {σ : Type} {db : Database σ} {r : Responder}
    (hdb : db.AnswersAs r) (records : List RecordId) :
    ∃ es, (∀ lazyResults, (⟨db, plan, lazyResults, some records⟩ : Assembler σ).schedule = .ok es) ∧
      (∀ world k, plan.itemsOf db records true world k
        = ((r.readout plan.dialect es).lazyItems []).take k) ∧
      (∀ world k, plan.itemsOf db records false world k
        = (r.readout plan.dialect es).eagerItems.take k) ∧
      ((handedOut [] (r.readout plan.dialect es).rows).map fun row => row.phase.rank).Pairwise
        (· ≤ ·) := by
  let assembler (lazyResults : Bool) : Assembler σ := ⟨db, plan, lazyResults, some records⟩
  obtain ⟨es, hschedule⟩ := (assembler true).schedule_ok rfl
  refine ⟨es, ?_, ?_, ?_, ?_⟩
  · intro lazyResults
    exact hschedule
  · intro world k
    exact (assembler true).items_lazy k _ hdb hschedule ((assembler true).schedule_runs hschedule)
      hdrop hwindow rfl nofun
  · intro world k
    exact (assembler false).items_eager k _ hdb hschedule
      ((assembler false).schedule_runs hschedule) hdrop hwindow rfl nofun
  · obtain ⟨trees, queue, _, hqueue, hfrom⟩ := plan_from hok
    rw [map_phase_handedOut]
    exact r.readout_phases _ ((assembler true).schedule_phases hschedule (hfrom.phases hqueue))

namespace People

/-- The statement that lists all people. -/
def listing : String :=
  "SELECT \"public\".\"V_Person\".\"ID\" AS \"alias1\" FROM \"public\".\"V_Person\""

/-- A database that refuses to list all people, and counts its calls. -/
def reserved : Database Nat where
  query sql _ calls :=
    (if sql = listing then .error "too many" else .ok ⟨["alias2"], [[.int 2]]⟩, calls + 1)
  execute _ _ calls := (.ok (), calls + 1)

def answers : Responder where
  query sql params := (reserved.query sql params 0).1
  execute sql params := (reserved.execute sql params 0).1

/-- The friends of everyone, and then everyone. -/
def friendsAndAll : Run := ⟨[{ everyone with emit := true }, friends false]⟩

def friend : PathRow where
  phase := .regular
  sharedPrefix := 0
  fragments := [⟨⟨person, 2⟩, ∅, ∅, 1, none, none⟩]
  sortKey := []

/-- What is read for the friends of everyone and for everyone, if it can be planned. -/
def readFriends : Option Readout := do
  let plan ← (friendsAndAll.plan {} topology {}).toOption
  let es ← (⟨reserved, plan, true, some []⟩ : Assembler Nat).schedule.toOption
  if plan.drop.isNone && plan.window.isNone then
    some (answers.readout plan.dialect es)
  else none

theorem readFriends_eq : readFriends.map (fun x => (x.lazyItems [], x.eagerItems))
    = some ([.ok friend, .error (.refused listing "too many")],
        [.error (.refused listing "too many")]) := by
  decide +kernel

/-- A lazy run gives the friend away before the refusal, an eager run does not. -/
theorem friends_before_refusal : ∃ plan, friendsAndAll.plan {} topology {} = .ok plan ∧
    plan.drop = none ∧ plan.window = none ∧ reserved.AnswersAs answers ∧
    (∀ world k, plan.itemsOf reserved [] true world k
      = [.ok friend, .error (.refused listing "too many")].take k) ∧
    (∀ world k, plan.itemsOf reserved [] false world k
      = [.error (.refused listing "too many")].take k) := by
  obtain ⟨x, hread, hitems⟩ := Option.map_eq_some_iff.mp readFriends_eq
  simp only [readFriends, Option.bind_eq_bind, Option.bind_eq_some_iff,
    Option.ite_none_right_eq_some, Bool.and_eq_true, Option.isNone_iff_eq_none] at hread
  obtain ⟨plan, hplan, es, hes, ⟨hdrop, hwindow⟩, hx⟩ := hread
  obtain rfl := Option.some.inj hx
  simp only [Prod.mk.injEq] at hitems
  have hok := eq_ok_of_toOption hplan
  have hanswers : reserved.AnswersAs answers := fun _ _ _ => ⟨rfl, rfl⟩
  obtain ⟨es', hschedule, hlazy, heager, _⟩ := Run.plan_items_agree hok hdrop hwindow hanswers []
  rw [hschedule true] at hes
  obtain rfl := Option.some.inj hes
  rw [hitems.1] at hlazy
  rw [hitems.2] at heager
  exact ⟨plan, hok, hdrop, hwindow, hanswers, hlazy, heager⟩

end People

end TraversalSql
