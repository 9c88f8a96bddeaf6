import TraversalSql.Rows.Assembler

/-!
# Transcripts

A session notes the calls of the database that were made, but not how they were answered. The
answers can be told from the calls and from the state before the first of them, and the transcript
lists both. This file follows the acts on a database through their transcripts: an act makes its
calls in order, and each is granted, or they end with the first that is refused (`Makes`).
-/

set_option autoImplicit false

namespace TraversalSql

/-! ## 1. Turns -/

/-- A call of the database, and whether it was granted. -/
structure Turn where
  call : DatabaseCall
  granted : Bool
deriving DecidableEq, Repr

/-- The turns of calls that are all granted. -/
def granted (calls : List DatabaseCall) : List Turn := calls.map fun c => ⟨c, true⟩

@[simp] theorem granted_append (cs ds : List DatabaseCall) :
    granted (cs ++ ds) = granted cs ++ granted ds := List.map_append

@[simp] theorem map_call_granted (cs : List DatabaseCall) : (granted cs).map Turn.call = cs := by
  rw [granted, List.map_map]
  exact List.map_id cs

theorem mem_granted {cs : List DatabaseCall} {t : Turn} :
    t ∈ granted cs ↔ t.call ∈ cs ∧ t.granted = true := by
  constructor
  · intro h
    obtain ⟨c, hc, rfl⟩ := List.mem_map.mp h
    exact ⟨hc, rfl⟩
  · rintro ⟨hc, ht⟩
    refine List.mem_map.mpr ⟨t.call, hc, ?_⟩
    rw [← ht]

/-- The calls were made in order and granted, up to one that was refused. -/
def Interrupts (calls : List DatabaseCall) (turns : List Turn) : Prop :=
  ∃ before c after, calls = before ++ c :: after ∧ turns = granted before ++ [⟨c, false⟩]

theorem Interrupts.append {cs : List DatabaseCall} {ts : List Turn} (h : Interrupts cs ts)
    (ds : List DatabaseCall) : Interrupts (cs ++ ds) ts := by
  obtain ⟨before, c, after, rfl, hts⟩ := h
  exact ⟨before, c, after ++ ds, by simp, hts⟩

theorem Interrupts.behind {cs : List DatabaseCall} {ts : List Turn} (h : Interrupts cs ts)
    (ds : List DatabaseCall) : Interrupts (ds ++ cs) (granted ds ++ ts) := by
  obtain ⟨before, c, after, rfl, rfl⟩ := h
  exact ⟨ds ++ before, c, after, by simp, by simp⟩

/-- The calls of an interrupted list are among those it was to have. -/
theorem Interrupts.mem_calls {cs : List DatabaseCall} {ts : List Turn} (h : Interrupts cs ts) :
    ∀ t ∈ ts, t.call ∈ cs := by
  obtain ⟨before, c, after, rfl, rfl⟩ := h
  intro t ht
  rcases List.mem_append.mp ht with ht | ht
  · exact List.mem_append_left _ (mem_granted.mp ht).1
  · rw [List.mem_singleton.mp ht]
    exact List.mem_append_right _ List.mem_cons_self

namespace Database

variable {σ : Type} (db : Database σ)

/-- What becomes of a call: whether it is granted, and the state after it. -/
def respond : DatabaseCall → σ → Bool × σ
  | .query sql params, w => ((db.query sql params w).1.isOk, (db.query sql params w).2)
  | .execute sql params, w => ((db.execute sql params w).1.isOk, (db.execute sql params w).2)

/-- Calls made one after the other, each with its answer. -/
def transcript : σ → List DatabaseCall → List Turn
  | _, [] => []
  | w, c :: cs => ⟨c, (db.respond c w).1⟩ :: transcript (db.respond c w).2 cs

/-- The state after calls made one after the other. -/
def worldAfter (w : σ) (calls : List DatabaseCall) : σ :=
  calls.foldl (fun w c => (db.respond c w).2) w

theorem transcript_append (w : σ) (cs ds : List DatabaseCall) :
    db.transcript w (cs ++ ds) = db.transcript w cs ++ db.transcript (db.worldAfter w cs) ds := by
  induction cs generalizing w with
  | nil => rfl
  | cons c cs ih => exact congrArg _ (ih _)

/-- Between two sessions the turns were taken. -/
structure Takes (s : Session σ) (turns : List Turn) (s' : Session σ) : Prop where
  calls : s'.calls = s.calls ++ turns.map Turn.call
  transcript : db.transcript s.world (turns.map Turn.call) = turns
  world : s'.world = db.worldAfter s.world (turns.map Turn.call)

variable {db} {s s' s'' : Session σ} {ts us : List Turn}

theorem Takes.refl (s : Session σ) : db.Takes s [] s :=
  ⟨(List.append_nil _).symm, rfl, rfl⟩

theorem Takes.trans (h : db.Takes s ts s') (h' : db.Takes s' us s'') :
    db.Takes s (ts ++ us) s'' where
  calls := by
    rw [h'.calls, h.calls, List.map_append, List.append_assoc]
  transcript := by
    rw [List.map_append, transcript_append, h.transcript, ← h.world, h'.transcript]
  world := by
    rw [h'.world, h.world, List.map_append, worldAfter, worldAfter, worldAfter, List.foldl_append]

/-- The turns of a session from its beginning are its transcript. -/
theorem Takes.transcript_eq {w : σ} (h : db.Takes { world := w } ts s) :
    db.transcript w s.calls = ts := by
  rw [h.calls]
  exact h.transcript

variable (db)

/-- Between two sessions the turns were taken; the tables of the statements `opened` were to be
filled, and the temporary tables `filled` were. -/
structure Passes (s : Session σ) (turns : List Turn) (opened : List Nat) (filled : List String)
    (s' : Session σ) : Prop extends db.Takes s turns s' where
  loaded : s'.loaded = opened.reverse ++ s.loaded
  temporaries : s'.temporaries = s.temporaries ++ filled

variable {db} {is js : List Nat} {ns ms : List String}

theorem Passes.refl (s : Session σ) : db.Passes s [] [] [] s :=
  ⟨.refl s, rfl, (List.append_nil _).symm⟩

theorem Passes.trans (h : db.Passes s ts is ns s') (h' : db.Passes s' us js ms s'') :
    db.Passes s (ts ++ us) (is ++ js) (ns ++ ms) s'' := by
  refine ⟨h.toTakes.trans h'.toTakes, ?_, ?_⟩
  · rw [h'.loaded, h.loaded, List.reverse_append, List.append_assoc]
  · rw [h'.temporaries, h.temporaries, List.append_assoc]

end Database

/-! ## 2. Acts -/

theorem Act.bind_apply {σ α β : Type} (m : Act σ α) (f : α → Act σ β) (s : Session σ) :
    (m >>= f) s = match m s with
      | (.ok v, s') => f v s'
      | (.error fault, s') => (.error fault, s') := by
  show (StateT.bind m (ExceptT.bindCont f)) s = _
  simp only [StateT.bind]
  cases m s with
  | mk outcome s' => cases outcome <;> rfl

namespace Database

variable {σ α β : Type} (db : Database σ)

/-- The act makes the calls, and fails only if one of them is refused. -/
def Makes (m : Act σ α) (calls : List DatabaseCall) : Prop :=
  ∀ s, match m s with
    | (.ok _, s') => db.Passes s (granted calls) [] [] s'
    | (.error _, s') => ∃ turns, Interrupts calls turns ∧ db.Passes s turns [] [] s'

variable {db}

theorem Makes.pure (v : α) : db.Makes (Pure.pure v : Act σ α) [] := fun s => .refl s

theorem Makes.bind {m : Act σ α} {f : α → Act σ β} {cs ds : List DatabaseCall}
    (hm : db.Makes m cs) (hf : ∀ v, db.Makes (f v) ds) : db.Makes (m >>= f) (cs ++ ds) := by
  intro s
  rw [Act.bind_apply]
  have hs := hm s
  cases hrun : m s with
  | mk outcome s' =>
    rw [hrun] at hs
    cases outcome with
    | error fault =>
      obtain ⟨turns, hturns, hpasses⟩ := hs
      exact ⟨turns, hturns.append ds, hpasses⟩
    | ok v =>
      have hs' := hf v s'
      cases hrun' : f v s' with
      | mk outcome' s'' =>
        rw [hrun'] at hs'
        cases outcome' with
        | ok u =>
          have hpasses := hs.trans hs'
          rw [← granted_append] at hpasses
          simp only [hrun']
          exact hpasses
        | error fault =>
          obtain ⟨turns, hturns, hpasses⟩ := hs'
          simp only [hrun']
          exact ⟨_, hturns.behind cs, hs.trans hpasses⟩

variable (db)

theorem perform_passes (sql : String) (params : List Value) (s : Session σ) :
    db.Passes s [⟨.execute sql params, (db.execute sql params s.world).1.isOk⟩] [] []
      (db.perform sql params s).2 :=
  ⟨⟨rfl, rfl, rfl⟩, rfl, (List.append_nil _).symm⟩

/-- An act that is one call fails if the call is refused. -/
theorem makes_call {ε : Type} {m : Act σ α} {c : DatabaseCall} (answer : σ → Except ε α)
    (cause : ε → ExecutionError) (hm : ∀ s, (m s).1 = (answer s.world).mapError cause)
    (hpasses : ∀ s, db.Passes s [⟨c, (answer s.world).isOk⟩] [] [] (m s).2) : db.Makes m [c] := by
  intro s
  have hs := hm s
  have hp := hpasses s
  cases hrun : m s with
  | mk outcome s' =>
    rw [hrun] at hs hp
    cases hanswer : answer s.world with
    | ok v =>
      rw [hanswer] at hs hp
      obtain rfl : outcome = .ok v := hs
      exact hp
    | error reason =>
      rw [hanswer] at hs hp
      obtain rfl : outcome = .error (cause reason) := hs
      exact ⟨_, ⟨[], c, [], rfl, rfl⟩, hp⟩

theorem perform_makes (sql : String) (params : List Value) :
    db.Makes (db.perform sql params) [.execute sql params] :=
  db.makes_call (fun w => (db.execute sql params w).1) (.refused sql) (fun _ => rfl)
    (db.perform_passes sql params)

theorem ask_makes (sql : String) (params : List Value) :
    db.Makes (db.ask sql params) [.query sql params] :=
  db.makes_call (fun w => (db.query sql params w).1) (.refused sql) (fun _ => rfl)
    fun _ => ⟨⟨rfl, rfl, rfl⟩, rfl, (List.append_nil _).symm⟩

theorem insertAll_makes (insert : String) (vs : List Value) :
    db.Makes (db.insertAll insert vs) (vs.map fun v => .execute insert [v]) := by
  induction vs with
  | nil => exact .pure ()
  | cons v vs ih => exact (db.perform_makes insert [v]).bind fun _ => ih

theorem materialize_makes (create insert : String) (vs : List Value) :
    db.Makes (db.materialize create insert vs)
      (.execute create [] :: vs.map fun v => .execute insert [v]) :=
  (db.perform_makes create []).bind fun _ => db.insertAll_makes insert vs

theorem runDeletes_makes (sqls : List String) :
    db.Makes (db.runDeletes sqls) (sqls.map fun sql => .execute sql []) := by
  induction sqls with
  | nil => exact .pure ()
  | cons sql sqls ih => exact (db.perform_makes sql []).bind fun _ => ih

end Database

/-! ## 3. Temporary tables -/

/-- A temporary table of one column. -/
structure TemporaryTable where
  name : String
  column : String
  type : PropertyType
deriving DecidableEq, Repr

namespace TemporaryTable

variable (t : TemporaryTable) (d : Dialect)

def creation : DatabaseCall := .execute (d.createTemporary t.name t.column t.type) []

def insertion (v : Value) : DatabaseCall := .execute (d.insertTemporary t.name t.column) [v]

def removal : DatabaseCall := .execute (d.dropTemporary t.name) []

/-- The calls that create the table and insert values into it. -/
def filling (vs : List Value) : List DatabaseCall := t.creation d :: vs.map (t.insertion d)

end TemporaryTable

/-- The temporary table of a membership test. -/
def BulkTable.temporary (t : BulkTable) : TemporaryTable := ⟨t.name, t.column, t.type⟩

/-- The temporary table that collects the ids of a deletion. -/
def DropTarget.temporary (t : DropTarget) : TemporaryTable := ⟨t.idTable, idColumn, .integer⟩

namespace Plan

/-- The temporary tables that the statements of a plan join, statement by statement. -/
def bulkTables (p : Plan) : List BulkTable := p.statements.flatMap Statement.bulkTables

/-- All temporary tables of a plan. -/
def temporaryTables (p : Plan) : List TemporaryTable :=
  p.bulkTables.map BulkTable.temporary ++ (p.drop.getD []).map DropTarget.temporary

end Plan

namespace Database

variable {σ : Type} (db : Database σ) (d : Dialect)

/-- Each table is dropped, and whether that is granted does not matter. -/
theorem dropAll_passes (names : List String) (s : Session σ) :
    ∃ turns, turns.map Turn.call = names.map (fun n => .execute (d.dropTemporary n) []) ∧
      db.Passes s turns [] [] (db.dropAll d names s).2 := by
  induction names generalizing s with
  | nil => exact ⟨[], rfl, .refl s⟩
  | cons name names ih =>
    have hfirst := db.perform_passes (d.dropTemporary name) [] s
    obtain ⟨turns, hcalls, hrest⟩ := ih (db.perform (d.dropTemporary name) [] s).2
    refine ⟨_ :: turns, ?_, hfirst.trans hrest⟩
    rw [List.map_cons, hcalls]
    rfl

/-- Cleaning up drops the temporary tables of a session, and then there are none. -/
theorem cleanUp_takes (s : Session σ) :
    (∃ turns, turns.map Turn.call = s.temporaries.map (fun n => .execute (d.dropTemporary n) []) ∧
      db.Takes s turns (db.cleanUp d s)) ∧ (db.cleanUp d s).temporaries = [] := by
  obtain ⟨turns, hcalls, hpasses⟩ := db.dropAll_passes d s.temporaries { s with temporaries := [] }
  refine ⟨⟨turns, hcalls, ⟨hpasses.calls, hpasses.transcript, hpasses.world⟩⟩, ?_⟩
  exact hpasses.temporaries

end Database

end TraversalSql
