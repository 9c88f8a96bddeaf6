import Mathlib.Order.Bounds.Basic
import TraversalSql.Proofs.Assembly
import TraversalSql.Proofs.Transcripts

/-!
# Paths that share a beginning

Rows are handed out one by one, each without the elements it has in common with the full row before
it. Whoever rebuilds the paths knows only what was handed out. Both keep a path in mind, the one
that was read last and the one that was rebuilt last, and the proofs rest on these two being the
same. That takes records that do not change between two rows: an element is left out because its
record was seen at the same place, and comes back as it was seen there.
-/

set_option autoImplicit false

namespace TraversalSql

/-! ## 1. Agreement of two paths -/

/-- The paths come by the same records at their first `n` places. -/
def AgreeTo (n : Nat) (a b : List Element) : Prop :=
  ∀ i < n, ∃ e f, a[i]? = some e ∧ b[i]? = some f ∧ e.sameVisit f = true

/-- How many places that is at most. -/
def agreement (a b : List Element) : Nat :=
  ((a.zip b).takeWhile fun (e, f) => e.sameVisit f).length

variable {n : Nat} {a b : List Element} {e f : Element}

theorem agreeTo_zero (a b : List Element) : AgreeTo 0 a b := by
  intro i hi
  cases hi

theorem agreeTo_succ_cons :
    AgreeTo (n + 1) (e :: a) (f :: b) ↔ e.sameVisit f = true ∧ AgreeTo n a b := by
  constructor
  · intro h
    refine ⟨?_, fun i hi => h (i + 1) (Nat.succ_lt_succ hi)⟩
    obtain ⟨e', f', he, hf, hsame⟩ := h 0 (Nat.succ_pos n)
    cases he
    cases hf
    exact hsame
  · rintro ⟨hsame, h⟩ i hi
    cases i with
    | zero => exact ⟨e, f, rfl, rfl, hsame⟩
    | succ i => exact h i (Nat.lt_of_succ_lt_succ hi)

/-- The paths agree as far as the agreement goes, and no further. -/
theorem agreeTo_iff_le_agreement : AgreeTo n a b ↔ n ≤ agreement a b := by
  induction a generalizing b n with
  | nil =>
    cases n with
    | zero => exact iff_of_true (agreeTo_zero _ _) (Nat.zero_le _)
    | succ n =>
      exact iff_of_false (fun h => by simpa using h 0 (Nat.succ_pos n)) (by simp [agreement])
  | cons e a ih =>
    cases n with
    | zero => exact iff_of_true (agreeTo_zero _ _) (Nat.zero_le _)
    | succ n =>
      cases b with
      | nil =>
        exact iff_of_false (fun h => by simpa using h 0 (Nat.succ_pos n)) (by simp [agreement])
      | cons f b =>
        rw [agreeTo_succ_cons, ih]
        cases hsame : e.sameVisit f <;> simp [agreement, hsame]

theorem isGreatest_agreement (a b : List Element) :
    IsGreatest {n | AgreeTo n a b} (agreement a b) :=
  ⟨agreeTo_iff_le_agreement.mpr (Nat.le_refl _), fun _ hn => agreeTo_iff_le_agreement.mp hn⟩

/-- Where a record at one place is always the same element, paths that agree begin alike. -/
theorem AgreeTo.take_eq (h : AgreeTo n a b)
    (hsame : ∀ e ∈ a, ∀ f ∈ b, e.sameVisit f = true → e = f) : a.take n = b.take n := by
  apply List.ext_getElem?
  intro i
  by_cases hi : i < n
  · obtain ⟨e, f, he, hf, hef⟩ := h i hi
    obtain rfl := hsame e (List.mem_of_getElem? he) f (List.mem_of_getElem? hf) hef
    rw [List.getElem?_take_of_lt hi, List.getElem?_take_of_lt hi, he, hf]
  · rw [List.getElem?_take_eq_none (Nat.le_of_not_lt hi),
      List.getElem?_take_eq_none (Nat.le_of_not_lt hi)]

theorem AgreeTo.le_length (h : AgreeTo n a b) : n ≤ a.length := by
  cases n with
  | zero => exact Nat.zero_le _
  | succ n =>
    obtain ⟨e, _, he, _⟩ := h n (Nat.lt_succ_self n)
    exact (List.getElem?_eq_some_iff.mp he).1

/-! ## 2. One row -/

namespace PathRow

variable {previous : List Element} {row : PathRow}

theorem sharedWith_eq (previous : List Element) (row : PathRow) :
    row.sharedWith previous
      = min (agreement previous row.fragments) (row.fragments.length - 1) := by
  rw [sharedWith, ← List.take_takeWhile, List.length_take, Nat.min_comm]
  rfl

/-- What is handed out of a full row, after the full row `previous`. -/
structure IsShortened (previous : List Element) (row out : PathRow) : Prop where
  phase : out.phase = row.phase
  sortKey : out.sortKey = row.sortKey
  /-- What is left out is what the two have in common, except that the last element stays. -/
  shared : ∃ k, IsGreatest {n | AgreeTo n previous row.fragments} k ∧
    out.sharedPrefix = min k (row.fragments.length - 1)
  fragments : out.fragments = row.fragments.drop out.sharedPrefix
  terminal : out.terminal? = row.terminal?
  nonempty : out.fragments ≠ []

theorem isShortened_share (previous : List Element) (hne : row.fragments ≠ []) :
    IsShortened previous row (row.share previous) := by
  have hlt : row.sharedWith previous < row.fragments.length := by
    have hpos := List.length_pos_iff.mpr hne
    rw [sharedWith_eq]
    omega
  refine ⟨rfl, rfl, ⟨_, isGreatest_agreement _ _, sharedWith_eq previous row⟩, rfl, ?_, ?_⟩
  · simp only [terminal?, share, List.getLast?_drop, if_neg (Nat.not_le.mpr hlt)]
  · exact List.ne_nil_of_length_pos (by simp only [share, List.length_drop]; omega)

/-- A row is rebuilt from what was handed out of it and the full row before it. -/
theorem rebuild_share
    (hsame : ∀ e ∈ previous, ∀ f ∈ row.fragments, e.sameVisit f = true → e = f) :
    (row.share previous).rebuild previous = .ok row.fragments := by
  have hagree : AgreeTo (row.sharedWith previous) previous row.fragments := by
    rw [agreeTo_iff_le_agreement, sharedWith_eq]
    exact Nat.min_le_left _ _
  have hle : (row.share previous).sharedPrefix ≤ previous.length := hagree.le_length
  rw [rebuild, if_pos hle]
  simp only [share, hagree.take_eq hsame, List.take_append_drop]

end PathRow

/-! ## 3. A sequence of rows -/

variable {previous : List Element} {rows : List PathRow}

/-- The full row in front of a place, if there is one. -/
def fullBefore (previous : List Element) (rows : List PathRow) : Nat → List Element
  | 0 => previous
  | i + 1 => (rows[i]?.map PathRow.fragments).getD []

theorem length_handedOut (previous : List Element) (rows : List PathRow) :
    (handedOut previous rows).length = rows.length := by
  induction rows generalizing previous with
  | nil => rfl
  | cons row rows ih => rw [handedOut, List.length_cons, List.length_cons, ih]

/-- At every place stands what is handed out after the full row in front of it. -/
theorem getElem?_handedOut (previous : List Element) (rows : List PathRow) (i : Nat) :
    (handedOut previous rows)[i]? = rows[i]?.map (PathRow.share (fullBefore previous rows i)) := by
  induction rows generalizing previous i with
  | nil => rfl
  | cons row rows ih =>
    cases i with
    | zero => rfl
    | succ i =>
      rw [handedOut, List.getElem?_cons_succ, List.getElem?_cons_succ, ih]
      cases i <;> rfl

/-- Every record is one element, at every place of the paths at which it comes up. -/
def OneState (paths : List (List Element)) : Prop :=
  ∀ p ∈ paths, ∀ q ∈ paths, ∀ e ∈ p, ∀ f ∈ q, e.sameVisit f = true → e = f

/-- The path in mind is always the one that was rebuilt last. -/
theorem rebuildPaths_handedOut (h : OneState (previous :: rows.map PathRow.fragments)) :
    rebuildPaths previous (handedOut previous rows) = .ok (rows.map PathRow.fragments) := by
  induction rows generalizing previous with
  | nil => rfl
  | cons row rows ih =>
    have hrow : (row.share previous).rebuild previous = .ok row.fragments :=
      PathRow.rebuild_share
        (h _ List.mem_cons_self _ (List.mem_cons_of_mem _ List.mem_cons_self))
    have hrest : OneState (row.fragments :: rows.map PathRow.fragments) := fun p hp q hq =>
      h p (List.mem_cons_of_mem _ hp) q (List.mem_cons_of_mem _ hq)
    simp only [handedOut, rebuildPaths, hrow, ih hrest, bind, Except.bind, pure, Except.pure,
      List.map_cons]

/-! ## 4. A run of a plan -/

namespace Assembler

variable {σ : Type} (a : Assembler σ)

/-- The full rows of a run, in the order in which they are handed out. -/
def fullRows : Act σ (List PathRow) := do
  let (pending, buffer) ← a.start
  return buffer ++ (← a.drain pending)

theorem rowsFrom_eq (pending : List Execution) (buffer : List PathRow) (previous : List Element)
    (s : Session σ) :
    a.rowsFrom previous s pending buffer
      = ((a.drain pending s).1.map fun rows => handedOut previous (buffer ++ rows),
        a.close (a.drain pending s).2) := by
  induction pending generalizing buffer previous s with
  | nil =>
    induction buffer generalizing previous with
    | nil =>
      rw [rowsFrom]
      rfl
    | cons row buffer ih =>
      rw [rowsFrom, ih]
      rfl
  | cons e pending ihp =>
    induction buffer generalizing previous with
    | nil =>
      rw [rowsFrom, drain, Act.bind_apply]
      cases hrun : a.run e s with
      | mk outcome s' =>
        cases outcome with
        | error fault => rfl
        | ok rows =>
          simp only [ihp, Act.bind_apply]
          cases hdrain : a.drain pending s' with
          | mk outcome s'' => cases outcome <;> rfl
    | cons row buffer ih =>
      rw [rowsFrom, ih]
      cases hdrain : a.drain (e :: pending) s with
      | mk outcome s' => cases outcome <;> rfl

/-- All rows that a run hands out are its full rows, each without what it shares. -/
theorem allRows_eq (s : Session σ) :
    a.allRows s = ((a.fullRows s).1.map (handedOut []), a.close (a.fullRows s).2) := by
  simp only [allRows, fullRows, Act.bind_apply]
  cases hstart : a.start s with
  | mk outcome s' =>
    cases outcome with
    | error fault => rfl
    | ok x =>
      simp only [rowsFrom_eq]
      cases hdrain : a.drain x.1 s' with
      | mk outcome s'' => cases outcome <;> rfl

/-- A run under way that comes to its end hands out its buffer, and then what it reads. -/
theorem items_of_drain {pending : List Execution} {s : Session σ} {rows : List PathRow}
    (h : (a.drain pending s).1 = .ok rows) (n : Nat) (buffer : List PathRow)
    (previous : List Element) :
    a.items n (.running pending buffer previous) s
      = ((handedOut previous (buffer ++ rows)).map .ok).take n := by
  induction n generalizing pending buffer previous s rows with
  | zero => rfl
  | succ n ih =>
    -- a request runs statements until one has a row
    induction pending generalizing buffer s rows with
    | nil =>
      cases buffer with
      | nil =>
        cases h
        rw [items_end]
        rfl
      | cons row buffer =>
        rw [items_row, ih h]
        rfl
    | cons e pending ihp =>
      cases buffer with
      | cons row buffer =>
        rw [items_row, ih h]
        rfl
      | nil =>
        rw [drain, Act.bind_apply] at h
        rw [items_run]
        cases hrun : a.run e s with
        | mk outcome s' =>
          rw [hrun] at h
          cases outcome with
          | error fault => cases h
          | ok first =>
            simp only [Act.bind_apply] at h
            cases hdrain : a.drain pending s' with
            | mk outcome s'' =>
              rw [hdrain] at h
              cases outcome with
              | error fault => cases h
              | ok rest =>
                cases h
                exact ihp (by rw [hdrain]) first

/-- A run that comes to its end hands out its full rows, each without what it shares. -/
theorem items_of_fullRows {s : Session σ} {rows : List PathRow}
    (h : (a.fullRows s).1 = .ok rows) (n : Nat) :
    a.items n .fresh s = ((handedOut [] rows).map .ok).take n := by
  cases n with
  | zero => rfl
  | succ n =>
    rw [items_fresh]
    rw [fullRows, Act.bind_apply] at h
    cases hstart : a.start s with
    | mk outcome s' =>
      rw [hstart] at h
      cases outcome with
      | error fault => cases h
      | ok x =>
        simp only [Act.bind_apply] at h
        cases hdrain : a.drain x.1 s' with
        | mk outcome s'' =>
          rw [hdrain] at h
          cases outcome with
          | error fault => cases h
          | ok rest =>
            cases h
            exact a.items_of_drain (by rw [hdrain]) (n + 1) x.2 []

end Assembler

/-! ## 5. The whole way -/

/-- **Paths that share a beginning are restored.** Full rows that are handed out one by one are
rebuilt as they were, in order, if none is empty and every record is one element. Each keeps its
last element, and what is left out of it is what it has in common with the full row before it. The
rows that a run reads to its end are handed out so, however many are asked for. -/
theorem PathRow.shared_prefixes_restored {rows : List PathRow}
    (hne : ∀ row ∈ rows, row.fragments ≠ []) (hstate : OneState (rows.map PathRow.fragments)) :
    rebuildPaths [] (handedOut [] rows) = .ok (rows.map PathRow.fragments) ∧
    (handedOut [] rows).length = rows.length ∧
    (∀ i row, rows[i]? = some row → ∃ out, (handedOut [] rows)[i]? = some out ∧
      IsShortened (fullBefore [] rows i) row out) ∧
    ∀ {σ : Type} (a : Assembler σ) (s : Session σ), (a.fullRows s).1 = .ok rows →
      (∀ n, a.items n .fresh s = ((handedOut [] rows).map .ok).take n) ∧
      (a.allRows s).1 = .ok (handedOut [] rows) ∧
      (a.paths s).1 = .ok (rows.map PathRow.fragments) := by
  have hrebuild : rebuildPaths [] (handedOut [] rows) = .ok (rows.map PathRow.fragments) := by
    refine rebuildPaths_handedOut ?_
    intro p hp q hq e he f hf
    rcases List.mem_cons.mp hp with rfl | hp
    · cases he
    · rcases List.mem_cons.mp hq with rfl | hq
      · cases hf
      · exact hstate p hp q hq e he f hf
  refine ⟨hrebuild, length_handedOut [] rows, ?_, ?_⟩
  · intro i row hrow
    refine ⟨row.share (fullBefore [] rows i), ?_,
      isShortened_share _ (hne row (List.mem_of_getElem? hrow))⟩
    rw [getElem?_handedOut, hrow]
    rfl
  · intro σ a s hread
    have hall : (a.allRows s).1 = .ok (handedOut [] rows) := by
      rw [a.allRows_eq, hread]
      rfl
    refine ⟨a.items_of_fullRows hread, hall, ?_⟩
    show (a.allRows s).1.bind (rebuildPaths []) = _
    rw [hall]
    exact hrebuild

namespace People

/-- Everyone, under a name, and then whomever they know. -/
def knownTo : Traversal where
  steps := [⟨.graph .vertex [], SortedSet.ofList ["knower"]⟩,
    .plain (.move (.follow .outgoing [] .vertex))]

/-- A database in which the first person knows two people and the second one knows a third. -/
def acquainted : Database Nat where
  query _ _ calls :=
    (.ok ⟨["alias1", "alias3"], [[.int 1, .int 1], [.int 1, .int 2], [.int 2, .int 3]]⟩, calls + 1)
  execute _ _ calls := (.ok (), calls + 1)

def someone (id : Int64) : Element := ⟨⟨person, id⟩, ∅, SortedSet.ofList ["knower"], 0, none, none⟩

def acquaintance (id : Int64) : Element := ⟨⟨person, id⟩, ∅, ∅, 1, none, none⟩

/-- Elements of a path that are handed out, behind some that are not. -/
def pathRow (shared : Nat) (elements : List Element) : PathRow := ⟨.regular, shared, elements, []⟩

/-- The full rows, from the first plan. -/
def readFullPaths : Option (List PathRow) := do
  let plans ← ((knownTo.fuse ({} : Settings).fusion).plans {} topology).toOption
  let plan ← plans.head?
  ((⟨acquainted, plan, true, none⟩ : Assembler Nat).fullRows { world := 0 }).1.toOption

def fullPaths : List PathRow :=
  [pathRow 0 [someone 1, acquaintance 1], pathRow 0 [someone 1, acquaintance 2],
    pathRow 0 [someone 2, acquaintance 3]]

theorem readFullPaths_eq : readFullPaths = some fullPaths := by decide +kernel

/-- The first person is left out of the second path, and comes back. -/
theorem acquaintances_restored : ∃ plans plan,
    (knownTo.fuse ({} : Settings).fusion).plans {} topology = .ok plans ∧
    plans.head? = some plan ∧
    ((⟨acquainted, plan, true, none⟩ : Assembler Nat).allRows { world := 0 }).1
      = .ok [pathRow 0 [someone 1, acquaintance 1], pathRow 1 [acquaintance 2],
        pathRow 0 [someone 2, acquaintance 3]] ∧
    ((⟨acquainted, plan, true, none⟩ : Assembler Nat).paths { world := 0 }).1
      = .ok [[someone 1, acquaintance 1], [someone 1, acquaintance 2],
        [someone 2, acquaintance 3]] := by
  have hread := readFullPaths_eq
  simp only [readFullPaths, Option.bind_eq_bind, Option.bind_eq_some_iff] at hread
  obtain ⟨plans, hplans, plan, hplan, hrows⟩ := hread
  have hne : ∀ row ∈ fullPaths, row.fragments ≠ [] := by decide
  have hstate : OneState (fullPaths.map PathRow.fragments) := by
    unfold OneState
    decide +kernel
  obtain ⟨-, -, -, hrun⟩ := PathRow.shared_prefixes_restored hne hstate
  obtain ⟨-, hall, hpaths⟩ := hrun _ _ (eq_ok_of_toOption hrows)
  exact ⟨plans, plan, eq_ok_of_toOption hplans, hplan, hall, hpaths⟩

end People

end TraversalSql
