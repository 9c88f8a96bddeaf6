import TraversalSql.Proofs.Readiness

/-!
# Temporary tables are dropped, or not

A temporary table that a run has created should be dropped by the time the run is over, whatever
the database answers. The run drops the tables that it has filled, and a table whose filling is
refused midway is created but not filled: nobody drops it. `Assembler.conversation_releases` says
that this is the only way for a table to be left behind, and `Crew.names_left` that it is one.
-/

set_option autoImplicit false

namespace TraversalSql

/-! ## 1. Tables that are created -/

/-- Behind the creation of a temporary table it is dropped, or it could not be filled. -/
def Releases (d : Dialect) (turns : List Turn) : Prop :=
  ∀ t : TemporaryTable, t.Unmarked d → ∀ before rest,
    turns = before ++ ⟨t.creation d, true⟩ :: rest →
      (∃ g, ⟨t.removal d, g⟩ ∈ rest) ∨ ∃ v, ⟨t.insertion d v, false⟩ ∈ rest

namespace Releases

variable {d : Dialect} {xs ys : List Turn}

/-- What is created in a list of turns may be dropped, or refused, in a list behind it. -/
theorem append_of_later (hlater : ∀ t : TemporaryTable, t.Unmarked d →
      ⟨t.creation d, true⟩ ∈ xs →
        (∃ g, ⟨t.removal d, g⟩ ∈ ys) ∨ ∃ v, ⟨t.insertion d v, false⟩ ∈ ys)
    (h : Releases d ys) : Releases d (xs ++ ys) := by
  intro t ht before rest hsplit
  rcases append_eq_append_cons hsplit with ⟨between, hxs, rfl⟩ | ⟨between, _, hys⟩
  · refine (hlater t ht (by rw [hxs]; simp)).imp ?_ ?_
    · exact fun ⟨g, hg⟩ => ⟨g, List.mem_append_right _ hg⟩
    · exact fun ⟨v, hv⟩ => ⟨v, List.mem_append_right _ hv⟩
  · exact h t ht between rest hys

theorem append (h : Releases d xs) (h' : Releases d ys) : Releases d (xs ++ ys) := by
  intro t ht before rest hsplit
  rcases append_eq_append_cons hsplit with ⟨between, hxs, rfl⟩ | ⟨between, _, hys⟩
  · refine (h t ht before between hxs).imp ?_ ?_
    · exact fun ⟨g, hg⟩ => ⟨g, List.mem_append_left _ hg⟩
    · exact fun ⟨v, hv⟩ => ⟨v, List.mem_append_left _ hv⟩
  · exact h' t ht between rest hys

/-- Nothing is created. -/
theorem of_notMem (h : ∀ t : TemporaryTable, ⟨t.creation d, true⟩ ∉ xs) : Releases d xs := by
  intro t _ before rest hsplit
  exact absurd (by rw [hsplit]; simp) (h t)

end Releases

section

variable {d : Dialect}

/-- The table that is created while a table is filled is that table. -/
theorem TemporaryTable.Unmarked.eq_of_creation_mem {t u : TemporaryTable} (ht : t.Unmarked d)
    (hu : u.Unmarked d) {vs : List Value} (h : t.creation d ∈ u.filling d vs) :
    u.removal d = t.removal d ∧ ∀ v, u.insertion d v = t.insertion d v := by
  rcases (u.mem_filling d vs).mp h with h | ⟨v, _, h⟩
  · obtain ⟨hname, hcolumn⟩ := ht.creation_inj hu h
    unfold removal insertion
    rw [hname, hcolumn]
    exact ⟨rfl, fun _ => rfl⟩
  · exact absurd h.symm creation_ne_insertion

/-- A table that is refused midway is not filled. -/
theorem Interrupts.releases {u : TemporaryTable} (hu : u.Unmarked d) {vs : List Value}
    {turns : List Turn} (h : Interrupts (u.filling d vs) turns) : Releases d turns := by
  obtain ⟨done, c, after, hcalls, rfl⟩ := h
  refine .append_of_later ?_ (.of_notMem fun t ht => by simp at ht)
  intro t ht hmem
  have hdone : t.creation d ∈ done := (mem_granted.mp hmem).1
  obtain ⟨_, hinsertion⟩ := ht.eq_of_creation_mem hu (hcalls ▸ List.mem_append_left _ hdone)
  cases done with
  | nil => cases hdone
  | cons first done =>
    -- what is refused behind the creation is an insertion
    obtain ⟨_, hrest⟩ := List.cons.inj hcalls
    have hc : c ∈ vs.map (u.insertion d) := by
      rw [hrest]
      exact List.mem_append_right _ List.mem_cons_self
    obtain ⟨v, _, rfl⟩ := List.mem_map.mp hc
    exact Or.inr ⟨v, List.mem_singleton.mpr (by rw [hinsertion])⟩

theorem DropTarget.Cleared.releases {u : DropTarget} {turns : List Turn}
    (h : u.Cleared d turns) : Releases d turns := by
  obtain ⟨ids, deletions, answer, hbegins, rfl⟩ := h
  rw [List.append_assoc]
  refine .append_of_later ?_ (.of_notMem ?_)
  · intro t ht hmem
    obtain ⟨hremoval, _⟩ := ht.eq_of_creation_mem (u.unmarked d) (mem_granted.mp hmem).1
    exact Or.inl ⟨answer, by rw [← hremoval]; simp⟩
  · intro t ht
    rcases List.mem_append.mp ht with ht | ht
    · exact u.notMem_deletions d (by simp) (hbegins.subset (List.mem_map_of_mem ht))
    · exact TemporaryTable.creation_ne_removal (congrArg Turn.call (List.mem_singleton.mp ht))

theorem Clearings.releases {ts : List DropTarget} {turns : List Turn} (h : Clearings d ts turns) :
    Releases d turns := by
  induction h with
  | none ts => exact .of_notMem fun t ht => absurd ht List.not_mem_nil
  | skip _ ih => exact ih
  | clear hfirst _ ih => exact hfirst.releases.append ih
  | @refused t _ _ _ hturns => exact hturns.releases (t.unmarked d)

theorem Database.Stub.releases {deeds : List Deed} {stub : List Turn}
    (h : Database.Stub d deeds stub) : Releases d stub := by
  rcases h with rfl | ⟨deed, _, _, hturns⟩
  · exact .of_notMem fun t ht => absurd ht List.not_mem_nil
  · cases deed with
    | start _ => exact .of_notMem fun t ht => absurd (hturns.mem_calls _ ht) List.not_mem_nil
    | fill t => exact hturns.releases (t.unmarked d)
    | ask sql params =>
      refine .of_notMem ?_
      intro t ht
      cases List.mem_singleton.mp (hturns.mem_calls _ ht)

/-- What was created on a course was filled. -/
theorem fill_of_creation_mem {deeds : List Deed} {t : TemporaryTable} (ht : t.Unmarked d)
    (h : t.creation d ∈ callsOf d deeds) :
    ∃ u ∈ filledBy deeds, u.temporary.removal d = t.removal d := by
  obtain ⟨deed, hdeed, hcall⟩ := mem_callsOf.mp h
  cases deed with
  | start _ => cases hcall
  | ask sql params => cases List.mem_singleton.mp hcall
  | fill u => exact ⟨u, mem_filledBy.mpr hdeed, (ht.eq_of_creation_mem (u.unmarked d) hcall).1⟩

end

/-! ## 2. Conversations -/

namespace Assembler

variable {σ : Type} (a : Assembler σ) (w : σ) (n : Nat)

/-- In every conversation a table that is created is dropped later, or it could not be filled. -/
theorem releases_conversation : Releases a.plan.dialect (a.conversation w n) := by
  obtain ⟨heard, filled, drops, hheard, hdrops, hconversation⟩ := a.conversation_heard w n
  have hnone : Releases a.plan.dialect drops := by
    refine .of_notMem ?_
    intro t ht
    obtain ⟨u, _, hu⟩ := List.mem_map.mp (hdrops ▸ List.mem_map_of_mem ht)
    exact TemporaryTable.creation_ne_removal hu.symm
  have hcourse : ∀ deeds, filled = filledBy deeds → ∀ t : TemporaryTable,
      t.Unmarked a.plan.dialect →
      ⟨t.creation a.plan.dialect, true⟩ ∈ granted (callsOf a.plan.dialect deeds) →
        ∃ g, ⟨t.removal a.plan.dialect, g⟩ ∈ drops := by
    rintro deeds rfl t ht hmem
    obtain ⟨u, hu, hremoval⟩ := fill_of_creation_mem ht (mem_granted.mp hmem).1
    have hcall : u.temporary.removal a.plan.dialect ∈ drops.map Turn.call := by
      rw [hdrops]
      exact List.mem_map_of_mem hu
    obtain ⟨turn, hturn, hcall⟩ := List.mem_map.mp hcall
    exact ⟨turn.granted, by rw [← hremoval, ← hcall]; exact hturn⟩
  rw [hconversation]
  cases hheard with
  | @reading done rest stub hsplit hstub =>
    rw [List.append_assoc]
    refine .append_of_later ?_ (hstub.releases.append hnone)
    intro t ht hmem
    obtain ⟨g, hg⟩ := hcourse done rfl t ht hmem
    exact Or.inl ⟨g, List.mem_append_right _ hg⟩
  | @deleting turns hturns =>
    rw [List.append_assoc]
    refine .append_of_later ?_ (hturns.releases.append hnone)
    intro t ht hmem
    obtain ⟨g, hg⟩ := hcourse a.course rfl t ht hmem
    exact Or.inl ⟨g, List.mem_append_right _ hg⟩

end Assembler

/-! ## 3. Tables that are left -/

section

variable {d : Dialect} {t : TemporaryTable} {v : Value} {g : Bool}

/-- A value is inserted into the table that is being filled. -/
theorem TemporaryTable.Unmarked.name_eq_of_insertion_mem {u : TemporaryTable} (ht : t.Unmarked d)
    (hu : u.Unmarked d) {vs : List Value} (h : t.insertion d v ∈ u.filling d vs) :
    u.name = t.name := by
  rcases (u.mem_filling d vs).mp h with h | ⟨v', _, h⟩
  · exact absurd h.symm creation_ne_insertion
  · exact hu.insertion_inj ht h

namespace Database.Stub

variable {deeds : List Deed} {stub : List Turn}

theorem fill_of_refused (h : Stub d deeds stub) (ht : t.Unmarked d)
    (hmem : ⟨t.insertion d v, false⟩ ∈ stub) :
    ∃ u after, deeds = .fill u :: after ∧ u.temporary.name = t.name := by
  rcases h with rfl | ⟨deed, after, rfl, hturns⟩
  · cases hmem
  · have hcall := hturns.mem_calls _ hmem
    cases deed with
    | start _ => cases hcall
    | ask sql params => cases List.mem_singleton.mp hcall
    | fill u => exact ⟨u, after, rfl, ht.name_eq_of_insertion_mem (u.unmarked d) hcall⟩

theorem removal_notMem (h : Stub d deeds stub) : ⟨t.removal d, g⟩ ∉ stub := by
  intro hmem
  exact removal_notMem_callsOf t ((stub_begins h).subset (List.mem_map_of_mem hmem))

end Database.Stub

/-- Where a deletion clears its table, no insertion was refused. -/
theorem DropTarget.Cleared.refused_notMem {u : DropTarget} {turns : List Turn}
    (h : u.Cleared d turns) : ⟨t.insertion d v, false⟩ ∉ turns := by
  obtain ⟨ids, deletions, answer, hbegins, rfl⟩ := h
  intro hmem
  simp only [List.mem_append, List.mem_singleton] at hmem
  rcases hmem with (hmem | hmem) | hmem
  · cases (mem_granted.mp hmem).2
  · exact u.notMem_deletions d (by simp) (hbegins.subset (List.mem_map_of_mem hmem))
  · exact TemporaryTable.insertion_ne_removal (congrArg Turn.call hmem)

/-- The table that a deletion drops is the one of its ids. -/
theorem DropTarget.Cleared.name_of_removal {u : DropTarget} {turns : List Turn}
    (h : u.Cleared d turns) (ht : t.Unmarked d) (hmem : ⟨t.removal d, g⟩ ∈ turns) :
    u.temporary.name = t.name := by
  obtain ⟨ids, deletions, answer, hbegins, rfl⟩ := h
  simp only [List.mem_append, List.mem_singleton] at hmem
  rcases hmem with (hmem | hmem) | hmem
  · exact absurd (mem_granted.mp hmem).1 (u.temporary.removal_notMem_filling t d ids)
  · exact absurd (hbegins.subset (List.mem_map_of_mem hmem)) (u.notMem_deletions d (by simp))
  · exact ((u.unmarked d).removal_inj ht (congrArg Turn.call hmem).symm)

namespace Clearings

variable {ts : List DropTarget} {turns : List Turn}

theorem target_of_refused (h : Clearings d ts turns) (ht : t.Unmarked d)
    (hmem : ⟨t.insertion d v, false⟩ ∈ turns) : ∃ u ∈ ts, u.temporary.name = t.name := by
  induction h with
  | none ts => cases hmem
  | skip _ ih =>
    obtain ⟨u, hu, hname⟩ := ih hmem
    exact ⟨u, List.mem_cons_of_mem _ hu, hname⟩
  | clear hfirst _ ih =>
    have hlater := (List.mem_append.mp hmem).resolve_left hfirst.refused_notMem
    obtain ⟨u, hu, hname⟩ := ih hlater
    exact ⟨u, List.mem_cons_of_mem _ hu, hname⟩
  | @refused u _ _ _ hturns =>
    exact ⟨u, List.mem_cons_self,
      ht.name_eq_of_insertion_mem (u.unmarked d) (hturns.mem_calls _ hmem)⟩

/-- Of deletions with tables of different names, none drops a table that could not be filled. -/
theorem removal_notMem (h : Clearings d ts turns)
    (hnames : (ts.map (TemporaryTable.name ∘ DropTarget.temporary)).Nodup) (ht : t.Unmarked d)
    (hrefused : ⟨t.insertion d v, false⟩ ∈ turns) : ⟨t.removal d, g⟩ ∉ turns := by
  induction h with
  | none ts => cases hrefused
  | skip _ ih => exact ih (List.nodup_cons.mp hnames).2 hrefused
  | clear hfirst hrest ih =>
    obtain ⟨hnotMem, hnames⟩ := List.nodup_cons.mp hnames
    have hlater := (List.mem_append.mp hrefused).resolve_left hfirst.refused_notMem
    intro hmem
    rcases List.mem_append.mp hmem with hmem | hmem
    · obtain ⟨u, hu, hname⟩ := hrest.target_of_refused ht hlater
      have hsame := hname.trans (hfirst.name_of_removal ht hmem).symm
      exact hnotMem (List.mem_map.mpr ⟨u, hu, hsame⟩)
    · exact ih hnames hlater hmem
  | @refused u _ ids _ hturns =>
    exact fun hmem =>
      absurd (hturns.mem_calls _ hmem) (u.temporary.removal_notMem_filling t d ids)

end Clearings

end

namespace Assembler

variable {σ : Type} (a : Assembler σ) (w : σ) (n : Nat)

/-- Where the temporary tables of a plan have different names, one that could not be filled is not
dropped. -/
theorem removal_notMem_conversation
    (hnames : (a.plan.temporaryTables.map TemporaryTable.name).Nodup) {t : TemporaryTable}
    (ht : t.Unmarked a.plan.dialect) {v : Value}
    (hrefused : ⟨t.insertion a.plan.dialect v, false⟩ ∈ a.conversation w n) (g : Bool) :
    ⟨t.removal a.plan.dialect, g⟩ ∉ a.conversation w n := by
  obtain ⟨heard, filled, drops, hheard, hdrops, hconversation⟩ := a.conversation_heard w n
  have hrefusedDrop : ⟨t.insertion a.plan.dialect v, false⟩ ∉ drops := by
    intro hmem
    obtain ⟨u, _, hu⟩ := List.mem_map.mp (hdrops ▸ List.mem_map_of_mem hmem)
    exact TemporaryTable.insertion_ne_removal hu.symm
  have hdropped : ⟨t.removal a.plan.dialect, g⟩ ∈ drops →
      ∃ u ∈ filled, u.temporary.name = t.name := by
    intro hmem
    obtain ⟨u, hu, hremoval⟩ := List.mem_map.mp (hdrops ▸ List.mem_map_of_mem hmem)
    exact ⟨u, hu, (u.unmarked _).removal_inj ht hremoval⟩
  rw [Plan.temporaryTables, List.map_append, List.map_map, List.map_map, List.nodup_append'] at hnames
  obtain ⟨hbulk, hdrop, hdisjoint⟩ := hnames
  rw [hconversation] at hrefused ⊢
  have hheardRefused := (List.mem_append.mp hrefused).resolve_right hrefusedDrop
  intro hmem
  cases hheard with
  | @reading done rest stub hsplit hstub =>
    have hstubRefused := (List.mem_append.mp hheardRefused).resolve_left fun h =>
      Bool.false_ne_true (mem_granted.mp h).2
    obtain ⟨u, after, rfl, hname⟩ := hstub.fill_of_refused ht hstubRefused
    obtain ⟨u', hu', hname'⟩ : ∃ u' ∈ filledBy done, u'.temporary.name = t.name := by
      refine hdropped ((List.mem_append.mp hmem).resolve_left fun h => ?_)
      rcases List.mem_append.mp h with h | h
      · exact removal_notMem_callsOf t (mem_granted.mp h).1
      · exact hstub.removal_notMem h
    -- both tables are filled on the course, one before the other
    have hcourse := hbulk.sublist ((filledBy_course a).map _)
    rw [hsplit, filledBy_append, List.map_append, List.nodup_append'] at hcourse
    refine hcourse.2.2 (List.mem_map_of_mem hu') ?_
    exact List.mem_map.mpr ⟨u, List.mem_cons_self, hname.trans hname'.symm⟩
  | @deleting turns hturns =>
    have hturnsRefused := (List.mem_append.mp hheardRefused).resolve_left fun h =>
      Bool.false_ne_true (mem_granted.mp h).2
    rcases List.mem_append.mp hmem with hmem | hmem
    · rcases List.mem_append.mp hmem with hmem | hmem
      · exact removal_notMem_callsOf t (mem_granted.mp hmem).1
      · exact hturns.removal_notMem hdrop ht hturnsRefused hmem
    · obtain ⟨u, hu, hname⟩ := hdropped hmem
      obtain ⟨u', hu', hname'⟩ := hturns.target_of_refused ht hturnsRefused
      refine hdisjoint (List.mem_map_of_mem ((filledBy_course a).subset hu)) ?_
      exact List.mem_map.mpr ⟨u', hu', hname'.trans hname.symm⟩

/-- **Which temporary tables are dropped.** In every conversation with a database, whatever it
answers and however many rows are asked for, a temporary table that is created is dropped later, or
an insertion into it is refused. In the plan of a run it is one or the other: a table is left behind
exactly if it could not be filled. -/
theorem conversation_releases {t : TemporaryTable} (ht : t ∈ a.plan.temporaryTables)
    {before rest : List Turn}
    (h : a.conversation w n = before ++ ⟨t.creation a.plan.dialect, true⟩ :: rest) :
    ((∃ g, ⟨t.removal a.plan.dialect, g⟩ ∈ rest) ∨
      ∃ v, ⟨t.insertion a.plan.dialect v, false⟩ ∈ rest) ∧
    (∀ settings T numbering run, Run.plan settings T numbering run = .ok a.plan →
      ((∃ g, ⟨t.removal a.plan.dialect, g⟩ ∈ rest) ↔
        ¬ ∃ v, ⟨t.insertion a.plan.dialect v, false⟩ ∈ rest)) := by
  have hunmarked := Plan.unmarked_of_mem ht a.plan.dialect
  have heither := a.releases_conversation w n t hunmarked before rest h
  refine ⟨heither, ?_⟩
  intro settings T numbering run hplan
  constructor
  · rintro ⟨g, hremoval⟩ ⟨v, hrefused⟩
    have hmem : ∀ turn ∈ rest, turn ∈ a.conversation w n := fun turn hturn => by
      rw [h]
      exact List.mem_append_right _ (List.mem_cons_of_mem _ hturn)
    exact a.removal_notMem_conversation w n (Run.plan_names_nodup hplan) hunmarked
      (hmem _ hrefused) g (hmem _ hremoval)
  · exact heither.resolve_right

end Assembler

/-! ## 4. A name that is refused -/

namespace Crew

/-- What the database hears in any case when the table of the names is filled. -/
def filling : List Turn :=
  [⟨names.temporary.creation .sqlite, true⟩, ⟨names.temporary.insertion .sqlite (.string "ann"), true⟩]

theorem named_tables : (named.plan oneName people {}).toOption.map (fun plan =>
      (plan.dialect, plan.temporaryTables, (runOf plan (.string "bob")).conversation () 1,
        ((runOf plan .null).conversation () 1).take 2,
        ((runOf plan .null).conversation () 1).all Turn.granted))
    = some (.sqlite, [names.temporary],
        filling ++ [⟨names.temporary.insertion .sqlite (.string "bob"), false⟩], filling, true) := by
  decide +kernel

/-- A table is created, a name is refused, and nobody drops the table. -/
theorem names_left : ∃ plan before rest, named.plan oneName people {} = .ok plan ∧
    plan.dialect = .sqlite ∧ names.temporary ∈ plan.temporaryTables ∧
    (runOf plan (.string "bob")).conversation () 1
      = before ++ ⟨names.temporary.creation .sqlite, true⟩ :: rest ∧
    ∀ g, ⟨names.temporary.removal .sqlite, g⟩ ∉ rest := by
  obtain ⟨plan, hplan, hfacts⟩ := Option.map_eq_some_iff.mp named_tables
  simp only [Prod.mk.injEq] at hfacts
  obtain ⟨hdialect, htables, hrefused, _⟩ := hfacts
  refine ⟨plan, [], _, eq_ok_of_toOption hplan, hdialect, ?_, hrefused, ?_⟩
  · rw [htables]
    exact List.mem_singleton_self _
  · intro g hmem
    rcases List.mem_cons.mp hmem with h | hmem
    · exact TemporaryTable.insertion_ne_removal (congrArg Turn.call h).symm
    · exact TemporaryTable.insertion_ne_removal (congrArg Turn.call (List.mem_singleton.mp hmem)).symm

/-- Where no name is refused the table is dropped. -/
theorem names_dropped : ∃ plan before rest, named.plan oneName people {} = .ok plan ∧
    names.temporary ∈ plan.temporaryTables ∧
    (runOf plan .null).conversation () 1
      = before ++ ⟨names.temporary.creation plan.dialect, true⟩ :: rest ∧
    ∃ g, ⟨names.temporary.removal plan.dialect, g⟩ ∈ rest := by
  obtain ⟨plan, hplan, hfacts⟩ := Option.map_eq_some_iff.mp named_tables
  simp only [Prod.mk.injEq] at hfacts
  obtain ⟨hdialect, htables, _, hbegin, hgranted⟩ := hfacts
  have hok := eq_ok_of_toOption hplan
  have hmem : names.temporary ∈ plan.temporaryTables := htables ▸ List.mem_singleton_self _
  have hsplit : (runOf plan .null).conversation () 1
      = [] ++ ⟨names.temporary.creation plan.dialect, true⟩ ::
        (⟨names.temporary.insertion .sqlite (.string "ann"), true⟩
          :: ((runOf plan .null).conversation () 1).drop 2) := by
    conv_lhs => rw [← List.take_append_drop 2 ((runOf plan .null).conversation () 1), hbegin]
    rw [hdialect]
    rfl
  refine ⟨plan, [], _, hok, hmem, hsplit, ?_⟩
  refine (((runOf plan .null).conversation_releases () 1 hmem hsplit).2 _ _ _ _ hok).mpr ?_
  rintro ⟨v, hrefused⟩
  have hall := List.all_eq_true.mp hgranted
  rw [hsplit] at hall
  exact Bool.false_ne_true (hall _ (List.mem_cons_of_mem _ hrefused))

end Crew

end TraversalSql
