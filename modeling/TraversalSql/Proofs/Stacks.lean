import TraversalSql.Proofs.Chains

/-!
# The statement of a stack

From a path to its statement: which nodes are read where a silent root is left out, which columns
the rows have, and how the statements of a plan come from the stacks of its trees. The result is
`Composer.IsStatement`, a description of the statement by the nodes of its stack, and
`Run.statement_of_plan`, by which every statement of every plan meets it.
-/

set_option autoImplicit false

namespace TraversalSql

open QueryTree

namespace Composer

variable {c : Composer} {T : Topology} {hops : List Hop} {id : Nat} {nodes active : List Nat}
  {outputs : List NodeColumn} {root : Option RootCondition} {w : Workspace} {stack : PathStack}

/-! ## 1. The root -/

/-- The nodes of a path that are read, and the comparison with the root id. What is not read shows
nothing, and the path does not end there. -/
structure IsRooted (c : Composer) (T : Topology) (nodes : List Nat) (root : Option RootCondition)
    (active : List Nat) : Prop where
  route : c.IsRoute T root active
  suffix : active <:+ nodes
  skipped : ∀ id ∈ nodes, id ∉ active →
    (c.tree.nodeAt id).isSilent = true ∧ nodes.getLast? ≠ some id
  bound : c.tree.binding.isBound = true → ∃ r, root = some r ∧ r.node ∈ active
  free : c.tree.binding.isBound = false → root = none

/-- A silent node is a vertex, so the key is a column of the edge below it. -/
theorem Sound.hasKey_below_silent (hs : c.Sound T hops) {a b : Nat} (hb : c.tree.Live b)
    (hp : c.tree.parent? b = some a) (hsilent : (c.tree.nodeAt a).isSilent = true) :
    ∃ k, (c.tree.nodeAt b).joinKey = some k ∧ T.HasKey (c.tableAt b) k := by
  obtain ⟨k, hk, ⟨hkey, _⟩ | ⟨hkey, _⟩⟩ := hs.tie hb hp
  · exact ⟨k, hk, hkey⟩
  · have hvertex : (c.tableAt a).isVertex = true := by
      simp only [QueryNode.isSilent, Bool.and_eq_true] at hsilent
      exact hsilent.1.1.1.1.1.1
    rw [Table.isVertex, hkey.edgeKind hs.consistent] at hvertex
    cases hvertex

theorem Sound.rootCondition_eq (hs : c.Sound T hops) (hd : c.tree.GoesDown nodes)
    (hne : nodes ≠ []) :
    ∃ root active, c.rootCondition nodes = .ok (root, active) ∧
      c.IsRooted T nodes root active := by
  obtain ⟨top, below, rfl⟩ := List.exists_cons_of_ne_nil hne
  have htop := hd.live top List.mem_cons_self
  have hall : ∀ id ∈ top :: below, id ∉ top :: below →
      (c.tree.nodeAt id).isSilent = true ∧ (top :: below).getLast? ≠ some id :=
    fun id hid hnot => absurd hid hnot
  simp only [rootCondition, node_eq htop]
  cases hbound : c.tree.binding.isBound with
  | false =>
    refine ⟨none, top :: below, rfl, ⟨hd, hne, nofun⟩, List.suffix_refl _, hall, ?_, fun _ => rfl⟩
    intro h
    rw [hbound] at h
    cases h
  | true =>
    have hunbound : c.tree.binding.isBound = false →
        ∀ root : Option RootCondition, root = none := by
      intro h
      rw [hbound] at h
      cases h
    have hkept : c.IsRooted T (top :: below) (some ⟨top, .id⟩) (top :: below) := by
      refine ⟨⟨hd, hne, ?_⟩, List.suffix_refl _, hall, fun _ => ⟨_, rfl, List.mem_cons_self⟩,
        fun h => hunbound h _⟩
      intro r hr _
      cases hr
      exact ⟨htop, hs.known htop⟩
    simp only [if_true, bind, Except.bind]
    split
    · rename_i first rest hsilent
      have hp : c.tree.parent? first = some top := hd.parent_head rfl
      have hfirst := hd.live first (List.mem_cons_of_mem _ List.mem_cons_self)
      obtain ⟨k, hk, hkey⟩ := hs.hasKey_below_silent hfirst hp hsilent
      simp only [node_eq hfirst, hk]
      refine ⟨_, _, rfl, ⟨hd.part (List.suffix_cons _ _).isInfix, List.cons_ne_nil _ _, ?_⟩,
        List.suffix_cons _ _, ?_, fun _ => ⟨_, rfl, List.mem_cons_self⟩, fun h => hunbound h _⟩
      · intro r hr _
        cases hr
        exact ⟨hfirst, hkey⟩
      · intro id hid hnot
        rcases List.mem_cons.mp hid with rfl | hid
        · refine ⟨hsilent, ?_⟩
          rw [List.getLast?_cons_cons]
          exact fun hlast => hnot (List.mem_of_getLast? hlast)
        · exact absurd hid hnot
    · exact ⟨_, _, rfl, hkept⟩

theorem IsRooted.mem (h : c.IsRooted T nodes root active) (hid : id ∈ nodes)
    (hshows : (c.tree.nodeAt id).isSilent = false ∨ nodes.getLast? = some id) : id ∈ active := by
  by_contra hnot
  obtain ⟨hsilent, hlast⟩ := h.skipped id hid hnot
  rcases hshows with h | h
  · rw [hsilent] at h
    cases h
  · exact hlast h

/-! ## 2. The columns of a row -/

theorem path_eq (h : ∀ id ∈ nodes, c.tree.Live id) :
    c.path nodes = .ok (nodes.map fun id => (id, c.tree.nodeAt id)) := by
  refine mapM_ok fun id hid => ?_
  rw [node_eq (h id hid)]
  rfl

/-- The nodes of a path whose elements are part of a row. -/
def shownAt (c : Composer) (nodes : List Nat) : List Nat :=
  nodes.filter fun id => some id == nodes.getLast? || !(c.tree.nodeAt id).labels.isEmpty

theorem projected_eq (c : Composer) (nodes : List Nat) :
    projected nodes.getLast? (nodes.map fun id => (id, c.tree.nodeAt id))
      = (c.shownAt nodes).map fun id => (id, c.tree.nodeAt id) := by
  rw [projected, shownAt, List.filter_map]
  rfl

theorem mem_shownAt : id ∈ c.shownAt nodes ↔
    id ∈ nodes ∧ (nodes.getLast? = some id ∨ (c.tree.nodeAt id).labels.isEmpty = false) := by
  simp only [shownAt, List.mem_filter, Bool.or_eq_true, beq_iff_eq, Bool.not_eq_true',
    eq_comm (a := some id)]

theorem not_isSilent_of_labels {n : QueryNode} (h : n.labels.isEmpty = false) :
    n.isSilent = false := by
  simp [QueryNode.isSilent, h]

theorem Sound.has_elementColumn (hs : c.Sound T hops) (hid : c.tree.Live id) {col : Column}
    (hcol : col ∈ (c.tree.nodeAt id).elementColumns) : c.Has T (id, col) := by
  have hfits := hs.fits.node hid.node
  refine ⟨hid, ?_⟩
  simp only [QueryNode.elementColumns, List.mem_append, List.mem_cons, List.mem_map] at hcol
  rcases hcol with (rfl | ⟨p, hp, rfl⟩) | hcol
  · exact hs.known hid
  · exact ⟨_, hfits.properties, SortedMap.contains_iff.mpr (SortedMap.mem_keys_iff.mp hp)⟩
  · split at hcol
    · obtain ⟨k, hk, rfl⟩ := List.mem_map.mp hcol
      exact hfits.keys k hk
    · cases hcol

theorem sortColumn_select {path : List (Nat × QueryNode)} {n : QueryNode} {spec : SortSpec}
    {label : String} {property : Option String} (hkey : spec.key = .select label property) :
    sortColumn? path id n spec = match path.find? fun x => x.2.hasUserLabel label with
      | none => .error (.unknownLabel label)
      | some x => .ok (property.elim (some (x.1, .id)) (property? x.1 x.2)) := by
  rw [sortColumn?, hkey]
  dsimp only
  split
  · rename_i hnone
    have hnone : path.find? (fun x => x.2.hasUserLabel label) = none := hnone
    rw [hnone]
  · rename_i target m hsome
    have hsome : path.find? (fun x => x.2.hasUserLabel label) = some (target, m) := hsome
    rw [hsome]
    cases property <;> rfl

/-- What a sort key denotes is a column of a node that shows something, or the key is refused. -/
theorem Sound.sortColumn_spec (hs : c.Sound T hops) (hlive : ∀ id ∈ nodes, c.tree.Live id)
    (hid : id ∈ nodes) {spec : SortSpec} (hspec : spec ∈ (c.tree.nodeAt id).order) :
    match sortColumn? (nodes.map fun id => (id, c.tree.nodeAt id)) id (c.tree.nodeAt id) spec with
    | .ok found => ∀ x, found = some x → x.1 ∈ nodes ∧ (c.tree.nodeAt x.1).isSilent = false ∧
        c.Has T x
    | .error e => c.Refuses e := by
  have hshows : (c.tree.nodeAt id).isSilent = false := by
    have hne : (c.tree.nodeAt id).order.isEmpty = false := by
      rw [List.isEmpty_eq_false_iff]
      exact List.ne_nil_of_mem hspec
    simp [QueryNode.isSilent, hne]
  have hproperty : ∀ {i : Nat} {name : String} {x : NodeColumn}, i ∈ nodes →
      (c.tree.nodeAt i).isSilent = false → property? i (c.tree.nodeAt i) name = some x →
      x.1 ∈ nodes ∧ (c.tree.nodeAt x.1).isSilent = false ∧ c.Has T x := by
    intro i name x hi hsilent hx
    unfold property? at hx
    split at hx
    · rename_i hname
      cases hx
      exact ⟨hi, hsilent, hlive i hi, _, (hs.fits.node (hlive i hi).node).properties, hname⟩
    · cases hx
  have hidColumn : ∀ {i : Nat}, i ∈ nodes → (c.tree.nodeAt i).isSilent = false →
      ∀ x, some (i, Column.id) = some x → x.1 ∈ nodes ∧ (c.tree.nodeAt x.1).isSilent = false ∧
        c.Has T x := by
    intro i hi hsilent x hx
    cases hx
    exact ⟨hi, hsilent, hlive i hi, hs.known (hlive i hi)⟩
  cases hkey : spec.key with
  | id =>
    simp only [sortColumn?, hkey]
    exact hidColumn hid hshows
  | property name =>
    simp only [sortColumn?, hkey]
    exact fun x => hproperty hid hshows
  | aggregate a =>
    simp only [sortColumn?, hkey]
    exact .sortKey (hlive id hid) hspec (by rw [hkey]; rfl)
  | lambda l =>
    simp only [sortColumn?, hkey]
    exact .sortKey (hlive id hid) hspec (by rw [hkey]; rfl)
  | select label property =>
    rw [sortColumn_select hkey]
    cases hfind : (nodes.map fun id => (id, c.tree.nodeAt id)).find?
        fun x => x.2.hasUserLabel label with
    | none => exact .label (hlive id hid) hspec hkey
    | some found =>
      have hlabel := List.find?_some hfind
      obtain ⟨i, hi, rfl⟩ := List.mem_map.mp (List.mem_of_find?_eq_some hfind)
      have hsilent : (c.tree.nodeAt i).isSilent = false := by
        refine not_isSilent_of_labels ?_
        obtain ⟨l, hl, _⟩ := List.any_eq_true.mp hlabel
        exact List.isEmpty_eq_false_iff.mpr (List.ne_nil_of_mem hl)
      cases property with
      | none => exact hidColumn hi hsilent
      | some name => exact fun x => hproperty hi hsilent

/-- The columns that rows are sorted by belong to nodes that show something. -/
theorem Sound.sortColumns_spec (hs : c.Sound T hops) (hlive : ∀ id ∈ nodes, c.tree.Live id) :
    match sortColumns (nodes.map fun id => (id, c.tree.nodeAt id)) with
    | .ok sort => ∀ x ∈ sort, x.1.1 ∈ nodes ∧ (c.tree.nodeAt x.1.1).isSilent = false ∧
        c.Has T x.1
    | .error e => c.Refuses e := by
  simp only [sortColumns, bind, Except.bind]
  split
  · rename_i sort hsort
    split at hsort
    · cases hsort
    · rename_i columns hcolumns
      cases hsort
      intro x hx
      obtain ⟨col, hcol, rfl⟩ := List.mem_filterMap.mp hx
      obtain ⟨cols, hcols, hcol⟩ := List.mem_flatten.mp hcol
      obtain ⟨⟨id, n⟩, hmem, hnode⟩ := exists_of_mem_right (forall₂_of_mapM hcolumns) hcols
      obtain ⟨i, hi, heq⟩ := List.mem_map.mp (List.mem_reverse.mp hmem)
      cases heq
      obtain ⟨spec, hspec, hone⟩ := exists_of_mem_right (forall₂_of_mapM hnode) hcol
      have hkey := hs.sortColumn_spec hlive hi hspec
      split at hone
      · cases hone
      · rename_i found hfound
        rw [hfound] at hkey
        obtain ⟨y, rfl, rfl⟩ := Option.map_eq_some_iff.mp (Except.ok.inj hone)
        exact hkey y rfl
  · rename_i e he
    split at he
    · rename_i e' hcolumns
      cases he
      obtain ⟨⟨id, n⟩, hmem, hnode⟩ := mapM_error hcolumns
      obtain ⟨i, hi, heq⟩ := List.mem_map.mp (List.mem_reverse.mp hmem)
      cases heq
      obtain ⟨spec, hspec, hone⟩ := mapM_error hnode
      have hkey := hs.sortColumn_spec hlive hi hspec
      split at hone
      · rename_i e'' hfound
        cases hone
        rw [hfound] at hkey
        exact hkey
      · cases hone
    · cases he

/-- The columns of the elements of a row. -/
def elementsAt (c : Composer) (nodes : List Nat) : List NodeColumn :=
  (c.shownAt nodes).flatMap fun id =>
    (c.tree.nodeAt id).elementColumns.map fun column => (id, column)

theorem mem_elementsAt {x : NodeColumn} : x ∈ c.elementsAt nodes ↔
    x.1 ∈ c.shownAt nodes ∧ x.2 ∈ (c.tree.nodeAt x.1).elementColumns := by
  simp only [elementsAt, List.mem_flatMap, List.mem_map]
  constructor
  · rintro ⟨id, hid, col, hcol, rfl⟩
    exact ⟨hid, hcol⟩
  · rintro ⟨hid, hcol⟩
    exact ⟨x.1, hid, x.2, hcol, rfl⟩

theorem mem_extended {x : NodeColumn} : ∀ {more outputs : List NodeColumn},
    x ∈ extended outputs more ↔ x ∈ outputs ∨ x ∈ more := by
  intro more
  unfold extended
  induction more with
  | nil => simp
  | cons y more ih =>
    intro outputs
    rw [List.foldl_cons, ih]
    split
    · rename_i hy
      constructor
      · exact fun h => h.imp id (List.mem_cons_of_mem _)
      · rintro (h | h)
        · exact Or.inl h
        · rcases List.mem_cons.mp h with rfl | h
          · exact Or.inl hy
          · exact Or.inr h
    · rw [List.mem_append, List.mem_singleton, List.mem_cons, or_assoc]

end Composer

/-- The numbers of all sub-selects, in the order in which they were named. -/
def Select.numbers (s : Select) : List Nat :=
  s.body.numbers ++ s.absences.flatMap AbsentBranch.numbers

namespace Composer

variable {c : Composer} {T : Topology} {hops : List Hop} {id : Nat} {nodes active : List Nat}
  {outputs : List NodeColumn} {root : Option RootCondition} {w : Workspace} {stack : PathStack}

/-! ## 3. Statements -/

/-- The stack is a path of the tree from the root on, with branches below its end. -/
structure IsStack (c : Composer) (stack : PathStack) : Prop where
  down : c.tree.GoesDown stack.nodes
  top : stack.nodes.head? = some QueryTree.root
  branches : ∀ b ∈ stack.branches, ∀ id, stack.terminal? = some id →
    c.tree.GoesDown (id :: b) ∧ b ≠ []

/-- What a select is made of: it reads the path of a stack as far as the root condition says, its
rows have the elements of the path and the columns they are sorted by, and the branches of the
stack must come back empty. -/
structure IsSelect (c : Composer) (T : Topology) (stack : PathStack) (root : Option RootCondition)
    (active : List Nat) (outputs : List NodeColumn) (sort : List (NodeColumn × SortDirection))
    (s : Select) : Prop where
  rooted : c.IsRooted T stack.nodes root active
  projects : ∀ x, x ∈ outputs ↔ x ∈ c.elementsAt stack.nodes ∨ x ∈ sort.map Prod.fst
  body : c.IsPath T root active outputs s.body
  absences : ∀ b ∈ s.absences, c.IsJoinedTo T s.body b
  orderBy : s.orderBy = sort.map fun x => (c.keyAt x.1, x.2)
  numbers : s.numbers = List.range' 1 s.numbers.length

theorem Sound.has_outputs (hs : c.Sound T hops) (hd : c.tree.GoesDown nodes)
    (hroot : c.IsRooted T nodes root active) {sort : List (NodeColumn × SortDirection)}
    (hsort : ∀ x ∈ sort, x.1.1 ∈ nodes ∧ (c.tree.nodeAt x.1.1).isSilent = false ∧ c.Has T x.1) :
    ∀ x ∈ extended (c.elementsAt nodes) (sort.map Prod.fst), x.1 ∈ active ∧ c.Has T x := by
  intro x hx
  rcases mem_extended.mp hx with hx | hx
  · obtain ⟨hid, hcol⟩ := mem_elementsAt.mp hx
    obtain ⟨hid, hshown⟩ := mem_shownAt.mp hid
    refine ⟨hroot.mem hid ?_, hs.has_elementColumn (hd.live _ hid) hcol⟩
    exact hshown.symm.imp not_isSilent_of_labels id
  · obtain ⟨y, hy, rfl⟩ := List.mem_map.mp hx
    obtain ⟨hid, hsilent, hhas⟩ := hsort y hy
    exact ⟨hroot.mem hid (Or.inl hsilent), hhas⟩

theorem IsRooted.getLast (h : c.IsRooted T nodes root active) (hlast : nodes.getLast? = some id) :
    id ∈ active :=
  h.mem (List.mem_of_getLast? hlast) (Or.inr hlast)

/-- The select of a stack, composed in an empty workspace. It has branches for an optional part
only. -/
theorem Sound.stackSelect_meets (hs : c.Sound T hops) (hst : c.IsStack stack) (bulkTables : Nat) :
    Meets c.Refuses (c.stackSelect stack) { bulkTables := bulkTables } fun r _ =>
      r.2 = (c.shownAt stack.nodes).map (fun id => (c.tree.nodeAt id).fragmentKey) ∧
        ∃ root active outputs sort, c.rootCondition stack.nodes = .ok (root, active) ∧
          (stack.phase ≠ .optional → r.1.absences = []) ∧
          c.IsSelect T stack root active outputs sort r.1 := by
  have hne : stack.nodes ≠ [] := by
    intro hnil
    have htop := hst.top
    rw [hnil] at htop
    cases htop
  obtain ⟨root, active, hcondition, hrooted⟩ := hs.rootCondition_eq hst.down hne
  obtain ⟨_, last, _, hlast⟩ := exists_ends hne
  obtain ⟨segments, hsegments, hcut⟩ := segments_eq hrooted.route.down.live
  have hterminal : stack.terminal? = stack.nodes.getLast? := rfl
  have helements : ((c.shownAt stack.nodes).map fun id => (id, c.tree.nodeAt id)).flatMap
      (fun x => x.2.elementColumns.map fun column => (x.1, column))
        = c.elementsAt stack.nodes := List.flatMap_map ..
  simp only [stackSelect, hcondition, path_eq hst.down.live, hterminal, projected_eq, helements,
    hsegments, meets_bind, meets_ok]
  have hsort := hs.sortColumns_spec hst.down.live
  cases hcolumns : sortColumns (stack.nodes.map fun id => (id, c.tree.nodeAt id)) with
  | error e =>
    rw [hcolumns] at hsort
    exact hsort
  | ok sort =>
    rw [hcolumns] at hsort
    have houtputs := hs.has_outputs hst.down hrooted hsort
    have hkeys : c.keys (sort.map Prod.fst) = .ok ((sort.map Prod.fst).map c.keyAt) := by
      refine keys_eq fun x hx => ?_
      obtain ⟨y, hy, rfl⟩ := List.mem_map.mp hx
      exact (hsort y hy).2.2.1
    rw [meets_ok]
    refine (wantAll_meets fun x hx => (houtputs x hx).2).mono ?_
    rintro _ w₁ ⟨hg₁, hwanted⟩
    have hvalid : ∀ x ∈ w₁.wanted, c.Has T x := hg₁.all_valid (List.forall_mem_nil _)
    -- whatever the phase: from the body and its branches to the select
    have hselect : ∀ {body : PathSelect} {absences : List AbsentBranch} {w' : Workspace},
        c.IsPath T root active (extended (c.elementsAt stack.nodes) (sort.map Prod.fst)) body →
        (∀ b ∈ absences, c.IsJoinedTo T body b) →
        w₁.Goes (c.Has T) (body.numbers ++ absences.flatMap AbsentBranch.numbers) w' →
        c.IsSelect T stack root active (extended (c.elementsAt stack.nodes) (sort.map Prod.fst))
          sort ⟨body, absences, ((sort.map Prod.fst).map c.keyAt).zip (sort.map Prod.snd),
            none⟩ := by
      intro body absences w' hbody habsences hg₂
      refine ⟨hrooted, fun x => mem_extended, hbody, habsences, ?_, ?_⟩
      · rw [List.map_map, List.zip_map']
        rfl
      · have hnamed := hg₂.named
        rw [hg₁.counted] at hnamed
        exact hnamed
    split
    · rename_i hoptional
      simp only [hkeys, meets_bind, meets_ok, meets_pure]
      refine (hs.optional_meets hrooted.route hcut hlast (hrooted.getLast hlast)
        (fun b hb => hst.branches b hb last hlast) hvalid
        fun x hx => ⟨(houtputs x hx).1, hwanted x hx⟩).mono ?_
      intro r w₂ hr
      obtain ⟨hbody, habsences, hg₂⟩ := hr
      exact ⟨List.map_map .., _, _, _, _, rfl, fun h => absurd hoptional h,
        hselect hbody habsences hg₂⟩
    · simp only [hkeys, meets_bind, meets_ok, meets_pure]
      refine (hs.segmented_meets hrooted.route hcut hvalid houtputs fun _ => hwanted).mono ?_
      intro body w₂ hr
      obtain ⟨hbody, hg₂⟩ := hr
      rw [← List.append_nil body.numbers] at hg₂
      exact ⟨List.map_map .., _, _, _, _, rfl, fun _ => trivial,
        hselect hbody (List.forall_mem_nil _) hg₂⟩

/-- What a statement is made of. -/
structure IsStatement (c : Composer) (T : Topology) (stack : PathStack)
    (root : Option RootCondition) (active : List Nat) (outputs : List NodeColumn)
    (sort : List (NodeColumn × SortDirection)) (s : Statement) : Prop where
  select : c.IsSelect T stack root active outputs sort s.select
  fragments : s.fragments
    = (c.shownAt stack.nodes).map fun id => (c.tree.nodeAt id).fragmentKey
  dialect : s.dialect = c.settings.dialect
  rootBinding : s.rootBinding = c.tree.binding

theorem Sound.statement_meets (hs : c.Sound T hops) (hst : c.IsStack stack) (bulkTables : Nat)
    (strip : Bool) :
    Meets c.Refuses (c.statement stack strip) { bulkTables := bulkTables } fun s _ =>
      ∃ root active outputs sort, c.IsStatement T stack root active outputs sort s := by
  simp only [statement, node_eq hs.wellFormed.rootLive, meets_bind, meets_ok, meets_pure]
  refine (hs.stackSelect_meets hst bulkTables).mono ?_
  intro r w' hr
  obtain ⟨hfragments, root, active, outputs, sort, _, _, hselect⟩ := hr
  refine ⟨root, active, outputs, sort, ?_, hfragments, rfl, rfl⟩
  -- the slice is the only part of the select that is set afterwards
  exact ⟨hselect.rooted, hselect.projects, hselect.body, hselect.absences, hselect.orderBy,
    hselect.numbers⟩

end Composer

variable {T : Topology} {hops : List Hop} {t : QueryTree} {settings : Settings}
  {stack : PathStack} {s : Statement} {e : SqlError}

/-- The stacks of a tree are stacks. -/
theorem QueryTree.WellFormed.isStack (hw : t.WellFormed) (settings : Settings) (phase : Phase)
    {id : Nat} (hid : t.Live id) :
    (⟨t, settings⟩ : Composer).IsStack (t.stack phase id) := by
  obtain ⟨hdown, htop, hlast⟩ := hw.path_goesDown hid
  refine ⟨hdown, htop, ?_⟩
  intro b hb last hterminal
  obtain rfl : id = last := Option.some.inj (hlast.symm.trans hterminal)
  cases phase with
  | optional => exact hw.branch_goesDown hid hb
  | regular => cases hb
  | emit => cases hb

/-- **The statement of a stack.** It is refused for a filter or a sort key only, and otherwise it is
what its stack says. -/
theorem QueryTree.statement_spec (hs : (⟨t, settings⟩ : Composer).Sound T hops)
    (hst : (⟨t, settings⟩ : Composer).IsStack stack) (bulkTables : Nat) (strip : Bool) :
    match t.statement settings bulkTables stack strip with
    | .ok s => ∃ root active outputs sort,
        (⟨t, settings⟩ : Composer).IsStatement T stack root active outputs sort s
    | .error e => (⟨t, settings⟩ : Composer).Refuses e := by
  obtain ⟨rest, hnodes⟩ := List.head?_eq_some_iff.mp hst.top
  have hmeets := hs.statement_meets hst bulkTables strip
  simp only [QueryTree.statement, hnodes, bne_self_eq_false, Bool.false_eq_true, if_false, bind,
    Except.bind, pure, Except.pure]
  cases hrun : (Composer.statement ⟨t, settings⟩ stack strip).run { bulkTables := bulkTables } with
  | error e => exact hmeets.of_error hrun
  | ok r => exact hmeets.of_run hrun

/-! ## 4. Plans -/

/-- Each stack that is found is one of its tree. -/
theorem mem_stacksOf {trees : List QueryTree} {queue : List (QueryTree × PathStack)}
    (hqueue : stacksOf trees = .ok queue) {x : QueryTree × PathStack} (hx : x ∈ queue) :
    x.1 ∈ trees ∧ ∃ phase id, id ∈ x.1.ends phase ∧ x.2 = x.1.stack phase id := by
  obtain ⟨found, hfound, hqueue⟩ := bind_ok hqueue
  cases hqueue
  obtain ⟨l, hl, hx⟩ := List.mem_flatten.mp hx
  obtain ⟨parts, hparts, rfl⟩ := List.mem_map.mp hl
  obtain ⟨phase, _, hphase⟩ := exists_of_mem_right (forall₂_of_mapM hfound) hparts
  obtain ⟨part, hpart, hx⟩ := List.mem_flatten.mp hx
  obtain ⟨t, ht, hstacks⟩ := exists_of_mem_right (forall₂_of_mapM hphase) hpart
  obtain ⟨listed, hlisted, hstacks⟩ := bind_ok hstacks
  cases hstacks
  obtain ⟨stack, hstack, rfl⟩ := List.mem_map.mp hx
  rw [pathStacks_ok hlisted] at hstack
  split at hstack
  · cases hstack
  · obtain ⟨id, hid, rfl⟩ := List.mem_map.mp hstack
    exact ⟨ht, phase, id, hid, rfl⟩

/-- The stacks of well-formed trees are found. -/
theorem exists_stacksOf {trees : List QueryTree} (hw : ∀ t ∈ trees, t.WellFormed) :
    ∃ queue, stacksOf trees = .ok queue := by
  let found (phase : Phase) (t : QueryTree) : List (QueryTree × PathStack) :=
    (if t.unsatisfiable then [] else (t.ends phase).map (t.stack phase)).map fun stack => (t, stack)
  have hfound : ∀ phase ∈ Phase.all, trees.mapM (fun t =>
      return (← t.pathStacks phase).map fun stack => (t, stack))
        = .ok (trees.map (found phase)) := by
    intro phase _
    refine mapM_ok fun t ht => ?_
    rw [pathStacks_eq (hw t ht)]
    rfl
  exact ⟨_, by rw [stacksOf, mapM_ok hfound]; rfl⟩

/-- Statement by statement, a queue of stacks is worked off. -/
theorem statementsOf_spec {strip : Bool} : ∀ {queue : List (QueryTree × PathStack)}
    {bulkTables : Nat} {r : Except SqlError (List Statement)},
    statementsOf settings strip bulkTables queue = r →
    match r with
    | .ok ss => List.Forall₂ (fun x s => ∃ b, x.1.statement settings b x.2 strip = .ok s) queue ss
    | .error e => ∃ x ∈ queue, ∃ b, x.1.statement settings b x.2 strip = .error e := by
  intro queue
  induction queue with
  | nil =>
    intro bulkTables r hr
    subst hr
    exact .nil
  | cons x queue ih =>
    intro bulkTables r hr
    subst hr
    obtain ⟨t, stack⟩ := x
    simp only [statementsOf, bind, Except.bind, pure, Except.pure]
    cases hs : t.statement settings bulkTables stack strip with
    | error e => exact ⟨_, List.mem_cons_self, bulkTables, hs⟩
    | ok s =>
      simp only
      cases hss : statementsOf settings strip (bulkTables + s.bulkTables.length) queue with
      | error e =>
        obtain ⟨x, hx, b, herror⟩ := ih hss
        exact ⟨x, List.mem_cons_of_mem _ hx, b, herror⟩
      | ok ss => exact .cons ⟨bulkTables, hs⟩ (ih hss)

namespace Run

variable {run : Run} {n : Numbering} {plan : Plan}

/-- A plan, taken apart. -/
theorem plan_ok (hok : run.plan settings T n = .ok plan) :
    ∃ trees queue strip, run.trees settings T = .ok trees ∧ stacksOf trees = .ok queue ∧
      List.Forall₂ (fun x s => ∃ b, x.1.statement settings b x.2 strip = .ok s) queue
        plan.statements := by
  obtain ⟨trees, htrees, hok⟩ := bind_ok hok
  obtain ⟨queue, hqueue, hok⟩ := bind_ok hok
  obtain ⟨ss, hss, hok⟩ := bind_ok hok
  cases hok
  exact ⟨trees, queue, _, mapError_ok htrees, mapError_ok hqueue, statementsOf_spec hss⟩

/-- Why there is no plan: a run without trees, or a stack without a statement. -/
theorem plan_error (hc : T.Consistent) (herror : run.plan settings T n = .error e) :
    (∃ e', run.trees settings T = .error e' ∧ e = .tree e') ∨
    ∃ trees queue, run.trees settings T = .ok trees ∧ stacksOf trees = .ok queue ∧
      ∃ x ∈ queue, ∃ b strip, x.1.statement settings b x.2 strip = .error e := by
  simp only [Run.plan, bind, Except.bind] at herror
  cases htrees : run.trees settings T with
  | error e' =>
    rw [htrees] at herror
    cases herror
    exact Or.inl ⟨e', rfl, rfl⟩
  | ok trees =>
    obtain ⟨queue, hqueue⟩ := exists_stacksOf fun t ht => (trees_fit hc htrees ht).1
    simp only [htrees, Except.mapError, hqueue] at herror
    split at herror
    · rename_i e' hss
      cases herror
      obtain ⟨x, hx, b, herror⟩ := statementsOf_spec hss
      exact Or.inr ⟨trees, queue, rfl, hqueue, x, hx, b, _, herror⟩
    · cases herror

/-- The composer of a tree of a run is sound. -/
theorem sound_of_trees (hc : T.Consistent) {trees : List QueryTree}
    (htrees : run.trees settings T = .ok trees) (ht : t ∈ trees) :
    (⟨t, settings⟩ : Composer).Sound T run.hops := by
  obtain ⟨hw, hf⟩ := trees_fit hc htrees ht
  exact ⟨hc, hw, hf⟩

/-- **Statements of a plan.** The `i`-th statement is that of the `i`-th stack. -/
theorem statement_of_plan (hc : T.Consistent) (hok : run.plan settings T n = .ok plan) {i : Nat}
    (hi : plan.statements[i]? = some s) :
    ∃ trees queue t phase id root active outputs sort, run.trees settings T = .ok trees ∧
      stacksOf trees = .ok queue ∧ queue[i]? = some (t, t.stack phase id) ∧ t ∈ trees ∧
      id ∈ t.ends phase ∧ (⟨t, settings⟩ : Composer).Sound T run.hops ∧
      (⟨t, settings⟩ : Composer).IsStatement T (t.stack phase id) root active outputs sort s := by
  obtain ⟨trees, queue, strip, htrees, hqueue, hall⟩ := plan_ok hok
  obtain ⟨⟨t, stack⟩, hx, b, hstatement⟩ := getElem?_of_forall₂ hall hi
  obtain ⟨ht, phase, id, hid, heq⟩ := mem_stacksOf hqueue (List.mem_of_getElem? hx)
  obtain rfl : stack = t.stack phase id := heq
  have hsound := sound_of_trees hc htrees ht
  have hstack := hsound.wellFormed.isStack settings phase (live_of_mem_ends hid)
  have hspec := statement_spec hsound hstack b strip
  rw [hstatement] at hspec
  obtain ⟨root, active, outputs, sort, hs⟩ := hspec
  exact ⟨trees, queue, t, phase, id, root, active, outputs, sort, htrees, hqueue, hx, ht, hid,
    hsound, hs⟩

end Run

end TraversalSql
