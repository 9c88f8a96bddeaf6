import TraversalSql.Proofs.Executions
import TraversalSql.Proofs.LiteralTrees

/-!
# Literals never reach the text of a statement

Trees that are alike have statements that are alike: the same selects, with conditions that differ
in parameters only.
-/

set_option autoImplicit false

namespace TraversalSql

variable {x : Exchange}

/-! ## 1. Selects that are alike -/

/-- The conditions are the same, or filters whose SQL is alike. -/
inductive Condition.Like (x : Exchange) : Condition → Condition → Prop
  | same (c : Condition) : Like x c c
  | filter (column : ColumnRef) {f g : Fragment} (h : Fragment.Like x f g) :
    Like x (.filter column f) (.filter column g)

theorem Condition.Like.all (cs : List Condition) : List.Forall₂ (Condition.Like x) cs cs :=
  List.forall₂_same.mpr fun c _ => .same c

inductive FlatSelect.Like (x : Exchange) : FlatSelect → FlatSelect → Prop
  | mk (s : FlatSelect) {cs : List Condition}
    (conditions : List.Forall₂ (Condition.Like x) s.conditions cs) :
    Like x s { s with conditions := cs }

inductive SubSelect.Like (x : Exchange) : SubSelect → SubSelect → Prop
  | mk (number : Nat) {s s' : FlatSelect} (body : s.Like x s') : Like x ⟨number, s⟩ ⟨number, s'⟩

inductive LinkedSelect.Like (x : Exchange) : LinkedSelect → LinkedSelect → Prop
  | mk {s s' : SubSelect} (sub : s.Like x s') (left right : ExportedColumn) :
    Like x ⟨s, left, right⟩ ⟨s', left, right⟩

inductive ChainedSelect.Like (x : Exchange) : ChainedSelect → ChainedSelect → Prop
  | mk (outputs : List ExportedColumn) {s s' : SubSelect} (first : s.Like x s')
    {ls ls' : List LinkedSelect} (rest : List.Forall₂ (LinkedSelect.Like x) ls ls') :
    Like x ⟨outputs, s, ls⟩ ⟨outputs, s', ls'⟩

inductive PathSelect.Like (x : Exchange) : PathSelect → PathSelect → Prop
  | flat {s s' : FlatSelect} (h : s.Like x s') : Like x (.flat s) (.flat s')
  | chained {s s' : ChainedSelect} (h : s.Like x s') : Like x (.chained s) (.chained s')

inductive AbsentBranch.Like (x : Exchange) : AbsentBranch → AbsentBranch → Prop
  | mk (b : AbsentBranch) {p : PathSelect} (body : b.body.Like x p) : Like x b { b with body := p }

inductive Select.Like (x : Exchange) : Select → Select → Prop
  | mk (s : Select) {p : PathSelect} (body : s.body.Like x p) {bs : List AbsentBranch}
    (absences : List.Forall₂ (AbsentBranch.Like x) s.absences bs) :
    Like x s { s with body := p, absences := bs }

/-- The statements differ in their selects, which are alike. -/
inductive Statement.Like (x : Exchange) : Statement → Statement → Prop
  | mk (s : Statement) {r : Select} (select : s.select.Like x r) : Like x s { s with select := r }

theorem Select.Like.setSlice {r s : Select} (h : r.Like x s) (slice : Option Slice) :
    { r with slice := slice }.Like x { s with slice := slice } := by
  obtain ⟨hbody, habsences⟩ := h
  exact .mk { r with slice := slice } hbody habsences

/-! ### Aliases and temporary tables -/

theorem flatMap_of_forall₂ {α β γ : Type} {R : α → β → Prop} {f : α → List γ} {g : β → List γ}
    {as : List α} {bs : List β} (h : List.Forall₂ R as bs) (hfg : ∀ a b, R a b → g b = f a) :
    bs.flatMap g = as.flatMap f := by
  rw [List.flatMap_def, List.flatMap_def]
  exact congrArg List.flatten (map_eq_of_forall₂ h hfg)

theorem mapM_of_forall₂ {ε α β γ : Type} {R : α → β → Prop} {f : α → Except ε γ}
    {g : β → Except ε γ} {as : List α} {bs : List β} (h : List.Forall₂ R as bs)
    (hfg : ∀ a b, R a b → g b = f a) : bs.mapM g = as.mapM f := by
  induction h with
  | nil => rfl
  | cons hab _ ih => rw [List.mapM_cons, List.mapM_cons, hfg _ _ hab, ih]

theorem find?_of_forall₂ {α β : Type} {R : α → β → Prop} {p : α → Bool} {q : β → Bool}
    {as : List α} {bs : List β} (h : List.Forall₂ R as bs) (hpq : ∀ a b, R a b → q b = p a) :
    (as.find? p = none ∧ bs.find? q = none) ∨
    ∃ a b, as.find? p = some a ∧ bs.find? q = some b ∧ R a b := by
  induction h with
  | nil => exact .inl ⟨rfl, rfl⟩
  | @cons a b _ _ hab _ ih =>
    rw [List.find?_cons, List.find?_cons, hpq a b hab]
    split
    · exact .inr ⟨a, b, rfl, rfl, hab⟩
    · exact ih

theorem LinkedSelect.Like.requests {l l' : LinkedSelect} (h : l.Like x l') :
    l'.requests = l.requests := by
  obtain ⟨⟨number, ⟨_⟩⟩, left, right⟩ := h
  rfl

theorem LinkedSelect.Like.bulkTables {l l' : LinkedSelect} (h : l.Like x l') :
    l'.sub.body.bulkTables = l.sub.body.bulkTables := by
  obtain ⟨⟨number, ⟨_⟩⟩, left, right⟩ := h
  rfl

theorem PathSelect.Like.requests {p q : PathSelect} (h : p.Like x q) :
    q.requests = p.requests := by
  cases h with
  | flat h =>
    obtain ⟨_⟩ := h
    rfl
  | chained h =>
    obtain ⟨outputs, ⟨number, ⟨_⟩⟩, hrest⟩ := h
    simp only [PathSelect.requests, ChainedSelect.requests,
      flatMap_of_forall₂ hrest fun _ _ h => LinkedSelect.Like.requests h]

theorem PathSelect.Like.bulkTables {p q : PathSelect} (h : p.Like x q) :
    q.bulkTables = p.bulkTables := by
  cases h with
  | flat h =>
    obtain ⟨_⟩ := h
    rfl
  | chained h =>
    obtain ⟨outputs, ⟨number, ⟨_⟩⟩, hrest⟩ := h
    have hlinks := flatMap_of_forall₂ hrest fun _ _ h => LinkedSelect.Like.bulkTables h
    simp only [PathSelect.bulkTables, hlinks]
    rfl

theorem AbsentBranch.Like.requests {a b : AbsentBranch} (h : a.Like x b) :
    b.requests = a.requests := by
  obtain ⟨hbody⟩ := h
  simp only [AbsentBranch.requests, hbody.requests]

theorem Select.Like.aliases {r s : Select} (h : r.Like x s) : s.aliases = r.aliases := by
  obtain ⟨hbody, habsences⟩ := h
  simp only [Select.aliases, Select.requests, hbody.requests,
    flatMap_of_forall₂ habsences fun _ _ h => AbsentBranch.Like.requests h]

theorem Select.Like.bulkTables {r s : Select} (h : r.Like x s) : s.bulkTables = r.bulkTables := by
  obtain ⟨hbody, habsences⟩ := h
  have hbranch : ∀ a b : AbsentBranch, a.Like x b → b.body.bulkTables = a.body.bulkTables := by
    intro a b hab
    obtain ⟨hbody⟩ := hab
    exact hbody.bulkTables
  simp only [Select.bulkTables, hbody.bulkTables, flatMap_of_forall₂ habsences hbranch]

/-! ### Text -/

namespace SqlWriter

variable (w : SqlWriter)

theorem conditions_like {cs cs' : List Condition} (h : List.Forall₂ (Condition.Like x) cs cs') :
    Fragment.Like x (w.conditions cs) (w.conditions cs') := by
  have hparts : List.Forall₂ (Fragment.Like x) (cs.map w.condition) (cs'.map w.condition) := by
    rw [List.forall₂_map_left_iff, List.forall₂_map_right_iff]
    refine h.imp ?_
    intro c c' hc
    cases hc with
    | same c => exact Fragment.Like.refl _
    | filter column hf => exact hf
  cases h with
  | nil => exact Fragment.Like.refl _
  | cons _ _ => exact (Fragment.Like.joined " AND " hparts).text _

theorem flat_like {s s' : FlatSelect} (h : s.Like x s') :
    Fragment.Like x (w.flat s) (w.flat s') := by
  obtain ⟨hconditions⟩ := h
  exact (w.conditions_like hconditions).text _

theorem named_like (join : String) (number : Nat) {f g : Fragment} (h : Fragment.Like x f g) :
    Fragment.Like x (w.named join number f) (w.named join number g) :=
  (h.text _).append (Fragment.Like.refl _)

theorem linked_like {l l' : LinkedSelect} (h : l.Like x l') :
    Fragment.Like x (w.linked l) (w.linked l') := by
  obtain ⟨⟨number, hbody⟩, left, right⟩ := h
  exact (w.named_like _ _ (w.flat_like hbody)).append (Fragment.Like.refl _)

theorem path_like {p q : PathSelect} (h : p.Like x q) :
    Fragment.Like x (w.path p) (w.path q) := by
  cases h with
  | flat h => exact w.flat_like h
  | chained h =>
    obtain ⟨outputs, ⟨number, hbody⟩, hrest⟩ := h
    exact ((w.named_like _ _ (w.flat_like hbody)).append
      (Fragment.Like.flatMap hrest fun _ _ h => w.linked_like h)).text _

theorem absentJoin_like {a b : AbsentBranch} (h : a.Like x b) :
    Fragment.Like x (w.absentJoin a) (w.absentJoin b) := by
  obtain ⟨hbody⟩ := h
  exact (w.named_like _ _ (w.path_like hbody)).append (Fragment.Like.refl _)

theorem absences_like {as bs : List AbsentBranch} (h : List.Forall₂ (AbsentBranch.Like x) as bs) :
    Fragment.Like x (w.absences as) (w.absences bs) := by
  have htests : bs.map w.absentTest = as.map w.absentTest := by
    refine map_eq_of_forall₂ h ?_
    intro a b hab
    obtain ⟨_⟩ := hab
    rfl
  have hjoins := Fragment.Like.flatMap h fun _ _ h => w.absentJoin_like h
  unfold absences
  rw [htests]
  cases h with
  | nil => exact Fragment.Like.refl _
  | cons _ _ => exact hjoins.append (Fragment.Like.refl _)

end SqlWriter

theorem Select.Like.fragment {r s : Select} (h : r.Like x s) (d : Dialect) :
    Fragment.Like x (r.fragment d) (s.fragment d) := by
  unfold Select.fragment
  rw [h.aliases]
  obtain ⟨hbody, habsences⟩ := h
  exact ((SqlWriter.path_like _ hbody).append (SqlWriter.absences_like _ habsences)).append
    (Fragment.Like.refl _)

/-! ## 2. Composing -/

/-- From every workspace both fail, or come to related results and the same workspace. -/
def Matched {α β : Type} (R : α → β → Prop) (m : Compose α) (m' : Compose β) : Prop :=
  ∀ w, Agree (fun r s => R r.1 s.1 ∧ r.2 = s.2) (m.run w) (m'.run w)

namespace Matched

variable {α β γ δ : Type} {R : α → β → Prop} {S : γ → δ → Prop}

theorem refl (m : Compose α) : Matched Eq m m := by
  intro w
  refine (Agree.refl (m.run w)).mono ?_
  intro r s hrs
  subst hrs
  exact ⟨rfl, rfl⟩

theorem pure {a : α} {b : β} (h : R a b) : Matched R (Pure.pure a) (Pure.pure b) :=
  fun _ => ⟨h, rfl⟩

theorem lift {r : Except SqlError α} {s : Except SqlError β} (h : Agree R r s) :
    Matched R (liftM r) (liftM s) :=
  fun _ => h.bind fun _ _ hab => ⟨hab, rfl⟩

theorem throw (e e' : SqlError) : Matched R (throw e) (throw e') := fun _ => trivial

theorem bind {m : Compose α} {m' : Compose β} {f : α → Compose γ} {f' : β → Compose δ}
    (h : Matched R m m') (hf : ∀ a b, R a b → Matched S (f a) (f' b)) :
    Matched S (m >>= f) (m' >>= f') := by
  intro w
  rw [StateT.run_bind, StateT.run_bind]
  apply (h w).bind
  intro r s hrs
  rw [hrs.2]
  exact hf r.1 s.1 hrs.1 s.2

/-- The first step is the same. -/
theorem after {m : Compose α} {f : α → Compose γ} {f' : α → Compose δ}
    (hf : ∀ a, Matched S (f a) (f' a)) : Matched S (m >>= f) (m >>= f') := by
  apply (refl m).bind
  intro a b hab
  subst hab
  exact hf a

end Matched

/-- The composers work on trees that are alike. -/
inductive Composer.Like (x : Exchange) : Composer → Composer → Prop
  | mk {t u : QueryTree} (tree : t.Like x u) : Like x ⟨t, x.settings⟩ ⟨u, x.settings⟩

namespace Composer.Like

variable {c c' : Composer}

theorem settings_left (h : c.Like x c') : c.settings = x.settings := by
  obtain ⟨_⟩ := h
  rfl

theorem settings_right (h : c.Like x c') : c'.settings = x.settings := by
  obtain ⟨_⟩ := h
  rfl

theorem binding (h : c.Like x c') : c'.tree.binding = c.tree.binding := by
  obtain ⟨ht⟩ := h
  exact ht.binding

/-- The nodes of a number are alike, or there is none and the fault is the same. -/
theorem node_cases (h : c.Like x c') (id : Nat) :
    (∃ e, c.node id = .error e ∧ c'.node id = .error e) ∨
    ∃ n m, c.node id = .ok n ∧ c'.node id = .ok m ∧ n.Like x m := by
  obtain ⟨ht⟩ := h
  unfold Composer.node QueryTree.node
  rcases ht.get id with ⟨ht, hu⟩ | ⟨n, m, ht, hu, hn⟩
  · rw [ht, hu]
    exact .inl ⟨_, rfl, rfl⟩
  · rw [ht, hu]
    exact .inr ⟨n, m, rfl, rfl, hn⟩

theorem node (h : c.Like x c') (id : Nat) : Agree (QueryNode.Like x) (c.node id) (c'.node id) := by
  rcases h.node_cases id with ⟨e, hc, hc'⟩ | ⟨n, m, hc, hc', hn⟩
  · rw [hc, hc']
    trivial
  · rw [hc, hc']
    exact hn

/-- What is read of a node but its filters is the same. -/
theorem map_node {α : Type} (h : c.Like x c') (id : Nat) (f : QueryNode → Except SqlError α)
    (hf : ∀ n fs, f { n with filters := fs } = f n) : (c'.node id >>= f) = (c.node id >>= f) := by
  rcases h.node_cases id with ⟨e, hc, hc'⟩ | ⟨n, m, hc, hc', ⟨_⟩⟩
  · rw [hc, hc']
  · rw [hc, hc']
    exact hf n _

theorem key (h : c.Like x c') : c'.key = c.key := by
  funext id column
  exact h.map_node id _ fun _ _ => rfl

theorem columnRef (h : c.Like x c') : c'.columnRef = c.columnRef := by
  funext id column
  exact h.map_node id _ fun _ _ => rfl

theorem joinColumns (h : c.Like x c') : c'.joinColumns = c.joinColumns := by
  funext id
  exact h.map_node id _ fun _ _ => rfl

theorem segments (h : c.Like x c') : c'.segments = c.segments := by
  funext nodes
  unfold Composer.segments
  congr 2
  funext id
  exact h.map_node id _ fun _ _ => rfl

theorem joins (h : c.Like x c') (nodes : List Nat) : c'.joins nodes = c.joins nodes := by
  induction nodes with
  | nil => rfl
  | cons a nodes ih =>
    cases nodes with
    | nil => rfl
    | cons b rest =>
      rw [Composer.joins, Composer.joins, ih, h.joinColumns, h.columnRef]
      exact h.map_node b _ fun _ _ => rfl

theorem keys (h : c.Like x c') : c'.keys = c.keys := by
  unfold Composer.keys
  rw [h.key]

theorem rootConditions (h : c.Like x c') (nodes : List Nat) (root : Option RootCondition) :
    c'.rootConditions nodes root = c.rootConditions nodes root := by
  unfold Composer.rootConditions
  rw [h.columnRef]

theorem wantCarried (h : c.Like x c') (segments : List (List Nat)) :
    c'.wantCarried segments = c.wantCarried segments := by
  induction segments with
  | nil => rfl
  | cons a segments ih =>
    cases segments with
    | nil => rfl
    | cons b rest => rw [Composer.wantCarried, Composer.wantCarried, ih, h.joinColumns]

theorem exports (h : c.Like x c') (segments : List (List Nat)) (numbers : List Nat)
    (outputs : List NodeColumn) :
    c'.exports segments numbers outputs = c.exports segments numbers outputs := by
  induction outputs with
  | nil => rfl
  | cons o outputs ih => rw [Composer.exports, Composer.exports, ih, h.key]

theorem branchLinks (h : c.Like x c') (frontier : Nat) (branches : List (List Nat)) :
    c'.branchLinks frontier branches = c.branchLinks frontier branches := by
  induction branches with
  | nil => rfl
  | cons b branches ih => rw [Composer.branchLinks, Composer.branchLinks, ih, h.joinColumns]

theorem isSilent {n m : QueryNode} (h : n.Like x m) : m.isSilent = n.isSilent := by
  unfold QueryNode.isSilent
  rw [h.hasFilters]
  obtain ⟨_⟩ := h
  rfl

theorem rootCondition (h : c.Like x c') (nodes : List Nat) :
    c'.rootCondition nodes = c.rootCondition nodes := by
  cases nodes with
  | nil => rfl
  | cons root below =>
    simp only [Composer.rootCondition, h.binding]
    split
    · rcases h.node_cases root with ⟨e, hc, hc'⟩ | ⟨n, m, hc, hc', hn⟩
      · rw [hc, hc']
        rfl
      · rw [hc, hc']
        simp only [bind, Except.bind, isSilent hn]
        split
        · rename_i first _ _
          exact h.map_node first _ fun _ _ => rfl
        · rfl
    · rfl

theorem lastRange (h : c.Like x c') (nodes : List Nat) :
    c'.lastRange nodes = c.lastRange nodes := by
  obtain ⟨ht⟩ := h
  unfold Composer.lastRange
  congr 1
  funext id
  exact ht.read (fun n => n.bind QueryNode.range) (fun _ _ => rfl) id

/-! ### Filters -/

/-- The filters are the same, or predicates on one column that are alike. -/
def FilterLike (x : Exchange) (f g : ColumnRef × Predicate) : Prop :=
  f = g ∨ f.1 = g.1 ∧ f.2.Like x g.2 ∧ f.2.values.length ≤ x.settings.bulkThreshold

theorem nodeFilters (h : c.Like x c') (id : Nat) :
    Agree (List.Forall₂ (FilterLike x)) (c.nodeFilters id) (c'.nodeFilters id) := by
  unfold Composer.nodeFilters
  apply (h.node id).bind
  intro n m hn
  obtain ⟨hfs⟩ := hn
  show List.Forall₂ _ _ _
  apply List.rel_append
  · exact List.forall₂_same.mpr fun f _ => .inl rfl
  · rw [List.forall₂_map_left_iff, List.forall₂_map_right_iff]
    refine hfs.imp ?_
    intro f g hfg
    exact .inr ⟨by rw [hfg.key], hfg.predicate, hfg.few⟩

theorem filters (h : c.Like x c') (nodes : List Nat) :
    Agree (List.Forall₂ (FilterLike x)) (c.filters nodes) (c'.filters nodes) := by
  unfold Composer.filters
  apply (Agree.mapM_same nodes h.nodeFilters).bind
  intro fs gs hfs
  exact List.rel_flatten hfs

/-- A filter is added to selects that are alike; of predicates that differ, none needs a temporary
table. -/
theorem addFilter (h : c.Like x c') {s s' : FlatSelect} (hs : s.Like x s')
    {f g : ColumnRef × Predicate} (hf : FilterLike x f g) :
    Matched (FlatSelect.Like x) (c.addFilter s f) (c'.addFilter s' g) := by
  obtain ⟨hconditions⟩ := hs
  have hadd : ∀ {a b : Condition}, a.Like x b →
      (FlatSelect.Like x) { s with conditions := s.conditions ++ [a] }
        { s with conditions := _ ++ [b] } := fun hab =>
    .mk _ (List.rel_append hconditions (.cons hab .nil))
  unfold Composer.addFilter
  rw [h.settings_left, h.settings_right]
  rcases hf with rfl | ⟨hcolumn, hp, hfew⟩
  · obtain ⟨column, p⟩ := f
    simp only
    split
    · rename_i kind values _
      apply Matched.after
      intro bulk
      exact Matched.pure (.mk _ (List.rel_append hconditions (Condition.Like.all _)))
    · apply Matched.after
      intro sql
      exact Matched.pure (hadd (.same _))
  · obtain ⟨column, p⟩ := f
    obtain ⟨column', q⟩ := g
    obtain rfl : column = column' := hcolumn
    -- the values of a temporary table would be listed outside of the parameters
    have hfew' : q.values.length ≤ x.settings.bulkThreshold := hp.length_values ▸ hfew
    simp only [Predicate.bulk?_eq_none hfew, Predicate.bulk?_eq_none hfew']
    apply (Matched.lift (hp.condition (column.sql x.settings.dialect))).bind
    intro sql sql' hsql
    exact Matched.pure (hadd (.filter column hsql))

theorem addFilters (h : c.Like x c') {fs gs : List (ColumnRef × Predicate)}
    (hfs : List.Forall₂ (FilterLike x) fs gs) {s s' : FlatSelect} (hs : s.Like x s') :
    Matched (FlatSelect.Like x) (c.addFilters s fs) (c'.addFilters s' gs) := by
  induction hfs generalizing s s' with
  | nil => exact Matched.pure hs
  | cons hf _ ih =>
    rw [Composer.addFilters, Composer.addFilters]
    apply (h.addFilter hs hf).bind
    intro s s' hs
    exact ih hs

/-! ### Selects -/

theorem flat (h : c.Like x c') (nodes : List Nat) (root : Option RootCondition)
    (columns : List NodeColumn) :
    Matched (FlatSelect.Like x) (c.flat nodes root columns) (c'.flat nodes root columns) := by
  cases nodes with
  | nil => exact Matched.throw _ _
  | cons first rest =>
    unfold Composer.flat
    simp only [h.keys, h.joins, h.rootConditions]
    apply Matched.after
    intro keys
    apply (Matched.lift (h.node first)).bind
    intro n m hn
    obtain ⟨_⟩ := hn
    apply Matched.after
    intro joins
    apply Matched.after
    intro conditions
    -- up to here the two select the same columns from the same tables
    apply (Matched.lift (h.filters (first :: rest))).bind
    intro fs gs hfs
    exact h.addFilters hfs (.mk _ (Condition.Like.all conditions))

theorem subSelect (h : c.Like x c') (segment : List Nat) (root : Option RootCondition) :
    Matched (SubSelect.Like x) (c.subSelect segment root) (c'.subSelect segment root) := by
  unfold Composer.subSelect
  apply Matched.after
  intro w
  apply (h.flat segment root _).bind
  intro s s' hs
  apply Matched.after
  intro number
  exact Matched.pure (.mk number hs)

theorem linked (h : c.Like x c') (root : Option RootCondition) (left owner : Nat)
    (segments : List (List Nat)) :
    Matched (List.Forall₂ (LinkedSelect.Like x)) (c.linked root left owner segments)
      (c'.linked root left owner segments) := by
  induction segments generalizing left owner with
  | nil => exact Matched.pure .nil
  | cons segment rest ih =>
    rw [Composer.linked, Composer.linked, h.joinColumns, h.key]
    apply (h.subSelect segment root).bind
    intro sub sub' hsub
    apply Matched.after
    intro ends
    apply Matched.after
    intro columns
    apply Matched.after
    intro l
    obtain ⟨number, hbody⟩ := hsub
    apply Matched.after
    intro r
    apply (ih ends.2 number).bind
    intro ls ls' hls
    exact Matched.pure (.cons (.mk (.mk number hbody) _ _) hls)

theorem chained (h : c.Like x c') (segments : List (List Nat)) (outputs : List NodeColumn)
    (root : Option RootCondition) :
    Matched (fun r s => r.1.Like x s.1 ∧ r.2 = s.2) (c.chained segments outputs root)
      (c'.chained segments outputs root) := by
  cases segments with
  | nil => exact Matched.throw _ _
  | cons segment rest =>
    unfold Composer.chained
    simp only [h.exports]
    apply (h.subSelect segment root).bind
    intro sub sub' hsub
    apply Matched.after
    intro ends
    have hfirst := hsub
    obtain ⟨number, hbody⟩ := hsub
    apply (h.linked root ends.2 number rest).bind
    intro ls ls' hls
    have hnumbers : ls'.map (fun l => l.sub.number) = ls.map fun l => l.sub.number := by
      refine map_eq_of_forall₂ hls ?_
      intro l l' hl
      obtain ⟨⟨number, _⟩, _, _⟩ := hl
      rfl
    rw [hnumbers]
    apply Matched.after
    intro exported
    exact Matched.pure ⟨.mk _ hfirst hls, rfl⟩

theorem segmented (h : c.Like x c') (segments : List (List Nat)) (outputs : List NodeColumn)
    (root : Option RootCondition) :
    Matched (PathSelect.Like x) (c.segmented segments outputs root)
      (c'.segmented segments outputs root) := by
  unfold Composer.segmented
  split
  · apply (h.flat _ root outputs).bind
    intro s s' hs
    exact Matched.pure (.flat hs)
  · rw [h.wantCarried]
    apply Matched.after
    intro _
    apply (h.chained segments outputs root).bind
    intro r s hrs
    exact Matched.pure (.chained hrs.1)

theorem branchPath (h : c.Like x c') (nodes : List Nat) (outputs : List NodeColumn) :
    Matched (PathSelect.Like x) (c.branchPath nodes outputs) (c'.branchPath nodes outputs) := by
  unfold Composer.branchPath
  rw [h.segments]
  apply Matched.after
  intro segments
  split
  · apply Matched.after
    intro _
    exact h.segmented segments outputs none
  · exact h.segmented segments outputs none

theorem absentBranches (h : c.Like x c') (frontier owner : Nat) (links : List BranchLink) :
    Matched (List.Forall₂ (AbsentBranch.Like x)) (c.absentBranches frontier owner links)
      (c'.absentBranches frontier owner links) := by
  induction links with
  | nil => exact Matched.pure .nil
  | cons link rest ih =>
    rw [Composer.absentBranches, Composer.absentBranches, h.key]
    apply (h.branchPath _ _).bind
    intro p q hpq
    apply Matched.after
    intro number
    apply Matched.after
    intro carried
    apply Matched.after
    intro joined
    apply Matched.after
    intro terminal
    apply ih.bind
    intro as bs has
    exact Matched.pure (.cons (.mk _ hpq) has)

theorem optional (h : c.Like x c') (stack : PathStack) (segments : List (List Nat))
    (outputs : List NodeColumn) (root : Option RootCondition) :
    Matched (fun r s => r.1.Like x s.1 ∧ List.Forall₂ (AbsentBranch.Like x) r.2 s.2)
      (c.optional stack segments outputs root) (c'.optional stack segments outputs root) := by
  unfold Composer.optional
  split
  · exact Matched.throw _ _
  · rename_i frontier _
    rw [h.branchLinks, h.wantCarried]
    apply Matched.after
    intro links
    apply Matched.after
    intro _
    apply (h.chained segments outputs root).bind
    intro r s hrs
    obtain ⟨main, numbers⟩ := r
    obtain ⟨main', numbers'⟩ := s
    obtain ⟨hmain, rfl⟩ := hrs
    simp only
    split
    · exact Matched.throw _ _
    · apply (h.absentBranches frontier _ links).bind
      intro as bs has
      exact Matched.pure ⟨.chained hmain, has⟩

/-! ### Paths -/

/-- Nodes that are alike, with the same number. -/
def NumberedLike (x : Exchange) (a b : Nat × QueryNode) : Prop := a.1 = b.1 ∧ a.2.Like x b.2

/-- What is read of a numbered node but its filters is the same. -/
theorem NumberedLike.read {α : Type} (f : Nat × QueryNode → α)
    (hf : ∀ i n fs, f (i, { n with filters := fs }) = f (i, n)) (a b : Nat × QueryNode)
    (h : NumberedLike x a b) : f b = f a := by
  obtain ⟨i, n⟩ := a
  obtain ⟨j, m⟩ := b
  obtain ⟨rfl, ⟨_⟩⟩ := h
  exact hf i n _

theorem path (h : c.Like x c') (nodes : List Nat) :
    Agree (List.Forall₂ (NumberedLike x)) (c.path nodes) (c'.path nodes) := by
  apply Agree.mapM_same
  intro id
  apply (h.node id).bind
  intro n m hn
  exact ⟨rfl, hn⟩

section Sorting

variable {path path' : List (Nat × QueryNode)} (hpath : List.Forall₂ (NumberedLike x) path path')

include hpath

theorem sortColumn? {a b : Nat × QueryNode} (hab : NumberedLike x a b) (spec : SortSpec) :
    Composer.sortColumn? path' b.1 b.2 spec = Composer.sortColumn? path a.1 a.2 spec := by
  obtain ⟨i, n⟩ := a
  obtain ⟨j, m⟩ := b
  obtain ⟨rfl, ⟨_⟩⟩ := hab
  unfold Composer.sortColumn?
  cases spec.key with
  | select label property =>
    have hlabelled : ∀ a b, NumberedLike x a b → b.2.hasUserLabel label = a.2.hasUserLabel label :=
      NumberedLike.read (fun a => a.2.hasUserLabel label) fun _ _ _ => rfl
    rcases find?_of_forall₂ hpath hlabelled with ⟨hnone, hnone'⟩ | ⟨a, b, hsome, hsome', hab⟩
    · simp only [hnone, hnone']
    · simp only [hsome, hsome']
      obtain ⟨i, n⟩ := a
      obtain ⟨j, m⟩ := b
      obtain ⟨rfl, ⟨_⟩⟩ := hab
      rfl
  | _ => rfl

theorem sortColumns : Composer.sortColumns path' = Composer.sortColumns path := by
  unfold Composer.sortColumns
  congr 1
  apply mapM_of_forall₂ (List.rel_reverse hpath)
  intro a b hab
  have horder : b.2.order = a.2.order :=
    NumberedLike.read (fun a => a.2.order) (fun _ _ _ => rfl) a b hab
  simp only [horder, sortColumn? hpath hab]

end Sorting

theorem stackSelect (h : c.Like x c') (stack : PathStack) :
    Matched (fun r s => r.1.Like x s.1 ∧ r.2 = s.2) (c.stackSelect stack)
      (c'.stackSelect stack) := by
  unfold Composer.stackSelect
  rw [h.rootCondition, h.segments, h.keys]
  apply Matched.after
  intro root
  apply (Matched.lift (h.path stack.nodes)).bind
  intro path path' hpath
  have hprojected : List.Forall₂ (NumberedLike x) (Composer.projected stack.terminal? path)
      (Composer.projected stack.terminal? path') :=
    filter_of_forall₂ hpath (NumberedLike.read _ fun _ _ _ => rfl)
  have helements := flatMap_of_forall₂ hprojected
    (NumberedLike.read (fun a => a.2.elementColumns.map fun column => (a.1, column))
      fun _ _ _ => rfl)
  have hfragments := map_eq_of_forall₂ hprojected
    (NumberedLike.read (fun a => a.2.fragmentKey) fun _ _ _ => rfl)
  simp only [helements, hfragments, sortColumns hpath]
  apply Matched.after
  intro sort
  apply Matched.after
  intro _
  apply Matched.after
  intro segments
  split
  · apply (h.optional stack segments _ root.1).bind
    intro r s hrs
    apply Matched.after
    intro keys
    exact Matched.pure ⟨.mk _ hrs.1 hrs.2, rfl⟩
  · apply (h.segmented segments _ root.1).bind
    intro p q hpq
    simp only [pure_bind]
    apply Matched.after
    intro keys
    exact Matched.pure ⟨.mk _ hpq .nil, rfl⟩

theorem statement (h : c.Like x c') (stack : PathStack) (strip : Bool) :
    Matched (Statement.Like x) (c.statement stack strip) (c'.statement stack strip) := by
  unfold Composer.statement
  rw [h.lastRange, h.binding, h.settings_left, h.settings_right]
  apply (h.stackSelect stack).bind
  intro r s hrs
  obtain ⟨select, fragments⟩ := r
  obtain ⟨select', fragments'⟩ := s
  obtain ⟨hselect, rfl⟩ := hrs
  apply (Matched.lift (h.node QueryTree.root)).bind
  intro n m hn
  obtain ⟨_⟩ := hn
  exact Matched.pure (.mk _ (hselect.setSlice _))

end Composer.Like

/-! ## 3. Plans -/

theorem QueryTree.Like.statement {t u : QueryTree} (h : t.Like x u) (bulkTables : Nat)
    (stack : PathStack) (strip : Bool) :
    Agree (Statement.Like x) (t.statement x.settings bulkTables stack strip)
      (u.statement x.settings bulkTables stack strip) := by
  unfold QueryTree.statement
  split
  · trivial
  · split
    · trivial
    · have hrun := (Composer.Like.mk h).statement stack strip { bulkTables := bulkTables }
      apply hrun.bind
      intro r s hrs
      exact hrs.1

theorem statementsOf_like {queue queue' : List (QueryTree × PathStack)}
    (h : List.Forall₂ (LikeWith x) queue queue') (strip : Bool) (bulkTables : Nat) :
    Agree (List.Forall₂ (Statement.Like x)) (statementsOf x.settings strip bulkTables queue)
      (statementsOf x.settings strip bulkTables queue') := by
  induction h generalizing bulkTables with
  | nil => exact .nil
  | @cons a b _ _ hab _ ih =>
    obtain ⟨t, stack⟩ := a
    obtain ⟨u, stack'⟩ := b
    obtain ⟨ht, rfl⟩ := hab
    rw [statementsOf, statementsOf]
    apply (ht.statement bulkTables stack strip).bind
    intro s s' hs
    have hbulk : s'.bulkTables = s.bulkTables := by
      obtain ⟨hselect⟩ := hs
      exact hselect.bulkTables
    rw [hbulk]
    apply (ih _).bind
    intro ss ss' hss
    exact .cons hs hss

/-- The plans differ in their statements, which are alike. -/
inductive Plan.Like (x : Exchange) : Plan → Plan → Prop
  | mk (plan : Plan) {ss : List Statement}
    (statements : List.Forall₂ (Statement.Like x) plan.statements ss) :
    Like x plan { plan with statements := ss }

/-- Runs that are alike have plans that are alike, or none. -/
theorem Run.plan_like {run run' : Run} (hlike : List.Forall₂ (Hop.Like x) run.hops run'.hops)
    (T : Topology) (n : Numbering) :
    Agree (Plan.Like x) (run.plan x.settings T n) (run'.plan x.settings T n) := by
  have hordered : run'.hasOrderOrRange = run.hasOrderOrRange := by
    apply any_of_forall₂ hlike
    intro h k hk
    obtain ⟨_⟩ := hk
    rfl
  have hrange : run'.lastRange = run.lastRange := by
    have hranges : run'.hops.map Hop.range = run.hops.map Hop.range := by
      apply map_eq_of_forall₂ hlike
      intro h k hk
      obtain ⟨_⟩ := hk
      rfl
    have hlast := congrArg (fun ranges => ranges.reverse.findSome? id) hranges
    simpa [Run.lastRange, ← List.map_reverse, List.findSome?_map] using hlast
  have hdrop : run'.isDrop = run.isDrop := by
    have hdrops : run'.hops.map Hop.drop = run.hops.map Hop.drop := by
      apply map_eq_of_forall₂ hlike
      intro h k hk
      obtain ⟨_⟩ := hk
      rfl
    have hlast := congrArg (fun drops => drops.getLast?.any id) hdrops
    simpa [Run.isDrop, List.getLast?_map, Option.any_map] using hlast
  unfold Run.plan
  rw [hordered, hrange, hdrop]
  apply ((Run.trees_like T hlike x.settings).mapError SqlError.tree).bind
  intro trees trees' htrees
  apply ((stacksOf_like htrees).mapError SqlError.tree).bind
  intro queue queue' hqueue
  have hneeded : neededFor queue' = neededFor queue := by
    unfold neededFor
    rw [map_eq_of_forall₂ hqueue fun a b hab => congrArg RootBinding.executions hab.1.binding]
  simp only [foldl_executions, hneeded]
  apply (statementsOf_like hqueue _ _).bind
  intro ss ss' hss
  have hterminals : ss'.filterMap Statement.terminal? = ss.filterMap Statement.terminal? := by
    have hends : ss'.map Statement.terminal? = ss.map Statement.terminal? := by
      apply map_eq_of_forall₂ hss
      intro s s' hs
      obtain ⟨_⟩ := hs
      rfl
    have hfound := congrArg (List.filterMap id) hends
    simpa [List.filterMap_map] using hfound
  simp only [hterminals]
  exact .mk _ hss

end TraversalSql
