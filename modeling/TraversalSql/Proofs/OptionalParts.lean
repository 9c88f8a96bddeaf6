import Mathlib.Data.Nat.Find
import TraversalSql.Proofs.PlainRuns

/-!
# Optional parts

An optional statement ends at a node where an optional part begins and returns a row there only if
every branch of the part comes back empty. A branch ends where the next optional part begins, or at
the end of the run. So a branch has rows below a walk exactly if the walk goes on to the next
optional part or to the end, and an optional statement returns the walks that do not.
-/

set_option autoImplicit false

namespace TraversalSql

open QueryTree

variable {T : Topology} {g : StoredGraph T} {truth : Truth} {t : QueryTree} {p c f e : Nat}
  {n m : QueryNode} {u v : Visit} {w ext : List Visit} {ids b : List Nat}

/-! ## 1. Branches -/

namespace QueryTree

/-- From a node down to the first one that is childless or begins an optional part. -/
inductive Branch (t : QueryTree) : Nat → List Nat → Prop
  | last {c : Nat} {n : QueryNode} : t.nodes[c]? = some n →
      (n.children.isEmpty || n.leftJoin) = true → Branch t c [c]
  | step {c c' : Nat} {n : QueryNode} {b : List Nat} : t.nodes[c]? = some n →
      (n.children.isEmpty || n.leftJoin) = false → c' ∈ n.children → Branch t c' b →
      Branch t c (c :: b)

theorem mem_branchesFrom_iff (hw : t.WellFormed) : ∀ {depth c : Nat} {b : List Nat},
    t.nodes.size ≤ c + depth → (b ∈ t.branchesFrom depth c ↔ t.Branch c b) := by
  intro depth
  induction depth with
  | zero =>
    intro c b hsize
    refine ⟨fun hb => absurd hb List.not_mem_nil, fun hb => ?_⟩
    have hn : ∃ n, t.nodes[c]? = some n := by
      cases hb with
      | last hn => exact ⟨_, hn⟩
      | step hn => exact ⟨_, hn⟩
    obtain ⟨n, hn⟩ := hn
    have := lt_size_of_node hn
    omega
  | succ depth ih =>
    intro c b hsize
    rw [branchesFrom]
    cases hn : t.nodes[c]? with
    | none =>
      refine ⟨fun hb => absurd hb List.not_mem_nil, fun hb => ?_⟩
      cases hb with
      | last hn' => rw [hn] at hn'; cases hn'
      | step hn' => rw [hn] at hn'; cases hn'
    | some n =>
      have hchild : ∀ c' ∈ n.children, t.nodes.size ≤ c' + depth := by
        intro c' hc'
        have := hw.parentLt (hw.child hn hc').2
        omega
      simp only
      split
      · rename_i hend
        rw [List.mem_singleton]
        constructor
        · rintro rfl
          exact .last hn hend
        · intro hb
          cases hb with
          | last => rfl
          | step hn' hgo =>
            rw [hn] at hn'
            cases hn'
            rw [hend] at hgo
            cases hgo
      · rename_i hgo
        have hgo : (n.children.isEmpty || n.leftJoin) = false := Bool.not_eq_true _ ▸ hgo
        simp only [List.mem_map, List.mem_flatMap]
        constructor
        · rintro ⟨b', ⟨c', hc', hb'⟩, rfl⟩
          exact .step hn hgo hc' ((ih (hchild c' hc')).mp hb')
        · intro hb
          cases hb with
          | last hn' hend =>
            rw [hn] at hn'
            cases hn'
            rw [hend] at hgo
            cases hgo
          | step hn' _ hc' hb' =>
            rw [hn] at hn'
            cases hn'
            exact ⟨_, ⟨_, hc', (ih (hchild _ hc')).mpr hb'⟩, rfl⟩

theorem mem_branchesBelow_iff (hw : t.WellFormed) (hn : t.nodes[f]? = some n) :
    b ∈ t.branchesBelow f ↔ ∃ c ∈ n.children, t.Branch c b := by
  simp only [branchesBelow, hn, List.mem_flatMap]
  refine exists_congr fun c => and_congr_right fun _ => ?_
  exact mem_branchesFrom_iff hw (Nat.le_add_left _ _)

/-- A branch goes down to where it ends. -/
theorem Branch.descends (hb : t.Branch c b) : ∀ {p : Nat} {n : QueryNode}, t.nodes[p]? = some n →
    c ∈ n.children → ∃ e m, t.Descends p b e ∧ t.nodes[e]? = some m ∧
      (m.children.isEmpty || m.leftJoin) = true := by
  induction hb with
  | last hc hend =>
    intro p n hn hmem
    exact ⟨_, _, .cons hn hmem (.nil _), hc, hend⟩
  | step hc _ hmem' _ ih =>
    intro p n hn hmem
    obtain ⟨e, m, hd, hm, hend⟩ := ih hc hmem'
    exact ⟨e, m, .cons hn hmem hd, hm, hend⟩

/-- A way down over nodes at which no optional part begins is a branch. -/
theorem Descends.branch (hd : t.Descends c ids e) : ∀ {m : QueryNode}, t.nodes[e]? = some m →
    (m.children.isEmpty || m.leftJoin) = true →
    (∀ {a : Nat} {n : QueryNode} {ids' : List Nat}, t.nodes[a]? = some n → t.Descends a ids' e →
      ids' ≠ [] → t.Above c a → n.leftJoin = false) → t.WellFormed → t.Branch c (c :: ids) := by
  induction hd with
  | nil =>
    intro m hm hend _ _
    exact .last hm hend
  | @cons p c e ids n hn hmem hd ih =>
    intro m hm hend hbetween hw
    have hleft := hbetween hn (.cons hn hmem hd) (List.cons_ne_nil _ _) (.refl p)
    refine .step hn ?_ hmem (ih hm hend ?_ hw)
    · rw [hleft, Bool.or_false, List.isEmpty_eq_false_iff]
      exact List.ne_nil_of_mem hmem
    · intro a n' ids' ha hd' hne habove
      have hpc : t.Above p c := .step (hw.child hn hmem).2 (.refl p)
      exact hbetween ha hd' hne (hpc.trans habove)

end QueryTree

/-! ## 2. Branches of an optional part -/

namespace Run

variable {settings : Settings} {hop : Hop} {rest : List Hop} {table : Table}
  {binding : RootBinding} {k next : Nat}

/-- The hops from `k` on, up to `next`, are an optional part: it ends before the next one begins or
with the run. -/
structure OptionalPart (hops : List Hop) (k next : Nat) : Prop where
  after : 0 < k
  begins : ∃ h, hops[k]? = some h ∧ h.leftJoin = true
  lt : k < next
  ends : next = hops.length ∨ ∃ h, hops[next]? = some h ∧ h.leftJoin = true
  inner : ∀ {i : Nat} {h : Hop}, k < i → i < next → hops[i]? = some h → h.leftJoin = false

theorem OptionalPart.le_length {hops : List Hop} (hpart : OptionalPart hops k next) :
    next ≤ hops.length := by
  rcases hpart.ends with h | ⟨h, hh, _⟩
  · exact Nat.le_of_eq h
  · exact Nat.le_of_lt (List.getElem?_eq_some_iff.mp hh).1

/-- Results end where an optional part does. -/
theorem OptionalPart.endsAt {hops : List Hop} (hpart : OptionalPart hops k next) :
    ∃ phase, EndsAt hops (next - 1) phase := by
  have hsucc : next - 1 + 1 = next := Nat.succ_pred_eq_of_pos (Nat.zero_lt_of_lt hpart.lt)
  rcases hpart.ends with h | h
  · exact ⟨.regular, hsucc.trans h⟩
  · exact ⟨.optional, by rw [EndsAt, hsucc]; exact h⟩

section Tree

variable (hc : T.Consistent)
  (hdepths : ∀ {k : Nat} {h : Hop}, rest[k]? = some h → h.depth = k + 1)
  (hp : Planted T hop rest table binding t)
include hc hdepths hp

omit hc hdepths in
/-- Ways down to what pruning keeps are kept. -/
theorem Planted.descends_prune (hd : t.Descends f ids e) (he : t.prune.Live e) :
    t.prune.Descends f ids e := by
  have hw := hp.grown.full.wellFormed
  obtain ⟨hcut, hw', _⟩ := prune_cut hw
  obtain ⟨ids', hd'⟩ := hw'.descends (hcut.above_iff.mpr (hd.above hw)) he
  have hpath : t.path f ++ ids = t.path f ++ ids' := by
    rw [← hd.path_eq hw, (hcut.descends hd').path_eq hw]
  rw [List.append_cancel_left hpath]
  exact hd'

/-- A node of the pruned tree that ends a branch is one at which a hop ends, at least as deep as
the optional part goes. -/
theorem Planted.branch_end (hemit : ∀ h ∈ hop :: rest, h.emit = false)
    (hpart : OptionalPart (hop :: rest) k next) {n' : QueryNode}
    (hn' : t.prune.nodes[e]? = some n') (hlive : n'.removed = false)
    (hend : (n'.children.isEmpty || n'.leftJoin) = true) (hroot : e ≠ root)
    (hdeep : k ≤ n'.depth) :
    ∃ m, t.nodes[e]? = some m ∧ m.intermediate = false ∧ m.depth = n'.depth ∧
      next ≤ m.depth + 1 := by
  obtain ⟨hcut, _, hbarren, _⟩ := prune_cut hp.grown.full.wellFormed
  obtain ⟨m, cs, hm, hu, rfl⟩ := hp.live_node hn' hlive
  obtain ⟨j, h, hh, hmd, hkind⟩ := hp.node_cases hc hdepths hm hroot
  have hnot : t.prune.isBarren { m with children := cs } = false ∨ cs ≠ [] := by
    by_contra hcon
    rw [not_or, Bool.not_eq_false, not_not] at hcon
    have hleaf := mem_barrenLeaves.mpr ⟨hroot, _, hn', hlive, hcon.2, hcon.1⟩
    rw [hbarren] at hleaf
    cases hleaf
  have hi : m.intermediate = false := by
    rcases hkind with ⟨hi, _⟩ | ⟨hi, _, hleft⟩
    · exact hi
    · rw [hleft, Bool.or_false, List.isEmpty_iff] at hend
      have := hnot.resolve_right (not_not.mpr hend)
      simp [isBarren, hi] at this
  obtain ⟨hle, _, hleft, h', hh', hhe⟩ := hp.flags hc hdepths hm hi
  refine ⟨m, hm, hi, rfl, ?_⟩
  cases hl : m.leftJoin with
  | true =>
    obtain ⟨h'', hh'', hleft''⟩ := hleft.mp hl
    by_contra hlt
    have := hpart.inner (i := m.depth + 1) (Nat.lt_succ_of_le hdeep) (Nat.lt_of_not_le hlt) hh''
    exact absurd (hleft''.symm.trans this) (by decide)
  | false =>
    rw [hl, Bool.or_false, List.isEmpty_iff] at hend
    have hnb := hnot.resolve_right (not_not.mpr hend)
    have hnoemit : m.emit = false := hhe.trans (hemit h' (List.mem_of_getElem? hh'))
    have hfull : t.prune.fullDepth = rest.length := hcut.fullDepth.trans hp.fullDepth
    simp only [isBarren, hi, hnoemit, hl, hfull, Bool.false_or, Bool.not_false, Bool.and_true,
      decide_eq_false_iff_not] at hnb
    have := hpart.le_length
    simp only [List.length_cons] at this
    omega

/-- No optional part begins between a node at which one begins and where the part ends. -/
theorem Planted.between (hpart : OptionalPart (hop :: rest) (n.depth + 1) next) {a : Nat}
    {na me : QueryNode} {ids' : List Nat} (hn : t.nodes[f]? = some n)
    (hfi : n.intermediate = false) (hna : t.nodes[a]? = some na) (hme : t.nodes[e]? = some me)
    (hfa : t.Descends f ids a) (hne : ids ≠ []) (hae : t.Descends a ids' e) (hne' : ids' ≠ [])
    (hdepth : me.depth + 1 = next) : na.leftJoin = false := by
  have hlt := (hp.descends_depth hc hdepths hfa hn hna).2 hfi hne
  have hroot : a ≠ root := by
    rintro rfl
    rw [(hp.root_facts hna).2.1] at hlt
    exact absurd hlt (Nat.not_lt_zero _)
  obtain ⟨_, _, _, _, ⟨hi, _⟩ | ⟨_, _, hleft⟩⟩ := hp.node_cases hc hdepths hna hroot
  · have hlt' := (hp.descends_depth hc hdepths hae hna hme).2 hi hne'
    rw [← Bool.not_eq_true, (hp.flags hc hdepths hna hi).2.2.1]
    rintro ⟨h, hh, hleft⟩
    have := hpart.inner (i := na.depth + 1) (by omega) (by omega) hh
    exact absurd (hleft.symm.trans this) (by decide)
  · exact hleft

omit hc hdepths in
/-- The last row of a walk to a node is one of the node's table. -/
theorem Planted.last_row (hn : t.nodes[f]? = some n) (ha : t.Answers g truth (t.path f) w)
    (hv : w.getLast? = some v) : v.table = n.table ∧ v.row ∈ g.rows v.table := by
  obtain ⟨ids, hd, hpath⟩ := hp.path_eq hn
  rw [hpath] at ha
  cases w with
  | nil => exact ha.elim
  | cons u w =>
    obtain ⟨⟨r, hr, hadmits⟩, _, hmatch⟩ := ha
    obtain ⟨v', hv', hadmits'⟩ := hmatch.getLast hd hr hadmits hn
    obtain rfl : v = v' := Option.some.inj (hv.symm.trans hv')
    exact ⟨hadmits'.table, hadmits'.row⟩

/-- A branch with rows below a walk shows that the walk goes on to where the part ends. -/
theorem Planted.follows_of_branch (hemit : ∀ h ∈ hop :: rest, h.emit = false)
    (hn : t.nodes[f]? = some n) (hfi : n.intermediate = false) (hu : t.Useful f)
    (hpart : OptionalPart (hop :: rest) (n.depth + 1) next) (hvt : v.table = n.table)
    (hbranch : b ∈ t.prune.branchesBelow f) (hmatch : t.Matches g truth v b ext) :
    ∃ ext' x, Follows g truth ((rest.drop n.depth).take (next - (n.depth + 1))) v ext' x := by
  obtain ⟨hcut, hw', _⟩ := prune_cut hp.grown.full.wellFormed
  obtain ⟨cs, hn', _⟩ := hp.kept_node hn hu
  obtain ⟨c, hmem, hbranch⟩ := (mem_branchesBelow_iff hw' hn').mp hbranch
  obtain ⟨e, n', hd', hn'', hend⟩ := hbranch.descends hn' hmem
  have hd := hcut.descends hd'
  obtain ⟨ne, hne, hlive⟩ := hd'.live hw' ⟨_, hn', (hp.grown.full.live hn :)⟩
  rw [hn''] at hne
  cases hne
  obtain ⟨me, cs', hme, _, rfl⟩ := hp.live_node hn'' hlive
  have hbne : b ≠ [] := by
    cases hbranch <;> exact List.cons_ne_nil _ _
  have hdeep := (hp.descends_depth hc hdepths hd hn hme).2 hfi hbne
  have hroot : e ≠ root := by
    rintro rfl
    rw [(hp.root_facts hme).2.1] at hdeep
    exact absurd hdeep (Nat.not_lt_zero _)
  obtain ⟨m, hm, hmi, _, hnext⟩ :=
    hp.branch_end hc hdepths hemit hpart hn'' hlive hend hroot (Nat.succ_le_of_lt hdeep)
  obtain ⟨hs, x, hprefix, hmd, hf⟩ := hp.grown.follows_of_matches hc hdepths (Nat.le_refl _) hd
    hmatch hn hfi hvt hm hmi
  -- what the branch has beyond the part is left away
  have htake : (rest.drop n.depth).take (next - (n.depth + 1))
      = hs.take (next - (n.depth + 1)) := by
    rw [List.prefix_iff_eq_take.mp hprefix, List.take_take, Nat.min_eq_left (by omega)]
  rw [htake]
  rw [← List.take_append_drop (next - (n.depth + 1)) hs] at hf
  obtain ⟨w₁, w₂, x', _, hf₁, _⟩ := Follows.split _ hf
  exact ⟨w₁, x', hf₁⟩

/-- A walk that goes on to where the part ends has rows in a branch. -/
theorem Planted.branch_of_follows (hn : t.nodes[f]? = some n) (hfi : n.intermediate = false)
    (hu : t.Useful f) (hpart : OptionalPart (hop :: rest) (n.depth + 1) next)
    (ha : t.Answers g truth (t.path f) w) (hv : w.getLast? = some v) {x : Visit}
    (hf : Follows g truth ((rest.drop n.depth).take (next - (n.depth + 1))) v ext x) :
    ∃ b ∈ t.prune.branchesBelow f, t.Matches g truth v b ext := by
  have hw := hp.grown.full.wellFormed
  obtain ⟨hcut, hw', _⟩ := prune_cut hw
  obtain ⟨cs, hn', _⟩ := hp.kept_node hn hu
  obtain ⟨hvt, hvrow⟩ := hp.last_row hn ha hv
  have hle := hpart.le_length
  have hlt := hpart.lt
  rw [List.length_cons] at hle
  obtain ⟨ids, e, m, hd, hmatch, hm, hmi, hmd⟩ := hp.grown.descends_of_follows hc hdepths hf hn
    hfi hvt hvrow (List.take_prefix _ _)
  rw [List.length_take, List.length_drop, Nat.min_eq_left (by omega)] at hmd
  have hdepth : m.depth + 1 = next := by omega
  -- a result ends there, so pruning keeps the way down
  obtain ⟨phase, hphase⟩ := hpart.endsAt
  rw [← hdepth, Nat.add_sub_cancel] at hphase
  have hae : t.Answers g truth (t.path e) (w ++ ext) := by
    rw [hd.path_eq hw]
    exact ha.append hv hmatch
  obtain ⟨hue, _⟩ := hp.useful_of_answers hc hdepths hm hmi hphase hae
  have helive : t.prune.Live e := hcut.live_iff.mpr ⟨⟨m, hm, hp.grown.full.live hm⟩, hue⟩
  have hd' := hp.descends_prune hd helive
  obtain ⟨cse, hne, hcse⟩ := hp.kept_node hm hue
  cases hd' with
  | nil =>
    rw [hn] at hm
    cases hm
    omega
  | @cons _ c _ ids _ hn'' hmem hd' =>
    rw [hn'] at hn''
    cases hn''
    refine ⟨c :: ids, (mem_branchesBelow_iff hw' hn').mpr ⟨c, hmem, ?_⟩, hmatch⟩
    refine hd'.branch hne ?_ ?_ hw'
    · rcases hpart.ends with hfull | ⟨h, hh, hleft⟩
      · obtain ⟨_, hnil, _⟩ := hp.flags hc hdepths hm hmi
        rw [List.length_cons, ← hdepth] at hfull
        rw [hnil (Nat.succ.inj hfull)] at hcse
        rw [List.subset_nil.mp hcse]
        rfl
      · rw [← hdepth] at hh
        rw [show m.leftJoin = true from (hp.flags hc hdepths hm hmi).2.2.1.mpr ⟨h, hh, hleft⟩,
          Bool.or_true]
    · intro a na ids' hna hae hne' habove
      obtain ⟨na', hna', hlive⟩ := hw'.live_above helive (hae.above hw')
      rw [hna] at hna'
      cases hna'
      obtain ⟨ma, csa, hma, _, rfl⟩ := hp.live_node hna hlive
      obtain ⟨idsa, hca⟩ := hw'.descends habove ⟨_, hna, hlive⟩
      have hfa : t.Descends f (c :: idsa) a := hcut.descends (.cons hn' hmem hca)
      have hnone := hp.between hc hdepths hpart hn hfi hma hm hfa (List.cons_ne_nil _ _)
        (hcut.descends hae) hne' hdepth
      exact hnone

/-- **Branches and continuations.** Below a walk to where an optional part begins, some branch of
the part has rows exactly if the walk goes on to where the part ends. -/
theorem Planted.extended_iff (hb : rootBinding? settings hop table = some binding)
    (htable : table ∈ hop.rootTables T) (hemit : ∀ h ∈ hop :: rest, h.emit = false)
    (hn : t.nodes[f]? = some n) (hfi : n.intermediate = false) (hu : t.Useful f)
    (hpart : OptionalPart (hop :: rest) (n.depth + 1) next)
    (ha : t.Answers g truth (t.path f) w) (hv : w.getLast? = some v) :
    (∃ b ∈ t.prune.branchesBelow f, ∃ ext, t.prune.Matches g truth v b ext) ↔
      ∃ ext, IsWalk g truth ((hop :: rest).take next) (w ++ ext) := by
  obtain ⟨hcut, _⟩ := prune_cut hp.grown.full.wellFormed
  obtain ⟨hwalk, _⟩ := hp.isWalk_of_answers hc hdepths hb htable hn hfi ha
  have hlt := hpart.lt
  have hsplit : (hop :: rest).take next
      = (hop :: rest).take (n.depth + 1) ++ (rest.drop n.depth).take (next - (n.depth + 1)) := by
    have hsum : next = n.depth + 1 + (next - (n.depth + 1)) := by omega
    conv => lhs; rw [hsum, List.take_add]
    rfl
  simp only [hsplit, hwalk.extend_iff hv, hcut.matches_iff]
  constructor
  · rintro ⟨b, hbranch, ext, hmatch⟩
    exact hp.follows_of_branch hc hdepths hemit hn hfi hu hpart (hp.last_row hn ha hv).1 hbranch
      hmatch
  · rintro ⟨ext, x, hf⟩
    obtain ⟨b, hbranch, hmatch⟩ := hp.branch_of_follows hc hdepths hn hfi hu hpart ha hv hf
    exact ⟨b, hbranch, ext, hmatch⟩

/-- A walk ends at a node as deep as its last hop. -/
theorem Planted.depth_of_isWalk (hb : rootBinding? settings hop table = some binding)
    (htable : table ∈ hop.rootTables T) (hn : t.nodes[f]? = some n)
    (hfi : n.intermediate = false) (ha : t.Answers g truth (t.path f) w) {d : Nat}
    (hd : d ≤ rest.length) (hw : IsWalk g truth ((hop :: rest).take (d + 1)) w) :
    n.depth = d := by
  obtain ⟨_, hhead⟩ := hp.isWalk_of_answers hc hdepths hb htable hn hfi ha
  obtain ⟨c, m, hm, _, hmd, ha'⟩ := hp.answers_of_isWalk hc hdepths hb htable hd hw hhead
  obtain rfl := hp.answers_unique hc hn hm ha ha'
  rw [hn] at hm
  cases hm
  exact hmd

end Tree

/-! ## 3. The optional statements of a run -/

/-- Every optional part ends somewhere. -/
theorem exists_optionalPart {hops : List Hop} {h : Hop} (hk : 0 < k) (hh : hops[k]? = some h)
    (hleft : h.leftJoin = true) : ∃ next, OptionalPart hops k next := by
  classical
  have hex : ∃ i, k < i ∧ (i = hops.length ∨ ∃ h, hops[i]? = some h ∧ h.leftJoin = true) :=
    ⟨hops.length, (List.getElem?_eq_some_iff.mp hh).1, Or.inl rfl⟩
  obtain ⟨hlt, hends⟩ := Nat.find_spec hex
  refine ⟨Nat.find hex, hk, ⟨h, hh, hleft⟩, hlt, hends, ?_⟩
  intro i h' hki hi hh'
  rw [← Bool.not_eq_true]
  intro hleft'
  exact Nat.find_min hex hi ⟨hki, Or.inr ⟨h', hh', hleft'⟩⟩

/-- Some branch of the stack has rows below the last row. -/
def Continued (g : StoredGraph T) (truth : Truth) (t : QueryTree) (s : PathStack)
    (w : List Visit) : Prop :=
  ∃ v, w.getLast? = some v ∧ ∃ b ∈ s.branches, ∃ ext, t.Matches g truth v b ext

/-- The rows satisfy the joins and filters of an optional stack, the `j`-th of the `i`-th tree, and
all its branches come back empty. -/
def ReturnedAt (g : StoredGraph T) (truth : Truth) (trees : List QueryTree) (w : List Visit)
    (i j : Nat) : Prop :=
  ∃ t all s, trees[i]? = some t ∧ t.pathStacks .optional = .ok all ∧ all[j]? = some s ∧
    t.Answers g truth s.nodes w ∧ ¬ Continued g truth t s w

section Trees

variable {run : Run} {trees : List QueryTree} (hc : T.Consistent) (hr : run.Placed hop rest)
  (htrees : run.trees settings T = .ok trees)
include hc hr htrees

/-- An optional stack goes on below a walk exactly if the walk goes on. -/
theorem Placed.continued_iff (hemit : ∀ h ∈ run.hops, h.emit = false)
    (hpart : OptionalPart run.hops k next) (hw : IsWalk g truth (run.hops.take k) w)
    {i j : Nat} {all : List PathStack} {s : PathStack} (ht : trees[i]? = some t)
    (hall : t.pathStacks .optional = .ok all) (hs : all[j]? = some s)
    (ha : t.Answers g truth s.nodes w) :
    Continued g truth t s w ↔ ∃ ext, IsWalk g truth (run.hops.take next) (w ++ ext) := by
  obtain ⟨⟨table, binding⟩, hcand, t, rfl, hp⟩ := getElem?_of_forall₂ (hr.planted hc htrees) ht
  obtain ⟨htable, hb⟩ := mem_candidates_iff.mp (List.mem_of_getElem? hcand)
  obtain ⟨f, hf, rfl⟩ : ∃ f ∈ t.prune.ends .optional, s = t.prune.stack .optional f := by
    have hmem := List.mem_of_getElem? hs
    rw [pathStacks_ok hall] at hmem
    split at hmem
    · cases hmem
    · obtain ⟨f, hf, heq⟩ := List.mem_map.mp hmem
      exact ⟨f, hf, heq.symm⟩
  obtain ⟨hu, n, hn, hfi, _⟩ := (hp.mem_ends_iff hc hr.rest_depths .optional).mp hf
  obtain ⟨hcut, _⟩ := prune_cut hp.grown.full.wellFormed
  have ha : t.Answers g truth (t.path f) w := by
    rw [← hp.path_prune, ← hcut.answers_iff]
    exact ha
  rw [hr.hops] at hpart hw hemit ⊢
  obtain ⟨d, rfl⟩ : ∃ d, k = d + 1 := ⟨k - 1, (Nat.succ_pred_eq_of_pos hpart.after).symm⟩
  have hd : d ≤ rest.length := by
    have := hpart.le_length
    have := hpart.lt
    simp only [List.length_cons] at *
    omega
  obtain rfl := hp.depth_of_isWalk hc hr.rest_depths hb htable hn hfi ha hd hw
  obtain ⟨_, _, v, w', _, rfl⟩ := hw.exists_cons
  obtain ⟨v', hv'⟩ : ∃ v', (v :: w').getLast? = some v' :=
    ⟨_, List.getLast?_eq_some_getLast (List.cons_ne_nil v w')⟩
  rw [← hp.extended_iff hc hr.rest_depths hb htable hemit hn hfi hu hpart ha hv']
  constructor
  · rintro ⟨v'', hv'', hbranch⟩
    obtain rfl : v' = v'' := Option.some.inj (hv'.symm.trans hv'')
    rwa [branches_stack] at hbranch
  · intro hbranch
    rw [← branches_stack] at hbranch
    exact ⟨v', hv', hbranch⟩

end Trees

/-- **Optional statements return the walks that have no continuation.** Every optional part ends
somewhere. A walk to where a part begins satisfies the joins and filters of exactly one optional
stack, and a branch of this stack has rows below it exactly if the walk goes on to where the part
ends. So the optional statements return the walks to where a part begins that do not go on to its
end, each once. -/
theorem optional_statements {run : Run} {trees : List QueryTree} (hT : T.Built)
    (hr : run.Placed hop rest) (hemit : ∀ h ∈ run.hops, h.emit = false)
    (htrees : run.trees settings T = .ok trees) (g : StoredGraph T) (truth : Truth) :
    (∀ {k h}, 0 < k → run.hops[k]? = some h → h.leftJoin = true →
      ∃ next, OptionalPart run.hops k next) ∧
    (∀ {k next w}, OptionalPart run.hops k next → IsWalk g truth (run.hops.take k) w →
      ∃ i j t all s, trees[i]? = some t ∧ t.pathStacks .optional = .ok all ∧ all[j]? = some s ∧
        t.Answers g truth s.nodes w ∧
        (∀ i' j', AnsweredAt g truth trees .optional w i' j' → i' = i ∧ j' = j) ∧
        (Continued g truth t s w ↔ ∃ ext, IsWalk g truth (run.hops.take next) (w ++ ext))) ∧
    (∀ w, (∃ i j, ReturnedAt g truth trees w i j) ↔
      ∃ k next, OptionalPart run.hops k next ∧ IsWalk g truth (run.hops.take k) w ∧
        ¬ ∃ ext, IsWalk g truth (run.hops.take next) (w ++ ext)) ∧
    (∀ {w i j i' j'}, ReturnedAt g truth trees w i j → ReturnedAt g truth trees w i' j' →
      i = i' ∧ j = j') := by
  have hc := hT.consistent
  have hanswered : ∀ {w i j}, ReturnedAt g truth trees w i j →
      AnsweredAt g truth trees .optional w i j := by
    rintro w i j ⟨t, all, s, ht, hall, hs, ha, _⟩
    exact ⟨t, all, s, ht, hall, hs, ha⟩
  -- a walk to where a part begins has its one stack
  have hone : ∀ {k next w}, OptionalPart run.hops k next → IsWalk g truth (run.hops.take k) w →
      ∃ i j, AnsweredAt g truth trees .optional w i j := by
    intro k next w hpart hw
    have hsucc : k - 1 + 1 = k := Nat.succ_pred_eq_of_pos hpart.after
    refine (hr.answered_iff hc htrees .optional).mpr ⟨k - 1, ?_, by rwa [hsucc]⟩
    rw [EndsAt, hsucc]
    exact hpart.begins
  refine ⟨exists_optionalPart, ?_, fun w => ⟨?_, ?_⟩, ?_⟩
  · intro k next w hpart hw
    obtain ⟨i, j, hij⟩ := hone hpart hw
    obtain ⟨t, all, s, ht, hall, hs, ha⟩ := id hij
    exact ⟨i, j, t, all, s, ht, hall, hs, ha,
      fun i' j' hij' => hr.answered_unique hc htrees hij' hij,
      hr.continued_iff hc htrees hemit hpart hw ht hall hs ha⟩
  · rintro ⟨i, j, hij⟩
    obtain ⟨d, ⟨h, hh, hleft⟩, hw⟩ :=
      (hr.answered_iff hc htrees .optional).mp ⟨i, j, hanswered hij⟩
    obtain ⟨next, hpart⟩ := exists_optionalPart (Nat.succ_pos d) hh hleft
    obtain ⟨t, all, s, ht, hall, hs, ha, hnot⟩ := hij
    rw [hr.continued_iff hc htrees hemit hpart hw ht hall hs ha] at hnot
    exact ⟨d + 1, next, hpart, hw, hnot⟩
  · rintro ⟨k, next, hpart, hw, hnot⟩
    obtain ⟨i, j, t, all, s, ht, hall, hs, ha⟩ := hone hpart hw
    rw [← hr.continued_iff hc htrees hemit hpart hw ht hall hs ha] at hnot
    exact ⟨i, j, t, all, s, ht, hall, hs, ha, hnot⟩
  · intro w i j i' j' h h'
    exact hr.answered_unique hc htrees (hanswered h) (hanswered h')

end Run

namespace People

theorem optionalPart : Run.OptionalPart [everyone, friends true] 1 2 where
  after := Nat.zero_lt_one
  begins := ⟨friends true, rfl, rfl⟩
  lt := Nat.lt_succ_self 1
  ends := Or.inl rfl
  inner hlt hlt' := absurd hlt' (Nat.not_lt.mpr hlt)

/-- The second person knows nobody. -/
theorem not_reaches_second {optional : Bool} {ext : List Visit} {v : Visit} :
    ¬ (friends optional).Reaches graph asLabels ⟨person, none, row 2⟩ ext v := by
  intro hr
  cases hr with
  | edge hk => cases hk
  | endpoint hk => cases hk
  | @vertex _ d _ e _ r _ hk hd hrow _ hkey _ _ =>
    cases hk
    rw [List.mem_singleton.mp hd] at hkey
    have hrow : r ∈ rows e := hrow
    unfold rows at hrow
    split at hrow
    · simp only [List.mem_cons, List.not_mem_nil, or_false] at hrow
      rcases hrow with rfl | rfl <;> cases hkey
    · split at hrow
      · rw [List.mem_singleton.mp hrow] at hkey
        exact absurd hkey (by decide)
      · cases hrow

/-- Of two people, the optional statement returns the one who knows nobody. -/
theorem optional_statements_of_friends :
    ∃ trees, Run.trees {} topology ⟨[everyone, friends true]⟩ = .ok trees ∧
      (∃ i j, Run.ReturnedAt graph asLabels trees [⟨person, none, row 2⟩] i j) ∧
      ¬ ∃ i j, Run.ReturnedAt graph asLabels trees [start] i j := by
  have hok : (Run.trees {} topology ⟨[everyone, friends true]⟩).isOk = true := by decide +kernel
  cases htrees : Run.trees {} topology ⟨[everyone, friends true]⟩ with
  | error e =>
    rw [htrees] at hok
    cases hok
  | ok trees =>
    obtain ⟨_, _, hreturned, _⟩ :=
      Run.optional_statements built (placed true) (by decide) htrees graph asLabels
    refine ⟨trees, rfl, (hreturned _).mpr ⟨1, 2, optionalPart, ?_, ?_⟩, fun hstart => ?_⟩
    · exact ⟨starts (List.mem_cons_of_mem _ List.mem_cons_self), _, .nil _⟩
    · rintro ⟨ext, _, x, hf⟩
      cases hf with
      | cons hr => exact not_reaches_second hr
    · obtain ⟨k, next, hpart, hw, hnot⟩ := (hreturned _).mp hstart
      have hle := hpart.le_length
      have hlt := hpart.lt
      have hpos := hpart.after
      simp only [List.length_cons, List.length_nil] at hle
      obtain rfl : next = 2 := by omega
      exact hnot ⟨reached, isWalk_reached true⟩

end People

end TraversalSql
