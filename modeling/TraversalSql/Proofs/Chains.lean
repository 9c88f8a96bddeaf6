import TraversalSql.Proofs.Composing

/-!
# Chains of sub-selects

A path that visits a table twice is read in segments. The sub-selects of the segments are joined on
columns that were requested before the first of them was written, so each of them exports what the
ones next to it and the outermost select refer to: `IsChained` and `IsAbsent` say it of the main
path and of the branches that must come back empty.
-/

set_option autoImplicit false

namespace TraversalSql

open QueryTree

namespace Composer

variable {c : Composer} {T : Topology} {hops : List Hop} {id a b : Nat} {ids nodes : List Nat}
  {columns outputs : List NodeColumn} {root : Option RootCondition} {w : Workspace}

/-! ## 1. Chains of sub-selects -/

/-- The sub-select reads a segment and exports what is wanted of its nodes. -/
def IsSub (c : Composer) (T : Topology) (root : Option RootCondition) (wanted : List NodeColumn)
    (segment : List Nat) (sub : SubSelect) : Prop :=
  ∃ columns, c.IsFlat T root segment columns sub.body ∧
    ∀ x, x ∈ columns ↔ x.1 ∈ segment ∧ x ∈ wanted

theorem Sound.subSelect_meets (hs : c.Sound T hops) {segment : List Nat}
    (hseg : c.IsSegment T root segment) (hvalid : ∀ x ∈ w.wanted, c.Has T x) :
    Meets c.Refuses (c.subSelect segment root) w fun sub w' =>
      c.IsSub T root w.wanted segment sub ∧ w.Goes (c.Has T) [sub.number] w' ∧
        w'.wanted = w.wanted := by
  have hmem : ∀ x, x ∈ (segment.flatMap fun id => w.wanted.filter fun y => y.1 == id) ↔
      x.1 ∈ segment ∧ x ∈ w.wanted := by
    intro x
    simp only [List.mem_flatMap, List.mem_filter, beq_iff_eq]
    constructor
    · rintro ⟨id, hid, hx, rfl⟩
      exact ⟨hid, hx⟩
    · rintro ⟨hid, hx⟩
      exact ⟨x.1, hid, hx, rfl⟩
  simp only [subSelect, meets_bind, meets_get]
  refine (hs.flat_meets hseg fun x hx => ?_).mono ?_
  · exact ⟨((hmem x).mp hx).1, hvalid x ((hmem x).mp hx).2⟩
  · rintro body w₁ ⟨hbody, hwanted₁, hsub₁⟩
    refine nextSubSelect_meets.mono (Q := fun k w' => w₁.Goes (c.Has T) [k] w' ∧
      w'.wanted = w₁.wanted) ?_
    rintro k w₂ ⟨hg, hwanted₂⟩
    refine ⟨⟨_, hbody, hmem⟩, ?_, hwanted₂.trans hwanted₁⟩
    have hg₁ : w.Goes (c.Has T) [] w₁ :=
      ⟨fun x hx => hwanted₁ ▸ hx, fun x hx => Or.inl (hwanted₁ ▸ hx), rfl, hsub₁⟩
    exact hg₁.trans hg

theorem ends_eq {segment : List Nat} (ha : segment.head? = some a)
    (hb : segment.getLast? = some b) : ends segment = .ok (a, b) := by
  rw [ends, ha, hb]
  rfl

theorem exists_ends {segment : List Nat} (h : segment ≠ []) :
    ∃ first last, segment.head? = some first ∧ segment.getLast? = some last :=
  ⟨_, _, List.head?_eq_some_head h, List.getLast?_eq_some_getLast h⟩

/-- The columns on which the segments behind `left` are joined are wanted. -/
inductive Carried (c : Composer) (wanted : List NodeColumn) : Nat → List (List Nat) → Prop
  | nil {left : Nat} : Carried c wanted left []
  | cons {left first last : Nat} {segment : List Nat} {segments : List (List Nat)} :
      segment.head? = some first → segment.getLast? = some last →
      (left, (c.joinAt first).1) ∈ wanted → (first, (c.joinAt first).2) ∈ wanted →
      Carried c wanted last segments → Carried c wanted left (segment :: segments)

theorem Carried.mono {wanted wanted' : List NodeColumn} {left : Nat} {segments : List (List Nat)}
    (h : c.Carried wanted left segments) (hsub : ∀ x ∈ wanted, x ∈ wanted') :
    c.Carried wanted' left segments := by
  induction h with
  | nil => exact .nil
  | cons hfirst hlast hl hr _ ih => exact .cons hfirst hlast (hsub _ hl) (hsub _ hr) ih

theorem Sound.wantCarried_meets (hs : c.Sound T hops) : ∀ {segments : List (List Nat)}
    {segment : List Nat} {left : Nat} {w : Workspace}, segment.getLast? = some left →
    (∀ s ∈ segments, s ≠ []) → c.tree.GoesDown (segment ++ segments.flatten) →
    Meets c.Refuses (c.wantCarried (segment :: segments)) w fun _ w' =>
      w.Goes (c.Has T) [] w' ∧ c.Carried w'.wanted left segments := by
  intro segments
  induction segments with
  | nil =>
    intro segment left w _ _ _
    exact ⟨.refl w, .nil⟩
  | cons next segments ih =>
    intro segment left w hleft hne hd
    obtain ⟨first, last, hfirst, hlast⟩ := exists_ends (hne next List.mem_cons_self)
    have hbehind := hd.behind hleft
    rw [List.flatten_cons] at hbehind
    have hhead : (next ++ segments.flatten).head? = some first := by
      rw [List.head?_append, hfirst]
      rfl
    have hp := hbehind.parent_head hhead
    have hlive : c.tree.Live first := by
      refine hbehind.live first (List.mem_cons_of_mem _ (List.mem_append_left _ ?_))
      exact List.mem_of_mem_head? hfirst
    obtain ⟨hl, hr⟩ := hs.has_joinAt hlive hp
    simp only [wantCarried, hleft, hfirst, hs.joinColumns_eq hlive hp, meets_bind, meets_ok]
    refine (want_meets hl).mono ?_
    rintro _ w₁ ⟨hg₁, hmem₁⟩
    refine (want_meets hr).mono ?_
    rintro _ w₂ ⟨hg₂, hmem₂⟩
    refine (ih hlast (fun s hs => hne s (List.mem_cons_of_mem _ hs)) ?_).mono ?_
    · exact hbehind.part (List.suffix_cons _ _).isInfix
    · rintro _ w₃ ⟨hg₃, hcarried⟩
      refine ⟨(hg₁.trans hg₂).trans hg₃, .cons hfirst hlast ?_ ?_ hcarried⟩
      · exact hg₃.kept _ (hg₂.kept _ hmem₁)
      · exact hg₃.kept _ hmem₂

/-- The sub-selects behind one that ends at `left`, each joined to the one before. -/
inductive Linked (c : Composer) (T : Topology) (root : Option RootCondition)
    (wanted : List NodeColumn) : Nat → Nat → List (List Nat) → List LinkedSelect → Prop
  | nil {left owner : Nat} : Linked c T root wanted left owner [] []
  | cons {left owner first last : Nat} {segment : List Nat} {segments : List (List Nat)}
      {sub : SubSelect} {links : List LinkedSelect} :
      segment.head? = some first → segment.getLast? = some last →
      (left, (c.joinAt first).1) ∈ wanted → (first, (c.joinAt first).2) ∈ wanted →
      c.IsSub T root wanted segment sub →
      Linked c T root wanted last sub.number segments links →
      Linked c T root wanted left owner (segment :: segments)
        (⟨sub, ⟨owner, c.keyAt (left, (c.joinAt first).1)⟩,
          ⟨sub.number, c.keyAt (first, (c.joinAt first).2)⟩⟩ :: links)

theorem Sound.linked_meets (hs : c.Sound T hops) {wanted : List NodeColumn} {left : Nat}
    {segments : List (List Nat)} (hcarried : c.Carried wanted left segments) :
    ∀ {owner : Nat} {w : Workspace}, w.wanted = wanted → (∀ x ∈ wanted, c.Has T x) →
    (∀ s ∈ segments, c.IsSegment T root s) → c.tree.GoesDown (left :: segments.flatten) →
    Meets c.Refuses (c.linked root left owner segments) w fun links w' =>
      c.Linked T root wanted left owner segments links ∧
        w.Goes (c.Has T) (links.map fun l => l.sub.number) w' ∧ w'.wanted = wanted := by
  induction hcarried with
  | nil =>
    intro owner w hwanted _ _ _
    exact ⟨.nil, .refl w, hwanted⟩
  | @cons left first last segment segments hfirst hlast hl hr _ ih =>
    intro owner w hwanted hvalid hsegs hd
    rw [List.flatten_cons] at hd
    have hhead : (segment ++ segments.flatten).head? = some first := by
      rw [List.head?_append, hfirst]
      rfl
    have hp := hd.parent_head hhead
    have hleft := hd.live left List.mem_cons_self
    have hlive : c.tree.Live first := (hvalid _ hr).1
    simp only [linked, meets_bind]
    refine (hs.subSelect_meets (hsegs segment List.mem_cons_self) (hwanted ▸ hvalid)).mono ?_
    rintro sub w₁ ⟨hsub, hg₁, hwanted₁⟩
    simp only [ends_eq hfirst hlast, hs.joinColumns_eq hlive hp, key_eq hleft, key_eq hlive,
      meets_ok, meets_pure]
    refine (ih (hwanted₁.trans hwanted) hvalid
      (fun s hs => hsegs s (List.mem_cons_of_mem _ hs)) ?_).mono ?_
    · exact (hd.part (List.suffix_cons _ _).isInfix).behind hlast
    · rintro links w₂ ⟨hlinks, hg₂, hwanted₂⟩
      rw [hwanted] at hsub
      exact ⟨.cons hfirst hlast hl hr hsub hlinks, hg₁.trans hg₂, hwanted₂⟩

/-- Some sub-select exports the columns of a node of the path. -/
theorem owner?_spec {segments : List (List Nat)} {numbers : List Nat}
    (hlen : segments.length = numbers.length) (hid : id ∈ segments.flatten) :
    ∃ k segment, owner? segments numbers id = some k ∧ (segment, k) ∈ segments.zip numbers ∧
      id ∈ segment := by
  have howner : owner? segments numbers id
      = ((segments.zip numbers).reverse.find? fun x => x.1.contains id).map Prod.snd := rfl
  cases hfind : (segments.zip numbers).reverse.find? fun x => x.1.contains id with
  | some found =>
    obtain ⟨segment, k⟩ := found
    have hmem := List.mem_reverse.mp (List.mem_of_find?_eq_some hfind)
    have hcontains := List.find?_some hfind
    exact ⟨k, segment, by rw [howner, hfind]; rfl, hmem, List.contains_iff_mem.mp hcontains⟩
  | none =>
    obtain ⟨segment, hsegment, hid⟩ := List.mem_flatten.mp hid
    obtain ⟨i, hi, rfl⟩ := List.getElem_of_mem hsegment
    have hmem : (segments[i], numbers[i]) ∈ (segments.zip numbers).reverse := by
      rw [List.mem_reverse, List.mem_iff_getElem]
      exact ⟨i, by simp [hi, ← hlen], List.getElem_zip⟩
    have := List.find?_eq_none.mp hfind _ hmem
    exact absurd (List.contains_iff_mem.mpr hid) this

end Composer

/-- The sub-selects of a chain, in their order. -/
def ChainedSelect.subs (s : ChainedSelect) : List SubSelect :=
  s.first :: s.rest.map LinkedSelect.sub

def ChainedSelect.numbers (s : ChainedSelect) : List Nat := s.subs.map SubSelect.number

def PathSelect.subs : PathSelect → List SubSelect
  | flat _ => []
  | chained s => s.subs

/-- The numbers of the sub-selects, in the order in which they were named. -/
def PathSelect.numbers (p : PathSelect) : List Nat := p.subs.map SubSelect.number

def AbsentBranch.numbers (b : AbsentBranch) : List Nat := b.body.numbers ++ [b.number]

/-- The sub-select that the column names projects it. -/
def ExportedColumn.From (e : ExportedColumn) (subs : List SubSelect) : Prop :=
  ∃ sub ∈ subs, sub.number = e.owner ∧ e.key ∈ sub.body.columns

namespace Composer

variable {c : Composer} {T : Topology} {hops : List Hop} {id a b : Nat} {ids nodes : List Nat}
  {columns outputs : List NodeColumn} {root : Option RootCondition} {w : Workspace}
  {segments : List (List Nat)} {wanted : List NodeColumn}

/-- A column of a node as it is exported. -/
def exportAt (c : Composer) (segments : List (List Nat)) (numbers : List Nat) (x : NodeColumn) :
    ExportedColumn := ⟨(owner? segments numbers x.1).getD 0, c.keyAt x⟩

theorem exports_eq {numbers : List Nat} (hlen : segments.length = numbers.length) :
    ∀ {outputs : List NodeColumn},
    (∀ x ∈ outputs, c.tree.Live x.1 ∧ x.1 ∈ segments.flatten) →
    c.exports segments numbers outputs = .ok (outputs.map (c.exportAt segments numbers)) := by
  intro outputs
  induction outputs with
  | nil => exact fun _ => rfl
  | cons x outputs ih =>
    intro hall
    obtain ⟨id, col⟩ := x
    obtain ⟨hlive, hmem⟩ := hall (id, col) List.mem_cons_self
    obtain ⟨k, _, hk, _⟩ := owner?_spec hlen hmem
    simp only [exports, key_eq hlive, hk, ih fun x hx => hall x (List.mem_cons_of_mem _ hx),
      bind, Except.bind, pure, Except.pure, List.map_cons, exportAt, Option.getD_some]

/-- The chain reads the segments one after the other and exports the columns. -/
structure IsChained (c : Composer) (T : Topology) (root : Option RootCondition)
    (wanted : List NodeColumn) (segments : List (List Nat)) (outputs : List NodeColumn)
    (s : ChainedSelect) : Prop where
  links : ∃ segment rest last, segments = segment :: rest ∧ segment.getLast? = some last ∧
    c.IsSub T root wanted segment s.first ∧
    c.Linked T root wanted last s.first.number rest s.rest
  outputs : s.outputs
    = distinctOn ExportedColumn.key [] (outputs.map (c.exportAt segments s.numbers))

theorem Linked.subs {left owner : Nat} {links : List LinkedSelect}
    (h : c.Linked T root wanted left owner segments links) :
    List.Forall₂ (c.IsSub T root wanted) segments (links.map LinkedSelect.sub) := by
  induction h with
  | nil => exact .nil
  | cons _ _ _ _ hsub _ ih => exact .cons hsub ih

theorem IsChained.subs {s : ChainedSelect} (h : c.IsChained T root wanted segments outputs s) :
    List.Forall₂ (c.IsSub T root wanted) segments s.subs := by
  obtain ⟨segment, rest, last, rfl, _, hfirst, hlinks⟩ := h.links
  exact .cons hfirst hlinks.subs

/-- A sub-select projects what is wanted of its nodes. -/
theorem IsSub.projects {segment : List Nat} {sub : SubSelect} {x : NodeColumn}
    (h : c.IsSub T root wanted segment sub) (hid : x.1 ∈ segment) (hx : x ∈ wanted) :
    c.keyAt x ∈ sub.body.columns := by
  obtain ⟨columns, hflat, hmem⟩ := h
  rw [hflat.columns]
  exact List.mem_map_of_mem ((hmem x).mpr ⟨hid, hx⟩)

/-- The owner of a wanted column projects it. -/
theorem IsChained.exported {s : ChainedSelect} {x : NodeColumn}
    (h : c.IsChained T root wanted segments outputs s) (hid : x.1 ∈ segments.flatten)
    (hx : x ∈ wanted) : ∃ segment sub, (segment, sub) ∈ segments.zip s.subs ∧ x.1 ∈ segment ∧
      owner? segments s.numbers x.1 = some sub.number ∧ c.IsSub T root wanted segment sub ∧
      c.keyAt x ∈ sub.body.columns := by
  have hsubs := h.subs
  have hlen : segments.length = s.numbers.length := by
    rw [ChainedSelect.numbers, List.length_map, hsubs.length_eq]
  obtain ⟨k, _, hk, hmem, hid⟩ := owner?_spec hlen hid
  rw [ChainedSelect.numbers, List.zip_map_right, List.mem_map] at hmem
  obtain ⟨⟨segment, sub⟩, hzip, heq⟩ := hmem
  obtain ⟨rfl, rfl⟩ := Prod.mk.inj heq
  have hsub := List.forall₂_zip hsubs hzip
  exact ⟨segment, sub, hzip, hid, hk, hsub, hsub.projects hid hx⟩

theorem Sound.chained_meets (hs : c.Sound T hops) (hr : c.IsRoute T root nodes)
    (hcut : c.Cut nodes segments) {segment : List Nat} {rest : List (List Nat)} {last : Nat}
    (hsegments : segments = segment :: rest) (hlast : segment.getLast? = some last)
    (hcarried : c.Carried w.wanted last rest) (hvalid : ∀ x ∈ w.wanted, c.Has T x)
    (houtputs : ∀ x ∈ outputs, x.1 ∈ nodes) :
    Meets c.Refuses (c.chained segments outputs root) w fun r w' =>
      c.IsChained T root w.wanted segments outputs r.1 ∧ r.2 = r.1.numbers ∧
        w.Goes (c.Has T) r.1.numbers w' ∧ w'.wanted = w.wanted := by
  subst hsegments
  have hflat := hcut.flatten
  rw [List.flatten_cons] at hflat
  obtain ⟨first, _, hfirst, _⟩ := exists_ends (hcut.ne_nil segment List.mem_cons_self)
  simp only [chained, meets_bind]
  refine (hs.subSelect_meets (hr.segment hcut List.mem_cons_self) hvalid).mono ?_
  rintro sub w₁ ⟨hsub, hg₁, hwanted₁⟩
  simp only [ends_eq hfirst hlast, meets_ok]
  have hbehind : c.tree.GoesDown (last :: rest.flatten) := by
    have hd := hr.down
    rw [← hflat] at hd
    exact hd.behind hlast
  refine (hs.linked_meets hcarried hwanted₁ hvalid
    (fun s hs' => hr.segment hcut (List.mem_cons_of_mem _ hs')) hbehind).mono ?_
  rintro links w₂ ⟨hlinks, hg₂, hwanted₂⟩
  have hlen : (segment :: rest).length
      = (sub.number :: links.map fun l => l.sub.number).length := by
    rw [List.length_cons, List.length_cons, List.length_map, hlinks.subs.length_eq,
      List.length_map]
  have hexports := exports_eq (c := c) hlen fun x hx => by
    have hmem := houtputs x hx
    exact ⟨hr.down.live _ hmem, hcut.flatten ▸ hmem⟩
  have hnumbers : ∀ outputs, (⟨outputs, sub, links⟩ : ChainedSelect).numbers
      = sub.number :: links.map fun l => l.sub.number := by
    intro outputs
    simp only [ChainedSelect.numbers, ChainedSelect.subs, List.map_cons, List.map_map]
    rfl
  simp only [hexports, meets_ok, meets_pure]
  rw [hnumbers]
  refine ⟨⟨⟨segment, rest, last, rfl, hlast, hsub, hlinks⟩, ?_⟩, rfl, hg₁.trans hg₂, hwanted₂⟩
  rw [hnumbers]

/-! ## 2. Paths -/

/-- The select reads the nodes of a path, in one piece or in several, and projects the columns. -/
inductive IsPath (c : Composer) (T : Topology) (root : Option RootCondition) (nodes : List Nat)
    (outputs : List NodeColumn) : PathSelect → Prop
  | flat {s : FlatSelect} :
      c.IsFlat T root nodes outputs s → IsPath c T root nodes outputs (.flat s)
  | chained {wanted : List NodeColumn} {segments : List (List Nat)} {s : ChainedSelect} :
      c.IsRoute T root nodes → c.Cut nodes segments →
      (∀ x ∈ outputs, x.1 ∈ nodes ∧ x ∈ wanted) →
      c.IsChained T root wanted segments outputs s → IsPath c T root nodes outputs (.chained s)

theorem Cut.exists_cons (hcut : c.Cut nodes segments) (hne : nodes ≠ []) :
    ∃ segment rest last, segments = segment :: rest ∧ segment.getLast? = some last := by
  cases segments with
  | nil => exact absurd hcut.flatten.symm hne
  | cons segment rest =>
    obtain ⟨_, last, _, hlast⟩ := exists_ends (hcut.ne_nil segment List.mem_cons_self)
    exact ⟨segment, rest, last, rfl, hlast⟩

/-- The chain of a path whose outputs were requested. -/
theorem Sound.path_meets (hs : c.Sound T hops) (hr : c.IsRoute T root nodes)
    (hcut : c.Cut nodes segments) (hvalid : ∀ x ∈ w.wanted, c.Has T x)
    (houtputs : ∀ x ∈ outputs, x.1 ∈ nodes ∧ x ∈ w.wanted) :
    Meets c.Refuses (do c.wantCarried segments; c.chained segments outputs root) w fun r w' =>
      ∃ wanted, (∀ x ∈ w.wanted, x ∈ wanted) ∧ r.2 = r.1.numbers ∧
        c.IsChained T root wanted segments outputs r.1 ∧
        w.Goes (c.Has T) r.1.numbers w' := by
  obtain ⟨segment, rest, last, hsegments, hlast⟩ := hcut.exists_cons hr.ne_nil
  have hflat := hcut.flatten
  rw [hsegments, List.flatten_cons] at hflat
  simp only [meets_bind]
  have hwant : Meets c.Refuses (c.wantCarried segments) w fun _ w' =>
      w.Goes (c.Has T) [] w' ∧ c.Carried w'.wanted last rest := by
    rw [hsegments]
    refine hs.wantCarried_meets hlast ?_ (hflat ▸ hr.down)
    intro s hs'
    exact hcut.ne_nil s (hsegments ▸ List.mem_cons_of_mem _ hs')
  refine hwant.mono ?_
  rintro _ w₁ ⟨hg₁, hcarried⟩
  refine (hs.chained_meets hr hcut hsegments hlast hcarried (hg₁.all_valid hvalid)
    fun x hx => (houtputs x hx).1).mono ?_
  rintro r w₂ ⟨hchained, hnumbers, hg₂, _⟩
  exact ⟨w₁.wanted, hg₁.kept, hnumbers, hchained, hg₁.trans hg₂⟩

theorem Sound.segmented_meets (hs : c.Sound T hops) (hr : c.IsRoute T root nodes)
    (hcut : c.Cut nodes segments) (hvalid : ∀ x ∈ w.wanted, c.Has T x)
    (houtputs : ∀ x ∈ outputs, x.1 ∈ nodes ∧ c.Has T x)
    (hwanted : segments.length ≠ 1 → ∀ x ∈ outputs, x ∈ w.wanted) :
    Meets c.Refuses (c.segmented segments outputs root) w fun p w' =>
      c.IsPath T root nodes outputs p ∧ w.Goes (c.Has T) p.numbers w' := by
  unfold segmented
  split
  · rename_i segment
    have hnodes : nodes = segment := by
      rw [← hcut.flatten]
      exact List.append_nil _
    subst hnodes
    simp only [meets_bind, meets_pure]
    refine (hs.flat_meets (hr.segment hcut List.mem_cons_self) houtputs).mono ?_
    rintro s w' ⟨hflat, hwanted', hsub'⟩
    refine ⟨.flat hflat, fun x hx => hwanted' ▸ hx, fun x hx => Or.inl (hwanted' ▸ hx), rfl, hsub'⟩
  · rename_i hmany
    have hlen : segments.length ≠ 1 := by
      intro h
      obtain ⟨segment, rfl⟩ := List.length_eq_one_iff.mp h
      exact hmany segment rfl
    have houtputs' : ∀ x ∈ outputs, x.1 ∈ nodes ∧ x ∈ w.wanted :=
      fun x hx => ⟨(houtputs x hx).1, hwanted hlen x hx⟩
    have hpath := hs.path_meets hr hcut hvalid houtputs'
    simp only [meets_bind, meets_pure] at hpath ⊢
    refine hpath.mono fun _ w₁ h₁ => h₁.mono ?_
    rintro r w₂ ⟨wanted, hsub, _, hchained, hg⟩
    refine ⟨.chained hr hcut ?_ hchained, hg⟩
    exact fun x hx => ⟨(houtputs x hx).1, hsub x (houtputs' x hx).2⟩

theorem Sound.branchPath_meets (hs : c.Sound T hops) (hr : c.IsRoute T none nodes)
    (hvalid : ∀ x ∈ w.wanted, c.Has T x) (houtputs : ∀ x ∈ outputs, x.1 ∈ nodes ∧ c.Has T x) :
    Meets c.Refuses (c.branchPath nodes outputs) w fun p w' =>
      c.IsPath T none nodes outputs p ∧ w.Goes (c.Has T) p.numbers w' := by
  obtain ⟨segments, hsegments, hcut⟩ := segments_eq hr.down.live
  simp only [branchPath, hsegments, meets_bind, meets_ok]
  split
  · simp only [meets_bind]
    refine (wantAll_meets fun x hx => (houtputs x hx).2).mono ?_
    rintro _ w₁ ⟨hg₁, hall⟩
    refine (hs.segmented_meets hr hcut (hg₁.all_valid hvalid) houtputs fun _ => hall).mono ?_
    rintro p w₂ ⟨hpath, hg₂⟩
    exact ⟨hpath, hg₁.trans hg₂⟩
  · rename_i hone
    have hone : segments.length = 1 := by simpa using hone
    exact hs.segmented_meets hr hcut hvalid houtputs fun hne => absurd hone hne

/-! ## 3. Branches that must come back empty -/

/-- How a branch is joined to its frontier, which exports the column. -/
structure IsLink (c : Composer) (wanted : List NodeColumn) (frontier : Nat) (l : BranchLink) :
    Prop where
  down : c.tree.GoesDown (frontier :: l.nodes)
  first : l.nodes.head? = some l.first
  last : l.nodes.getLast? = some l.last
  columns : (l.carried, l.joined) = c.joinAt l.first
  wanted : (frontier, l.carried) ∈ wanted

theorem Sound.branchLinks_meets (hs : c.Sound T hops) {frontier : Nat} :
    ∀ {branches : List (List Nat)} {w : Workspace},
    (∀ b ∈ branches, c.tree.GoesDown (frontier :: b) ∧ b ≠ []) →
    Meets c.Refuses (c.branchLinks frontier branches) w fun links w' =>
      w.Goes (c.Has T) [] w' ∧ ∀ l ∈ links, c.IsLink w'.wanted frontier l := by
  intro branches
  induction branches with
  | nil =>
    intro w _
    exact ⟨.refl w, nofun⟩
  | cons branch branches ih =>
    intro w hall
    obtain ⟨hd, hne⟩ := hall branch List.mem_cons_self
    obtain ⟨first, last, hfirst, hlast⟩ := exists_ends hne
    have hp := hd.parent_head hfirst
    have hlive : c.tree.Live first :=
      hd.live first (List.mem_cons_of_mem _ (List.mem_of_mem_head? hfirst))
    simp only [branchLinks, ends_eq hfirst hlast, hs.joinColumns_eq hlive hp, meets_bind, meets_ok,
      meets_pure]
    refine (want_meets (hs.has_joinAt hlive hp).1).mono ?_
    rintro _ w₁ ⟨hg₁, hmem⟩
    refine (ih fun b hb => hall b (List.mem_cons_of_mem _ hb)).mono ?_
    rintro links w₂ ⟨hg₂, hlinks⟩
    refine ⟨hg₁.trans hg₂, ?_⟩
    intro l hl
    rcases List.mem_cons.mp hl with rfl | hl
    · exact ⟨hd, hfirst, hlast, rfl, hg₂.kept _ hmem⟩
    · exact hlinks l hl

/-- The branch reads a path below the frontier, and is joined to what the frontier exports. -/
structure IsAbsent (c : Composer) (T : Topology) (frontier owner : Nat) (l : BranchLink)
    (b : AbsentBranch) : Prop where
  body : c.IsPath T none l.nodes [(l.first, l.joined), (l.last, .id)] b.body
  carried : b.carried = ⟨owner, c.keyAt (frontier, l.carried)⟩
  joined : b.joined = c.keyAt (l.first, l.joined)
  terminal : b.terminal = c.keyAt (l.last, .id)

theorem Sound.absentBranches_meets (hs : c.Sound T hops) {wanted : List NodeColumn}
    {frontier owner : Nat} : ∀ {links : List BranchLink} {w : Workspace},
    (∀ l ∈ links, c.IsLink wanted frontier l) → (∀ x ∈ w.wanted, c.Has T x) →
    Meets c.Refuses (c.absentBranches frontier owner links) w fun bs w' =>
      List.Forall₂ (c.IsAbsent T frontier owner) links bs ∧
        w.Goes (c.Has T) (bs.flatMap AbsentBranch.numbers) w' := by
  intro links
  induction links with
  | nil =>
    intro w _ _
    exact ⟨.nil, .refl w⟩
  | cons l links ih =>
    intro w hall hvalid
    have hl := hall l List.mem_cons_self
    have hfirst := List.mem_of_mem_head? hl.first
    have hlast := List.mem_of_getLast? hl.last
    have hfront := hl.down.live frontier List.mem_cons_self
    have hlive : ∀ id ∈ l.nodes, c.tree.Live id :=
      fun id hid => hl.down.live id (List.mem_cons_of_mem _ hid)
    have hjoin := (hs.has_joinAt (hlive _ hfirst) (hl.down.parent_head hl.first)).2
    rw [← hl.columns] at hjoin
    have hroute : c.IsRoute T none l.nodes :=
      ⟨hl.down.part (List.suffix_cons _ _).isInfix, List.ne_nil_of_mem hfirst, nofun⟩
    simp only [absentBranches, meets_bind]
    refine (hs.branchPath_meets hroute hvalid ?_).mono ?_
    · simp only [List.forall_mem_cons, List.not_mem_nil, false_implies, implies_true, and_true]
      exact ⟨⟨hfirst, hjoin⟩, hlast, hlive _ hlast, hs.known (hlive _ hlast)⟩
    · rintro body w₁ ⟨hbody, hg₁⟩
      refine nextSubSelect_meets.mono (Q := fun k w' => w₁.Goes (c.Has T) [k] w' ∧
        w'.wanted = w₁.wanted) ?_
      rintro k w₂ ⟨hg₂, _⟩
      simp only [key_eq hfront, key_eq (hlive _ hfirst), key_eq (hlive _ hlast), meets_ok,
        meets_pure]
      refine (ih (fun l' hl' => hall l' (List.mem_cons_of_mem _ hl'))
        ((hg₁.trans hg₂).all_valid hvalid)).mono ?_
      rintro bs w₃ ⟨hbs, hg₃⟩
      exact ⟨.cons ⟨hbody, rfl, rfl, rfl⟩ hbs, (hg₁.trans hg₂).trans hg₃⟩

/-- A branch is joined to a column that the main path exports. -/
def IsJoinedTo (c : Composer) (T : Topology) (body : PathSelect) (b : AbsentBranch) : Prop :=
  ∃ frontier wanted l, c.IsLink wanted frontier l ∧ c.IsAbsent T frontier b.carried.owner l b ∧
    b.carried.From body.subs

theorem Sound.optional_meets (hs : c.Sound T hops) (hr : c.IsRoute T root nodes)
    (hcut : c.Cut nodes segments) {stack : PathStack} {frontier : Nat}
    (hfrontier : stack.terminal? = some frontier) (hmem : frontier ∈ nodes)
    (hbranches : ∀ b ∈ stack.branches, c.tree.GoesDown (frontier :: b) ∧ b ≠ [])
    (hvalid : ∀ x ∈ w.wanted, c.Has T x) (houtputs : ∀ x ∈ outputs, x.1 ∈ nodes ∧ x ∈ w.wanted) :
    Meets c.Refuses (c.optional stack segments outputs root) w fun r w' =>
      c.IsPath T root nodes outputs r.1 ∧ (∀ b ∈ r.2, c.IsJoinedTo T r.1 b) ∧
        w.Goes (c.Has T) (r.1.numbers ++ r.2.flatMap AbsentBranch.numbers) w' := by
  simp only [optional, hfrontier, meets_bind]
  refine (hs.branchLinks_meets hbranches).mono ?_
  rintro links w₁ ⟨hg₁, hlinks⟩
  have houtputs₁ : ∀ x ∈ outputs, x.1 ∈ nodes ∧ x ∈ w₁.wanted :=
    fun x hx => ⟨(houtputs x hx).1, hg₁.kept x (houtputs x hx).2⟩
  have hpath := hs.path_meets hr hcut (hg₁.all_valid hvalid) houtputs₁
  simp only [meets_bind] at hpath
  refine hpath.mono fun _ w₂ h₂ => h₂.mono ?_
  rintro ⟨main, numbers⟩ w₃ ⟨wanted, hsub, hnumbers, hchained, hg₂⟩
  obtain rfl : numbers = main.numbers := hnumbers
  -- the frontier is a node of the path, so some sub-select exports its columns
  have hlen : segments.length = main.numbers.length := by
    rw [ChainedSelect.numbers, List.length_map, hchained.subs.length_eq]
  obtain ⟨owner, _, howner, _⟩ := owner?_spec hlen (hcut.flatten ▸ hmem)
  simp only [howner, meets_bind, meets_pure]
  refine (hs.absentBranches_meets hlinks ((hg₁.trans hg₂).all_valid hvalid)).mono ?_
  rintro bs w₄ ⟨hbs, hg₃⟩
  refine ⟨.chained hr hcut (fun x hx => ⟨(houtputs x hx).1, hsub x (houtputs₁ x hx).2⟩) hchained,
    ?_, (hg₁.trans hg₂).trans hg₃⟩
  intro b hb
  obtain ⟨l, hl, habsent⟩ := exists_of_mem_right hbs hb
  have hlink := hlinks l hl
  refine ⟨frontier, w₁.wanted, l, hlink, ?_, ?_⟩
  · rw [habsent.carried]
    exact habsent
  · obtain ⟨_, sub, hzip, _, howner', _, hkey⟩ :=
      hchained.exported (hcut.flatten ▸ hmem) (hsub _ hlink.wanted)
    rw [howner] at howner'
    cases howner'
    rw [habsent.carried]
    exact ⟨sub, (List.of_mem_zip hzip).2, rfl, hkey⟩

end Composer

end TraversalSql
