import TraversalSql.Proofs.Composing
import TraversalSql.Proofs.Survivors

/-!
# As few segments as possible

A path that visits a table twice is cut into segments, greedily: a new one begins only where the
table at hand is already in the current one. So the first table of every later segment occurs in the
segment before, and that alone makes the cut a shortest one. Whatever blocks without a repeated
table the path is divided into, the first of them ends within the first segment; take it off, and
what is left of the segment, with the next one behind it, is again followed by a repetition.
-/

set_option autoImplicit false

namespace TraversalSql

/-! ## 1. Cuts at repetitions -/

section Cuts

variable {α κ : Type} {key : α → κ}

/-- The second part begins with a key of the first. -/
def Repeats (key : α → κ) (part next : List α) : Prop :=
  ∃ a rest, next = a :: rest ∧ key a ∈ part.map key

theorem Repeats.extend {part next : List α} (h : Repeats key part next) (before : List α) :
    Repeats key (before ++ part) next := by
  obtain ⟨a, rest, hnext, hkey⟩ := h
  refine ⟨a, rest, hnext, ?_⟩
  rw [List.map_append]
  exact List.mem_append_right _ hkey

/-- The part being filled stays the first one, and every part behind it repeats a key. -/
theorem cutAtRepeats_chain [DecidableEq κ] (key : α → κ) : ∀ (l current : List α), current ≠ [] →
    ∃ more rest, cutAtRepeats key current l = (current ++ more) :: rest ∧
      ((current ++ more) :: rest).IsChain (Repeats key) := by
  intro l
  induction l with
  | nil =>
    intro current hne
    refine ⟨[], [], ?_, List.isChain_singleton _⟩
    rw [cutAtRepeats, if_neg (by simpa using hne), List.append_nil]
  | cons a l ih =>
    intro current hne
    rw [cutAtRepeats]
    split
    · rename_i hrepeat
      obtain ⟨b, hb, hkey⟩ := List.any_eq_true.mp hrepeat
      obtain ⟨more, rest, hcut, hchain⟩ := ih [a] (List.cons_ne_nil _ _)
      refine ⟨[], _, by rw [hcut, List.append_nil], List.isChain_cons_cons.mpr ⟨?_, hchain⟩⟩
      rw [List.append_nil]
      exact ⟨a, more, rfl, List.mem_map.mpr ⟨b, hb, beq_iff_eq.mp hkey⟩⟩
    · obtain ⟨more, rest, hcut, hchain⟩ := ih (current ++ [a]) (by simp)
      rw [List.append_assoc] at hcut hchain
      exact ⟨[a] ++ more, rest, hcut, hchain⟩

theorem cutAtRepeats_isChain [DecidableEq κ] (key : α → κ) (l : List α) :
    (cutAtRepeats key [] l).IsChain (Repeats key) := by
  cases l with
  | nil => exact List.isChain_nil
  | cons a l =>
    obtain ⟨more, rest, hcut, hchain⟩ := cutAtRepeats_chain key l [a] (List.cons_ne_nil _ _)
    have hfirst : cutAtRepeats key [] (a :: l) = cutAtRepeats key [a] l := rfl
    rw [hfirst, hcut]
    exact hchain

/-- A block without a repeated key ends before a repetition does. -/
theorem Repeats.prefix_of_nodup {part next block behind behind' : List α}
    (h : Repeats key part next) (hnodup : (block.map key).Nodup)
    (heq : block ++ behind = part ++ (next ++ behind')) :
    ∃ more, part = block ++ more ∧ behind = more ++ (next ++ behind') := by
  rcases List.append_eq_append_iff.mp heq with ⟨more, hpart, hbehind⟩ | ⟨beyond, hblock, hnext⟩
  · exact ⟨more, hpart, hbehind⟩
  · cases beyond with
    | nil => exact ⟨[], by rw [hblock, List.append_nil, List.append_nil], hnext.symm⟩
    | cons b beyond =>
      -- the block would hold the repeated key twice
      obtain ⟨a, rest, rfl, hkey⟩ := h
      obtain ⟨rfl, _⟩ := List.cons.inj hnext
      rw [hblock, List.map_append, List.map_cons] at hnodup
      exact absurd List.mem_cons_self (List.disjoint_of_nodup_append hnodup hkey)

/-- **Parts that follow upon repetitions are as few as can be.** -/
theorem length_le_of_repeats (rest : List (List α)) : ∀ (part : List α) (blocks : List (List α)),
    part ≠ [] → (part :: rest).IsChain (Repeats key) →
    (∀ block ∈ blocks, (block.map key).Nodup) → blocks.flatten = part ++ rest.flatten →
    rest.length + 1 ≤ blocks.length := by
  induction rest with
  | nil =>
    intro part blocks hne _ _ heq
    cases blocks with
    | nil =>
      rw [List.flatten_nil, List.append_nil] at heq
      exact absurd heq.symm hne
    | cons block blocks => exact Nat.succ_le_succ (Nat.zero_le _)
  | cons next rest ih =>
    intro part blocks hne hchain hnodup heq
    obtain ⟨hrepeat, hrest⟩ := List.isChain_cons_cons.mp hchain
    cases blocks with
    | nil => exact absurd (List.append_eq_nil_iff.mp heq.symm).1 hne
    | cons block blocks =>
      obtain ⟨hblock, hblocks⟩ := List.forall_mem_cons.mp hnodup
      obtain ⟨more, _, hbehind⟩ := hrepeat.prefix_of_nodup hblock heq
      have hnext : next ≠ [] := by
        obtain ⟨a, l, rfl, _⟩ := hrepeat
        exact List.cons_ne_nil _ _
      have hchain' : ((more ++ next) :: rest).IsChain (Repeats key) := by
        cases rest with
        | nil => exact List.isChain_singleton _
        | cons next' rest =>
          obtain ⟨hrepeat', hrest⟩ := List.isChain_cons_cons.mp hrest
          exact List.isChain_cons_cons.mpr ⟨hrepeat'.extend more, hrest⟩
      have hless := ih (more ++ next) blocks (by simp [hnext]) hchain' hblocks
        (by rw [hbehind, List.append_assoc])
      exact Nat.succ_le_succ hless

end Cuts

/-! ## 2. Segments of a path -/

namespace Composer

variable {c : Composer} {nodes : List Nat}

/-- **Cutting a path is lossless and as short as can be.** Whatever nodes of a tree are listed, the
segments hold them in their order, none visits a table twice, each but the first begins with a table
of the one before, and no division into blocks without a repeated table has fewer blocks. -/
theorem segments_least (h : ∀ id ∈ nodes, id < c.tree.nodes.size) :
    ∃ segments, c.segments nodes = .ok segments ∧ c.Cut nodes segments ∧
      segments.IsChain (Repeats c.tableAt) ∧
      ∀ blocks : List (List Nat), blocks.flatten = nodes →
        (∀ block ∈ blocks, (block.map c.tableAt).Nodup) → segments.length ≤ blocks.length := by
  have hcut := cut_cutAtRepeats c nodes
  have hchain := cutAtRepeats_isChain c.tableAt nodes
  refine ⟨_, segments_of_lt h, hcut, hchain, fun blocks hflatten hnodup => ?_⟩
  obtain ⟨hlossless, hne, _⟩ := hcut
  cases hsegments : cutAtRepeats c.tableAt [] nodes with
  | nil => exact Nat.zero_le _
  | cons part rest =>
    rw [hsegments] at hchain hlossless hne
    exact length_le_of_repeats rest part blocks (hne part List.mem_cons_self) hchain hnodup
      (hflatten.trans hlossless.symm)

/-- From a person over a friendship to a person: the way visits people twice, so it takes two
segments. -/
theorem friends_take_two : (∀ id ∈ [0, 1, 2], id < QueryTree.Boughs.friends.nodes.size) ∧
    ∃ segments, (⟨QueryTree.Boughs.friends, {}⟩ : Composer).segments [0, 1, 2] = .ok segments ∧
      segments = [[0, 1], [2]] ∧
      ∀ blocks : List (List Nat), blocks.flatten = [0, 1, 2] →
        (∀ block ∈ blocks,
          (block.map (⟨QueryTree.Boughs.friends, {}⟩ : Composer).tableAt).Nodup) →
        segments.length ≤ blocks.length := by
  have hnodes : ∀ id ∈ [0, 1, 2], id < QueryTree.Boughs.friends.nodes.size := by decide
  obtain ⟨segments, hsegments, _, _, hleast⟩ :=
    segments_least (c := ⟨QueryTree.Boughs.friends, {}⟩) hnodes
  exact ⟨hnodes, segments, hsegments, Except.ok.inj hsegments.symm, hleast⟩

end Composer

end TraversalSql
