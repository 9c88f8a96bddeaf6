import TraversalSql.Proofs.LiteralStatements

/-!
# Literals never reach the text of a statement

Of two runs that differ in literals only, every literal of the one has a place in the other. Here
the literals that may stand for each other are those of one place, so what was shown about plans
that are alike says where their parameters may differ.
-/

set_option autoImplicit false

namespace TraversalSql

variable {x : Exchange}

/-! ## 1. Places of literals -/

namespace Exchange

/-- Any literal may stand for any other; a null only for a null. -/
def any (settings : Settings) : Exchange where
  settings := settings
  rel v w := v.isNull = w.isNull
  null_iff h := h

/-- Literals may stand for each other that are listed as a pair. -/
def among (settings : Settings) (pairs : List (Value × Value)) : Exchange where
  settings := settings
  rel v w := v.isNull = w.isNull ∧ (v, w) ∈ pairs
  null_iff h := h.1

end Exchange

namespace Predicate

mutual

/-- The literals of a predicate from left to right, as a statement passes them. -/
def literals (d : Dialect) : Predicate → List Value
  | compare _ v => [v]
  | within vs | without vs => vs
  | between a b | inside a b | outside a b => [a, b]
  | and ps | or ps => literalsOfAll d ps
  | text test s => [.string (d.textLiteral test s)]
  | present | absent | fullText .. | lambda _ => []

def literalsOfAll (d : Dialect) : List Predicate → List Value
  | [] => []
  | p :: ps => p.literals d ++ literalsOfAll d ps

end

variable {settings : Settings} {d : Dialect} {pairs : List (Value × Value)}

mutual

theorem Like.length_literals : ∀ {p q : Predicate}, p.Like x q →
    (p.literals d).length = (q.literals d).length
  | _, _, .within h | _, _, .without h => h.length_eq
  | _, _, .and h | _, _, .or h => length_literalsOfAll h
  | _, _, .compare _ | _, _, .present | _, _, .absent | _, _, .between _ _ | _, _, .inside _ _
  | _, _, .outside _ _ | _, _, .text _ | _, _, .lambda => rfl

theorem length_literalsOfAll : ∀ {ps qs : List Predicate}, List.Forall₂ (Like x) ps qs →
    (literalsOfAll d ps).length = (literalsOfAll d qs).length
  | _, _, .nil => rfl
  | _, _, .cons h hs => by
    rw [literalsOfAll, literalsOfAll, List.length_append, List.length_append, h.length_literals,
      length_literalsOfAll hs]

end

theorem forall₂_among {vs ws : List Value} (h : List.Forall₂ (Exchange.any settings).rel vs ws)
    (hsub : vs.zip ws ⊆ pairs) : List.Forall₂ (Exchange.among settings pairs).rel vs ws := by
  obtain ⟨hlength, hrel⟩ := List.forall₂_iff_zip.mp h
  exact List.forall₂_iff_zip.mpr ⟨hlength, fun hvw => ⟨hrel hvw, hsub hvw⟩⟩

mutual

/-- Predicates that are alike are so by literals at the same places. -/
theorem Like.among : ∀ {p q : Predicate}, p.Like (.any settings) q →
    (p.literals settings.dialect).zip (q.literals settings.dialect) ⊆ pairs →
    p.Like (.among settings pairs) q
  | _, _, .compare h, hsub => .compare ⟨h, hsub List.mem_cons_self⟩
  | _, _, .present, _ => .present
  | _, _, .absent, _ => .absent
  | _, _, .within h, hsub => .within (forall₂_among h hsub)
  | _, _, .without h, hsub => .without (forall₂_among h hsub)
  | _, _, .between low high, hsub =>
    .between ⟨low, hsub List.mem_cons_self⟩ ⟨high, hsub (List.mem_cons_of_mem _ List.mem_cons_self)⟩
  | _, _, .inside low high, hsub =>
    .inside ⟨low, hsub List.mem_cons_self⟩ ⟨high, hsub (List.mem_cons_of_mem _ List.mem_cons_self)⟩
  | _, _, .outside low high, hsub =>
    .outside ⟨low, hsub List.mem_cons_self⟩ ⟨high, hsub (List.mem_cons_of_mem _ List.mem_cons_self)⟩
  | _, _, .and h, hsub => .and (allLike_among h hsub)
  | _, _, .or h, hsub => .or (allLike_among h hsub)
  | _, _, .text h, hsub => .text ⟨h, hsub List.mem_cons_self⟩
  | _, _, .lambda, _ => .lambda

theorem allLike_among : ∀ {ps qs : List Predicate}, List.Forall₂ (Like (.any settings)) ps qs →
    (literalsOfAll settings.dialect ps).zip (literalsOfAll settings.dialect qs) ⊆ pairs →
    List.Forall₂ (Like (.among settings pairs)) ps qs
  | _, _, .nil, _ => .nil
  | _, _, .cons h hs, hsub => by
    rw [literalsOfAll, literalsOfAll, List.zip_append h.length_literals, List.append_subset] at hsub
    exact .cons (h.among hsub.1) (allLike_among hs hsub.2)

end

end Predicate

/-- Parts that are alike by the literals of the whole are alike by their own. -/
theorem forall₂_of_zip_flatMap {α β : Type} {R S : α → β → Prop} {f : α → List Value}
    {g : β → List Value} {pairs : List (Value × Value)} {as : List α} {bs : List β}
    (h : List.Forall₂ R as bs) (hlength : ∀ a b, R a b → (f a).length = (g b).length)
    (hS : ∀ a b, R a b → (f a).zip (g b) ⊆ pairs → S a b)
    (hsub : (as.flatMap f).zip (bs.flatMap g) ⊆ pairs) : List.Forall₂ S as bs := by
  induction h with
  | nil => exact .nil
  | cons hab _ ih =>
    rw [List.flatMap_cons, List.flatMap_cons, List.zip_append (hlength _ _ hab),
      List.append_subset] at hsub
    exact .cons (hS _ _ hab hsub.1) (ih hsub.2)

/-- The literals in the filters of a hop. -/
def Hop.literals (d : Dialect) (h : Hop) : List Value :=
  h.filters.flatMap fun f => f.predicate.literals d

/-- The literals in the filters of a run. -/
def Run.literals (d : Dialect) (run : Run) : List Value := run.hops.flatMap (Hop.literals d)

section Pairs

variable {settings : Settings} {d : Dialect} {pairs : List (Value × Value)}

theorem Hop.Like.length_literals {h k : Hop} (hk : h.Like x k) :
    (h.literals d).length = (k.literals d).length := by
  obtain ⟨hfs⟩ := hk
  have hlengths := map_eq_of_forall₂ hfs fun f g hfg =>
    (hfg.predicate.length_literals (d := d)).symm
  rw [literals, literals, List.length_flatMap, List.length_flatMap, hlengths]

theorem Hop.Like.among {h k : Hop} (hk : h.Like (.any settings) k)
    (hsub : (h.literals settings.dialect).zip (k.literals settings.dialect) ⊆ pairs) :
    h.Like (.among settings pairs) k := by
  obtain ⟨hfs⟩ := hk
  refine .mk h (forall₂_of_zip_flatMap hfs (fun f g hfg => hfg.predicate.length_literals) ?_ hsub)
  intro f g hfg hsub
  exact ⟨hfg.key, hfg.predicate.among hsub, hfg.few⟩

/-! ## 2. Statements -/

/-- The parameters are the same, or a pair of literals. -/
def Parameter.Exchanged (pairs : List (Value × Value)) (p q : Parameter) : Prop :=
  p = q ∨ ∃ v w, p = .value v ∧ q = .value w ∧ (v, w) ∈ pairs

/-- The statements are the same, up to parameters that are pairs of literals. -/
structure Statement.SameText (pairs : List (Value × Value)) (s s' : Statement) : Prop where
  phase : s'.phase = s.phase
  sql : s'.sql = s.sql
  aliases : s'.aliases = s.aliases
  fragments : s'.fragments = s.fragments
  orderBy : s'.orderBy = s.orderBy
  range : s'.range = s.range
  rootBinding : s'.rootBinding = s.rootBinding
  parameters : List.Forall₂ (Parameter.Exchanged pairs) s.parameters s'.parameters

theorem Fragment.Like.parameters {f g : Fragment}
    (h : Fragment.Like (.among settings pairs) f g) :
    List.Forall₂ (Parameter.Exchanged pairs) f.parameters g.parameters := by
  unfold Fragment.parameters
  induction h with
  | nil => exact .nil
  | @cons p q _ _ hp _ ih =>
    cases hp with
    | same =>
      cases p with
      | text s => exact ih
      | param p => exact .cons (.inl rfl) ih
    | exchanged h => exact .cons (.inr ⟨_, _, rfl, rfl, h.2⟩) ih

theorem Statement.Like.sameText {s s' : Statement} (h : s.Like (.among settings pairs) s') :
    s.SameText pairs s' := by
  obtain ⟨hselect⟩ := h
  have hfragment := hselect.fragment s.dialect
  have haliases := hselect.aliases
  refine ⟨rfl, hfragment.sql, haliases, rfl, ?_, rfl, rfl, hfragment.parameters⟩
  simp only [Statement.orderBy, Statement.aliases, haliases]
  obtain ⟨_, _⟩ := hselect
  rfl

end Pairs

/-- **Literals never reach the text of a statement.** Two runs that differ in the literals of
their filters, with nulls at the same places and few values in each filter, both have a plan or
both have none. Their plans have the same statements, up to parameters that are literals of the
two runs at one place. -/
theorem Run.plan_hides_literals (settings : Settings) (T : Topology) (n : Numbering)
    {run run' : Run} (hlike : List.Forall₂ (Hop.Like (.any settings)) run.hops run'.hops) :
    Agree (fun plan plan' => plan'.window = plan.window ∧ plan'.drop = plan.drop ∧
        List.Forall₂ (Statement.SameText
          ((run.literals settings.dialect).zip (run'.literals settings.dialect)))
          plan.statements plan'.statements)
      (run.plan settings T n) (run'.plan settings T n) := by
  -- the runs are alike by these pairs already, and so are their parameters
  let pairs := (run.literals settings.dialect).zip (run'.literals settings.dialect)
  have hplaces : List.Forall₂ (Hop.Like (.among settings pairs)) run.hops run'.hops :=
    forall₂_of_zip_flatMap hlike (fun h k hk => hk.length_literals) (fun h k hk => hk.among)
      (List.Subset.refl _)
  refine (Run.plan_like hplaces T n).mono ?_
  intro plan plan' hplan
  obtain ⟨hstatements⟩ := hplan
  exact ⟨rfl, rfl, hstatements.imp fun s s' hs => hs.sameText⟩

/-! ## 3. Guests

Guests have a name, and are asked for by it. -/

namespace Guests

def guest : Table := ⟨"public", "Guest", .vertex⟩

def topology : Topology where
  vertices := (∅ : SortedMap Table Properties).insert guest (.ofList [("name", .string)])
  incidence := (∅ : SortedMap Table Incidence).alter guest fun old => old.getD {}

def named (name : String) : Run :=
  ⟨[{ kind := .graphRoot .vertex, depth := 0, filters := [⟨"name", .compare .eq (.string name)⟩] }]⟩

theorem named_like (name name' : String) :
    List.Forall₂ (Hop.Like (.any {})) (named name).hops (named name').hops := by
  have hone : 1 ≤ ({} : Settings).bulkThreshold := by decide
  exact .cons (.mk _ (.cons ⟨rfl, .compare rfl, hone⟩ .nil)) .nil

/-- A name that reads like SQL is passed like any other. -/
theorem bobby_is_a_name : ∃ plan plan',
    (named "Ann").plan {} topology {} = .ok plan ∧
    (named "Bobby'; DROP TABLE --").plan {} topology {} = .ok plan' ∧
    plan.statements.map Statement.parameters = [[.value (.string "Ann")]] ∧
    plan'.statements.map Statement.parameters = [[.value (.string "Bobby'; DROP TABLE --")]] ∧
    List.Forall₂ (Statement.SameText [(.string "Ann", .string "Bobby'; DROP TABLE --")])
      plan.statements plan'.statements := by
  have hann : ((named "Ann").plan {} topology {}).toOption.map
      (fun plan => plan.statements.map Statement.parameters)
        = some [[.value (.string "Ann")]] := by
    decide +kernel
  have hbobby : ((named "Bobby'; DROP TABLE --").plan {} topology {}).toOption.map
      (fun plan => plan.statements.map Statement.parameters)
        = some [[.value (.string "Bobby'; DROP TABLE --")]] := by
    decide +kernel
  obtain ⟨plan, hplan, hparams⟩ := Option.map_eq_some_iff.mp hann
  obtain ⟨plan', hplan', hparams'⟩ := Option.map_eq_some_iff.mp hbobby
  have hok := eq_ok_of_toOption hplan
  have hok' := eq_ok_of_toOption hplan'
  have hagree := Run.plan_hides_literals {} topology {} (named_like "Ann" "Bobby'; DROP TABLE --")
  rw [hok, hok'] at hagree
  exact ⟨plan, plan', hok, hok', hparams, hparams', hagree.2.2⟩

end Guests

end TraversalSql
