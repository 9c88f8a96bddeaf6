/-!
# Cutting a text at a character

Qualified names are cut at their first dot and record texts at their last colon. Both cuts drop
the separator and fail where there is none.
-/

set_option autoImplicit false

namespace TraversalSql.Text

/-- The parts before and after the first `sep`. -/
def cutFirst (sep : Char) : List Char → Option (List Char × List Char)
  | [] => none
  | c :: cs =>
    if c = sep then some ([], cs) else (cutFirst sep cs).map fun (a, b) => (c :: a, b)

/-- The parts before and after the last `sep`. -/
def cutLast (sep : Char) : List Char → Option (List Char × List Char)
  | [] => none
  | c :: cs =>
    match cutLast sep cs with
    | some (a, b) => some (c :: a, b)
    | none => if c = sep then some ([], cs) else none

/-- The parts of a text before and after the first `sep`. -/
def splitFirst (sep : Char) (s : String) : Option (String × String) :=
  (cutFirst sep s.toList).map fun (a, b) => (String.ofList a, String.ofList b)

/-- The parts of a text before and after the last `sep`. -/
def splitLast (sep : Char) (s : String) : Option (String × String) :=
  (cutLast sep s.toList).map fun (a, b) => (String.ofList a, String.ofList b)

/-- The texts with `sep` between neighbours. -/
def joined (sep : String) (l : List String) : String := sep.intercalate l

/-- Each occurrence of `c` replaced by the characters `replacement`. -/
def replaceChar (c : Char) (replacement : List Char) (s : String) : String :=
  String.ofList (s.toList.flatMap fun d => if d = c then replacement else [d])

/-- A text between single quotes, as it stands. -/
def inQuotes (s : String) : String := "'" ++ s ++ "'"

theorem cutFirst_eq_none_iff (sep : Char) (cs : List Char) :
    cutFirst sep cs = none ↔ sep ∉ cs := by
  induction cs with
  | nil => simp [cutFirst]
  | cons c cs ih =>
    by_cases h : c = sep
    · simp [cutFirst, h]
    · have h' : ¬ sep = c := fun e => h e.symm
      simp [cutFirst, h, h', ih]

theorem cutLast_eq_none_iff (sep : Char) (cs : List Char) :
    cutLast sep cs = none ↔ sep ∉ cs := by
  induction cs with
  | nil => simp [cutLast]
  | cons c cs ih =>
    simp only [cutLast, List.mem_cons, not_or]
    split
    · rename_i a b h
      have : sep ∈ cs := by
        apply Decidable.byContradiction
        intro hn
        rw [ih.mpr hn] at h
        cases h
      simp [this]
    · rename_i h
      have hn := ih.mp h
      by_cases hc : c = sep
      · simp [hc]
      · have hc' : ¬ sep = c := fun e => hc e.symm
        simp [hc, hc', hn]

/-- A list is cut at its first `sep`. -/
theorem cutFirst_eq_some_iff {sep : Char} {cs before behind : List Char} :
    cutFirst sep cs = some (before, behind) ↔ cs = before ++ sep :: behind ∧ sep ∉ before := by
  induction cs generalizing before with
  | nil => simp [cutFirst]
  | cons c cs ih =>
    by_cases hc : c = sep
    · cases before with
      | nil => simp [cutFirst, hc, eq_comm]
      | cons d before =>
        simp only [cutFirst, hc, if_true, Option.some.injEq, Prod.mk.injEq, reduceCtorEq,
          false_and, List.cons_append, List.cons.injEq, List.mem_cons, not_or, false_iff, not_and]
        rintro ⟨rfl, -⟩ hne
        exact absurd rfl hne
    · have hc' : ¬ sep = c := fun e => hc e.symm
      cases before with
      | nil => simp [cutFirst, hc]
      | cons d before =>
        simp only [cutFirst, hc, if_false, Option.map_eq_some_iff, Prod.mk.injEq, List.cons_append,
          List.cons.injEq, List.mem_cons, not_or]
        constructor
        · rintro ⟨⟨a, b⟩, h, ⟨rfl, rfl⟩, rfl⟩
          obtain ⟨rfl, hno⟩ := ih.mp h
          exact ⟨⟨rfl, rfl⟩, hc', hno⟩
        · rintro ⟨⟨rfl, rfl⟩, -, hno⟩
          exact ⟨(before, behind), ih.mpr ⟨rfl, hno⟩, ⟨rfl, rfl⟩, rfl⟩

/-- A list is cut at its last `sep`. -/
theorem cutLast_eq_some_iff {sep : Char} {cs before behind : List Char} :
    cutLast sep cs = some (before, behind) ↔ cs = before ++ sep :: behind ∧ sep ∉ behind := by
  induction cs generalizing before behind with
  | nil => simp [cutLast]
  | cons c cs ih =>
    rw [cutLast]
    split
    · rename_i a b hab
      obtain ⟨hcs, -⟩ := ih.mp hab
      cases before with
      | nil =>
        -- the rest holds a `sep`, so no cut is in front of it
        simp only [Option.some.injEq, Prod.mk.injEq, reduceCtorEq, false_and, List.nil_append,
          List.cons.injEq, false_iff, not_and, Decidable.not_not, and_imp]
        rintro - rfl
        simp [hcs]
      | cons d before =>
        have hbehind := @ih before behind
        simp only [hab, Option.some.injEq, Prod.mk.injEq] at hbehind
        simp only [Option.some.injEq, Prod.mk.injEq, List.cons.injEq, List.cons_append, and_assoc,
          hbehind]
    · rename_i hnone
      have hno := (cutLast_eq_none_iff sep cs).mp hnone
      cases before with
      | nil =>
        by_cases hc : c = sep
        · simp only [hc, if_true, Option.some.injEq, Prod.mk.injEq, true_and, List.nil_append,
            List.cons.injEq, iff_self_and]
          rintro rfl
          exact hno
        · simp [hc]
      | cons d before =>
        have hout : cs ≠ before ++ sep :: behind := fun h => hno (by simp [h])
        by_cases hc : c = sep <;> simp [hc, hout]

/-- A text is cut at its first `sep`. -/
theorem splitFirst_eq_some_iff {sep : Char} {s before behind : String} :
    splitFirst sep s = some (before, behind) ↔
      s.toList = before.toList ++ sep :: behind.toList ∧ sep ∉ before.toList := by
  rw [← cutFirst_eq_some_iff]
  simp only [splitFirst, Option.map_eq_some_iff, Prod.mk.injEq]
  constructor
  · rintro ⟨⟨a, b⟩, h, rfl, rfl⟩
    simpa using h
  · exact fun h => ⟨_, h, String.ofList_toList, String.ofList_toList⟩

/-- A text is cut at its last `sep`. -/
theorem splitLast_eq_some_iff {sep : Char} {s before behind : String} :
    splitLast sep s = some (before, behind) ↔
      s.toList = before.toList ++ sep :: behind.toList ∧ sep ∉ behind.toList := by
  rw [← cutLast_eq_some_iff]
  simp only [splitLast, Option.map_eq_some_iff, Prod.mk.injEq]
  constructor
  · rintro ⟨⟨a, b⟩, h, rfl, rfl⟩
    simpa using h
  · exact fun h => ⟨_, h, String.ofList_toList, String.ofList_toList⟩

/-- A text without `sep` is not cut. -/
theorem splitFirst_eq_none_iff {sep : Char} {s : String} :
    splitFirst sep s = none ↔ sep ∉ s.toList := by
  rw [splitFirst, Option.map_eq_none_iff, cutFirst_eq_none_iff]

end TraversalSql.Text
