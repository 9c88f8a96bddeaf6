import TraversalSql.Number.Reading
import TraversalSql.Value.Record

/-!
# Integers and their text

An integer is read back from its text. The other way round the text need not come back, since a
reader lets pass a plus sign and zeros in front; digits without zeros in front do.
-/

set_option autoImplicit false

namespace TraversalSql

namespace Reading

variable {limit acc n : Nat} {fault : IntegerFault} {cs : List Char}

/-! ## 1. Digits -/

theorem isDigit_toDigits {c : Char} (h : c ∈ Nat.toDigits 10 n) : c.isDigit = true :=
  Nat.isDigit_of_mem_toDigits (by decide) (by decide) h

theorem digitChar_sub {c : Char} (h : c.isDigit = true) :
    c.toNat - '0'.toNat < 10 ∧ (c.toNat - '0'.toNat).digitChar = c := by
  obtain ⟨hlow, hhigh⟩ := Char.isDigit_iff_toNat.mp h
  have hzero : '0'.toNat = 48 := rfl
  have hnine : '9'.toNat = 57 := rfl
  have hlt : c.toNat - '0'.toNat < 10 := by omega
  refine ⟨hlt, Char.toNat_inj.mp ?_⟩
  rw [Nat.toNat_digitChar_of_lt_ten hlt]
  omega

/-- Behind the digits of a number that is not zero all further digits count. -/
theorem toDigits_append (hdigit : ∀ c ∈ cs, c.isDigit = true) (hacc : 0 < acc) :
    Nat.toDigits 10 acc ++ cs = Nat.toDigits 10 (Nat.ofDigitChars 10 cs acc) := by
  induction cs generalizing acc with
  | nil => simp
  | cons c cs ih =>
    obtain ⟨hlt, hchar⟩ := digitChar_sub (hdigit c List.mem_cons_self)
    have hnext : Nat.toDigits 10 acc ++ [c] =
        Nat.toDigits 10 (10 * acc + (c.toNat - '0'.toNat)) := by
      rw [← Nat.toDigits_append_toDigits (by decide) hacc hlt, Nat.toDigits_of_lt_base hlt, hchar]
    rw [Nat.ofDigitChars_cons, ← ih (fun d hd => hdigit d (List.mem_cons_of_mem _ hd)) (by omega),
      ← hnext, List.append_assoc]
    rfl

/-- Digits without a zero in front are those of the natural they spell. -/
theorem toDigits_ofDigitChars (hdigit : ∀ c ∈ cs, c.isDigit = true) (hne : cs ≠ [])
    (hhead : cs.head? ≠ some '0') : Nat.toDigits 10 (Nat.ofDigitChars 10 cs 0) = cs := by
  obtain ⟨c, cs, rfl⟩ := List.exists_cons_of_ne_nil hne
  obtain ⟨hlt, hchar⟩ := digitChar_sub (hdigit c List.mem_cons_self)
  have hpos : 0 < c.toNat - '0'.toNat := by
    refine Nat.pos_of_ne_zero fun hzero => hhead ?_
    rw [hzero] at hchar
    rw [← hchar]
    rfl
  rw [Nat.ofDigitChars_cons, Nat.mul_zero, Nat.zero_add,
    ← toDigits_append (fun d hd => hdigit d (List.mem_cons_of_mem _ hd)) hpos,
    Nat.toDigits_of_lt_base hlt, hchar]
  rfl

/-! ## 2. Naturals within a limit -/

theorem le_ofDigitChars (cs : List Char) (acc : Nat) : acc ≤ Nat.ofDigitChars 10 cs acc := by
  induction cs generalizing acc with
  | nil => exact Nat.le_refl _
  | cons c cs ih =>
    rw [Nat.ofDigitChars_cons]
    have := ih (10 * acc + (c.toNat - '0'.toNat))
    omega

/-- Digits are read as the number they spell: if that is within the limit, so is every number on
the way to it. -/
theorem digitsWithin_eq_ok (hdigit : ∀ c ∈ cs, c.isDigit = true) :
    ∀ {acc : Nat}, Nat.ofDigitChars 10 cs acc ≤ limit →
      digitsWithin limit fault acc cs = .ok (Nat.ofDigitChars 10 cs acc) := by
  induction cs with
  | nil => exact fun _ => rfl
  | cons c cs ih =>
    intro acc hle
    rw [Nat.ofDigitChars_cons, Nat.mul_comm] at hle ⊢
    have hnext := Nat.le_trans (le_ofDigitChars cs _) hle
    have hd : digit? c = some (c.toNat - '0'.toNat) := if_pos (hdigit c List.mem_cons_self)
    simp only [digitsWithin, hd]
    rw [if_pos hnext]
    exact ih (fun d hd => hdigit d (List.mem_cons_of_mem _ hd)) hle

theorem naturalWithin_toDigits (h : n ≤ limit) :
    naturalWithin limit fault (Nat.toDigits 10 n) = .ok n := by
  have hvalue : Nat.ofDigitChars 10 (Nat.toDigits 10 n) 0 = n :=
    Nat.ofDigitChars_toDigits (by decide) (by decide)
  have hdigits : digitsWithin limit fault 0 (Nat.toDigits 10 n) =
      .ok (Nat.ofDigitChars 10 (Nat.toDigits 10 n) 0) :=
    digitsWithin_eq_ok (fun _ => isDigit_toDigits) (hvalue.symm ▸ h)
  rw [hvalue] at hdigits
  unfold naturalWithin
  split
  · rename_i hnil
    exact absurd hnil Nat.toDigits_ne_nil
  · exact hdigits

/-- Nothing but digits is read, and the number stays within the limit. -/
theorem of_digitsWithin (h : digitsWithin limit fault acc cs = .ok n) :
    (∀ c ∈ cs, c.isDigit = true) ∧ n = Nat.ofDigitChars 10 cs acc ∧ (acc ≤ limit → n ≤ limit) := by
  induction cs generalizing acc with
  | nil =>
    cases h
    exact ⟨fun c hc => absurd hc List.not_mem_nil, rfl, id⟩
  | cons c cs ih =>
    simp only [digitsWithin] at h
    split at h
    · cases h
    · rename_i d hd
      obtain ⟨hc, rfl⟩ : c.isDigit = true ∧ c.toNat - '0'.toNat = d := by
        unfold digit? at hd
        split at hd
        · rename_i hc
          exact ⟨hc, Option.some.inj hd⟩
        · cases hd
      split at h
      · rename_i hle
        obtain ⟨hdigit, hvalue, hlimit⟩ := ih h
        refine ⟨List.forall_mem_cons.mpr ⟨hc, hdigit⟩, ?_, fun _ => hlimit hle⟩
        rw [hvalue, Nat.ofDigitChars_cons, Nat.mul_comm]
      · cases h

theorem of_naturalWithin (h : naturalWithin limit fault cs = .ok n) :
    (∀ c ∈ cs, c.isDigit = true) ∧ n = Nat.ofDigitChars 10 cs 0 ∧ n ≤ limit := by
  cases cs with
  | nil => cases h
  | cons c cs =>
    obtain ⟨hdigit, hvalue, hlimit⟩ := of_digitsWithin h
    exact ⟨hdigit, hvalue, hlimit (Nat.zero_le _)⟩

end Reading

/-! ## 3. Integers -/

theorem toList_intText (i : Int64) : (intText i).toList =
    if 0 ≤ i.toInt then Nat.toDigits 10 i.toInt.toNat
    else '-' :: Nat.toDigits 10 (-i.toInt).toNat := by
  have hrepr : intText i = i.toInt.repr := rfl
  rw [hrepr, Int.repr_eq_if]
  split
  · rw [Nat.repr_eq_ofList_toDigits, String.toList_ofList]
  · simp only [Nat.repr_eq_ofList_toDigits, String.toList_append, String.toList_ofList]
    rfl

/-- An integer is read back from its text. -/
theorem integer?_intText (i : Int64) : Reading.integer? (intText i) = some i := by
  have hlow := Int64.le_toInt i
  have hhigh := Int64.toInt_lt i
  unfold Reading.integer? Reading.integer
  by_cases hsign : 0 ≤ i.toInt
  · have hread : Reading.naturalWithin Reading.largest .tooLarge (Nat.toDigits 10 i.toInt.toNat) =
        .ok i.toInt.toNat := Reading.naturalWithin_toDigits (by unfold Reading.largest; omega)
    have hdigit : ∀ c ∈ (intText i).toList, c.isDigit = true := fun c hc =>
      Reading.isDigit_toDigits (by simpa [toList_intText, hsign] using hc)
    split
    · rename_i h
      rw [toList_intText, if_pos hsign] at h
      exact absurd h Nat.toDigits_ne_nil
    · rename_i h
      exact absurd (hdigit '+' (h ▸ List.mem_cons_self)) (by decide)
    · rename_i h
      exact absurd (hdigit '-' (h ▸ List.mem_cons_self)) (by decide)
    · rw [toList_intText, if_pos hsign, hread]
      show some (Int64.ofInt i.toInt.toNat) = some i
      rw [Int.toNat_of_nonneg hsign, Int64.ofInt_toInt]
  · have hread : Reading.naturalWithin (Reading.largest + 1) .tooSmall
        (Nat.toDigits 10 (-i.toInt).toNat) = .ok (-i.toInt).toNat :=
      Reading.naturalWithin_toDigits (by unfold Reading.largest; omega)
    rw [toList_intText, if_neg hsign]
    simp only [hread]
    show some (Int64.ofInt (-((-i.toInt).toNat : Int))) = some i
    rw [Int.toNat_of_nonneg (by omega), Int.neg_neg, Int64.ofInt_toInt]

namespace Reading

variable {text : String} {i : Int64} {ds : List Char}

/-- What is read as an integer is its sign and its digits. -/
inductive Integral (i : Int64) : List Char → Prop
  | plain {ds : List Char} (hdigit : ∀ c ∈ ds, c.isDigit = true)
      (h : i.toInt = Nat.ofDigitChars 10 ds 0) : Integral i ds
  | plus {ds : List Char} (hdigit : ∀ c ∈ ds, c.isDigit = true)
      (h : i.toInt = Nat.ofDigitChars 10 ds 0) : Integral i ('+' :: ds)
  | minus {ds : List Char} (hdigit : ∀ c ∈ ds, c.isDigit = true)
      (h : i.toInt = -(Nat.ofDigitChars 10 ds 0 : Int)) : Integral i ('-' :: ds)

theorem integral_of_integer? (h : integer? text = some i) : Integral i text.toList := by
  have hread {limit : Nat} {fault : IntegerFault} {ds : List Char} {f : Int → Int64}
      (h : ((naturalWithin limit fault ds >>= fun n => pure (n : Int)).map f).toOption = some i) :
      (∀ c ∈ ds, c.isDigit = true) ∧ f (Nat.ofDigitChars 10 ds 0) = i ∧
        Nat.ofDigitChars 10 ds 0 ≤ limit := by
    cases hn : naturalWithin limit fault ds with
    | error e =>
      rw [hn] at h
      cases h
    | ok n =>
      rw [hn] at h
      obtain ⟨hdigit, rfl, hle⟩ := of_naturalWithin hn
      exact ⟨hdigit, Option.some.inj h, hle⟩
  unfold integer? integer at h
  split at h
  · cases h
  · rename_i heq
    obtain ⟨hdigit, rfl, hle⟩ := hread h
    unfold largest at hle
    rw [heq]
    exact .plus hdigit (Int64.toInt_ofInt_of_le (by omega) (by omega))
  · rename_i heq
    obtain ⟨hdigit, rfl, hle⟩ := hread h
    unfold largest at hle
    rw [heq]
    exact .minus hdigit (Int64.toInt_ofInt_of_le (by omega) (by omega))
  · obtain ⟨hdigit, rfl, hle⟩ := hread h
    unfold largest at hle
    exact .plain hdigit (Int64.toInt_ofInt_of_le (by omega) (by omega))

/-- Only digits and signs are read as an integer. -/
theorem Integral.mem {c : Char} {cs : List Char} (h : Integral i cs) (hc : c ∈ cs) :
    c.isDigit = true ∨ c = '+' ∨ c = '-' := by
  cases h with
  | plain hdigit _ => exact Or.inl (hdigit c hc)
  | plus hdigit _ => exact (List.mem_cons.mp hc).symm.imp (hdigit c) Or.inl
  | minus hdigit _ => exact (List.mem_cons.mp hc).symm.imp (hdigit c) Or.inr

end Reading

section Canonical

open Reading

variable {i : Int64} {ds : List Char}

/-- Digits without a zero in front are the text of the integer they are read as. -/
theorem toList_intText_of_integral (h : Integral i ds) (hdigit : ∀ c ∈ ds, c.isDigit = true)
    (hne : ds ≠ []) (hhead : ds.head? ≠ some '0') : (intText i).toList = ds := by
  cases h with
  | plain _ h =>
    rw [toList_intText, if_pos (by omega), h, Int.toNat_natCast,
      toDigits_ofDigitChars hdigit hne hhead]
  | plus _ _ => exact absurd (hdigit '+' List.mem_cons_self) (by decide)
  | minus _ _ => exact absurd (hdigit '-' List.mem_cons_self) (by decide)

/-- With a minus sign they are, too, as they do not spell zero. -/
theorem toList_intText_of_integral_neg (h : Integral i ('-' :: ds))
    (hdigit : ∀ c ∈ ds, c.isDigit = true) (hne : ds ≠ []) (hhead : ds.head? ≠ some '0') :
    (intText i).toList = '-' :: ds := by
  have hdigits := toDigits_ofDigitChars hdigit hne hhead
  cases h with
  | plain hall _ => exact absurd (hall '-' List.mem_cons_self) (by decide)
  | minus _ h =>
    have hpos : 0 < Nat.ofDigitChars 10 ds 0 := by
      refine Nat.pos_of_ne_zero fun hzero => hhead ?_
      rw [← hdigits, hzero]
      rfl
    rw [toList_intText, if_neg (by omega), h, Int.neg_neg, Int.toNat_natCast, hdigits]

end Canonical

end TraversalSql
