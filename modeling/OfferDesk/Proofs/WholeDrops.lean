-- Amounts in drops are whole numbers. A text of drops passes a check that lets any number of minus
-- signs through, and is then read as a number of any kind. What passes both is a whole number with
-- at most one minus sign, and just the whole numbers in range do.
import OfferDesk.Proofs.ShortForms

namespace OfferDesk

/-! ## Digits -/

namespace Text

variable {cs : List Char}

theorem digit?_eq (c : Char) :
    digit? c = if c.isDigit = true then some (c.toNat - '0'.toNat) else none := by
  unfold digit? Char.isDigit
  simp only [ge_iff_le, Bool.and_eq_true, decide_eq_true_eq]
  rfl

theorem isDigit_eq (c : Char) : isDigit c = c.isDigit := by
  rw [isDigit, digit?_eq]
  split
  · rename_i h
    rw [h]
    rfl
  · rename_i h
    rw [Bool.not_eq_true] at h
    rw [h]
    rfl

/-- Digits are read as the number that they denote. -/
theorem digitsFrom?_of_digits (h : ∀ c ∈ cs, c.isDigit = true) (value : Nat) :
    digitsFrom? value cs = some (Nat.ofDigitChars 10 cs value) := by
  induction cs generalizing value with
  | nil => rfl
  | cons c cs ih =>
    rw [digitsFrom?, digit?_eq, if_pos (h c List.mem_cons_self), Option.bind_some,
      ih fun c hc => h c (List.mem_cons_of_mem _ hc), Nat.ofDigitChars_cons, Nat.mul_comm]

/-- A whole number as text: digits, with one minus sign before them or none. -/
inductive Whole : List Char → Int → Prop
  | digits {ds : List Char} : ds ≠ [] → (∀ c ∈ ds, c.isDigit = true) →
      Whole ds (Nat.ofDigitChars 10 ds 0)
  | minus {ds : List Char} : ds ≠ [] → (∀ c ∈ ds, c.isDigit = true) →
      Whole ('-' :: ds) (-(Nat.ofDigitChars 10 ds 0 : Nat))

end Text

namespace Decimal

open Text

variable {cs ds : List Char} {n : Int}

/-! ## Reading whole numbers -/

/-- Digits before the point whose value is beyond the range are not read, whatever follows. -/
theorem readDigits_eq_none {mantissa value : Nat} (hv : digitsFrom? mantissa ds = some value)
    (hm : mantissa ≤ maxMantissa) (hlarge : maxMantissa < value) (scale : Nat) (started : Bool)
    (rest : List Char) : readDigits mantissa scale false started (ds ++ rest) = none := by
  induction ds generalizing mantissa started with
  | nil =>
    cases hv
    omega
  | cons c cs ih =>
    obtain ⟨d, hd, hrest⟩ := Option.bind_eq_some_iff.mp hv
    rw [List.cons_append, readDigits]
    simp only [hd, Bool.false_eq_true, if_false]
    split
    · rename_i hfits
      exact ih hrest hfits true
    · rfl

/-- Digits are read as a whole number if their value is in range, and else not at all. -/
theorem readDigits_of_digits (hds : ds ≠ []) (h : ∀ c ∈ ds, c.isDigit = true) :
    readDigits 0 0 false false ds =
      if Nat.ofDigitChars 10 ds 0 ≤ maxMantissa then some (Nat.ofDigitChars 10 ds 0, 0)
      else none := by
  have hv := digitsFrom?_of_digits h 0
  split
  · rename_i hfits
    have hread := readDigits_whole false hv hfits hds 0 []
    rwa [List.append_nil] at hread
  · rename_i hlarge
    have hread := readDigits_eq_none hv (Nat.zero_le _) (by omega) 0 false []
    rwa [List.append_nil] at hread

theorem takeSign_of_digits (hds : ds ≠ []) (h : ∀ c ∈ ds, c.isDigit = true) :
    takeSign ds = (false, ds) := by
  unfold takeSign
  split
  · cases h '-' List.mem_cons_self
  · cases h '+' List.mem_cons_self
  · rfl

/-- The text of a whole number in range is read as that number. -/
theorem read?_of_whole (h : Whole cs n) (hn : n.natAbs ≤ maxMantissa) :
    read? cs = some ⟨n, 0, hn, by decide⟩ := by
  cases h with
  | digits hds hdigits =>
    rw [Int.natAbs_natCast] at hn
    simp only [read?, takeSign_of_digits hds hdigits, readDigits_of_digits hds hdigits, hn, if_true,
      Option.bind_eq_bind, Option.bind_some, Bool.false_eq_true, if_false]
    exact ofParts?_of_le _ _
  | minus hds hdigits =>
    have hfits := hn
    rw [Int.natAbs_neg, Int.natAbs_natCast] at hfits
    simp only [read?, takeSign, readDigits_of_digits hds hdigits, hfits, if_true,
      Option.bind_eq_bind, Option.bind_some]
    exact ofParts?_of_le hn _

theorem read?_eq_none_of_whole (h : Whole cs n) (hn : maxMantissa < n.natAbs) :
    read? cs = none := by
  cases h with
  | digits hds hdigits =>
    rw [Int.natAbs_natCast] at hn
    simp only [read?, takeSign_of_digits hds hdigits, readDigits_of_digits hds hdigits,
      Nat.not_le.mpr hn, if_false, Option.bind_eq_bind, Option.bind_none]
  | minus hds hdigits =>
    rw [Int.natAbs_neg, Int.natAbs_natCast] at hn
    simp only [read?, takeSign, readDigits_of_digits hds hdigits, Nat.not_le.mpr hn, if_false,
      Option.bind_eq_bind, Option.bind_none]

/-! ## The check before reading -/

/-- What the check before reading lets through: nothing but digits after any number of minus
signs. -/
def PassesCheck (cs : List Char) : Prop :=
  cs ≠ [] ∧ ∀ c ∈ cs.dropWhile (· == '-'), c.isDigit = true

theorem passesCheck_iff : PassesCheck cs ↔
    (cs.isEmpty || !(cs.dropWhile (· == '-')).all isDigit) = false := by
  simp only [PassesCheck, isDigit_eq, Bool.or_eq_false_iff, List.isEmpty_eq_false_iff,
    Bool.not_eq_false', List.all_eq_true, ne_eq]

theorem ofDropsText_of_check {text : String} (h : PassesCheck (trim text.toList)) :
    ofDropsText text = match read? (trim text.toList) with
      | some minor => .ok minor.millionths
      | none => .error ⟨text, .unreadable⟩ := by
  unfold ofDropsText
  dsimp only
  rw [passesCheck_iff.mp h]
  exact if_neg Bool.false_ne_true

theorem ofDropsText_of_not_check {text : String} (h : ¬ PassesCheck (trim text.toList)) :
    ofDropsText text = .error ⟨text, .notWholeDrops⟩ := by
  unfold ofDropsText
  dsimp only
  rw [passesCheck_iff, Bool.not_eq_false] at h
  rw [h, if_pos rfl]

theorem dropWhile_of_digits (h : ∀ c ∈ ds, c.isDigit = true) :
    ds.dropWhile (· == '-') = ds := by
  cases ds with
  | nil => rfl
  | cons c cs =>
    refine List.dropWhile_cons_of_neg ?_
    rw [beq_iff_eq]
    rintro rfl
    cases h '-' List.mem_cons_self

theorem passesCheck_of_whole (h : Whole cs n) : PassesCheck cs := by
  cases h with
  | digits hds hdigits => exact ⟨hds, by rwa [dropWhile_of_digits hdigits]⟩
  | minus hds hdigits =>
    refine ⟨List.cons_ne_nil _ _, ?_⟩
    rwa [List.dropWhile_cons_of_pos (by rfl), dropWhile_of_digits hdigits]

/-- What passes the check is a whole number, or else a lone minus sign or something that starts with
two of them. Neither of these is read. -/
theorem whole_or_read?_eq_none (h : PassesCheck cs) : (∃ n, Whole cs n) ∨ read? cs = none := by
  obtain ⟨hcs, hdigits⟩ := h
  obtain ⟨c, ds, rfl⟩ := List.exists_cons_of_ne_nil hcs
  by_cases hc : c = '-'
  · subst hc
    rw [List.dropWhile_cons_of_pos (by rfl)] at hdigits
    cases ds with
    | nil => exact Or.inr rfl
    | cons d ds =>
      by_cases hd : d = '-'
      · subst hd
        exact Or.inr rfl
      · rw [List.dropWhile_cons_of_neg (by simpa using hd)] at hdigits
        exact Or.inl ⟨_, .minus (List.cons_ne_nil _ _) hdigits⟩
  · rw [List.dropWhile_cons_of_neg (by simpa using hc)] at hdigits
    exact Or.inl ⟨_, .digits hcs hdigits⟩

end Decimal

namespace WireAmount

open Text Decimal

/-- The text of a whole number of drops in range is read as so many millionths. -/
theorem amount_of_whole {text : String} {n : Int} (h : Whole (trim text.toList) n)
    (hn : n.natAbs ≤ maxMantissa) :
    (drops text).amount = .ok ⟨.native, millionths ⟨n, 0, hn, by decide⟩⟩ := by
  unfold amount
  simp only [ofDropsText_of_check (passesCheck_of_whole h), read?_of_whole h hn]
  rfl

/-- Any other text is not read. -/
theorem amount_of_not_whole {text : String}
    (h : ¬ ∃ n, Whole (trim text.toList) n ∧ n.natAbs ≤ maxMantissa) :
    ∃ issue, (drops text).amount = .error ⟨text, issue⟩ := by
  unfold amount
  dsimp only
  by_cases hcheck : PassesCheck (trim text.toList)
  · have hnone : read? (trim text.toList) = none := by
      rcases whole_or_read?_eq_none hcheck with ⟨n, hn⟩ | hnone
      · exact read?_eq_none_of_whole hn (Nat.not_le.mp fun hle => h ⟨n, hn, hle⟩)
      · exact hnone
    refine ⟨.unreadable, ?_⟩
    rw [ofDropsText_of_check hcheck, hnone]
    rfl
  · refine ⟨.notWholeDrops, ?_⟩
    rw [ofDropsText_of_not_check hcheck]
    rfl

/-- An amount in drops is read just if its text, without blanks around it, is a whole number in
range. It is then that number divided by a million, in the native currency, and the quotient is
exact. Any other text is refused. -/
theorem drops_are_whole_numbers (text : String) :
    ((∃ a, (drops text).amount = .ok a) ↔
      ∃ n, Whole (trim text.toList) n ∧ n.natAbs ≤ maxMantissa) ∧
    (∀ n, Whole (trim text.toList) n → n.natAbs ≤ maxMantissa →
      ∃ minor value : Decimal, minor.toRat = n ∧ minor.div? dropsPerUnit = some value ∧
        value.toRat = n / 1000000 ∧ (drops text).amount = .ok ⟨.native, value⟩) ∧
    ((¬ ∃ n, Whole (trim text.toList) n ∧ n.natAbs ≤ maxMantissa) →
      ∃ issue, (drops text).amount = .error ⟨text, issue⟩) := by
  refine ⟨⟨?_, ?_⟩, ?_, amount_of_not_whole⟩
  · rintro ⟨a, ha⟩
    by_contra hno
    obtain ⟨issue, herror⟩ := amount_of_not_whole hno
    rw [herror] at ha
    cases ha
  · rintro ⟨n, hwhole, hn⟩
    exact ⟨_, amount_of_whole hwhole hn⟩
  · intro n hwhole hn
    refine ⟨⟨n, 0, hn, by decide⟩, _, toRat_of_whole rfl, div?_dropsPerUnit rfl, ?_,
      amount_of_whole hwhole hn⟩
    rw [toRat_millionths rfl, toRat_of_whole rfl, show (-6 : Int) = -(6 : Nat) from rfl, tenPow_neg,
      mul_one_div]
    rfl

/-! Zeros in front of a number and blanks around it do not matter. -/

theorem twelve_drops_owed :
    Whole (trim " -0012 ".toList) (-12) ∧ (-12 : Int).natAbs ≤ maxMantissa ∧
      ∃ minor value : Decimal, minor.toRat = (-12 : Int) ∧ minor.div? dropsPerUnit = some value ∧
        value.toRat = (-12 : Int) / 1000000 ∧
        (drops " -0012 ").amount = .ok ⟨.native, value⟩ := by
  have htext : trim " -0012 ".toList = ['-', '0', '0', '1', '2'] := by decide
  have hwhole : Whole (trim " -0012 ".toList) (-12) := by
    rw [htext]
    exact .minus (List.cons_ne_nil _ _) (List.all_eq_true.mp rfl)
  have hrange : (-12 : Int).natAbs ≤ maxMantissa := by decide
  exact ⟨hwhole, hrange, (drops_are_whole_numbers " -0012 ").2.1 (-12) hwhole hrange⟩

end WireAmount

end OfferDesk
