-- A decimal that is written with all its places reads back as it was. While its digits are read
-- the value only grows, so no digit is ever one too many.
import Mathlib.Tactic.Ring
import OfferDesk.Amount
import OfferDesk.Proofs.ExchangeIds

namespace OfferDesk

/-! ## Digits -/

namespace Text

variable {value n : Nat} {c : Char} {cs : List Char}

theorem le_of_digitsFrom? (h : digitsFrom? value cs = some n) : value ≤ n := by
  induction cs generalizing value with
  | nil =>
    cases h
    exact Nat.le_refl _
  | cons c cs ih =>
    obtain ⟨d, _, hrest⟩ := Option.bind_eq_some_iff.mp h
    have := ih hrest
    omega

theorem isDigit_of_digitsFrom? (h : digitsFrom? value cs = some n) (hc : c ∈ cs) :
    isDigit c = true := by
  induction cs generalizing value with
  | nil => cases hc
  | cons x xs ih =>
    obtain ⟨d, hd, hrest⟩ := Option.bind_eq_some_iff.mp h
    rcases List.mem_cons.mp hc with rfl | hc
    · rw [isDigit, hd]
      rfl
    · exact ih hrest hc

/-- The last digits of a number are those of what is left of it below that place. -/
theorem digitsFrom?_lastDigits (value n count : Nat) :
    digitsFrom? value (lastDigits n count) = some (value * pow10 count + n % pow10 count) := by
  induction count generalizing n with
  | zero => simp [lastDigits, digitsFrom?, pow10, Nat.mod_one]
  | succ k ih =>
    have hlast : n % 10 < 10 := Nat.mod_lt n (by decide)
    have hsplit : n % pow10 (k + 1) = 10 * (n / 10 % pow10 k) + n % 10 := by
      rw [Nat.add_comm k, pow10_add, show pow10 1 = 10 from rfl, Nat.mod_mul]
      omega
    rw [lastDigits, digitsFrom?_append, ih, hsplit, pow10_add]
    simp only [Option.bind_some, digitsFrom?, digit?_digitChar hlast, Option.some.injEq,
      show pow10 1 = 10 from rfl]
    ring

theorem length_lastDigits (n count : Nat) : (lastDigits n count).length = count := by
  induction count generalizing n with
  | zero => rfl
  | succ k ih => rw [lastDigits, List.length_append, ih, List.length_singleton]

theorem isDigit_of_mem_toDigits (hc : c ∈ Nat.toDigits 10 n) : isDigit c = true :=
  isDigit_of_digitsFrom? (digitsFrom?_toDigits n) hc

theorem isDigit_of_mem_lastDigits {count : Nat} (hc : c ∈ lastDigits n count) :
    isDigit c = true :=
  isDigit_of_digitsFrom? (digitsFrom?_lastDigits 0 n count) hc

/-! ## Blanks -/

theorem not_isDigit_of_blank (h : c ∈ blanks) : isDigit c = false := by
  have hall : (blanks.all fun b => !isDigit b) = true := by decide
  simpa using List.all_eq_true.mp hall c h

theorem not_blank_of_isDigit (h : isDigit c = true) : isBlank c = false := by
  by_contra hblank
  rw [isBlank, Bool.not_eq_false, List.contains_iff_mem] at hblank
  rw [not_isDigit_of_blank hblank] at h
  cases h

/-- A text without blanks is trimmed to itself. -/
theorem trim_of_not_blank (h : ∀ c ∈ cs, isBlank c = false) : trim cs = cs := by
  have hdrop : ∀ {ds : List Char}, (∀ c ∈ ds, isBlank c = false) → ds.dropWhile isBlank = ds := by
    intro ds hds
    cases ds with
    | nil => rfl
    | cons d ds => rw [List.dropWhile_cons_of_neg (by simp [hds d List.mem_cons_self])]
  rw [trim, hdrop h, hdrop fun c hc => h c (List.mem_reverse.mp hc), List.reverse_reverse]

end Text

namespace Decimal

open Text

/-! ## Reading digits -/

variable {mantissa value : Nat} {ds : List Char}

/-- Digits before the point are all taken while their value fits. -/
theorem readDigits_whole (started : Bool) (hv : digitsFrom? mantissa ds = some value)
    (hfits : value ≤ maxMantissa) (hds : ds ≠ []) (scale : Nat) (rest : List Char) :
    readDigits mantissa scale false started (ds ++ rest) =
      readDigits value scale false true rest := by
  induction ds generalizing mantissa started with
  | nil => exact absurd rfl hds
  | cons c cs ih =>
    obtain ⟨d, hd, hrest⟩ := Option.bind_eq_some_iff.mp hv
    have hnext : mantissa * 10 + d ≤ maxMantissa := Nat.le_trans (le_of_digitsFrom? hrest) hfits
    rw [List.cons_append, readDigits]
    simp only [hd, Bool.false_eq_true, if_false, hnext, if_true]
    cases cs with
    | nil =>
      cases hrest
      rfl
    | cons c' cs => exact ih true hrest (List.cons_ne_nil _ _)

/-- Digits after the point are all taken while there are places for them. -/
theorem readDigits_places (hv : digitsFrom? mantissa ds = some value) (hfits : value ≤ maxMantissa)
    {scale : Nat} (hscale : scale + ds.length ≤ maxScale) :
    readDigits mantissa scale true true ds = some (value, scale + ds.length) := by
  induction ds generalizing mantissa scale with
  | nil =>
    cases hv
    rfl
  | cons c cs ih =>
    obtain ⟨d, hd, hrest⟩ := Option.bind_eq_some_iff.mp hv
    have hnext : mantissa * 10 + d ≤ maxMantissa := Nat.le_trans (le_of_digitsFrom? hrest) hfits
    rw [List.length_cons] at hscale ⊢
    have hplace : scale < maxScale := by omega
    rw [readDigits]
    simp only [hd, if_true, hplace, hnext, and_self]
    rw [ih hrest (by omega), Nat.add_right_comm, Nat.add_assoc]

/-! ## What is written -/

/-- The digits of a number without its sign, with a point before the places. -/
def digitChars (a : Decimal) : List Char :=
  let n := a.mantissa.natAbs
  let whole := Nat.toDigits 10 (n / pow10 a.scale)
  if a.scale = 0 then whole else whole ++ '.' :: lastDigits n a.scale

theorem chars_eq (a : Decimal) :
    a.chars = (if a.mantissa < 0 then ['-'] else []) ++ a.digitChars := by
  unfold chars digitChars
  dsimp only
  split
  · rfl
  · rw [List.append_assoc]

theorem readDigits_digitChars (a : Decimal) :
    readDigits 0 0 false false a.digitChars = some (a.mantissa.natAbs, a.scale) := by
  have hwhole : a.mantissa.natAbs / pow10 a.scale ≤ maxMantissa :=
    Nat.le_trans (Nat.div_le_self _ _) a.mantissa_le
  unfold digitChars
  dsimp only
  split
  · rename_i hs
    have hone : a.mantissa.natAbs / pow10 a.scale = a.mantissa.natAbs := by
      rw [hs, show pow10 0 = 1 from rfl, Nat.div_one]
    have hread := readDigits_whole false (digitsFrom?_toDigits _) hwhole Nat.toDigits_ne_nil 0 []
    rw [List.append_nil] at hread
    rw [hread, hone, hs]
    rfl
  · rw [readDigits_whole false (digitsFrom?_toDigits _) hwhole Nat.toDigits_ne_nil, readDigits]
    have hpoint : digit? '.' = none := rfl
    simp only [hpoint, and_self, if_true]
    have hlength := length_lastDigits a.mantissa.natAbs a.scale
    have hread := digitsFrom?_lastDigits (a.mantissa.natAbs / pow10 a.scale) a.mantissa.natAbs
      a.scale
    rw [Nat.mul_comm, Nat.div_add_mod] at hread
    rw [readDigits_places hread a.mantissa_le (by rw [hlength, Nat.zero_add]; exact a.scale_le),
      hlength, Nat.zero_add]

theorem mem_digitChars {a : Decimal} {c : Char} (hc : c ∈ a.digitChars) :
    isDigit c = true ∨ c = '.' := by
  unfold digitChars at hc
  dsimp only at hc
  split at hc
  · exact Or.inl (isDigit_of_mem_toDigits hc)
  · rcases List.mem_append.mp hc with hc | hc
    · exact Or.inl (isDigit_of_mem_toDigits hc)
    · rcases List.mem_cons.mp hc with rfl | hc
      · exact Or.inr rfl
      · exact Or.inl (isDigit_of_mem_lastDigits hc)

/-- A number starts with a digit. -/
theorem digitChars_cons (a : Decimal) : ∃ c cs, a.digitChars = c :: cs ∧ isDigit c = true := by
  obtain ⟨c, cs, hwhole⟩ := List.exists_cons_of_ne_nil
    (Nat.toDigits_ne_nil (n := a.mantissa.natAbs / pow10 a.scale) (b := 10))
  have hdigit : isDigit c = true :=
    isDigit_of_mem_toDigits (by rw [hwhole]; exact List.mem_cons_self)
  unfold digitChars
  dsimp only
  split
  · exact ⟨c, cs, hwhole, hdigit⟩
  · exact ⟨c, _, by rw [hwhole]; rfl, hdigit⟩

/-- What is written with all places reads back as it was. -/
theorem read?_chars (a : Decimal) : read? a.chars = some a := by
  have hparts {m : Int} (hm : m = a.mantissa) : ofParts? m a.scale = some a := by
    rw [hm, ofParts?, dif_pos ⟨a.mantissa_le, a.scale_le⟩]
  rw [chars_eq]
  by_cases hneg : a.mantissa < 0
  · simp only [hneg, if_true, List.cons_append, List.nil_append, read?, takeSign,
      readDigits_digitChars, Option.bind_eq_bind, Option.bind_some]
    exact hparts (by omega)
  · obtain ⟨c, cs, hcs, hc⟩ := a.digitChars_cons
    have hsign : takeSign a.digitChars = (false, a.digitChars) := by
      rw [hcs]
      unfold takeSign
      split
      · rename_i h
        cases h
        cases hc
      · rename_i h
        cases h
        cases hc
      · rfl
    simp only [hneg, if_false, List.nil_append, read?, hsign, readDigits_digitChars,
      Option.bind_eq_bind, Option.bind_some, Bool.false_eq_true]
    exact hparts (by omega)

/-! ## Amounts read what is written -/

variable (a : Decimal)

theorem mem_chars {a : Decimal} {c : Char} (hc : c ∈ a.chars) :
    isDigit c = true ∨ c = '.' ∨ c = '-' := by
  rw [chars_eq] at hc
  rcases List.mem_append.mp hc with hc | hc
  · split at hc
    · exact Or.inr (Or.inr (List.mem_singleton.mp hc))
    · cases hc
  · exact (mem_digitChars hc).imp_right Or.inl

theorem chars_ne_nil : a.chars ≠ [] := by
  obtain ⟨c, cs, hcs, _⟩ := a.digitChars_cons
  rw [chars_eq, hcs]
  simp

theorem trim_chars : trim a.chars = a.chars := by
  apply trim_of_not_blank
  intro c hc
  rcases mem_chars hc with hc | rfl | rfl
  · exact not_blank_of_isDigit hc
  · rfl
  · rfl

theorem not_isExponentMark_of_mem_chars {a : Decimal} {c : Char} (hc : c ∈ a.chars) :
    isExponentMark c = false := by
  by_contra hmark
  have hmark : c = 'e' ∨ c = 'E' := by simpa [isExponentMark, or_iff_not_imp_left] using hmark
  rcases hmark with rfl | rfl
  all_goals
    have := mem_chars hc
    revert this
    decide

/-- An issued value reads what is written. -/
theorem ofIssuedText_text : ofIssuedText a.text = .ok a := by
  have hmark : a.chars.any isExponentMark = false := by
    rw [List.any_eq_false]
    intro c hc
    rw [not_isExponentMark_of_mem_chars hc]
    exact Bool.false_ne_true
  have hsome : a.chars.isEmpty = false := by simp [chars_ne_nil]
  unfold ofIssuedText text
  simp only [String.toList_ofList, trim_chars, hsome, hmark, read?_chars, Bool.false_eq_true,
    if_false]

/-- Drops read a whole number that is written, as so many millionths. -/
theorem ofDropsText_text (hs : a.scale = 0) : ofDropsText a.text = .ok a.millionths := by
  have hdigits : a.digitChars.all isDigit = true := by
    unfold digitChars
    rw [List.all_eq_true]
    simp only [hs, if_true]
    exact fun c hc => isDigit_of_mem_toDigits hc
  obtain ⟨c, cs, hcs, hc⟩ := a.digitChars_cons
  have hfirst : (c == '-') = false := by
    rw [beq_eq_false_iff_ne]
    rintro rfl
    cases hc
  have hdrop : a.digitChars.dropWhile (· == '-') = a.digitChars := by
    rw [hcs, List.dropWhile_cons_of_neg (by simp [hfirst])]
  have hwhole : (a.chars.dropWhile (· == '-')).all isDigit = true := by
    rw [chars_eq]
    split
    · rw [List.singleton_append, List.dropWhile_cons_of_pos (by rfl), hdrop, hdigits]
    · rw [List.nil_append, hdrop, hdigits]
  have hsome : a.chars.isEmpty = false := by simp [chars_ne_nil]
  unfold ofDropsText text
  simp only [String.toList_ofList, trim_chars, hsome, hwhole, read?_chars, Bool.not_true,
    Bool.or_self, Bool.false_eq_true, if_false]

end Decimal

end OfferDesk
