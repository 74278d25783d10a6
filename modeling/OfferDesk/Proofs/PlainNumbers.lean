-- Numbers in plain notation as text. Digits before the point are read as long as they are in range,
-- and those behind it as far as a decimal has places; the next one settles the last of them. So a
-- number with few digits is rounded to the places that a decimal has, and what ends in them is read
-- as it stands.
import OfferDesk.Proofs.SignificantDigits
import OfferDesk.Proofs.WholeDrops

namespace OfferDesk

/-! ## Plain numbers -/

namespace Text

inductive Sign where
  | unsigned
  | plus
  | minus
deriving DecidableEq

def Sign.chars : Sign → List Char
  | unsigned => []
  | plus => ['+']
  | minus => ['-']

theorem Sign.mem_chars {s : Sign} {c : Char} (h : c ∈ s.chars) : c = '+' ∨ c = '-' := by
  cases s with
  | unsigned => cases h
  | plus => exact .inl (List.mem_singleton.mp h)
  | minus => exact .inr (List.mem_singleton.mp h)

/-- A number in plain notation: a sign or none, digits, and a point or none with digits behind it.
One side of the point may be empty. -/
structure Plain where
  sign : Sign
  whole : List Char
  places : Option (List Char)
  whole_digits : ∀ c ∈ whole, c.isDigit = true
  places_digits : ∀ c ∈ places.getD [], c.isDigit = true
  some_digit : whole ++ places.getD [] ≠ []

namespace Plain

/-- The digits on both sides of the point. -/
def digits (p : Plain) : List Char := p.whole ++ p.places.getD []

def placesCount (p : Plain) : Nat := (p.places.getD []).length

def unsignedChars (p : Plain) : List Char :=
  p.whole ++ match p.places with
    | none => []
    | some ds => '.' :: ds

def chars (p : Plain) : List Char := p.sign.chars ++ p.unsignedChars

/-- The number without its sign. -/
def size (p : Plain) : Rat := (Nat.ofDigitChars 10 p.digits 0 : Nat) / (pow10 p.placesCount : Nat)

def value (p : Plain) : Rat := if p.sign = .minus then -p.size else p.size

end Plain

/-! ## Digits -/

variable {ds : List Char}

theorem ofDigitChars_eq (ds : List Char) (m : Nat) :
    Nat.ofDigitChars 10 ds m = m * pow10 ds.length + Nat.ofDigitChars 10 ds 0 := by
  rw [Nat.ofDigitChars_eq_ofDigitChars_zero, Nat.mul_comm]
  rfl

theorem digit_lt {c : Char} (h : c.isDigit = true) : c.toNat - '0'.toNat < 10 := by
  have hrange : 48 ≤ c.toNat ∧ c.toNat ≤ 57 := by
    simpa [Char.isDigit, UInt32.le_iff_toNat_le] using h
  rw [show '0'.toNat = 48 from rfl]
  omega

theorem ofDigitChars_lt (h : ∀ c ∈ ds, c.isDigit = true) :
    Nat.ofDigitChars 10 ds 0 < pow10 ds.length := by
  induction ds with
  | nil => exact pow10_pos 0
  | cons c ds ih =>
    have hd := digit_lt (h c List.mem_cons_self)
    have hrest := ih fun c hc => h c (List.mem_cons_of_mem _ hc)
    have hstep : (c.toNat - '0'.toNat + 1) * pow10 ds.length ≤ 10 * pow10 ds.length :=
      Nat.mul_le_mul_right _ hd
    rw [Nat.add_mul, Nat.one_mul] at hstep
    rw [Nat.ofDigitChars_cons, Nat.mul_zero, Nat.zero_add, ofDigitChars_eq, List.length_cons,
      pow10_add, show pow10 1 = 10 from rfl, Nat.mul_comm _ 10]
    omega

end Text

namespace Decimal

open Text

variable {a b : Decimal} {ds : List Char}

/-! ## Places -/

theorem HasDigits.mul_tenPow {digits : Nat} {x : Rat} (h : HasDigits digits x) (f : Int) :
    HasDigits digits (x * tenPow f) := by
  obtain ⟨m, e, hm, rfl⟩ := h
  exact ⟨m, e + f, hm, by rw [tenPow_add, mul_assoc]⟩

/-- A number with no more digits than these is whole from a certain size on. -/
theorem HasDigits.whole {x : Rat} (h : HasDigits WireAmount.issuedDigits x)
    (hx : ((pow10 14 : Nat) : Rat) ≤ |x|) : ∃ k : Int, x = k := by
  rw [← tenPow_nat] at hx
  obtain ⟨k, hk⟩ := h.whole_units hx
  rw [show ((14 : Nat) : Int) + 1 - (WireAmount.issuedDigits : Nat) = 0 from rfl, tenPow_zero,
    mul_one] at hk
  exact ⟨k, hk⟩

/-- A number rounded to the last place that a decimal can have, a tie away from zero. -/
def RoundedToPlaces (x y : Rat) : Prop := RoundedAway (tenPow (-(maxScale : Nat))) x y

theorem div_pow10_maxScale (x : Rat) :
    x / (pow10 maxScale : Nat) = x * tenPow (-(maxScale : Nat)) := by
  rw [tenPow_neg, mul_one_div]

/-- What ends in the places that a decimal has is not rounded. -/
theorem roundedToPlaces_self {m s : Nat} (hs : s ≤ maxScale) :
    RoundedToPlaces ((m : Rat) / (pow10 s : Nat)) ((m : Rat) / (pow10 s : Nat)) := by
  have hunits : (m : Rat) / (pow10 s : Nat) =
      ((m * pow10 (maxScale - s) : Nat) : Int) * tenPow (-(maxScale : Nat)) := by
    have hsplit : pow10 maxScale = pow10 s * pow10 (maxScale - s) := by
      rw [← pow10_add, Nat.add_sub_cancel' hs]
    have h1 := pow10_ne_zero s
    have h2 := pow10_ne_zero (maxScale - s)
    rw [← div_pow10_maxScale, hsplit]
    push_cast
    field_simp
  rw [hunits]
  exact .of_whole (tenPow_pos _).ne'

/-- Less than half a unit above a whole number, that number is the nearest. -/
theorem nearestAway_below {m f d : Nat} (h : 2 * f < d) :
    NearestAway (m : Nat) (((m * d + f : Nat) : Rat) / d) := by
  have hd : (0 : Rat) < d := Nat.cast_pos.mpr (by omega)
  have hsplit : ((m * d + f : Nat) : Rat) / d = m + f / d := by
    push_cast
    field_simp
  have hhalf : (f : Rat) / d < 1 / 2 := by
    rw [div_lt_div_iff₀ hd two_pos]
    exact_mod_cast (by omega : f * 2 < 1 * d)
  have hdist : |((m : Nat) : Int) - ((m : Rat) + f / d)| = f / d := by
    rw [Int.cast_natCast, sub_add_cancel_left, abs_neg, abs_of_nonneg (by positivity)]
  rw [hsplit]
  exact ⟨by rw [hdist]; exact hhalf.le, fun htie => by rw [hdist] at htie; linarith⟩

/-- From half a unit above a whole number on, the next one is the nearest. -/
theorem nearestAway_above {m f d : Nat} (hlow : d ≤ 2 * f) (hhigh : f < d) :
    NearestAway (m + 1 : Nat) (((m * d + f : Nat) : Rat) / d) := by
  have hd : (0 : Rat) < d := Nat.cast_pos.mpr (by omega)
  have hsplit : ((m * d + f : Nat) : Rat) / d = m + f / d := by
    push_cast
    field_simp
  have hhalf : 1 / 2 ≤ (f : Rat) / d := by
    rw [div_le_div_iff₀ two_pos hd]
    exact_mod_cast (by omega : 1 * d ≤ f * 2)
  have hone : (f : Rat) / d < 1 := by
    rw [div_lt_one hd]
    exact_mod_cast hhigh
  have hdist : |((m + 1 : Nat) : Int) - ((m : Rat) + f / d)| = 1 - f / d := by
    push_cast
    rw [add_sub_add_left_eq_sub, abs_of_pos (by linarith)]
  rw [hsplit]
  refine ⟨by rw [hdist]; linarith, fun _ => ?_⟩
  rw [abs_of_nonneg (by positivity), Int.cast_natCast, abs_of_nonneg (by positivity)]
  push_cast
  linarith

/-! ## Reading behind the point -/

section Settling

-- `f / w` is what is left behind the digits that were taken, and `d` is the first digit of it
variable {m s d f w : Nat}

/-- Where the places are used up the next digit rounds. -/
theorem settle_rounds (hm : m < pow10 14) (hnext : 2 * f < w ↔ d < 5) (hf : f < w) :
    ∃ m', settle m maxScale d = some (m', maxScale) ∧ m' ≤ maxMantissa ∧
      RoundedToPlaces (((m * w + f : Nat) : Rat) / w / (pow10 maxScale : Nat))
        ((m' : Rat) / (pow10 maxScale : Nat)) := by
  have hround {k : Nat} (hk : NearestAway (k : Nat) (((m * w + f : Nat) : Rat) / w)) :
      RoundedToPlaces (((m * w + f : Nat) : Rat) / w / (pow10 maxScale : Nat))
        ((k : Rat) / (pow10 maxScale : Nat)) := by
    refine ⟨(k : Nat), by rw [Int.cast_natCast, div_pow10_maxScale], ?_⟩
    rw [div_pow10_maxScale, mul_div_cancel_right₀ _ (tenPow_pos _).ne']
    exact hk
  have hroom : m < maxMantissa := hm.trans (by decide)
  unfold settle
  by_cases hd : d < 5
  · rw [if_pos hd]
    exact ⟨m, rfl, hroom.le, hround (nearestAway_below (hnext.mpr hd))⟩
  · rw [if_neg hd, if_pos hroom]
    exact ⟨m + 1, rfl, hroom, hround (nearestAway_above (by omega) hf)⟩

/-- A large mantissa holds all digits of a number that has few, so nothing but zeros is left. -/
theorem settle_exact (hm : pow10 14 ≤ m) (hnext : 2 * f < w ↔ d < 5) (hf : f < w)
    (hfew : HasDigits WireAmount.issuedDigits
      (((m * w + f : Nat) : Rat) / w / (pow10 s : Nat))) :
    settle m s d = some (m, s) ∧ ((m * w + f : Nat) : Rat) / w = m := by
  have hw : (0 : Rat) < w := Nat.cast_pos.mpr (by omega)
  have hmoved := hfew.mul_tenPow s
  rw [tenPow_nat, div_mul_cancel₀ _ (pow10_ne_zero s)] at hmoved
  have hsize : ((pow10 14 : Nat) : Rat) ≤ |((m * w + f : Nat) : Rat) / w| := by
    rw [abs_of_nonneg (by positivity), le_div_iff₀ hw]
    exact_mod_cast (Nat.mul_le_mul_right w hm).trans (Nat.le_add_right _ f)
  obtain ⟨k, hk⟩ := hmoved.whole hsize
  have hwhole : ((m * w + f : Nat) : Int) = k * w := by
    rw [div_eq_iff hw.ne'] at hk
    exact_mod_cast hk
  have hzero : f = 0 := by
    have hdvd : (w : Int) ∣ (f : Int) := by
      have : (f : Int) = (k - m) * w := by
        push_cast at hwhole
        rw [Int.sub_mul, ← hwhole]
        omega
      exact ⟨k - m, by rw [this, Int.mul_comm]⟩
    exact Nat.eq_zero_of_dvd_of_lt (Int.natCast_dvd_natCast.mp hdvd) hf
  have hlow : d < 5 := hnext.mp (by omega)
  refine ⟨by rw [settle, if_pos hlow], ?_⟩
  rw [hzero, Nat.add_zero, Nat.cast_mul, mul_div_cancel_right₀ _ hw.ne']

end Settling

/-- Digits are at least a half just if the first of them is at least five. -/
theorem next_digit {d l r : Nat} (hd : d < 10) (hr : r < pow10 l) :
    (2 * (d * pow10 l + r) < pow10 (l + 1) ↔ d < 5) ∧ d * pow10 l + r < pow10 (l + 1) := by
  have hten : pow10 (l + 1) = 10 * pow10 l := by
    rw [pow10_add, show pow10 1 = 10 from rfl, Nat.mul_comm]
  have hall : (d + 1) * pow10 l ≤ 10 * pow10 l := Nat.mul_le_mul_right _ hd
  rw [Nat.add_mul, Nat.one_mul] at hall
  refine ⟨⟨fun h => ?_, fun h => ?_⟩, by omega⟩
  · by_contra hhigh
    have : 5 * pow10 l ≤ d * pow10 l := Nat.mul_le_mul_right _ (Nat.not_lt.mp hhigh)
    omega
  · have : (d + 1) * pow10 l ≤ 5 * pow10 l := Nat.mul_le_mul_right _ h
    rw [Nat.add_mul, Nat.one_mul] at this
    omega

/-- A digit that does not fit settles the last one: the places are used up and it rounds, or the
mantissa is and there is nothing to round. -/
theorem settle_full {m s d l r : Nat} (hd : d < 10) (hr : r < pow10 l) (hm : m ≤ maxMantissa)
    (hs : s ≤ maxScale) (hfull : ¬ (s < maxScale ∧ m * 10 + d ≤ maxMantissa))
    (hfew : HasDigits WireAmount.issuedDigits
      (((m * pow10 (l + 1) + (d * pow10 l + r) : Nat) : Rat) / (pow10 (s + (l + 1)) : Nat))) :
    ∃ m' s', settle m s d = some (m', s') ∧ m' ≤ maxMantissa ∧ s' ≤ maxScale ∧
      RoundedToPlaces
        (((m * pow10 (l + 1) + (d * pow10 l + r) : Nat) : Rat) / (pow10 (s + (l + 1)) : Nat))
        ((m' : Rat) / (pow10 s' : Nat)) := by
  obtain ⟨hnext, hbelow⟩ := next_digit hd hr
  rw [Nat.add_comm s, pow10_add _ s, Nat.cast_mul (pow10 _), div_mul_eq_div_div] at hfew ⊢
  rcases Nat.lt_or_ge m (pow10 14) with hroom | hlarge
  · obtain rfl : s = maxScale := by
      rw [show pow10 14 = 100000000000000 from rfl] at hroom
      unfold maxMantissa at hfull
      omega
    obtain ⟨m', hsettle, hm', hround⟩ := settle_rounds hroom hnext hbelow
    exact ⟨m', maxScale, hsettle, hm', hs, hround⟩
  · obtain ⟨hsettle, hexact⟩ := settle_exact hlarge hnext hbelow hfew
    rw [hexact]
    exact ⟨m, s, hsettle, hm, hs, roundedToPlaces_self hs⟩

/-- Digits behind the point are taken while there are places, and the next one settles the last. -/
theorem readDigits_rounds {m s : Nat} (hds : ∀ c ∈ ds, c.isDigit = true) (hm : m ≤ maxMantissa)
    (hs : s ≤ maxScale) (hfew : HasDigits WireAmount.issuedDigits
      ((Nat.ofDigitChars 10 ds m : Nat) / (pow10 (s + ds.length) : Nat))) :
    ∃ m' s', readDigits m s true true ds = some (m', s') ∧ m' ≤ maxMantissa ∧ s' ≤ maxScale ∧
      RoundedToPlaces ((Nat.ofDigitChars 10 ds m : Nat) / (pow10 (s + ds.length) : Nat))
        ((m' : Rat) / (pow10 s' : Nat)) := by
  induction ds generalizing m s with
  | nil => exact ⟨m, s, rfl, hm, hs, roundedToPlaces_self hs⟩
  | cons c cs ih =>
    have hc := hds c List.mem_cons_self
    have hcs : ∀ c ∈ cs, c.isDigit = true := fun c hc => hds c (List.mem_cons_of_mem _ hc)
    have hd := digit_lt hc
    have hread : digit? c = some (c.toNat - '0'.toNat) := by rw [digit?_eq, if_pos hc]
    have hvalue : Nat.ofDigitChars 10 (c :: cs) m =
        Nat.ofDigitChars 10 cs (m * 10 + (c.toNat - '0'.toNat)) := by
      rw [Nat.ofDigitChars_cons, Nat.mul_comm]
    generalize c.toNat - '0'.toNat = d at hd hread hvalue
    rw [readDigits]
    simp only [hread, if_true]
    by_cases hplace : s < maxScale ∧ m * 10 + d ≤ maxMantissa
    · rw [if_pos hplace]
      rw [hvalue, List.length_cons, ← Nat.add_assoc, Nat.add_right_comm] at hfew ⊢
      exact ih hcs hplace.2 hplace.1 hfew
    · have hrest : (cs.all fun c => isDigit c || c == '_') = true := by
        rw [List.all_eq_true]
        intro c hc
        rw [isDigit_eq, hcs c hc, Bool.true_or]
      have hsplit : Nat.ofDigitChars 10 (c :: cs) m =
          m * pow10 (cs.length + 1) + (d * pow10 cs.length + Nat.ofDigitChars 10 cs 0) := by
        rw [hvalue, ofDigitChars_eq, pow10_add, show pow10 1 = 10 from rfl]
        ring
      rw [if_neg hplace, if_pos hrest]
      rw [hsplit, List.length_cons] at hfew ⊢
      exact settle_full hd (ofDigitChars_lt hcs) hm hs hplace hfew

/-! ## Reading plain notation -/

variable {p : Plain}

theorem ofDigitChars_digits (p : Plain) : Nat.ofDigitChars 10 p.digits 0 =
    Nat.ofDigitChars 10 (p.places.getD []) (Nat.ofDigitChars 10 p.whole 0) :=
  Nat.ofDigitChars_append 0

/-- Before a digit it does not matter whether another one was read. -/
theorem readDigits_started {m s : Nat} {point : Bool} (hne : ds ≠ [])
    (hds : ∀ c ∈ ds, c.isDigit = true) :
    readDigits m s point false ds = readDigits m s point true ds := by
  obtain ⟨c, cs, rfl⟩ := List.exists_cons_of_ne_nil hne
  have hread : digit? c = some (c.toNat - '0'.toNat) := by
    rw [digit?_eq, if_pos (hds c List.mem_cons_self)]
  unfold readDigits
  simp only [hread]

/-- Once the digits before the point are read, those behind it are. -/
theorem readDigits_unsigned (h : Nat.ofDigitChars 10 p.whole 0 ≤ maxMantissa) :
    readDigits 0 0 false false p.unsignedChars =
      readDigits (Nat.ofDigitChars 10 p.whole 0) 0 true true (p.places.getD []) := by
  have hv := digitsFrom?_of_digits p.whole_digits 0
  have hpoint (m : Nat) (started : Bool) (ds : List Char) :
      readDigits m 0 false started ('.' :: ds) = readDigits m 0 true started ds := by
    rw [readDigits]
    simp only [show digit? '.' = none from rfl, and_self, if_true]
  have hsome := p.some_digit
  have hplaces := p.places_digits
  unfold Plain.unsignedChars
  cases hp : p.places with
  | none =>
    rw [hp, Option.getD_none, List.append_nil] at hsome
    simp only [Option.getD_none]
    exact readDigits_whole false hv h hsome 0 []
  | some ds =>
    rw [hp, Option.getD_some] at hsome hplaces
    simp only [Option.getD_some]
    by_cases hwhole : p.whole = []
    · rw [hwhole, List.nil_append] at hsome ⊢
      rw [hpoint, readDigits_started hsome hplaces, Nat.ofDigitChars_nil]
    · rw [readDigits_whole false hv h hwhole 0, hpoint]

theorem readDigits_unsigned_eq_none (h : maxMantissa < Nat.ofDigitChars 10 p.whole 0) :
    readDigits 0 0 false false p.unsignedChars = none :=
  readDigits_eq_none (digitsFrom?_of_digits p.whole_digits 0) (Nat.zero_le _) h 0 false _

theorem mem_unsignedChars {c : Char} (hc : c ∈ p.unsignedChars) : c.isDigit = true ∨ c = '.' := by
  have hplaces := p.places_digits
  unfold Plain.unsignedChars at hc
  rcases List.mem_append.mp hc with hc | hc
  · exact Or.inl (p.whole_digits c hc)
  · cases hp : p.places with
    | none =>
      rw [hp] at hc
      cases hc
    | some ds =>
      rw [hp] at hc hplaces
      rcases List.mem_cons.mp hc with rfl | hc
      · exact Or.inr rfl
      · exact Or.inl (hplaces c hc)

theorem takeSign_chars (p : Plain) :
    takeSign p.chars = (decide (p.sign = .minus), p.unsignedChars) := by
  unfold Plain.chars
  cases hs : p.sign with
  | minus => rfl
  | plus => rfl
  | unsigned =>
    have hfirst {c : Char} {cs : List Char} (h : p.unsignedChars = c :: cs) :
        c.isDigit = true ∨ c = '.' := mem_unsignedChars (by rw [h]; exact List.mem_cons_self)
    rw [Sign.chars, List.nil_append]
    unfold takeSign
    split
    · rename_i h
      exact absurd (hfirst h) (by decide)
    · rename_i h
      exact absurd (hfirst h) (by decide)
    · rfl

theorem read?_chars_plain (p : Plain) : read? p.chars =
    (readDigits 0 0 false false p.unsignedChars).bind fun x =>
      ofParts? (if p.sign = .minus then -(x.1 : Int) else x.1) x.2 := by
  unfold read?
  simp only [takeSign_chars, decide_eq_true_eq, Option.bind_eq_bind]

/-- What is read of the digits is read of the number, with its sign. -/
theorem read?_of_readDigits {m s : Nat}
    (h : readDigits 0 0 false false p.unsignedChars = some (m, s)) (hm : m ≤ maxMantissa)
    (hs : s ≤ maxScale) : ∃ b, read? p.chars = some b ∧ b.scale = s ∧
      b.toRat = if p.sign = .minus then -((m : Rat) / (pow10 s : Nat))
        else (m : Rat) / (pow10 s : Nat) := by
  rw [read?_chars_plain, h, Option.bind_some]
  split
  · refine ⟨_, ofParts?_of_le (by rwa [Int.natAbs_neg, Int.natAbs_natCast]) hs, rfl, ?_⟩
    rw [toRat_eq_div, Int.cast_neg, neg_div, Int.cast_natCast]
  · refine ⟨_, ofParts?_of_le (by rwa [Int.natAbs_natCast]) hs, rfl, ?_⟩
    rw [toRat_eq_div, Int.cast_natCast]

/-- A number in plain notation with few digits is rounded to the places that a decimal has, unless
the digits before the point are beyond its range. -/
theorem read?_rounds (hfew : HasDigits WireAmount.issuedDigits p.value)
    (h : Nat.ofDigitChars 10 p.whole 0 ≤ maxMantissa) :
    ∃ b, read? p.chars = some b ∧ RoundedToPlaces p.value b.toRat := by
  have hsize : HasDigits WireAmount.issuedDigits p.size := by
    unfold Plain.value at hfew
    split at hfew
    · rw [← neg_neg p.size]
      exact hfew.neg
    · exact hfew
  unfold Plain.size Plain.placesCount at hsize
  rw [ofDigitChars_digits] at hsize
  obtain ⟨m, s, hread, hm, hs, hround⟩ :=
    readDigits_rounds p.places_digits h (Nat.zero_le _) (by rwa [Nat.zero_add])
  obtain ⟨b, hb, _, hvalue⟩ := read?_of_readDigits (by rw [readDigits_unsigned h, hread]) hm hs
  rw [Nat.zero_add, ← ofDigitChars_digits] at hround
  refine ⟨b, hb, ?_⟩
  rw [hvalue, Plain.value]
  split
  · exact hround.neg
  · exact hround

/-- A number in plain notation whose digits and places a decimal has is read with all of them. -/
theorem read?_exact (hm : Nat.ofDigitChars 10 p.digits 0 ≤ maxMantissa)
    (hs : p.placesCount ≤ maxScale) :
    ∃ b, read? p.chars = some b ∧ b.scale = p.placesCount ∧ b.toRat = p.value := by
  have hv := digitsFrom?_of_digits p.places_digits (Nat.ofDigitChars 10 p.whole 0)
  rw [← ofDigitChars_digits] at hv
  have hwhole : Nat.ofDigitChars 10 p.whole 0 ≤ maxMantissa := (le_of_digitsFrom? hv).trans hm
  have hread := readDigits_places hv hm (show 0 + p.placesCount ≤ maxScale by rwa [Nat.zero_add])
  rw [← readDigits_unsigned hwhole, Nat.zero_add] at hread
  exact read?_of_readDigits hread hm hs

end Decimal

end OfferDesk
