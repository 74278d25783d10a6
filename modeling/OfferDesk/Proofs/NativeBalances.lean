-- The native balance of an account against its trust lines. Balances go by the symbols that codes
-- are shown as, and a code of an issued currency can be shown as the native one. What an account
-- owns of the native currency does not depend on its lines, but what is told of it counts such
-- lines in.
import Mathlib.Data.List.TakeWhile
import OfferDesk.Proofs.TrustLines
import OfferDesk.Proofs.WireAmounts

namespace OfferDesk

open Decimal (tenPow)

/-! ## Codes that are shown as native -/

namespace Currency

open Text

/-- The bytes of the native symbol. -/
def nativeLetters : List UInt8 := bytes nativeSymbol.toList

theorem letterOf_injective : Function.Injective fun b : UInt8 => Char.ofNat b.toNat := by
  have hcode (b : UInt8) : (Char.ofNat b.toNat).toNat = b.toNat := by
    have hvalid : b.toNat.isValidChar := Or.inl (b.toNat_lt.trans (by decide))
    rw [Char.ofNat, dif_pos hvalid]
    rfl
  intro a b h
  have hnat : a.toNat = b.toNat := by
    rw [← hcode a, ← hcode b]
    exact congrArg Char.toNat h
  exact UInt8.toNat_inj.mp hnat

theorem letters_eq_native_iff {letters : List UInt8} :
    String.ofList (letters.map fun b => Char.ofNat b.toNat) = nativeSymbol ↔
      letters = nativeLetters := by
  have hspelt : nativeSymbol.toList = nativeLetters.map fun b => Char.ofNat b.toNat := by decide
  rw [← String.toList_inj, String.toList_ofList, hspelt]
  exact List.map_inj_right fun a b h => letterOf_injective h

/-- Of the codes only the native symbol itself and those that spell it in bytes are shown as it. -/
theorem symbolOf_eq_native_iff (code : String) : symbolOf code = nativeSymbol ↔
    code = nativeSymbol ∨ isHexCode code.toList = true ∧
      ∃ bs, unhex? code.toList = some bs ∧ bs.filter (· != 0) = nativeLetters := by
  have hshort : isHexCode nativeSymbol.toList = false := by decide
  unfold symbolOf
  dsimp only
  split
  · rename_i hhex
    have hne : code ≠ nativeSymbol := by
      rintro rfl
      rw [hshort] at hhex
      cases hhex
    split
    · rename_i bs hbs
      split
      · rw [letters_eq_native_iff]
        simp [hhex, hbs, hne]
      · rename_i hhidden
        have hother : bs.filter (· != 0) ≠ nativeLetters := by
          intro hspelt
          rw [hspelt] at hhidden
          exact hhidden (by decide)
        simp [hbs, hother]
    · rename_i hnone
      simp [hne, hnone]
  · rename_i hhex
    simp [hhex]

end Currency

/-! ## Whole drops -/

namespace Decimal

open Text (isDigit trim)

theorem scale_of_readDigits {cs : List Char} (hcs : '.' ∉ cs) {m s m' s' : Nat} {started : Bool}
    (h : readDigits m s false started cs = some (m', s')) : s' = s := by
  induction cs generalizing m started with
  | nil =>
    unfold readDigits at h
    split at h
    · cases h
      rfl
    · cases h
  | cons c cs ih =>
    rw [List.mem_cons, not_or] at hcs
    unfold readDigits at h
    split at h
    · simp only [Bool.false_eq_true, if_false] at h
      split at h
      · exact ih hcs.2 h
      · cases h
    · rw [if_neg (by rintro ⟨rfl, _⟩; exact hcs.1 rfl)] at h
      split at h
      · exact ih hcs.2 h
      · cases h

theorem scale_of_read? {cs : List Char} (hcs : '.' ∉ cs) {a : Decimal} (h : read? cs = some a) :
    a.scale = 0 := by
  have hdigits : '.' ∉ (takeSign cs).2 := by
    unfold takeSign
    split
    · exact fun hmem => hcs (List.mem_cons_of_mem _ hmem)
    · exact fun hmem => hcs (List.mem_cons_of_mem _ hmem)
    · exact hcs
  obtain ⟨⟨mantissa, scale⟩, hread, h⟩ := Option.bind_eq_some_iff.mp h
  have hscale := scale_of_readDigits hdigits hread
  exact (parts_of_ofParts? h).2.trans hscale

/-- A text of drops is a whole number of them, and each is a millionth. -/
theorem drops_of_ofDropsText {drops : String} {value : Decimal} (h : ofDropsText drops = .ok value) :
    ∃ n : Int, (read? (trim drops.toList)).map toRat = some (n : Rat) ∧
      value.toRat = n * tenPow (-6) := by
  unfold ofDropsText at h
  dsimp only at h
  split at h
  · cases h
  rename_i hdigits
  simp only [Bool.or_eq_true, Bool.not_eq_true', not_or, Bool.not_eq_false] at hdigits
  have hpoint : '.' ∉ trim drops.toList := by
    intro hmem
    rw [← List.takeWhile_append_dropWhile (p := (· == '-')) (l := trim drops.toList)] at hmem
    rcases List.mem_append.mp hmem with hsign | hdigit
    · have := List.mem_takeWhile_imp hsign
      cases this
    · have := List.all_eq_true.mp hdigits.2 _ hdigit
      cases this
  split at h
  · rename_i minor hread
    cases h
    have hscale := scale_of_read? hpoint hread
    have hminor : minor.toRat = minor.mantissa := toRat_of_whole hscale
    refine ⟨minor.mantissa, ?_, ?_⟩
    · rw [hread, Option.map_some, hminor]
    · rw [toRat_millionths hscale, hminor]
  · cases h

end Decimal

/-! ## The native entry -/

namespace Balances

variable {account : String} {info data objects objects₁ objects₂ : Json} {reserve : Reserve}
  {b b₁ b₂ : Balances} {native : Decimal} {own : Holding}

/-- What an account owns of the native currency by itself: a millionth for each drop of its balance,
and of that what the reserve leaves, if anything. -/
structure OwnsNative (data : Json) (reserve : Reserve) (own : Holding) : Prop where
  total : ∃ text, (data.field? "Balance").bind Json.string? = some text ∧
    ∃ n : Int, (Decimal.read? (Text.trim text.toList)).map Decimal.toRat = some (n : Rat) ∧
      own.total.toRat = n * tenPow (-6)
  available : ∃ kept spare, reserve.required? (ownerCountOf data) = some kept ∧
    own.total.sub? kept = some spare ∧ own.available = spare.floorAtZero

theorem ownsNative_of_nativeOf (hinfo : nativeOf info = .ok (data, native))
    (hown : nativeHolding? native (ownerCountOf data) reserve = some own) :
    info.field? "account_data" = some data ∧ OwnsNative data reserve own := by
  obtain ⟨kept, hkept, hown⟩ := Option.bind_eq_some_iff.mp hown
  obtain ⟨spare, hspare, hown⟩ := Option.bind_eq_some_iff.mp hown
  cases hown
  unfold nativeOf at hinfo
  split at hinfo
  · cases hinfo
  rename_i found hdata
  split at hinfo
  · cases hinfo
  rename_i text htext
  split at hinfo
  · rename_i value hvalue
    cases hinfo
    obtain ⟨n, hn, hrat⟩ := Decimal.drops_of_ofDropsText hvalue
    exact ⟨hdata, ⟨text, htext, n, hn, hrat⟩, ⟨kept, spare, hkept, hspare, rfl⟩⟩
  · cases hinfo

/-- Balances that can be told start from a native holding. -/
theorem exists_own_of_derive? (h : derive? account info objects reserve = some (.ok b)) :
    ∃ data native own, nativeOf info = .ok (data, native) ∧
      nativeHolding? native (ownerCountOf data) reserve = some own := by
  cases hinfo : nativeOf info with
  | error e =>
    unfold derive? at h
    rw [hinfo] at h
    cases h
  | ok told =>
    obtain ⟨data, native⟩ := told
    rw [derive?_of_nativeOf hinfo] at h
    obtain ⟨own, hown, _⟩ := Option.bind_eq_some_iff.mp h
    exact ⟨data, native, own, rfl, hown⟩

/-- Under the native symbol stands what the account owns, with the values of the lines that are
shown as native added. -/
theorem find?_native (hinfo : nativeOf info = .ok (data, native))
    (hown : nativeHolding? native (ownerCountOf data) reserve = some own)
    (h : derive? account info objects reserve = some (.ok b)) :
    b.find? Currency.nativeSymbol =
      own.addAll? (valuesUnder Currency.nativeSymbol (linesOf account objects)) := by
  have hlines := (derive?_eq_ok_iff hinfo hown).mp h
  have hall := addAll?_of_addLines hlines Currency.nativeSymbol
  rw [holding_start, if_pos rfl] at hall
  have hentry := find?_of_addLines hlines Currency.nativeSymbol
  rw [Table.find?_put_self] at hentry
  obtain ⟨entry, hfound⟩ := Option.ne_none_iff_exists'.mp fun hnone =>
    Option.some_ne_none own (hentry.mp hnone).1
  rw [hall, hfound, holding, hfound]
  rfl

/-- Two readings of one account start from the same native balance: its drops as millionths, and what
the reserve leaves of them. Each adds to it the values of its lines that are shown as native, so the
two agree, and tell that balance, where no line is. Of all codes these are the native symbol itself
and those that spell it in bytes. -/
theorem lines_shown_as_native_count_as_native
    (h₁ : derive? account info objects₁ reserve = some (.ok b₁))
    (h₂ : derive? account info objects₂ reserve = some (.ok b₂)) :
    ∃ data own, info.field? "account_data" = some data ∧ OwnsNative data reserve own ∧
      b₁.find? Currency.nativeSymbol =
        own.addAll? (valuesUnder Currency.nativeSymbol (linesOf account objects₁)) ∧
      b₂.find? Currency.nativeSymbol =
        own.addAll? (valuesUnder Currency.nativeSymbol (linesOf account objects₂)) ∧
      ((∀ line ∈ linesOf account objects₁ ++ linesOf account objects₂,
          Currency.symbolOf line.1 ≠ Currency.nativeSymbol) →
        b₁.find? Currency.nativeSymbol = some own ∧ b₂.find? Currency.nativeSymbol = some own) ∧
      ∀ code, Currency.symbolOf code = Currency.nativeSymbol ↔ code = Currency.nativeSymbol ∨
        Currency.isHexCode code.toList = true ∧ ∃ bs, Text.unhex? code.toList = some bs ∧
          bs.filter (· != 0) = Currency.nativeLetters := by
  obtain ⟨data, native, own, hinfo, hown⟩ := exists_own_of_derive? h₁
  obtain ⟨hdata, howns⟩ := ownsNative_of_nativeOf hinfo hown
  have hfirst := find?_native hinfo hown h₁
  have hsecond := find?_native hinfo hown h₂
  refine ⟨data, own, hdata, howns, hfirst, hsecond, fun hnone => ?_, Currency.symbolOf_eq_native_iff⟩
  have hvalues : ∀ lines : List (String × Decimal),
      (∀ line ∈ lines, Currency.symbolOf line.1 ≠ Currency.nativeSymbol) →
      valuesUnder Currency.nativeSymbol lines = [] := by
    intro lines hlines
    rw [valuesUnder, List.map_eq_nil_iff, List.filter_eq_nil_iff]
    intro line hline
    simpa using hlines line hline
  rw [hfirst, hsecond, hvalues _ fun line hline => hnone line (List.mem_append_left _ hline),
    hvalues _ fun line hline => hnone line (List.mem_append_right _ hline)]
  exact ⟨rfl, rfl⟩

/-! Lines in another currency leave the native entry alone. A line of five in a code that spells the
native symbol in bytes counts as five more of the native currency, all of it to be spent. -/

def spelledCode : String := "5852500000000000000000000000000000000000"

def spelledLine : Json := objectsJson [lineJson spelledCode "5" "rMe" "rGate"]

theorem native_entry_beside_two_lines : ∃ b₁ b₂,
    derive? "rMe" standardInfo (objectsJson []) .standard = some (.ok b₁) ∧
    derive? "rMe" standardInfo twoLines .standard = some (.ok b₂) ∧
    b₁.find? Currency.nativeSymbol = b₂.find? Currency.nativeSymbol := by
  obtain ⟨b₁, h₁⟩ : ∃ b, derive? "rMe" standardInfo (objectsJson []) .standard = some (.ok b) :=
    ⟨_, rfl⟩
  obtain ⟨b₂, h₂⟩ : ∃ b, derive? "rMe" standardInfo twoLines .standard = some (.ok b) := ⟨_, rfl⟩
  obtain ⟨data, own, _, _, _, _, hsame, _⟩ := lines_shown_as_native_count_as_native h₁ h₂
  have hshown : ∀ line ∈ linesOf "rMe" (objectsJson []) ++ linesOf "rMe" twoLines,
      Currency.symbolOf line.1 ≠ Currency.nativeSymbol := by decide +kernel
  obtain ⟨hfirst, hsecond⟩ := hsame hshown
  exact ⟨b₁, b₂, h₁, h₂, hfirst.trans hsecond.symm⟩

theorem a_line_passes_for_native : ∃ b₁ b₂,
    derive? "rMe" standardInfo (objectsJson []) .standard = some (.ok b₁) ∧
    derive? "rMe" standardInfo spelledLine .standard = some (.ok b₂) ∧
    b₁.find? Currency.nativeSymbol = some ⟨.ofWord 20, .ofWord 10⟩ ∧
    b₂.find? Currency.nativeSymbol = some ⟨.ofWord 25, .ofWord 15⟩ :=
  ⟨_, _, rfl, rfl, by decide +kernel, by decide +kernel⟩

end Balances

end OfferDesk
