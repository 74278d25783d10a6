-- Symbols of currencies and the codes that carry them. A symbol of three characters is its own code,
-- and any other is written in hexadecimal digits and filled up with zeros. Both are read back, the
-- digits in either case, so no two symbols have one code. Up to the case of letters only codes of
-- three characters can be the same.
import OfferDesk.Proofs.LedgerCurrencies

namespace OfferDesk

/-! ## Hexadecimal digits -/

namespace Text

variable {cs cs' : List Char} {bs : List UInt8}

theorem hexDigit?_hexDigit {n : Nat} (h : n < 16) : hexDigit? (hexDigit n) = some n := by
  revert n
  decide

/-- Bytes that are written in digits read back. -/
theorem unhex?_hex (bs : List UInt8) : unhex? (hex bs) = some bs := by
  induction bs with
  | nil => rfl
  | cons b bs ih =>
    have hb := b.toNat_lt
    have hhigh := hexDigit?_hexDigit (show b.toNat / 16 < 16 by omega)
    have hlow := hexDigit?_hexDigit (show b.toNat % 16 < 16 by omega)
    have hbyte : Nat.toUInt8 (b.toNat / 16 * 16 + b.toNat % 16) = b := by
      rw [Nat.div_add_mod']
      exact UInt8.ofNat_toNat
    simp only [hex, unhex?, hhigh, hlow, ih, Option.bind_eq_bind, Option.bind_some, hbyte]

theorem length_hex (bs : List UInt8) : (hex bs).length = 2 * bs.length := by
  induction bs with
  | nil => rfl
  | cons b bs ih =>
    simp only [hex, List.length_cons, ih]
    omega

theorem isHexDigit_of_mem_hex {c : Char} (h : c ∈ hex bs) : isHexDigit c = true := by
  induction bs with
  | nil => cases h
  | cons b bs ih =>
    have hb := b.toNat_lt
    rcases List.mem_cons.mp h with rfl | h
    · rw [isHexDigit, hexDigit?_hexDigit (by omega)]
      rfl
    rcases List.mem_cons.mp h with rfl | h
    · rw [isHexDigit, hexDigit?_hexDigit (by omega)]
      rfl
    · exact ih h

theorem hexDigit?_eq (c : Char) : hexDigit? c =
    if 48 ≤ c.toNat ∧ c.toNat ≤ 57 then some (c.toNat - 48)
    else if 65 ≤ c.toNat ∧ c.toNat ≤ 70 then some (c.toNat - 55)
    else if 97 ≤ c.toNat ∧ c.toNat ≤ 102 then some (c.toNat - 87)
    else none := by
  simp only [hexDigit?, Char.le_def, UInt32.le_iff_toNat_le]
  show (if 48 ≤ c.toNat ∧ c.toNat ≤ 57 then some (c.toNat - 48)
    else if 65 ≤ c.toNat ∧ c.toNat ≤ 70 then some (c.toNat - 65 + 10)
    else if 97 ≤ c.toNat ∧ c.toNat ≤ 102 then some (c.toNat - 97 + 10) else none) = _
  split
  · rfl
  split
  · rw [show c.toNat - 65 + 10 = c.toNat - 55 by omega]
  split
  · rw [show c.toNat - 97 + 10 = c.toNat - 87 by omega]
  · rfl

/-- A digit has the same value in either case. -/
theorem hexDigit?_toUpper (c : Char) : hexDigit? c.toUpper = hexDigit? c := by
  rw [hexDigit?_eq, hexDigit?_eq, toNat_toUpper]
  by_cases hlower : 97 ≤ c.toNat ∧ c.toNat ≤ 122
  · rw [if_pos hlower]
    by_cases hdigit : c.toNat ≤ 102
    · rw [if_neg (by omega), if_pos (by omega), if_neg (by omega), if_neg (by omega),
        if_pos ⟨hlower.1, hdigit⟩, show c.toNat - 32 - 55 = c.toNat - 87 by omega]
    · rw [if_neg (by omega), if_neg (by omega), if_neg (by omega), if_neg (by omega),
        if_neg (by omega), if_neg (by omega)]
  · rw [if_neg hlower]

theorem unhex?_upper (cs : List Char) : unhex? (upper cs) = unhex? cs := by
  induction cs using unhex?.induct with
  | case1 => rfl
  | case2 c => rfl
  | case3 a b cs ih =>
    show unhex? (a.toUpper :: b.toUpper :: upper cs) = _
    simp only [unhex?, hexDigit?_toUpper, ih]

/-- Digits read back in either case. -/
theorem unhex?_congr (h : sameUpToCase cs cs' = true) : unhex? cs = unhex? cs' := by
  rw [← unhex?_upper cs, eq_of_beq h, unhex?_upper]

/-! ## Letters as bytes -/

/-- A visible ASCII character. -/
def IsVisible (c : Char) : Prop := 0x21 ≤ c.toNat ∧ c.toNat ≤ 0x7e

instance (c : Char) : Decidable (IsVisible c) := inferInstanceAs (Decidable (_ ∧ _))

/-- The byte of a letter. -/
def byteOf (c : Char) : UInt8 := UInt8.ofNat c.toNat

theorem toNat_byteOf {c : Char} (h : IsVisible c) : (byteOf c).toNat = c.toNat :=
  UInt8.toNat_ofNat_of_lt' (lt_of_le_of_lt h.2 (by decide))

theorem isGraphic_byteOf {c : Char} (h : IsVisible c) : isGraphic (byteOf c) = true := by
  rw [isGraphic, Bool.and_eq_true, decide_eq_true_eq, decide_eq_true_eq, UInt8.le_iff_toNat_le,
    UInt8.le_iff_toNat_le, toNat_byteOf h]
  exact h

theorem byteOf_ne_zero {c : Char} (h : IsVisible c) : byteOf c ≠ 0 := by
  intro hzero
  have hcode := toNat_byteOf h
  rw [hzero] at hcode
  have hlow := h.1
  rw [← hcode] at hlow
  exact absurd hlow (by decide)

theorem bytes_eq_map (h : ∀ c ∈ cs, IsVisible c) : bytes cs = cs.map byteOf := by
  induction cs with
  | nil => rfl
  | cons c cs ih =>
    have hc : c.val.toNat ≤ 127 := (h c List.mem_cons_self).2.trans (by decide)
    have hone : String.utf8EncodeChar c = [byteOf c] := by
      rw [String.utf8EncodeChar]
      exact if_pos hc
    rw [bytes, List.flatMap_cons, hone, List.map_cons]
    exact congrArg _ (ih fun d hd => h d (List.mem_cons_of_mem c hd))

/-- Letters are told by their bytes. -/
theorem map_letters (h : ∀ c ∈ cs, IsVisible c) :
    (cs.map byteOf).map (fun b => Char.ofNat b.toNat) = cs := by
  rw [List.map_map]
  refine (List.map_congr_left fun c hc => ?_).trans (List.map_id cs)
  rw [Function.comp_apply, toNat_byteOf (h c hc), Char.ofNat_toNat, id]

end Text

/-! ## Codes -/

namespace Currency

open Text

variable {s s' code code' : String}

/-- A symbol of a currency: one to twenty visible ASCII characters. -/
structure IsSymbol (s : String) : Prop where
  nonempty : s.toList ≠ []
  short : s.toList.length ≤ 20
  visible : ∀ c ∈ s.toList, IsVisible c

instance (s : String) : Decidable (IsSymbol s) :=
  decidable_of_iff (s.toList ≠ [] ∧ s.toList.length ≤ 20 ∧
      s.toList.all (fun c => decide (IsVisible c)) = true) <| by
    simp only [List.all_eq_true, decide_eq_true_eq]
    exact ⟨fun h => ⟨h.1, h.2.1, h.2.2⟩, fun h => ⟨h.nonempty, h.short, h.visible⟩⟩

/-- The bytes of a symbol, filled up with zeros. -/
def filledBytes (s : String) : List UInt8 :=
  s.toList.map byteOf ++ List.replicate (20 - s.toList.length) 0

/-- A code from which a symbol is read, in hexadecimal digits of either case where the symbol has
other than three characters. -/
structure Carries (code s : String) : Prop where
  hex_iff : isHexCode code.toList = true ↔ s.toList.length ≠ 3
  symbol : symbolOf code = s
  anyCase : ∀ written : String, isHexCode code.toList = true →
    sameUpToCase written.toList code.toList = true → symbolOf written = s

theorem length_filledBytes (h : IsSymbol s) : (filledBytes s).length = 20 := by
  have hshort := h.short
  simp only [filledBytes, List.length_append, List.length_map, List.length_replicate]
  omega

/-- Without the zeros the bytes of the symbol are left. -/
theorem filter_filledBytes (h : IsSymbol s) :
    (filledBytes s).filter (· != 0) = s.toList.map byteOf := by
  have hletters : (s.toList.map byteOf).filter (· != 0) = s.toList.map byteOf := by
    rw [List.filter_eq_self]
    intro b hb
    obtain ⟨c, hc, rfl⟩ := List.mem_map.mp hb
    exact bne_iff_ne.mpr (byteOf_ne_zero (h.visible c hc))
  have hzeros : (List.replicate (20 - s.toList.length) (0 : UInt8)).filter (· != 0) = [] := by
    rw [List.filter_replicate, if_neg (by decide)]
  rw [filledBytes, List.filter_append, hletters, hzeros, List.append_nil]

theorem IsSymbol.not_hex (h : IsSymbol s) : isHexCode s.toList = false := by
  have hlength : (s.toList.length == 40) = false := beq_eq_false_iff_ne.mpr (by
    have hshort := h.short
    omega)
  rw [isHexCode, hlength, Bool.false_and]

theorem isHexCode_hex (h : IsSymbol s) : isHexCode (hex (filledBytes s)) = true := by
  rw [isHexCode, Bool.and_eq_true, beq_iff_eq, List.all_eq_true, length_hex, length_filledBytes h]
  exact ⟨rfl, fun c hc => isHexDigit_of_mem_hex hc⟩

/-- The code of a symbol is the symbol itself or its bytes in digits. -/
theorem codeOf?_eq (h : IsSymbol s) : codeOf? s =
    some (if s.toList.length = 3 then s else String.ofList (hex (filledBytes s))) := by
  have hbytes := bytes_eq_map h.visible
  have hshort : ¬ 20 < s.toList.length := by
    have hshort := h.short
    omega
  unfold codeOf?
  dsimp only
  rw [hbytes, List.length_map, if_neg (by rw [h.not_hex]; decide), if_neg hshort]
  split <;> rfl

/-- A code in digits that spell the bytes of a symbol is read as the symbol. -/
theorem symbolOf_of_unhex? (h : IsSymbol s) (hhex : isHexCode code.toList = true)
    (hbytes : unhex? code.toList = some (filledBytes s)) : symbolOf code = s := by
  have hshown : (!(s.toList.map byteOf).isEmpty && (s.toList.map byteOf).all isGraphic) = true := by
    rw [Bool.and_eq_true, List.all_eq_true, Bool.not_eq_true', List.isEmpty_eq_false_iff]
    refine ⟨fun hnil => h.nonempty (List.map_eq_nil_iff.mp hnil), fun b hb => ?_⟩
    obtain ⟨c, hc, rfl⟩ := List.mem_map.mp hb
    exact isGraphic_byteOf (h.visible c hc)
  unfold symbolOf
  dsimp only
  rw [if_pos hhex, hbytes]
  dsimp only
  rw [filter_filledBytes h, if_pos hshown, map_letters h.visible, String.ofList_toList]

theorem carries_of_codeOf? (h : IsSymbol s) (hcode : codeOf? s = some code) : Carries code s := by
  rw [codeOf?_eq h] at hcode
  obtain rfl := Option.some.inj hcode
  by_cases hthree : s.toList.length = 3
  · rw [if_pos hthree]
    have hplain : symbolOf s = s := by
      unfold symbolOf
      exact if_neg (by rw [h.not_hex]; decide)
    exact
      { hex_iff := by simp [h.not_hex, hthree]
        symbol := hplain
        anyCase := fun _ hhex => by
          rw [h.not_hex] at hhex
          cases hhex }
  · rw [if_neg hthree]
    have hhex : isHexCode (String.ofList (hex (filledBytes s))).toList = true := by
      rw [String.toList_ofList]
      exact isHexCode_hex h
    have hbytes : unhex? (String.ofList (hex (filledBytes s))).toList = some (filledBytes s) := by
      rw [String.toList_ofList, unhex?_hex]
    exact
      { hex_iff := iff_of_true hhex hthree
        symbol := symbolOf_of_unhex? h hhex hbytes
        anyCase := fun written _ hsame =>
          symbolOf_of_unhex? h ((isHexCode_congr hsame).trans hhex)
            ((unhex?_congr hsame).trans hbytes) }

/-- A symbol of three characters is its own code. -/
theorem code_eq_of_length_eq_three (h : IsSymbol s) (hcode : codeOf? s = some code)
    (hthree : s.toList.length = 3) : code = s := by
  rw [codeOf?_eq h, if_pos hthree] at hcode
  exact (Option.some.inj hcode).symm

/-- Codes of two symbols are the same up to case where the symbols are, and have three characters. -/
theorem sameUpToCase_iff_of_ne (h : IsSymbol s) (h' : IsSymbol s') (hcode : codeOf? s = some code)
    (hcode' : codeOf? s' = some code') (hne : s' ≠ s) :
    sameUpToCase code.toList code'.toList = true ↔ s.toList.length = 3 ∧ s'.toList.length = 3 ∧
      sameUpToCase s.toList s'.toList = true := by
  have hcarries := carries_of_codeOf? h hcode
  have hcarries' := carries_of_codeOf? h' hcode'
  constructor
  · intro hsame
    have hhex := isHexCode_congr hsame
    have hthree' : s'.toList.length = 3 := by
      by_contra hother
      have hread := hcarries'.anyCase code (hcarries'.hex_iff.mpr hother) hsame
      exact hne (hread.symm.trans hcarries.symbol)
    have hthree : s.toList.length = 3 := by
      by_contra hother
      exact hcarries'.hex_iff.mp (hhex.symm.trans (hcarries.hex_iff.mpr hother)) hthree'
    rw [code_eq_of_length_eq_three h hcode hthree,
      code_eq_of_length_eq_three h' hcode' hthree'] at hsame
    exact ⟨hthree, hthree', hsame⟩
  · rintro ⟨hthree, hthree', hsame⟩
    rwa [code_eq_of_length_eq_three h hcode hthree, code_eq_of_length_eq_three h' hcode' hthree']

/-- Every symbol has a code from which it is read back. Two symbols have two codes, and these count
as one currency only for symbols of three characters that differ in the case of letters. -/
theorem symbols_survive_their_codes (h : IsSymbol s) : ∃ code, codeOf? s = some code ∧
    Carries code s ∧ ∀ s', IsSymbol s' → s' ≠ s → ∃ code', codeOf? s' = some code' ∧
      code' ≠ code ∧ ∀ issuer,
        ((issued code issuer).agreesWith (issued code' issuer) = true ↔
          s.toList.length = 3 ∧ s'.toList.length = 3 ∧
            sameUpToCase s.toList s'.toList = true) := by
  have hcode := codeOf?_eq h
  have hcarries := carries_of_codeOf? h hcode
  refine ⟨_, hcode, hcarries, fun s' h' hne => ?_⟩
  have hcode' := codeOf?_eq h'
  have hcarries' := carries_of_codeOf? h' hcode'
  refine ⟨_, hcode', fun heq => ?_, fun issuer => ?_⟩
  · rw [heq] at hcarries'
    exact hne (hcarries'.symbol.symm.trans hcarries.symbol)
  · rw [agreesWith, beq_self_eq_true, Bool.true_and]
    exact sameUpToCase_iff_of_ne h h' hcode hcode' hne

/-! The code of SOLO is read back from small digits too. It is another currency than USDC, whatever
the case. -/

def soloDigits : String := "534f4c4f00000000000000000000000000000000"

theorem solo_from_small_digits : symbolOf soloDigits = "SOLO" ∧
    ∃ code, codeOf? "USDC" = some code ∧
      (issued soloDigits "rIssuer").agreesWith (issued code "rIssuer") = false := by
  have hsolo : IsSymbol "SOLO" := by decide
  have husdc : IsSymbol "USDC" := by decide
  obtain ⟨code, hcode, hcarries, hothers⟩ := symbols_survive_their_codes hsolo
  have hdigits : sameUpToCase soloDigits.toList code.toList = true := by
    rw [← Option.some.inj ((codeOf?_eq hsolo).symm.trans hcode)]
    decide
  refine ⟨hcarries.anyCase _ (hcarries.hex_iff.mpr (by decide)) hdigits, ?_⟩
  obtain ⟨code', hcode', _, hagrees⟩ := hothers "USDC" husdc (by decide)
  refine ⟨code', hcode', ?_⟩
  have hsame : (issued soloDigits "rIssuer").agreesWith (issued code "rIssuer") = true := by
    rw [agreesWith, beq_self_eq_true, Bool.true_and]
    exact hdigits
  rw [agreesWith_congr hsame, Bool.eq_false_iff]
  intro htrue
  exact absurd ((hagrees "rIssuer").mp htrue).1 (by decide)

end Currency

end OfferDesk
