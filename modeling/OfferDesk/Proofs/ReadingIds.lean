-- Exchange ids as the key that orders are found by. The text of an id reads back as the id, and the
-- texts that are read at all are two words of 32 bits with a dash between them. An order under any
-- other text has no sequence, and no sequence leads to it.
import Mathlib.Data.List.TakeWhile
import OfferDesk.Proofs.IssuedValues
import OfferDesk.Proofs.Sequences

namespace OfferDesk

/-! ## Words as text -/

namespace Text

open Decimal (numeral?_plus numeral?_of_digits)

variable {cs : List Char} {value limit n : Nat}

/-- A natural number as text: digits, with one plus sign before them or none. -/
inductive Natural : List Char → Nat → Prop
  | digits {ds : List Char} : ds ≠ [] → (∀ c ∈ ds, c.isDigit = true) →
      Natural ds (Nat.ofDigitChars 10 ds 0)
  | plus {ds : List Char} : ds ≠ [] → (∀ c ∈ ds, c.isDigit = true) →
      Natural ('+' :: ds) (Nat.ofDigitChars 10 ds 0)

/-- What is read as digits is nothing but digits, and the number that they denote. -/
theorem digitsFrom?_eq_some_iff : digitsFrom? value cs = some n ↔
    (∀ c ∈ cs, c.isDigit = true) ∧ n = Nat.ofDigitChars 10 cs value := by
  refine ⟨fun h => ?_, fun ⟨hcs, hn⟩ => hn ▸ digitsFrom?_of_digits hcs value⟩
  have hcs : ∀ c ∈ cs, c.isDigit = true := by
    induction cs generalizing value with
    | nil => simp
    | cons c cs ih =>
      obtain ⟨d, hd, hrest⟩ := Option.bind_eq_some_iff.mp h
      refine List.forall_mem_cons.mpr ⟨?_, ih hrest⟩
      rw [← isDigit_eq, isDigit, hd]
      rfl
  rw [digitsFrom?_of_digits hcs] at h
  exact ⟨hcs, (Option.some.inj h).symm⟩

theorem numeral?_eq_some_iff : numeral? limit cs = some n ↔ Natural cs n ∧ n ≤ limit := by
  constructor
  · intro h
    unfold numeral? at h
    dsimp only at h
    split at h
    all_goals
      split at h
      · cases h
      rename_i hne
      rw [List.isEmpty_iff] at hne
      obtain ⟨hdigits, hlimit⟩ := Option.filter_eq_some_iff.mp h
      obtain ⟨hds, rfl⟩ := digitsFrom?_eq_some_iff.mp hdigits
    · exact ⟨.plus hne hds, of_decide_eq_true hlimit⟩
    · exact ⟨.digits hne hds, of_decide_eq_true hlimit⟩
  · rintro ⟨hcs, hlimit⟩
    cases hcs with
    | digits hne hds => rw [numeral?_of_digits hne hds, if_pos hlimit]
    | plus hne hds => rw [numeral?_plus hds, numeral?_of_digits hne hds, if_pos hlimit]

theorem word32?_eq_some_iff {w : UInt32} : word32? cs = some w ↔ Natural cs w.toNat := by
  have hw : w.toNat ≤ UInt32.size - 1 := Nat.le_of_lt_succ w.toNat_lt
  rw [word32?, Option.map_eq_some_iff]
  constructor
  · rintro ⟨n, hn, rfl⟩
    obtain ⟨hcs, hlimit⟩ := numeral?_eq_some_iff.mp hn
    have hsize : n < UInt32.size := Nat.lt_of_le_of_lt hlimit (by decide)
    rwa [show (Nat.toUInt32 n).toNat = n from UInt32.toNat_ofNat_of_lt' hsize]
  · intro h
    exact ⟨w.toNat, numeral?_eq_some_iff.mpr ⟨h, hw⟩, UInt32.ofNat_toNat⟩

end Text

/-! ## Ids as text -/

namespace ExchangeId

variable {s : String} {id : ExchangeId} {before after : List Char}

/-- A text that spells an id: two words of 32 bits, before and after its first dash. -/
def Spells (s : String) (id : ExchangeId) : Prop :=
  ∃ before after, s.toList = before ++ '-' :: after ∧ '-' ∉ before ∧
    Text.Natural before id.sequence.toNat ∧ Text.Natural after id.lastLedger.toNat

theorem read?_of_dash (hs : s.toList = before ++ '-' :: after) (hbefore : '-' ∉ before) :
    read? s = (Text.word32? before).bind fun sequence =>
      (Text.word32? after).map fun lastLedger => ⟨sequence, lastLedger⟩ := by
  have hnone : ∀ c ∈ before, decide (c ≠ '-') = true := by
    intro c hc
    exact decide_eq_true fun hdash => hbefore (hdash ▸ hc)
  have htake : s.toList.takeWhile (· ≠ '-') = before := by
    rw [hs, List.takeWhile_append_of_pos hnone]
    simp
  have hdrop : s.toList.dropWhile (· ≠ '-') = '-' :: after := by
    rw [hs, List.dropWhile_append_of_pos hnone]
    rfl
  simp only [read?, hdrop, htake]
  cases Text.word32? before with
  | none => rfl
  | some sequence =>
    simp only [Option.bind_some]
    cases Text.word32? after <;> rfl

theorem read?_of_no_dash (h : '-' ∉ s.toList) : read? s = none := by
  have hdrop : s.toList.dropWhile (· ≠ '-') = [] := by
    rw [List.dropWhile_eq_nil_iff]
    intro c hc
    exact decide_eq_true fun hdash => h (hdash ▸ hc)
  simp only [read?, hdrop]

/-- A text is read as the id that it spells, and not at all if it spells none. -/
theorem read?_eq_some_iff : read? s = some id ↔ Spells s id := by
  constructor
  · intro h
    by_cases hdash : '-' ∈ s.toList
    · obtain ⟨before, after, hs, hbefore⟩ := List.eq_append_cons_of_mem hdash
      rw [read?_of_dash hs hbefore] at h
      obtain ⟨sequence, hsequence, h⟩ := Option.bind_eq_some_iff.mp h
      obtain ⟨lastLedger, hledger, rfl⟩ := Option.map_eq_some_iff.mp h
      exact ⟨before, after, hs, hbefore, Text.word32?_eq_some_iff.mp hsequence,
        Text.word32?_eq_some_iff.mp hledger⟩
    · rw [read?_of_no_dash hdash] at h
      cases h
  · rintro ⟨before, after, hs, hbefore, hsequence, hledger⟩
    rw [read?_of_dash hs hbefore, Text.word32?_eq_some_iff.mpr hsequence,
      Text.word32?_eq_some_iff.mpr hledger]
    rfl

theorem text_injective : Function.Injective text := by
  intro id id' h
  have hread := read?_text id
  rw [h, read?_text] at hread
  exact (Option.some.inj hread).symm

end ExchangeId

/-! ## Orders under an id -/

/-- An order has a sequence just if its exchange id spells one. -/
theorem Order.sequence?_eq_some_iff {o : Order} {n : UInt32} : o.sequence? = some n ↔
    ∃ s id, o.exchangeId = some s ∧ ExchangeId.Spells s id ∧ id.sequence = n := by
  simp only [sequence?, Option.map_eq_some_iff, Option.bind_eq_some_iff,
    ExchangeId.read?_eq_some_iff]
  constructor
  · rintro ⟨id, ⟨s, hs, hid⟩, hn⟩
    exact ⟨s, id, hs, hid, hn⟩
  · rintro ⟨s, id, hs, hid, hn⟩
    exact ⟨id, ⟨s, hs, hid⟩, hn⟩

namespace OrderRegister

theorem find?_of_assign {r r' : OrderRegister} {clientId : String} {id : ExchangeId}
    (h : r.assign clientId id = .ok r') :
    ∃ o, r'.find? clientId = some o ∧ o.exchangeId = some id.text := by
  obtain ⟨o, _, hsets⟩ := sets_assign h
  exact ⟨{ o with exchangeId := some id.text }, (hsets clientId).trans (if_pos rfl), rfl⟩

end OrderRegister

namespace ExchangeId

/-- The text of an id is a key to its order. It reads back as the id, so different ids have different
texts, and an order that is given an id has the sequence of that id. Of all texts just those that
spell an id are read. An order under no such text has no sequence, and no sequence leads to it. -/
theorem ids_are_faithful_keys :
    (∀ id, read? id.text = some id) ∧ Function.Injective text ∧
    (∀ (r r' : OrderRegister) clientId id, r.assign clientId id = .ok r' →
      ∃ o, r'.find? clientId = some o ∧ o.exchangeId = some id.text ∧
        o.sequence? = some id.sequence) ∧
    (∀ s id, read? s = some id ↔ Spells s id) ∧
    ∀ o : Order, (∀ s id, o.exchangeId = some s → ¬ Spells s id) →
      o.sequence? = none ∧ ∀ (r : OrderRegister) n, o ∉ r.carrying n ∧ r.resolve? n ≠ some o := by
  refine ⟨read?_text, text_injective, fun r r' clientId id h => ?_, fun s id => read?_eq_some_iff,
    fun o hother => ?_⟩
  · obtain ⟨o, ho, hid⟩ := OrderRegister.find?_of_assign h
    exact ⟨o, ho, hid, Order.sequence?_of_exchangeId hid⟩
  · have hnone : o.sequence? = none := by
      by_contra hsome
      obtain ⟨n, hn⟩ := Option.ne_none_iff_exists'.mp hsome
      obtain ⟨s, id, hs, hid, _⟩ := Order.sequence?_eq_some_iff.mp hn
      exact hother s id hs hid
    have hcarries : ∀ (r : OrderRegister) n, o ∉ r.carrying n := by
      intro r n ho
      have hn := (OrderRegister.mem_carrying.mp ho).2.2
      rw [hnone] at hn
      cases hn
    exact ⟨hnone, fun r n => ⟨hcarries r n, fun h =>
      hcarries r n (OrderRegister.mem_carrying_of_resolve? h)⟩⟩

/-! An order gets an id that reads back. Zeros in front and a plus sign do not matter, but a second
dash does. -/

def oneOrder : OrderRegister :=
  .track .empty (.start "1-1" "SOLO-XRP" .buy .limit (.ofWord 10) (some .one) .moment)

theorem key_of_an_order :
    (∃ r' o, oneOrder.assign "1-1" ⟨7, 20⟩ = .ok r' ∧ r'.find? "1-1" = some o ∧
      o.exchangeId = some "7-20" ∧ o.sequence? = some 7) ∧
    Spells "+07-20" ⟨7, 20⟩ ∧
    ∀ o : Order, o.exchangeId = some "7-20-1" → o.sequence? = none := by
  obtain ⟨_, _, hassigned, hread, hother⟩ := ids_are_faithful_keys
  refine ⟨?_, (hread _ _).mp (by decide +kernel), fun o ho => (hother o fun s id hs hid => ?_).1⟩
  · obtain ⟨r', h⟩ : ∃ r', oneOrder.assign "1-1" ⟨7, 20⟩ = .ok r' := ⟨_, rfl⟩
    obtain ⟨o, ho, hid, hsequence⟩ := hassigned _ _ _ _ h
    have htext : text ⟨7, 20⟩ = "7-20" := by decide +kernel
    exact ⟨r', o, h, ho, htext ▸ hid, hsequence⟩
  · rw [ho] at hs
    cases hs
    have hnone : read? "7-20-1" = none := by decide +kernel
    rw [(hread _ _).mpr hid] at hnone
    cases hnone

end ExchangeId

end OfferDesk
