-- The currencies of a market against those of the ledger. Codes are compared without the case of
-- their letters. The ledger does so with codes in hexadecimal digits and keeps all others apart. So
-- the book of a market holds offers in its own currencies, and in those that the ledger tells from
-- them by the case of a code alone.
import OfferDesk.Proofs.FundingCaps

namespace OfferDesk

/-! ## Codes up to case -/

namespace Text

theorem isHexDigit_iff (c : Char) : isHexDigit c = true ↔
    48 ≤ c.toNat ∧ c.toNat ≤ 57 ∨ 65 ≤ c.toNat ∧ c.toNat ≤ 70 ∨ 97 ≤ c.toNat ∧ c.toNat ≤ 102 := by
  simp only [isHexDigit, hexDigit?, Char.le_def, UInt32.le_iff_toNat_le]
  rw [apply_ite Option.isSome, apply_ite Option.isSome, apply_ite Option.isSome]
  simp [or_iff_not_imp_left]

theorem toNat_toUpper (c : Char) : c.toUpper.toNat =
    if 97 ≤ c.toNat ∧ c.toNat ≤ 122 then c.toNat - 32 else c.toNat := by
  unfold Char.toUpper
  by_cases h : 'a'.val ≤ c.val ∧ c.val ≤ 'z'.val
  · have hlower : 97 ≤ c.toNat ∧ c.toNat ≤ 122 := h
    rw [dif_pos h, if_pos hlower]
    -- thirty-two less, as words subtract it
    show (c.val + ('A'.val - 'a'.val)).toNat = c.val.toNat - 32
    have hless : ('A'.val - 'a'.val).toNat = 2 ^ 32 - 32 := rfl
    have hval : c.toNat = c.val.toNat := rfl
    rw [UInt32.toNat_add, hless]
    omega
  · have hother : ¬ (97 ≤ c.toNat ∧ c.toNat ≤ 122) := h
    rw [dif_neg h, if_neg hother]

/-- Digits are digits in either case. -/
theorem isHexDigit_toUpper (c : Char) : isHexDigit c.toUpper = isHexDigit c := by
  rw [Bool.eq_iff_iff, isHexDigit_iff, isHexDigit_iff, toNat_toUpper]
  split <;> omega

end Text

namespace Currency

open Text

variable {a b : Currency}

theorem isHexCode_upper (cs : List Char) : isHexCode (upper cs) = isHexCode cs := by
  simp [isHexCode, upper, isHexDigit_toUpper, Function.comp_def]

theorem isHexCode_congr {cs cs' : List Char} (h : sameUpToCase cs cs' = true) :
    isHexCode cs = isHexCode cs' := by
  rw [← isHexCode_upper cs, eq_of_beq h, isHexCode_upper]

/-- Codes by which the ledger knows one currency: the same one, or the same hexadecimal digits in
either case. -/
def SameCode (code code' : String) : Prop :=
  code = code' ∨ isHexCode code.toList = true ∧ isHexCode code'.toList = true ∧
    sameUpToCase code.toList code'.toList = true

/-- The ledger takes two currencies for one. -/
def SameOnLedger : Currency → Currency → Prop
  | native, native => True
  | issued code issuer, issued code' issuer' => issuer = issuer' ∧ SameCode code code'
  | _, _ => False

instance (code code' : String) : Decidable (SameCode code code') :=
  inferInstanceAs (Decidable (_ ∨ _))

instance (a b : Currency) : Decidable (a.SameOnLedger b) :=
  match a, b with
  | native, native => isTrue trivial
  | issued .., issued .. => inferInstanceAs (Decidable (_ ∧ _))
  | native, issued .. => isFalse id
  | issued .., native => isFalse id

/-- Two currencies of one issuer that the ledger tells apart by the case of their codes alone. -/
def CaseTwins : Currency → Currency → Prop
  | issued code issuer, issued code' issuer' => issuer = issuer' ∧ code ≠ code' ∧
      isHexCode code.toList = false ∧ sameUpToCase code.toList code'.toList = true
  | _, _ => False

/-- Codes are compared as the ledger does it, but for those that are not hexadecimal. -/
theorem sameUpToCase_iff (code code' : String) : sameUpToCase code.toList code'.toList = true ↔
    SameCode code code' ∨ code ≠ code' ∧ isHexCode code.toList = false ∧
      sameUpToCase code.toList code'.toList = true := by
  constructor
  · intro h
    by_cases heq : code = code'
    · exact Or.inl (Or.inl heq)
    · cases hhex : isHexCode code.toList with
      | true => exact Or.inl (Or.inr ⟨hhex, isHexCode_congr h ▸ hhex, h⟩)
      | false => exact Or.inr ⟨heq, rfl, h⟩
  · rintro ((rfl | ⟨_, _, h⟩) | ⟨_, _, h⟩)
    · simp [sameUpToCase]
    · exact h
    · exact h

/-- Currencies count as the same where the ledger takes them for one, and where they are case
twins. -/
theorem agreesWith_iff : a.agreesWith b = true ↔ a.SameOnLedger b ∨ a.CaseTwins b := by
  cases a with
  | native => cases b <;> simp [agreesWith, SameOnLedger, CaseTwins]
  | issued code issuer =>
    cases b with
    | native => simp [agreesWith, SameOnLedger, CaseTwins]
    | issued code' issuer' =>
      rw [agreesWith, Bool.and_eq_true, beq_iff_eq, sameUpToCase_iff]
      exact and_or_left

theorem CaseTwins.not_same (h : a.CaseTwins b) : ¬ a.SameOnLedger b := by
  cases a with
  | native => cases h
  | issued code issuer =>
    cases b with
    | native => cases h
    | issued code' issuer' =>
      obtain ⟨_, hne, hhex, _⟩ := h
      rintro ⟨_, heq | ⟨hhex', _⟩⟩
      · exact hne heq
      · rw [hhex] at hhex'
        cases hhex'

theorem isNative_congr (h : a.agreesWith b = true) : a.isNative = b.isNative := by
  cases a <;> cases b <;> first | rfl | cases h

end Currency

/-! ## Legs of a market -/

namespace Market

variable {m : Market} {l l' : Legs} {side : BookSide}

/-- The legs are in the currencies of the market, as the ledger knows them. -/
structure Trades (m : Market) (l : Legs) (side : BookSide) : Prop where
  base : (l.baseOn side).currency.SameOnLedger m.base
  quote : (l.quoteOn side).currency.SameOnLedger m.quote

/-- A leg is in a case twin of the market's currency. -/
def Confuses (m : Market) (l : Legs) (side : BookSide) : Prop :=
  (l.baseOn side).currency.CaseTwins m.base ∨ (l.quoteOn side).currency.CaseTwins m.quote

/-- The legs count as the currencies of the market: each is in its currency or in a case twin. -/
structure Counts (m : Market) (l : Legs) (side : BookSide) : Prop where
  base : (l.baseOn side).currency.SameOnLedger m.base ∨ (l.baseOn side).currency.CaseTwins m.base
  quote : (l.quoteOn side).currency.SameOnLedger m.quote ∨
    (l.quoteOn side).currency.CaseTwins m.quote

theorem Counts.trades_iff (h : m.Counts l side) : m.Trades l side ↔ ¬ m.Confuses l side := by
  constructor
  · rintro htrades (htwins | htwins)
    · exact htwins.not_same htrades.base
    · exact htwins.not_same htrades.quote
  · intro hnone
    rw [Confuses, not_or] at hnone
    exact ⟨h.base.resolve_right hnone.1, h.quote.resolve_right hnone.2⟩

theorem counts_iff : m.Counts l side ↔ (l.baseOn side).currency.agreesWith m.base = true ∧
    (l.quoteOn side).currency.agreesWith m.quote = true := by
  rw [Currency.agreesWith_iff, Currency.agreesWith_iff]
  exact ⟨fun h => ⟨h.base, h.quote⟩, fun h => ⟨h.1, h.2⟩⟩

theorem counts_of_sideOf? (h : m.sideOf? l.gets.currency l.pays.currency = some side) :
    m.Counts l side :=
  counts_iff.mpr (agrees_of_sideOf? h)

/-- Legs in currencies that count as the same count on the same side. -/
theorem Counts.congr (h : m.Counts l side)
    (hgets : l'.gets.currency.agreesWith l.gets.currency = true)
    (hpays : l'.pays.currency.agreesWith l.pays.currency = true) : m.Counts l' side := by
  rw [counts_iff] at h ⊢
  cases side with
  | bid =>
    exact ⟨(Currency.agreesWith_congr hpays _).trans h.1,
      (Currency.agreesWith_congr hgets _).trans h.2⟩
  | ask =>
    exact ⟨(Currency.agreesWith_congr hgets _).trans h.1,
      (Currency.agreesWith_congr hpays _).trans h.2⟩

end Market

/-! ## Offers -/

/-- The legs of an offer can be read. -/
structure Offer.Reads (o : Offer) (l : Legs) : Prop where
  gets : o.takerGets.amount = .ok l.gets
  pays : o.takerPays.amount = .ok l.pays

/-- The same legs in other currencies. -/
def Legs.inCurrencies (l : Legs) (gets pays : Currency) : Legs :=
  ⟨{ l.gets with currency := gets }, { l.pays with currency := pays }⟩

namespace Market

variable {m : Market} {l : Legs} {gets pays : Currency} {o o' : Offer}

theorem quality_inCurrencies (hgets : gets.isNative = l.gets.currency.isNative)
    (hpays : pays.isNative = l.pays.currency.isNative) :
    (l.inCurrencies gets pays).quality = l.quality := by
  simp only [Legs.quality, Legs.quality.wireUnits, Legs.inCurrencies, hgets, hpays]

theorem capLegs_inCurrencies (hgets : gets.isNative = l.gets.currency.isNative)
    (funds : Option String) : capLegs (l.inCurrencies gets pays) funds =
      (capLegs l funds).map fun held => (held.1.inCurrencies gets pays, held.2) := by
  cases funds with
  | none => rfl
  | some text =>
    show capLegs ⟨⟨gets, l.gets.value⟩, ⟨pays, l.pays.value⟩⟩ (some text) = _
    simp only [capLegs, ownerFunds, hgets]
    cases (if l.gets.currency.isNative = true then Decimal.ofDropsText text
      else Decimal.ofIssuedText text) with
    | error e => rfl
    | ok funds =>
      simp only [bind, Except.bind]
      by_cases hcut : funds.floorAtZero < l.gets.value
      · rw [if_pos hcut, if_pos hcut]
        cases funds.floorAtZero.ratio l.gets.value with
        | error e => rfl
        | ok part =>
          dsimp only
          cases l.pays.value.product part with
          | error e => rfl
          | ok rest => rfl
      · rw [if_neg hcut, if_neg hcut]
        rfl

theorem sided_of_reads (h : o.Reads l) : m.sided o =
    match m.sideOf? l.gets.currency l.pays.currency with
    | none => .ok none
    | some side =>
      if !l.gets.value.isPositive || !l.pays.value.isPositive then .ok none
      else do
        let quality ← l.quality
        let (held, capped) ← capLegs l o.ownerFunds
        let amount := (held.baseOn side).value
        if !amount.isPositive then return none
        return some ⟨side, ⟨o.id, ← held.priceOn side, amount, quality⟩, capped⟩ := by
  unfold sided
  rw [h.gets, h.pays]
  rfl

/-- An offer in other currencies that count as the same has the same entry. -/
theorem sided_inCurrencies (h : o.Reads l) (h' : o'.Reads (l.inCurrencies gets pays))
    (hgets : gets.agreesWith l.gets.currency = true)
    (hpays : pays.agreesWith l.pays.currency = true) (hid : o'.id = o.id)
    (hfunds : o'.ownerFunds = o.ownerFunds) : m.sided o' = m.sided o := by
  have hside : m.sideOf? (l.inCurrencies gets pays).gets.currency
      (l.inCurrencies gets pays).pays.currency = m.sideOf? l.gets.currency l.pays.currency :=
    m.sideOf?_congr hgets hpays
  have hquality := quality_inCurrencies (Currency.isNative_congr hgets)
    (Currency.isNative_congr hpays)
  have hcap : capLegs (l.inCurrencies gets pays) o.ownerFunds = _ :=
    capLegs_inCurrencies (Currency.isNative_congr hgets) o.ownerFunds
  rw [sided_of_reads h, sided_of_reads h', hside, hquality, hfunds, hcap, hid]
  cases m.sideOf? l.gets.currency l.pays.currency with
  | none => rfl
  | some side =>
    by_cases hempty : (!l.gets.value.isPositive || !l.pays.value.isPositive) = true
    · exact (if_pos hempty).trans (if_pos hempty).symm
    · refine (if_neg hempty).trans (Eq.trans ?_ (if_neg hempty).symm)
      cases l.quality with
      | error e => rfl
      | ok quality =>
        cases capLegs l o.ownerFunds with
        | error e => rfl
        | ok held => cases side <;> rfl

end Market

/-! ## Nodes -/

namespace BookUpdate

/-- The offer that an update is about. -/
def offer : BookUpdate → OfferId
  | trade t => t.offer
  | level l => l.entry.offer

/-- The side of the offer that an update is about. -/
def side : BookUpdate → BookSide
  | trade t => t.makerSide
  | level l => l.side

end BookUpdate

namespace AffectedNode

variable {n : AffectedNode} {l : Legs} {c : Change} {before : Amount} {wire : WireAmount}

/-- A leg afterwards is in a currency that counts as the one before. -/
theorem agrees_of_legAfter {value : Decimal} {after : Amount}
    (h : legAfter before (some wire) = .ok value) (hwire : wire.amount = .ok after) :
    after.currency.agreesWith before.currency = true := by
  obtain ⟨read, hread, h⟩ := bind_eq_ok_iff.mp h
  cases hwire.symm.trans (mapError_eq_ok_iff.mp hread)
  split at h
  · assumption
  · cases h

/-- What a node leaves is in currencies that count as those of what it changed. -/
theorem agrees_of_change (h : n.change = .ok (some c)) (hr : n.Reads l) :
    l.gets.currency.agreesWith c.before.gets.currency = true ∧
      l.pays.currency.agreesWith c.before.pays.currency = true := by
  obtain ⟨getsWire, hgets, hgetsRead⟩ := hr.gets
  obtain ⟨paysWire, hpays, hpaysRead⟩ := hr.pays
  unfold change at h
  split at h
  · cases h
  split at h
  · cases h
  obtain ⟨gets, _, h⟩ := bind_eq_ok_iff.mp h
  split at h
  · cases h
  obtain ⟨pays, _, h⟩ := bind_eq_ok_iff.mp h
  obtain ⟨getsAfter, hgetsAfter, h⟩ := bind_eq_ok_iff.mp h
  obtain ⟨paysAfter, hpaysAfter, h⟩ := bind_eq_ok_iff.mp h
  cases h
  rw [hgets] at hgetsAfter
  rw [hpays] at hpaysAfter
  exact ⟨agrees_of_legAfter hgetsAfter hgetsRead, agrees_of_legAfter hpaysAfter hpaysRead⟩

/-- What is left is in the currencies that the node gives. -/
theorem reads_of_remaining {left : Legs} (h : n.remaining = .ok (some left)) :
    ∃ l, n.Reads l ∧ left.gets.currency = l.gets.currency ∧
      left.pays.currency = l.pays.currency := by
  unfold remaining at h
  split at h
  · rename_i getsWire paysWire hgets hpays
    obtain ⟨gets, hgetsRead, h⟩ := bind_eq_ok_iff.mp h
    obtain ⟨pays, hpaysRead, h⟩ := bind_eq_ok_iff.mp h
    refine ⟨⟨gets, pays⟩, ⟨⟨getsWire, hgets, hgetsRead⟩, ⟨paysWire, hpays, hpaysRead⟩⟩, ?_⟩
    split at h
    all_goals
      cases h
      exact ⟨rfl, rfl⟩
  · cases h

end AffectedNode

namespace Market

variable {m : Market} {n : AffectedNode} {nodes : List AffectedNode} {u : BookUpdate}
  {us : List BookUpdate}

/-- An update of a node is one of the offer and the side that the node is read as. -/
theorem readsAs_of_mem_nodeUpdates? (h : m.nodeUpdates? n = some us) (hu : u ∈ us) :
    ∃ r, m.ReadsAs n r ∧ u.offer = r.offer ∧ u.side = r.side := by
  rcases nodeUpdates?_cases h with rfl | ⟨r, c, hr, hc, rfl⟩
  · cases hu
  refine ⟨r, hr, ?_⟩
  rw [OfferChange.updates, List.mem_append, List.mem_singleton] at hu
  rcases hu with htrade | rfl
  · rw [Option.mem_toList] at htrade
    obtain ⟨t, ht, rfl⟩ := Option.map_eq_some_iff.mp htrade
    exact ⟨(hc.traded t ht).offer, (hc.traded t ht).side⟩
  · exact ⟨hc.offer, hc.side⟩

theorem exists_of_mem_mapM {parts : List (List BookUpdate)} {part : List BookUpdate}
    (h : nodes.mapM m.nodeUpdates? = some parts) (hpart : part ∈ parts) :
    ∃ n ∈ nodes, m.nodeUpdates? n = some part := by
  induction nodes generalizing parts with
  | nil =>
    cases h
    cases hpart
  | cons n ns ih =>
    rw [List.mapM_cons] at h
    obtain ⟨first, hfirst, h⟩ := Option.bind_eq_some_iff.mp h
    obtain ⟨rest, hrest, h⟩ := Option.bind_eq_some_iff.mp h
    cases h
    rcases List.mem_cons.mp hpart with rfl | hmem
    · exact ⟨n, List.mem_cons_self, hfirst⟩
    · obtain ⟨n', hn', hpart⟩ := ih hrest hmem
      exact ⟨n', List.mem_cons_of_mem n hn', hpart⟩

/-- An update of a transaction is one of a node of an offer, and of the side it is read on. -/
theorem readsAs_of_mem_diff? (h : m.diff? nodes = some us) (hu : u ∈ us) :
    ∃ n ∈ nodes, n.isOffer = true ∧ ∃ r, m.ReadsAs n r ∧ u.offer = r.offer ∧ u.side = r.side := by
  obtain ⟨parts, hparts, rfl⟩ := Option.map_eq_some_iff.mp h
  obtain ⟨part, hpart, hu⟩ := List.mem_flatten.mp hu
  obtain ⟨n, hn, hupdates⟩ := exists_of_mem_mapM hparts hpart
  obtain ⟨hmem, hoffer⟩ := List.mem_filter.mp hn
  exact ⟨n, hmem, hoffer, readsAs_of_mem_nodeUpdates? hupdates hu⟩

/-- A node that is read gives legs that count as the market's, and so do those that it changed. -/
theorem ReadsAs.counts {r : NodeReading} (h : m.ReadsAs n r) : ∃ l, n.Reads l ∧
    m.Counts l r.side ∧ ∀ c, n.change = .ok (some c) → m.Counts c.before r.side := by
  obtain ⟨l, hl, hgets, hpays⟩ := AffectedNode.reads_of_remaining h.remaining
  have hside := h.sided
  rw [hgets, hpays] at hside
  have hcounts := counts_of_sideOf? hside
  refine ⟨l, hl, hcounts, fun c hc => ?_⟩
  obtain ⟨hg, hp⟩ := AffectedNode.agrees_of_change hc hl
  rw [Currency.agreesWith_comm] at hg hp
  exact hcounts.congr hg hp

/-! ## Books -/

/-- What the books of a market hold: offers with legs that count as its currencies, and updates of
such offers. These legs are in the currencies of the market unless one is a case twin, and an offer
in case twins has the entry that it has in the currencies of the market. -/
theorem books_mix_currencies_by_case_alone (m : Market) :
    (∀ o p, m.sided o = .ok (some p) → ∃ l, o.Reads l ∧ m.Counts l p.side) ∧
    (∀ offers side e, e ∈ (m.snapshot offers).1.entries side →
      ∃ o ∈ offers, ∃ l, e.offer = o.id ∧ o.Reads l ∧ m.Counts l side) ∧
    (∀ nodes us u, m.diff? nodes = some us → u ∈ us → ∃ n ∈ nodes, ∃ l,
      n.offerId? = some u.offer ∧ n.Reads l ∧ m.Counts l u.side ∧
        ∀ c, n.change = .ok (some c) → m.Counts c.before u.side) ∧
    (∀ l side, m.Counts l side → (m.Trades l side ↔ ¬ m.Confuses l side)) ∧
    ∀ o o' l gets pays, o.Reads l → o'.Reads (l.inCurrencies gets pays) → o'.id = o.id →
      o'.ownerFunds = o.ownerFunds →
      (gets.SameOnLedger l.gets.currency ∨ gets.CaseTwins l.gets.currency) →
      (pays.SameOnLedger l.pays.currency ∨ pays.CaseTwins l.pays.currency) →
      m.sided o' = m.sided o := by
  have hsided : ∀ o p, m.sided o = .ok (some p) → ∃ l, o.Reads l ∧ m.Counts l p.side := by
    intro o p h
    obtain ⟨l, _, hstands⟩ := stands_of_sided h
    exact ⟨l, ⟨hstands.gets_read, hstands.pays_read⟩, counts_of_sideOf? hstands.sided⟩
  refine ⟨hsided, ?_, ?_, fun l side h => h.trades_iff, ?_⟩
  · intro offers side e he
    obtain ⟨p, hp, rfl, rfl⟩ := Market.mem_entries_snapshot.mp he
    obtain ⟨o, ho, hp⟩ := Market.mem_sidedOffers.mp hp
    obtain ⟨l, hl, hcounts⟩ := hsided o p hp
    exact ⟨o, ho, l, (Market.of_sided hp).1, hl, hcounts⟩
  · intro nodes us u hdiff hu
    obtain ⟨n, hn, _, r, hr, hoffer, hside⟩ := readsAs_of_mem_diff? hdiff hu
    obtain ⟨l, hl, hcounts, hbefore⟩ := hr.counts
    rw [hoffer, hside]
    exact ⟨n, hn, l, hr.names, hl, hcounts, hbefore⟩
  · intro o o' l gets pays h h' hid hfunds hgets hpays
    exact sided_inCurrencies h h' (Currency.agreesWith_iff.mpr hgets)
      (Currency.agreesWith_iff.mpr hpays) hid hfunds

/-! The ledger knows USD and usd of one issuer as two currencies. An offer of the one stands in the
market of the other, and what is taken of it is a trade there. -/

def usdXrp : Market := ⟨"USD-XRP", .issued "USD" "rIssuer", .native⟩

def usdWire (code value : String) : WireAmount := .issued ⟨code, "rIssuer", value⟩

def usdOffer (code : String) : Offer := offerOf "rOther" 1 (usdWire code "10") (.drops "1000000")

def usdAsk : SidedOffer :=
  ⟨.ask, ⟨⟨"rOther", 1⟩, .tenth 1, .ofWord 10, .ofWord 100000⟩, false⟩

def usdNode (code : String) : AffectedNode where
  kind := .modified
  entryType := .offer
  ledgerIndex := "A"
  before := { takerGets := some (usdWire code "15"), takerPays := some (.drops "1500000") }
  after := {
    account := some "rOther"
    sequence := some 1
    takerGets := some (usdWire code "10")
    takerPays := some (.drops "1000000") }

def usdUpdates : List BookUpdate :=
  [.trade ⟨⟨"rOther", 1⟩, .ask, .tenth 1, .ofWord 5⟩,
    .level ⟨.ask, usdAsk.entry⟩]

theorem an_ask_of_the_market : ∃ l, (usdOffer "USD").Reads l ∧ usdXrp.Trades l .ask := by
  have hsided : usdXrp.sided (usdOffer "USD") = .ok (some usdAsk) := by decide +kernel
  obtain ⟨hread, _, _, htrades, _⟩ := books_mix_currencies_by_case_alone usdXrp
  obtain ⟨l, hl, hcounts⟩ := hread _ _ hsided
  refine ⟨l, hl, (htrades l .ask hcounts).mpr ?_⟩
  have hgets : (usdOffer "USD").takerGets.amount = .ok ⟨usdXrp.base, .ofWord 10⟩ := by
    decide +kernel
  have hpays : (usdOffer "USD").takerPays.amount = .ok ⟨.native, .one⟩ := by decide +kernel
  have hbase : l.gets = ⟨usdXrp.base, .ofWord 10⟩ := Except.ok.inj (hl.gets.symm.trans hgets)
  have hquote : l.pays = ⟨.native, .one⟩ := Except.ok.inj (hl.pays.symm.trans hpays)
  rintro (htwins | htwins)
  · rw [Legs.baseOn, hbase] at htwins
    exact htwins.2.1 rfl
  · rw [Legs.quoteOn, hquote] at htwins
    exact htwins

theorem an_ask_of_a_case_twin :
    ¬ (Currency.issued "usd" "rIssuer").SameOnLedger usdXrp.base ∧
    (usdWire "usd" "10").amount = .ok ⟨.issued "usd" "rIssuer", .ofWord 10⟩ ∧
    usdXrp.sided (usdOffer "usd") = .ok (some usdAsk) ∧
    (usdXrp.snapshot [usdOffer "usd"]).1.asks = [usdAsk.entry] ∧
    usdXrp.diff? [usdNode "usd"] = some usdUpdates :=
  ⟨by decide, by decide +kernel, by decide +kernel, by decide +kernel, by decide +kernel⟩

end Market

end OfferDesk
