-- What an offer shows when its owner holds less than it gives. The funds cover a share of what the
-- offer gives, and the same share is left of what it asks. Three results are rounded on the way to
-- the price: the share, what is left, and the price itself. The price vanishes just where one of
-- them does.
import OfferDesk.Proofs.Patching
import OfferDesk.Proofs.Rounding

namespace OfferDesk

/-! ## Rates -/

open Decimal (halfLastPlace isPositive_iff)

namespace Legs

variable {l : Legs} {side : BookSide} {price : Decimal}

/-- The exact rate of quote for base, of which the price is the rounded one. -/
def rateOn (l : Legs) (side : BookSide) : Rat :=
  (l.quoteOn side).value.toRat / (l.baseOn side).value.toRat

/-- Legs of the same currencies with other values. -/
def withValues (l : Legs) (gets pays : Decimal) : Legs :=
  ⟨{ l.gets with value := gets }, { l.pays with value := pays }⟩

theorem rounds_priceOn (hbase : 0 < (l.baseOn side).value.toRat)
    (hquote : 0 ≤ (l.quoteOn side).value.toRat) (h : l.priceOn side = .ok price) :
    price.Rounds (l.rateOn side) :=
  Decimal.rounds_div? hquote hbase (Decimal.ratio_eq_ok_iff.mp h)

end Legs

/-! ## Offers that are cut short -/

namespace Market

variable {m : Market} {offer : Offer} {whole held : Legs} {p : SidedOffer}

/-- Without a figure the legs that stand are those on the wire. -/
theorem Stands.uncut (h : m.Stands offer whole held p) (hfunds : offer.ownerFunds = none) :
    held = whole ∧ p.capped = false := by
  have hc := h.capped
  rw [hfunds] at hc
  obtain ⟨hlegs, hcapped⟩ := Prod.mk.inj (Except.ok.inj hc)
  exact ⟨hlegs.symm, hcapped.symm⟩

end Market

/-- How an offer is cut short: the funds of its owner cover a share of what it gives, and the same
share is left of what it asks. -/
structure Offer.CutShort (o : Offer) (legs : Legs) (funds share rest : Decimal) : Prop where
  gets_read : o.takerGets.amount = .ok legs.gets
  pays_read : o.takerPays.amount = .ok legs.pays
  figure : ∃ text held, o.ownerFunds = some text ∧
    Market.ownerFunds text legs.gets.currency = .ok held ∧ held.floorAtZero = funds
  gets_positive : legs.gets.value.isPositive = true
  pays_positive : legs.pays.value.isPositive = true
  short : funds < legs.gets.value
  covered : funds.div? legs.gets.value = some share
  left : legs.pays.value.mul? share = some rest

namespace Market

variable {m : Market} {offer : Offer} {whole held : Legs} {p : SidedOffer}

/-- Either an entry is not capped and shows the legs on the wire, or its offer is cut short. -/
theorem Stands.cut (h : m.Stands offer whole held p) :
    p.capped = false ∧ held = whole ∨ p.capped = true ∧ ∃ funds share rest,
      offer.CutShort whole funds share rest ∧ held = whole.withValues funds rest := by
  have hc := h.capped
  unfold capLegs at hc
  split at hc
  · obtain ⟨hlegs, hcapped⟩ := Prod.mk.inj (Except.ok.inj hc)
    exact Or.inl ⟨hcapped.symm, hlegs.symm⟩
  rename_i text htext
  obtain ⟨figure, hfigure, hc⟩ := bind_eq_ok_iff.mp hc
  dsimp only at hc
  split at hc
  · rename_i hshort
    obtain ⟨share, hshare, hc⟩ := bind_eq_ok_iff.mp hc
    obtain ⟨rest, hrest, hc⟩ := bind_eq_ok_iff.mp hc
    obtain ⟨hlegs, hcapped⟩ := Prod.mk.inj (Except.ok.inj hc)
    exact Or.inr ⟨hcapped.symm, _, share, rest, ⟨h.gets_read, h.pays_read,
      ⟨text, figure, htext, hfigure, rfl⟩, h.gets_positive, h.pays_positive, hshort,
      Decimal.ratio_eq_ok_iff.mp hshare, Decimal.product_eq_ok_iff.mp hrest⟩, hlegs.symm⟩
  · obtain ⟨hlegs, hcapped⟩ := Prod.mk.inj (Except.ok.inj hc)
    exact Or.inl ⟨hcapped.symm, hlegs.symm⟩

end Market

namespace Offer.CutShort

variable {o : Offer} {legs : Legs} {funds share rest : Decimal}

theorem funds_nonneg (h : o.CutShort legs funds share rest) : 0 ≤ funds.toRat := by
  obtain ⟨_, figure, _, _, rfl⟩ := h.figure
  exact Decimal.mantissa_nonneg_iff.mp figure.floorAtZero_nonneg

theorem gets_pos (h : o.CutShort legs funds share rest) : 0 < legs.gets.value.toRat :=
  isPositive_iff.mp h.gets_positive

theorem pays_pos (h : o.CutShort legs funds share rest) : 0 < legs.pays.value.toRat :=
  isPositive_iff.mp h.pays_positive

/-- The share is the funds over what the offer gives, rounded. -/
theorem rounds_share (h : o.CutShort legs funds share rest) :
    share.Rounds (funds.toRat / legs.gets.value.toRat) :=
  Decimal.rounds_div? h.funds_nonneg h.gets_pos h.covered

theorem share_pos_iff (h : o.CutShort legs funds share rest) :
    0 < share.toRat ↔ halfLastPlace < funds.toRat / legs.gets.value.toRat :=
  h.rounds_share.pos_iff

theorem share_nonneg (h : o.CutShort legs funds share rest) : 0 ≤ share.toRat :=
  h.rounds_share.nonneg (div_nonneg h.funds_nonneg h.gets_pos.le)

theorem share_le_one (h : o.CutShort legs funds share rest) : share.toRat ≤ 1 := by
  have hone : Decimal.one.toRat = 1 := by norm_num [Decimal.toRat_eq_div, Decimal.one, pow10]
  rw [← hone]
  refine Decimal.div?_le h.funds_nonneg h.gets_pos ?_ h.covered
  rw [hone, div_le_one h.gets_pos]
  exact (Decimal.lt_iff.mp h.short).le

/-- What is left is the share of what the offer asks, rounded. -/
theorem rounds_rest (h : o.CutShort legs funds share rest) :
    rest.Rounds (legs.pays.value.toRat * share.toRat) :=
  Decimal.rounds_mul? h.pays_pos.le h.share_nonneg h.left

theorem rest_pos_iff (h : o.CutShort legs funds share rest) :
    0 < rest.toRat ↔ halfLastPlace < legs.pays.value.toRat * share.toRat :=
  h.rounds_rest.pos_iff

theorem rest_nonneg (h : o.CutShort legs funds share rest) : 0 ≤ rest.toRat :=
  h.rounds_rest.nonneg (mul_nonneg h.pays_pos.le h.share_nonneg)

theorem rest_le (h : o.CutShort legs funds share rest) : rest.toRat ≤ legs.pays.value.toRat :=
  Decimal.mul?_le h.pays_pos.le h.share_nonneg h.share_le_one h.left

/-- Something left needs a share, and a share needs funds. -/
theorem pos_of_rest_pos (h : o.CutShort legs funds share rest) (hrest : 0 < rest.toRat) :
    0 < share.toRat ∧ 0 < funds.toRat := by
  have hshare : 0 < share.toRat := by
    by_contra hle
    have hz : share.toRat = 0 := le_antisymm (not_lt.mp hle) h.share_nonneg
    have := h.rest_pos_iff.mp hrest
    rw [hz, mul_zero] at this
    exact absurd this (not_lt.mpr Decimal.halfLastPlace_pos.le)
  refine ⟨hshare, ?_⟩
  by_contra hle
  have hz : funds.toRat = 0 := le_antisymm (not_lt.mp hle) h.funds_nonneg
  have := h.share_pos_iff.mp hshare
  rw [hz, zero_div] at this
  exact absurd this (not_lt.mpr Decimal.halfLastPlace_pos.le)

/-- As long as something is left, cutting an offer short changes its rate by no more than a factor
of four: each of the two results on the way is off by no more than a factor of two. -/
theorem rateOn_within (h : o.CutShort legs funds share rest) (hrest : 0 < rest.toRat)
    (side : BookSide) : legs.rateOn side ≤ 4 * (legs.withValues funds rest).rateOn side ∧
      (legs.withValues funds rest).rateOn side ≤ 4 * legs.rateOn side := by
  obtain ⟨hshare, hfunds⟩ := h.pos_of_rest_pos hrest
  have hgets := h.gets_pos
  have hpays := h.pays_pos
  obtain ⟨hshareLe, hshareGe⟩ := h.rounds_share.within_double hshare
  obtain ⟨hrestLe, hrestGe⟩ := h.rounds_rest.within_double hrest
  rw [mul_div_assoc', le_div_iff₀ hgets] at hshareLe
  rw [div_le_iff₀ hgets] at hshareGe
  have hmost : rest.toRat * legs.gets.value.toRat ≤
      4 * legs.pays.value.toRat * funds.toRat := by
    calc rest.toRat * legs.gets.value.toRat
        ≤ 2 * (legs.pays.value.toRat * share.toRat) * legs.gets.value.toRat :=
          mul_le_mul_of_nonneg_right hrestLe hgets.le
      _ = 2 * legs.pays.value.toRat * (share.toRat * legs.gets.value.toRat) := by ring
      _ ≤ 2 * legs.pays.value.toRat * (2 * funds.toRat) :=
          mul_le_mul_of_nonneg_left hshareLe (by linarith)
      _ = 4 * legs.pays.value.toRat * funds.toRat := by ring
  have hleast : legs.pays.value.toRat * funds.toRat ≤
      4 * rest.toRat * legs.gets.value.toRat := by
    calc legs.pays.value.toRat * funds.toRat
        ≤ legs.pays.value.toRat * (2 * share.toRat * legs.gets.value.toRat) :=
          mul_le_mul_of_nonneg_left hshareGe hpays.le
      _ = 2 * (legs.pays.value.toRat * share.toRat) * legs.gets.value.toRat := by ring
      _ ≤ 2 * (2 * rest.toRat) * legs.gets.value.toRat :=
          mul_le_mul_of_nonneg_right (by linarith) hgets.le
      _ = 4 * rest.toRat * legs.gets.value.toRat := by ring
  cases side with
  | ask =>
    show legs.pays.value.toRat / legs.gets.value.toRat ≤ 4 * (rest.toRat / funds.toRat) ∧
      rest.toRat / funds.toRat ≤ 4 * (legs.pays.value.toRat / legs.gets.value.toRat)
    rw [mul_div_assoc', mul_div_assoc', div_le_div_iff₀ hgets hfunds, div_le_div_iff₀ hfunds hgets]
    exact ⟨hleast, hmost⟩
  | bid =>
    show legs.gets.value.toRat / legs.pays.value.toRat ≤ 4 * (funds.toRat / rest.toRat) ∧
      funds.toRat / rest.toRat ≤ 4 * (legs.gets.value.toRat / legs.pays.value.toRat)
    rw [mul_div_assoc', mul_div_assoc', div_le_div_iff₀ hpays hrest, div_le_div_iff₀ hrest hpays]
    constructor <;> linarith

end Offer.CutShort

/-! ## The entry with a figure and without -/

namespace Market

variable {m : Market} {offer : Offer} {whole cut : SidedOffer}

theorem legs_eq_of_read {legs legs' : Legs}
    (hgets : (.ok legs.gets : Except AmountError Amount) = .ok legs'.gets)
    (hpays : (.ok legs.pays : Except AmountError Amount) = .ok legs'.pays) : legs = legs' := by
  cases legs
  cases legs'
  cases hgets
  cases hpays
  rfl

theorem Stands.price_pos_iff {legs held : Legs} {p : SidedOffer} (h : m.Stands offer legs held p)
    (hquote : 0 ≤ (held.quoteOn p.side).value.toRat) :
    p.entry.price.isPositive = true ↔ halfLastPlace < held.rateOn p.side := by
  have hbase : 0 < (held.baseOn p.side).value.toRat := by
    rw [← h.amount]
    exact isPositive_iff.mp h.amount_positive
  rw [isPositive_iff]
  exact (Legs.rounds_priceOn hbase hquote h.priced).pos_iff

/-- The price of an offer that is cut short vanishes just where one of the three results does
that are rounded on the way to it. -/
theorem Stands.price_pos_iff_of_cutShort {legs : Legs} {funds share rest : Decimal} {p : SidedOffer}
    (h : m.Stands offer legs (legs.withValues funds rest) p)
    (hcut : offer.CutShort legs funds share rest) :
    p.entry.price.isPositive = true ↔
      halfLastPlace < funds.toRat / legs.gets.value.toRat ∧
        halfLastPlace < legs.pays.value.toRat * share.toRat ∧
        halfLastPlace < (legs.withValues funds rest).rateOn p.side := by
  rw [← hcut.share_pos_iff, ← hcut.rest_pos_iff]
  have hquote : 0 ≤ ((legs.withValues funds rest).quoteOn p.side).value.toRat := by
    cases p.side
    · exact hcut.funds_nonneg
    · exact hcut.rest_nonneg
  rw [h.price_pos_iff hquote]
  refine ⟨fun hrate => ?_, fun hall => hall.2.2⟩
  have hrest : 0 < rest.toRat := by
    have hamount := isPositive_iff.mp h.amount_positive
    rw [h.amount] at hamount
    cases hside : p.side with
    | bid => rwa [hside] at hamount
    | ask =>
      refine lt_of_le_of_ne hcut.rest_nonneg fun hz => ?_
      have hzero : (legs.withValues funds rest).rateOn p.side = 0 := by
        rw [hside]
        show rest.toRat / funds.toRat = 0
        rw [← hz, zero_div]
      rw [hzero] at hrate
      exact absurd hrate (not_lt.mpr Decimal.halfLastPlace_pos.le)
  exact ⟨(hcut.pos_of_rest_pos hrest).1, hrest, hrate⟩

/-- A share that does not vanish, more than a last place left of what the offer asks, and a rate of
more than two last places are enough for a price. -/
theorem Stands.price_pos_of_cutShort {legs : Legs} {funds share rest : Decimal} {p : SidedOffer}
    (h : m.Stands offer legs (legs.withValues funds rest) p)
    (hcut : offer.CutShort legs funds share rest)
    (hshare : halfLastPlace < funds.toRat / legs.gets.value.toRat)
    (hleft : 2 * halfLastPlace < legs.pays.value.toRat * (funds.toRat / legs.gets.value.toRat))
    (hrate : 4 * halfLastPlace < legs.rateOn p.side) : p.entry.price.isPositive = true := by
  have hrest : halfLastPlace < legs.pays.value.toRat * share.toRat := by
    have hdouble := (hcut.rounds_share.within_double (hcut.share_pos_iff.mpr hshare)).2
    have hhalf := mul_le_mul_of_nonneg_left hdouble hcut.pays_pos.le
    linarith
  have hkept := (hcut.rateOn_within (hcut.rest_pos_iff.mpr hrest) p.side).1
  exact (h.price_pos_iff_of_cutShort hcut).mpr ⟨hshare, hrest, by linarith⟩

/-- The legs on the wire decide the side and the quality of an entry. -/
theorem Stands.agree {legs held held' : Legs} {offer' : Offer} {p p' : SidedOffer}
    (h : m.Stands offer legs held p) (h' : m.Stands offer' legs held' p') :
    p.side = p'.side ∧ p.entry.quality = p'.entry.quality :=
  ⟨Option.some.inj (h.sided.symm.trans h'.sided),
    Except.ok.inj (h.qualified.symm.trans h'.qualified)⟩

/-- The legs that stand decide the rest of it. -/
theorem Stands.entry_eq {legs held : Legs} {offer' : Offer} {p p' : SidedOffer}
    (h : m.Stands offer legs held p) (h' : m.Stands offer' legs held p')
    (hid : offer.id = offer'.id) : p.entry = p'.entry := by
  obtain ⟨hside, hquality⟩ := h.agree h'
  have hoffer : p.entry.offer = p'.entry.offer := (h.named.trans hid).trans h'.named.symm
  have hamount : p.entry.amount = p'.entry.amount := by rw [h.amount, h'.amount, hside]
  have hprice : p.entry.price = p'.entry.price := by
    have hpriced := h.priced
    rw [hside, h'.priced] at hpriced
    exact (Except.ok.inj hpriced).symm
  calc p.entry = ⟨p.entry.offer, p.entry.price, p.entry.amount, p.entry.quality⟩ := rfl
    _ = p'.entry := by rw [hoffer, hprice, hamount, hquality]

/-- The funds of an owner change nothing of an entry but its amount and price. The amount stays
above zero and grows no larger. The price stays as it is where nothing is cut short, and otherwise
vanishes just where one of three results does on the way to it: the share that the funds cover, that
share of what the offer asks, and the rate of the two. A share that does not vanish, with more than
a last place left of what the offer asks, and a rate of more than two last places are enough. -/
theorem capped_price_vanishes_only_by_rounding
    (hwhole : m.sided { offer with ownerFunds := none } = .ok (some whole))
    (hcut : m.sided offer = .ok (some cut)) :
    cut.side = whole.side ∧ cut.entry.offer = whole.entry.offer ∧
      cut.entry.quality = whole.entry.quality ∧
      cut.entry.amount.isPositive = true ∧ cut.entry.amount ≤ whole.entry.amount ∧
      (cut.capped = false → cut = whole) ∧
      (cut.capped = true → ∃ legs funds share rest, offer.CutShort legs funds share rest ∧
        (whole.entry.price.isPositive = true ↔ halfLastPlace < legs.rateOn cut.side) ∧
        (cut.entry.price.isPositive = true ↔
          halfLastPlace < funds.toRat / legs.gets.value.toRat ∧
            halfLastPlace < legs.pays.value.toRat * share.toRat ∧
            halfLastPlace < (legs.withValues funds rest).rateOn cut.side) ∧
        (halfLastPlace < funds.toRat / legs.gets.value.toRat →
          2 * halfLastPlace < legs.pays.value.toRat * (funds.toRat / legs.gets.value.toRat) →
          4 * halfLastPlace < legs.rateOn cut.side → cut.entry.price.isPositive = true)) := by
  obtain ⟨legs, left, hc⟩ := stands_of_sided hcut
  obtain ⟨legs', held, hw⟩ := stands_of_sided hwhole
  obtain ⟨rfl, hwc⟩ := hw.uncut rfl
  obtain rfl := legs_eq_of_read (hw.gets_read.symm.trans hc.gets_read)
    (hw.pays_read.symm.trans hc.pays_read)
  obtain ⟨hside, hquality⟩ := hc.agree hw
  refine ⟨hside, hc.named.trans hw.named.symm, hquality, hc.amount_positive, ?_⟩
  rcases hc.cut with ⟨huncapped, rfl⟩ | ⟨hcapped, funds, share, rest, hshort, rfl⟩
  · have hentry : cut.entry = whole.entry := hc.entry_eq hw rfl
    refine ⟨?_, fun _ => ?_, fun hcapped => ?_⟩
    · rw [hentry]
      exact Decimal.le_iff.mpr le_rfl
    · calc cut = ⟨cut.side, cut.entry, cut.capped⟩ := rfl
        _ = whole := by rw [hside, hentry, huncapped, ← hwc]
    · rw [hcapped] at huncapped
      cases huncapped
  · refine ⟨?_, fun huncapped => ?_, fun _ => ⟨held, funds, share, rest, hshort, ?_,
      hc.price_pos_iff_of_cutShort hshort, hc.price_pos_of_cutShort hshort⟩⟩
    · rw [hc.amount, hw.amount, ← hside, Decimal.le_iff]
      cases cut.side
      · exact hshort.rest_le
      · exact (Decimal.lt_iff.mp hshort.short).le
    · rw [hcapped] at huncapped
      cases huncapped
    · rw [hside]
      refine hw.price_pos_iff ?_
      cases whole.side
      · exact hshort.gets_pos.le
      · exact hshort.pays_pos.le

/-! The owner of the ask holds forty of the hundred. Nothing vanishes on the way to its price. -/

def partFunded : Offer := { wholeAsk.offer with ownerFunds := some "40" }

theorem price_of_a_part_funded_ask : ∃ cut, soloXrp.sided partFunded = .ok (some cut) ∧
    cut.entry.quality = wholeAsk.entry.quality ∧ cut.entry.amount ≤ wholeAsk.entry.amount ∧
    ∃ legs funds share rest, partFunded.CutShort legs funds share rest ∧
      halfLastPlace < funds.toRat / legs.gets.value.toRat ∧
      halfLastPlace < legs.pays.value.toRat * share.toRat ∧
      halfLastPlace < (legs.withValues funds rest).rateOn .ask := by
  have hcut : soloXrp.sided partFunded =
      .ok (some ⟨.ask, { wholeAsk.entry with amount := .ofWord 40 }, true⟩) := by decide +kernel
  have hwhole : soloXrp.sided { partFunded with ownerFunds := none } =
      .ok (some ⟨.ask, wholeAsk.entry, false⟩) := wholeAsk.sided_eq
  obtain ⟨_, _, hquality, _, hamount, _, hcapped⟩ :=
    capped_price_vanishes_only_by_rounding hwhole hcut
  obtain ⟨legs, funds, share, rest, hshort, _, hprice, _⟩ := hcapped rfl
  exact ⟨_, hcut, hquality, hamount, legs, funds, share, rest, hshort, hprice.mp rfl⟩

/-! A sliver of a cheap ask is funded: the share of the drops that it covers is less than half a
last place. The ask is shown for nothing. -/

def sliverAsk : Offer :=
  { offerOf "rA" 1 (soloWire "1000000000") (.drops "200000000") with ownerFunds := some "1e-20" }

theorem sliver_of_an_ask_shows_for_nothing : ∃ whole cut,
    soloXrp.sided { sliverAsk with ownerFunds := none } = .ok (some whole) ∧
    soloXrp.sided sliverAsk = .ok (some cut) ∧ whole.side = .ask ∧ cut.side = .ask ∧
    whole.entry.price.isPositive = true ∧ cut.entry.price.isZero = true :=
  ⟨⟨.ask, ⟨⟨"rA", 1⟩, ⟨2, 7, by decide, by decide⟩, .ofWord 1000000000,
      ⟨2, 1, by decide, by decide⟩⟩, false⟩,
    ⟨.ask, ⟨⟨"rA", 1⟩, .zero, ⟨1, 20, by decide, by decide⟩, ⟨2, 1, by decide, by decide⟩⟩, true⟩,
    by decide +kernel⟩

end Market

end OfferDesk
