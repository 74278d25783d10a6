-- Offers that rest in a market, how a snapshot shows them, and how a node of a transaction reads
-- that leaves one, changes one or takes one away.
import OfferDesk.Proofs.OfferChanges

namespace OfferDesk

/-! ## Currencies that agree -/

namespace Currency

theorem agreesWith_self (c : Currency) : c.agreesWith c = true := by
  cases c <;> simp [agreesWith, Text.sameUpToCase]

theorem agreesWith_comm (a b : Currency) : a.agreesWith b = b.agreesWith a := by
  cases a <;> cases b <;> simp [agreesWith, Text.sameUpToCase, Bool.beq_comm]

/-- Currencies that agree do so with the same others. -/
theorem agreesWith_congr {a b : Currency} (h : a.agreesWith b = true) (c : Currency) :
    a.agreesWith c = b.agreesWith c := by
  cases a <;> cases b <;> cases c <;> simp_all [agreesWith, Text.sameUpToCase]

end Currency

theorem Market.sideOf?_congr (m : Market) {gets gets' pays pays' : Currency}
    (hg : gets'.agreesWith gets = true) (hp : pays'.agreesWith pays = true) :
    m.sideOf? gets' pays' = m.sideOf? gets pays := by
  simp only [sideOf?, Currency.agreesWith_congr hg, Currency.agreesWith_congr hp]

namespace Market

variable {m : Market} {l l' : Legs} {side : BookSide}

/-- The legs of an offer that stands on a side are in the currencies of the market. -/
theorem agrees_of_sideOf? (h : m.sideOf? l.gets.currency l.pays.currency = some side) :
    (l.baseOn side).currency.agreesWith m.base = true ∧
      (l.quoteOn side).currency.agreesWith m.quote = true := by
  unfold sideOf? at h
  split at h
  · rename_i hask
    cases h
    exact Bool.and_eq_true_iff.mp hask
  · split at h
    · rename_i hbid
      cases h
      exact (Bool.and_eq_true_iff.mp hbid).symm
    · cases h

/-- Offers on one side have their legs in the same currencies. -/
theorem agrees_of_same_side (h : m.sideOf? l.gets.currency l.pays.currency = some side)
    (h' : m.sideOf? l'.gets.currency l'.pays.currency = some side) :
    l.gets.currency.agreesWith l'.gets.currency = true ∧
      l.pays.currency.agreesWith l'.pays.currency = true := by
  have htrans : ∀ {a b c : Currency}, a.agreesWith c = true → b.agreesWith c = true →
      a.agreesWith b = true := by
    intro a b c ha hb
    rw [Currency.agreesWith_congr ha, Currency.agreesWith_comm]
    exact hb
  obtain ⟨hbase, hquote⟩ := agrees_of_sideOf? h
  obtain ⟨hbase', hquote'⟩ := agrees_of_sideOf? h'
  cases side with
  | ask => exact ⟨htrans hbase hbase', htrans hquote hquote'⟩
  | bid => exact ⟨htrans hquote hquote', htrans hbase hbase'⟩

end Market

/-! ## Offers with an entry -/

theorem Legs.base_positive (l : Legs) (hgets : l.gets.value.isPositive = true)
    (hpays : l.pays.value.isPositive = true) (side : BookSide) :
    (l.baseOn side).value.isPositive = true := by
  cases side
  · exact hpays
  · exact hgets

namespace Market

variable {m : Market} {offer : Offer} {p : SidedOffer} {l : Legs} {side : BookSide}

/-- What an entry says of an offer: its legs as they are on the wire decide the side and the
quality, and what is left of them when they are held to the funds the price and the amount. -/
structure Stands (m : Market) (offer : Offer) (whole held : Legs) (p : SidedOffer) : Prop where
  gets_read : offer.takerGets.amount = .ok whole.gets
  pays_read : offer.takerPays.amount = .ok whole.pays
  sided : m.sideOf? whole.gets.currency whole.pays.currency = some p.side
  gets_positive : whole.gets.value.isPositive = true
  pays_positive : whole.pays.value.isPositive = true
  qualified : whole.quality = .ok p.entry.quality
  capped : capLegs whole offer.ownerFunds = .ok (held, p.capped)
  amount : p.entry.amount = (held.baseOn p.side).value
  amount_positive : p.entry.amount.isPositive = true
  priced : held.priceOn p.side = .ok p.entry.price
  named : p.entry.offer = offer.id

theorem stands_of_sided (h : m.sided offer = .ok (some p)) :
    ∃ whole held, m.Stands offer whole held p := by
  unfold Market.sided at h
  obtain ⟨gets, hgets, h⟩ := bind_eq_ok_iff.mp h
  obtain ⟨pays, hpays, h⟩ := bind_eq_ok_iff.mp h
  split at h
  · cases h
  rename_i side hside
  split at h
  · cases h
  rename_i hpositive
  simp only [Bool.or_eq_true, Bool.not_eq_true', not_or, Bool.not_eq_false] at hpositive
  obtain ⟨quality, hquality, h⟩ := bind_eq_ok_iff.mp h
  obtain ⟨⟨held, capped⟩, hheld, h⟩ := bind_eq_ok_iff.mp h
  dsimp only at h
  split at h
  · cases h
  rename_i hamount
  obtain ⟨price, hprice, h⟩ := bind_eq_ok_iff.mp h
  cases h
  exact ⟨⟨gets, pays⟩, held, hgets, hpays, hside, hpositive.1, hpositive.2, hquality, hheld, rfl,
    by simpa using hamount, hprice, rfl⟩

/-- An offer of which something can be taken, and that no figure cuts short, has an entry as long as
its quality and its price are in range. -/
theorem sided_uncut (hgets : offer.takerGets.amount = .ok l.gets)
    (hpays : offer.takerPays.amount = .ok l.pays)
    (hside : m.sideOf? l.gets.currency l.pays.currency = some side)
    (hgetsPos : l.gets.value.isPositive = true) (hpaysPos : l.pays.value.isPositive = true)
    (hfunds : offer.ownerFunds = none) :
    m.sided offer = (do
      let quality ← l.quality
      let price ← l.priceOn side
      return some ⟨side, ⟨offer.id, price, (l.baseOn side).value, quality⟩, false⟩) := by
  unfold sided
  simp only [hgets, hpays, hside, hgetsPos, hpaysPos, hfunds, capLegs,
    l.base_positive hgetsPos hpaysPos side, Bool.not_true, Bool.or_self, Bool.false_eq_true,
    if_false, bind, Except.bind, pure, Except.pure]

/-! ## Snapshots -/

/-- A usable offer has its own entry, with something in it. -/
theorem of_sided (h : m.sided offer = .ok (some p)) :
    p.entry.offer = offer.id ∧ p.entry.amount.isPositive = true := by
  obtain ⟨_, _, hs⟩ := stands_of_sided h
  exact ⟨hs.named, hs.amount_positive⟩

variable {offers : List Offer} {e : BookEntry}

theorem mem_sidedOffers : p ∈ m.sidedOffers offers ↔ ∃ o ∈ offers, m.sided o = .ok (some p) := by
  unfold sidedOffers
  rw [List.mem_filterMap]
  refine exists_congr fun o => and_congr_right fun _ => ?_
  cases m.sided o with
  | error e => simp
  | ok p' => simp

/-- The usable offers of a list are different where the offers of the list are. -/
theorem nodup_sidedOffers (h : (offers.map (·.id)).Nodup) :
    ((m.sidedOffers offers).map (·.entry.offer)).Nodup := by
  refine List.Sublist.nodup ?_ h
  unfold sidedOffers
  induction offers with
  | nil => simp
  | cons o offers ih =>
    have hrest := ih h.tail
    rw [List.filterMap_cons, List.map_cons]
    cases hsided : m.sided o with
    | error e => exact hrest.cons _
    | ok p =>
      cases p with
      | none => exact hrest.cons _
      | some p =>
        simp only [List.map_cons, (of_sided hsided).1]
        exact hrest.cons_cons _

/-- What a list of offers shows: each usable one its entry, on its side. -/
def shown (m : Market) (offers : List Offer) : Shown := fun side e =>
  ∃ p ∈ m.sidedOffers offers, p.side = side ∧ p.entry = e

theorem shown_iff : m.shown offers side e ↔
    ∃ o ∈ offers, ∃ p, m.sided o = .ok (some p) ∧ p.side = side ∧ p.entry = e := by
  simp only [shown, mem_sidedOffers]
  exact ⟨fun ⟨p, ⟨o, ho, hp⟩, hside⟩ => ⟨o, ho, p, hp, hside⟩,
    fun ⟨o, ho, p, hp, hside⟩ => ⟨p, ⟨o, ho, hp⟩, hside⟩⟩

/-- The entries of a snapshot are those of the usable offers, each on its side. -/
theorem mem_entries_snapshot :
    e ∈ (m.snapshot offers).1.entries side ↔ m.shown offers side e := by
  have hsorted : (m.snapshot offers).1.entries side =
      BookEntry.sortOn side (entriesOn side (m.sidedOffers offers)) := by
    cases side <;> rfl
  rw [hsorted, BookEntry.mem_sortOn]
  simp [shown, entriesOn, and_assoc]

theorem shows_snapshot (h : (offers.map (·.id)).Nodup) :
    (m.snapshot offers).1.Shows (m.shown offers) := by
  have hdistinct : ∀ side, ((entriesOn side (m.sidedOffers offers)).map (·.offer)).Nodup := by
    intro side
    rw [entriesOn, List.map_map]
    exact (List.filter_sublist.map _).nodup (nodup_sidedOffers h)
  intro side
  exact ⟨(OrderBook.shows_ofEntries m.pair (hdistinct .bid) (hdistinct .ask) side).1,
    fun _ => mem_entries_snapshot⟩

end Market

/-! ## Resting offers -/

/-- An offer that rests in a market: its legs can be read and something can be taken of both, no
figure cuts it short, and its price and quality are in range. -/
structure RestingOffer (m : Market) where
  offer : Offer
  side : BookSide
  legs : Legs
  price : Decimal
  quality : Decimal
  gets_read : offer.takerGets.amount = .ok legs.gets
  pays_read : offer.takerPays.amount = .ok legs.pays
  sided : m.sideOf? legs.gets.currency legs.pays.currency = some side
  gets_positive : legs.gets.value.isPositive = true
  pays_positive : legs.pays.value.isPositive = true
  uncut : offer.ownerFunds = none
  priced : legs.priceOn side = .ok price
  qualified : legs.quality = .ok quality

namespace RestingOffer

variable {m : Market}

def id (o : RestingOffer m) : OfferId := o.offer.id

/-- How the offer stands on its side. -/
def entry (o : RestingOffer m) : BookEntry :=
  ⟨o.id, o.price, (o.legs.baseOn o.side).value, o.quality⟩

theorem sided_eq (o : RestingOffer m) :
    m.sided o.offer = .ok (some ⟨o.side, o.entry, false⟩) := by
  rw [Market.sided_uncut o.gets_read o.pays_read o.sided o.gets_positive o.pays_positive o.uncut,
    o.qualified, o.priced]
  rfl

/-- Resting offers show each its entry. -/
theorem shown_iff {os : List (RestingOffer m)} {side : BookSide} {e : BookEntry} :
    m.shown (os.map (·.offer)) side e ↔ ∃ o ∈ os, o.side = side ∧ o.entry = e := by
  rw [Market.shown_iff]
  constructor
  · rintro ⟨offer, hoffer, p, hp, hside, hentry⟩
    obtain ⟨o, ho, rfl⟩ := List.mem_map.mp hoffer
    rw [sided_eq] at hp
    cases hp
    exact ⟨o, ho, hside, hentry⟩
  · rintro ⟨o, ho, hside, hentry⟩
    exact ⟨o.offer, List.mem_map_of_mem ho, _, o.sided_eq, hside, hentry⟩

end RestingOffer

end OfferDesk
