-- A transaction that both streams bring patches a book twice. Its levels say how much of an offer
-- is left and stand as they are the second time; its trades spend the cap of an offer once more.
import OfferDesk.Proofs.LiveBooks
import OfferDesk.Proofs.Patching

namespace OfferDesk

/-! ## A change that comes twice -/

/-- Funds of which something is taken twice are enough for what is left of an offer: nothing is
left of it, or the funds last and it shows the same both times. -/
def Decimal.LastsTwice (funds taken left : Decimal) : Prop :=
  left.isZero = true ∨ (funds.spend taken).isZero = false ∧
    left.atMost ((funds.spend taken).spend taken) = left.atMost (funds.spend taken)

theorem LevelUpdate.shown_of_isZero {l : LevelUpdate} (h : l.entry.amount.isZero = true) :
    l.shown = [] :=
  if_neg (by simp [Decimal.not_isPositive_of_isZero h])

theorem LevelUpdate.shown_of_isPositive {l : LevelUpdate} (h : l.entry.amount.isPositive = true) :
    l.shown = [l.entry] :=
  if_pos h

namespace OfferChange

variable {c : OfferChange} {funds : Decimal}

/-- Where a change forgets the cap of its offer, the offer shows nothing, and the second time it
shows all that is left of it. -/
theorem shown_again_of_forgotten
    (hz : (c.level.entry.amount.atMost (c.fundsLeft funds)).isZero = true) :
    (c.held (c.capAfter (some funds))).shown = (c.held (some funds)).shown ↔
      c.level.entry.amount.isZero = true := by
  have hafter : c.capAfter (some funds) = none := if_pos hz
  have hfirst : (c.held (some funds)).shown = [] := LevelUpdate.shown_of_isZero hz
  rw [hafter, hfirst]
  refine ⟨fun h => ?_, LevelUpdate.shown_of_isZero⟩
  by_contra hne
  have hpos := Decimal.isPositive_of_nonneg c.left (Bool.eq_false_iff.mpr hne)
  rw [show c.held none = c.level from rfl, LevelUpdate.shown_of_isPositive hpos] at h
  cases h

/-- Where the cap stays, what it leaves is spent once more. -/
theorem shown_again_of_kept (hfunds : 0 ≤ funds.mantissa)
    (hz : (c.level.entry.amount.atMost (c.fundsLeft funds)).isZero = false) :
    (c.held (c.capAfter (some funds))).shown = (c.held (some funds)).shown ↔
      c.level.entry.amount.atMost (c.fundsLeft (c.fundsLeft funds)) =
        c.level.entry.amount.atMost (c.fundsLeft funds) := by
  have hafter : c.capAfter (some funds) = some (c.fundsLeft funds) := if_neg (by simp [hz])
  have hpos := Decimal.isPositive_of_nonneg
    (Decimal.atMost_nonneg c.left (fundsLeft_nonneg (c := c) hfunds)) hz
  have hfirst : (c.held (some funds)).shown = [(c.held (some funds)).entry] :=
    LevelUpdate.shown_of_isPositive hpos
  rw [hafter, hfirst]
  constructor
  · intro h
    unfold LevelUpdate.shown at h
    split at h
    · exact congrArg BookEntry.amount (List.cons.inj h).1
    · cases h
  · intro h
    have hsame : c.held (some (c.fundsLeft funds)) = c.held (some funds) := by
      simp only [held, h]
    rw [hsame, hfirst]

/-- A change that comes again leaves the same standing just if the cap, where there is one, lasts
for its trade twice. -/
theorem shown_again_iff {cap : Option Decimal}
    (hcap : ∀ funds, cap = some funds → funds.isPositive = true) :
    (c.held (c.capAfter cap)).shown = (c.held cap).shown ↔
      ∀ funds t, cap = some funds → c.trade = some t →
        funds.LastsTwice t.amount c.level.entry.amount := by
  cases cap with
  | none => simp [capAfter]
  | some funds =>
    have hpos := hcap funds rfl
    have hfunds := Decimal.nonneg_of_isPositive hpos
    have hzero := Decimal.isZero_atMost c.left (fundsLeft_nonneg (c := c) hfunds)
    have hspent : ∀ t, c.trade = some t → ∀ a, c.fundsLeft a = a.spend t.amount := by
      intro t ht a
      rw [fundsLeft, ht]
    have hunspent : c.trade = none → ∀ a, c.fundsLeft a = a := by
      intro ht a
      rw [fundsLeft, ht]
    cases hz : (c.level.entry.amount.atMost (c.fundsLeft funds)).isZero with
    | true =>
      rw [shown_again_of_forgotten hz]
      refine ⟨fun h _ _ _ _ => Or.inl h, fun h => ?_⟩
      cases ht : c.trade with
      | none =>
        refine (hzero.mp hz).resolve_right fun hnone => ?_
        rw [hunspent ht] at hnone
        rw [Decimal.not_isPositive_of_isZero hnone] at hpos
        cases hpos
      | some t =>
        rcases h funds t rfl ht with h | ⟨hlasts, _⟩
        · exact h
        · refine (hzero.mp hz).resolve_right fun hnone => ?_
          rw [hspent t ht, hlasts] at hnone
          cases hnone
    | false =>
      rw [shown_again_of_kept hfunds hz]
      have hnot := mt hzero.mpr (by simp [hz])
      rw [not_or] at hnot
      cases ht : c.trade with
      | none => simp [hunspent ht]
      | some t =>
        constructor
        · rintro h funds' t' hf ht'
          cases hf
          cases ht'
          rw [hspent t ht, hspent t ht] at h
          rw [hspent t ht] at hnot
          exact Or.inr ⟨by simpa using hnot.2, h⟩
        · intro h
          rw [hspent t ht, hspent t ht]
          exact ((h funds t rfl rfl).resolve_left hnot.1).2

end OfferChange

/-! ## A transaction that comes twice -/

namespace LiveBook

variable {b b₀ : LiveBook} {o : Outcome} {os : List Outcome} {raw : List BookUpdate}

/-- Every cap that the trades of some updates spend lasts for them twice. -/
def CapsLastTwice (funded : FundedSizes) (updates : List BookUpdate) : Prop :=
  ∀ t l cap, .trade t ∈ updates → .level l ∈ updates → t.offer = l.entry.offer →
    funded.find? t.offer = some cap → cap.LastsTwice t.amount l.entry.amount

theorem mem_updates_trade {c : OfferChange} {t : BookTrade} :
    .trade t ∈ c.updates ↔ c.trade = some t := by
  cases h : c.trade <;> simp [OfferChange.updates, h, eq_comm]

theorem mem_updates_level {c : OfferChange} {l : LevelUpdate} :
    .level l ∈ c.updates ↔ l = c.level := by
  cases h : c.trade <;> simp [OfferChange.updates, h]

/-- For changes of different offers, a trade and a level of one offer are of one change. -/
theorem capsLastTwice_iff {funded : FundedSizes} {cs : List OfferChange}
    (hd : (cs.map (·.offer)).Nodup) : CapsLastTwice funded (cs.flatMap (·.updates)) ↔
      ∀ c ∈ cs, ∀ funds t, funded.find? c.offer = some funds → c.trade = some t →
        funds.LastsTwice t.amount c.level.entry.amount := by
  constructor
  · intro h c hc funds t hf ht
    refine h t c.level funds (List.mem_flatMap.mpr ⟨c, hc, mem_updates_trade.mpr ht⟩)
      (List.mem_flatMap.mpr ⟨c, hc, mem_updates_level.mpr rfl⟩) (c.named t ht) ?_
    rw [c.named t ht]
    exact hf
  · intro h t l funds ht hl hoffer hf
    obtain ⟨c, hc, ht⟩ := List.mem_flatMap.mp ht
    obtain ⟨d, hd', hl⟩ := List.mem_flatMap.mp hl
    have hct := mem_updates_trade.mp ht
    obtain rfl := mem_updates_level.mp hl
    have hsame : c.offer = d.offer := (c.named t hct).symm.trans hoffer
    obtain rfl := List.inj_on_of_nodup_map hd hc hd' hsame
    refine h c hc funds t ?_ hct
    rw [← hf, c.named t hct]
    rfl

/-- A transaction that comes a second time. The book is patched again, offers without a cap stand
as they stood, and the sides stay as they were just if every cap that the transaction spends
lasts for it twice. The ledger lists no offer under two nodes of a transaction. -/
theorem second_delivery {snapshot : OfferSnapshot} {now : Nat}
    (hrun : (b₀.reset snapshot now).patchAll? os = some b) (hnew : b.skips o = false)
    (hnames : (o.offerNodes.filterMap (·.offerId?)).Nodup)
    (hdiff : b.market.diff? o.nodes = some raw) :
    ∃ once us twice us', b.applyOutcome? o = some (once, us) ∧
      once.applyOutcome? o = some (twice, us') ∧
      (∀ side e, b.funded.find? e.offer = none →
        (e ∈ twice.book.entries side ↔ e ∈ once.book.entries side)) ∧
      ((∀ side, twice.book.entries side = once.book.entries side) ↔
        CapsLastTwice b.funded raw) := by
  have hb : b.Sound := (sound_reset b₀ snapshot now).patchAll? hrun
  obtain ⟨cs, rfl, hsub⟩ := Market.diff?_changes hdiff
  have hd : (cs.map (·.offer)).Nodup := hsub.nodup hnames
  obtain ⟨once, us, honce, hmarket, hledger, hfirst, hafter⟩ := patch?_changes hb hdiff hd
  rw [← applyOutcome?_of_not_skips hnew] at honce
  have hagain : once.skips o = false := (skips_congr hledger o).trans hnew
  obtain ⟨twice, us', htwice, _, _, hsecond, _⟩ :=
    patch?_changes (hb.applyOutcome? honce) (hmarket ▸ hdiff) hd
  rw [← applyOutcome?_of_not_skips hagain] at htwice
  -- both rounds as levels of the book before them
  let first (c : OfferChange) : LevelUpdate := c.held (b.funded.find? c.offer)
  let second (c : OfferChange) : LevelUpdate := c.held (once.funded.find? c.offer)
  have hsides : ∀ side, twice.book.entries side =
      ((cs.map second).foldl OrderBook.applyLevel b.book).entries side := by
    intro side
    rw [hsecond, OrderBook.entries_foldl hfirst]
    exact congrArg (OrderBook.entries · side) (OrderBook.foldl_again (f := first) (g := second)
      hb.ordered (by simp [first, second]) (by simp [first, second]) (by simpa [first] using hd))
  have hcap : ∀ c ∈ cs, second c = c.held (c.capAfter (b.funded.find? c.offer)) := by
    intro c hc
    simp only [second, hafter c hc]
  refine ⟨once, us, twice, us', honce, htwice, fun side e he => ?_, ?_⟩
  · rw [← OrderBook.mem_ofOffer, ← OrderBook.mem_ofOffer, OrderBook.ofOffer, OrderBook.ofOffer,
      hsides, hfirst]
    have hsame : ((cs.map second).foldl OrderBook.applyLevel b.book).ofOffer side e.offer =
        ((cs.map first).foldl OrderBook.applyLevel b.book).ofOffer side e.offer := by
      refine OrderBook.ofOffer_foldl_congr rfl (by simp [first, second])
        (by simp [first, second]) fun c hc hx => ?_
      have hnone : b.funded.find? c.offer = none := by
        rw [← he, ← hx]
        simp [second]
      rw [hcap c hc]
      simp only [first, hnone, OfferChange.capAfter]
    exact iff_of_eq (congrArg (e ∈ ·) hsame)
  · simp only [hsides, hfirst]
    rw [OrderBook.foldl_entries_eq_iff (by simp [second]) (by simp [second])
      (by simpa [second] using hd), capsLastTwice_iff hd]
    refine forall₂_congr fun c hc => ?_
    rw [hcap c hc]
    exact OfferChange.shown_again_iff fun funds hf => hb.caps _ _ hf

/-! The owner of the ask holds ninety of the hundred. The take leaves fifty of them, and ten when
it comes again. -/

def cappedSnapshot : OfferSnapshot :=
  ⟨[{ offerOf "rA" 1 (soloWire "100") (.drops "50000000") with ownerFunds := some "90" }], some 100⟩

def cappedBook : LiveBook := (new soloXrp 60).reset cappedSnapshot 0

theorem second_take_of_a_capped_ask : ∃ once us twice us',
    cappedBook.applyOutcome? takeOfAsk = some (once, us) ∧
      once.applyOutcome? takeOfAsk = some (twice, us') ∧
      (∀ side e, cappedBook.funded.find? e.offer = none →
        (e ∈ twice.book.entries side ↔ e ∈ once.book.entries side)) ∧
      ((∀ side, twice.book.entries side = once.book.entries side) ↔
        CapsLastTwice cappedBook.funded
          [.trade ⟨⟨"rA", 1⟩, .ask, ⟨5, 1, by decide, by decide⟩, .ofWord 40⟩,
            .level ⟨.ask, ⟨⟨"rA", 1⟩, ⟨5, 1, by decide, by decide⟩, .ofWord 60, .ofWord 500000⟩⟩]) :=
  have hrun : ((new soloXrp 60).reset cappedSnapshot 0).patchAll? [] = some cappedBook := rfl
  second_delivery hrun (by decide +kernel) (by decide +kernel) (by decide +kernel)

/-- The take is newer than the snapshot, and a second delivery of it changes the ask. -/
theorem capped_ask_shrinks_twice : cappedBook.skips takeOfAsk = false ∧
    (cappedBook.patchAll? []).map askAmounts = some [.ofWord 90] ∧
    (cappedBook.patchAll? [takeOfAsk]).map askAmounts = some [.ofWord 50] ∧
    (cappedBook.patchAll? [takeOfAsk, takeOfAsk]).map askAmounts = some [.ofWord 10] := by
  decide +kernel

end LiveBook

end OfferDesk
