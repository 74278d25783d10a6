-- Levels that a patch misses. What a node takes of an offer and what it leaves are read together:
-- where what was taken has no price, what is left goes unsaid as well, and the book goes on
-- showing the offer as it was. Only a difference that is no decimal at all ends the patch.
import OfferDesk.Proofs.FundingCaps

namespace OfferDesk

/-! ## One node among the others -/

namespace Market

variable {m : Market} {n : AffectedNode} {nodes : List AffectedNode}

/-- The updates of a transaction are those of the nodes before one of its nodes, those of the node
and those of the nodes after it. -/
theorem mapM_nodeUpdates?_split {before after : List AffectedNode} {parts : List (List BookUpdate)}
    (h : (before ++ n :: after).mapM m.nodeUpdates? = some parts) :
    ∃ first us last, before.mapM m.nodeUpdates? = some first ∧ m.nodeUpdates? n = some us ∧
      after.mapM m.nodeUpdates? = some last ∧ parts = first ++ us :: last := by
  rw [List.mapM_append, List.mapM_cons] at h
  obtain ⟨first, hfirst, h⟩ := Option.bind_eq_some_iff.mp h
  obtain ⟨rest, hrest, h⟩ := Option.bind_eq_some_iff.mp h
  obtain ⟨us, hus, hrest⟩ := Option.bind_eq_some_iff.mp hrest
  obtain ⟨last, hlast, hrest⟩ := Option.bind_eq_some_iff.mp hrest
  cases hrest
  cases h
  exact ⟨first, us, last, hfirst, hus, hlast, rfl⟩

/-- Nodes that do not name an offer come to changes of other offers. -/
theorem changes_of_others {x : OfferId} {parts : List (List BookUpdate)}
    (hparts : nodes.mapM m.nodeUpdates? = some parts) (hothers : ∀ n ∈ nodes, n.offerId? ≠ some x) :
    ∃ cs : List OfferChange, parts.flatten = cs.flatMap (·.updates) ∧ ∀ c ∈ cs, c.offer ≠ x := by
  induction nodes generalizing parts with
  | nil =>
    cases hparts
    exact ⟨[], rfl, by simp⟩
  | cons n ns ih =>
    rw [List.mapM_cons] at hparts
    obtain ⟨us, hus, hparts⟩ := Option.bind_eq_some_iff.mp hparts
    obtain ⟨rest, hrest, hparts⟩ := Option.bind_eq_some_iff.mp hparts
    cases hparts
    obtain ⟨cs, hcs, hne⟩ := ih hrest fun n' hn' => hothers n' (List.mem_cons_of_mem _ hn')
    rcases nodeUpdates?_cases hus with rfl | ⟨r, c, hr, hc, rfl⟩
    · exact ⟨cs, by rw [List.flatten_cons, hcs, List.nil_append], hne⟩
    · refine ⟨c :: cs, by rw [List.flatten_cons, hcs, List.flatMap_cons], ?_⟩
      intro d hd
      rcases List.mem_cons.mp hd with rfl | hd
      · intro hx
        apply hothers n List.mem_cons_self
        rw [hr.names, ← hc.offer, hx]
      · exact hne d hd

end Market

namespace LiveBook

variable {b b' b₀ : LiveBook} {o : Outcome} {os : List Outcome} {us : List BookUpdate}
  {funded : FundedSizes} {x : OfferId}

/-- A patch of a sound book comes to nothing just if a difference of legs is no decimal. The funds
of its offers can always be spent. -/
theorem applyOutcome?_eq_none_iff (hb : b.Sound) : b.applyOutcome? o = none ↔
    b.skips o = false ∧ ∃ n ∈ o.offerNodes, b.market.TakesOutOfRange n := by
  cases hskip : b.skips o with
  | true => simp [applyOutcome?_of_skips hskip]
  | false =>
    rw [applyOutcome?_of_not_skips hskip, patch?, Outcome.offerNodes, ← Market.diff?_eq_none_iff]
    cases hdiff : b.market.diff? o.nodes with
    | none => simp
    | some raw =>
      obtain ⟨cs, rfl, _⟩ := Market.diff?_changes hdiff
      obtain ⟨funded, us, hhold, _⟩ := holdCaps?_changes hb.caps cs
      simp [hhold]

/-! ## One offer among the others -/

/-- Changes of other offers leave an offer its cap and its entries. -/
theorem holdCaps?_others {cs : List OfferChange} (hcaps : CapsPositive funded)
    (hne : ∀ c ∈ cs, c.offer ≠ x) :
    ∃ funded' us, holdCaps? funded (cs.flatMap (·.updates)) = some (funded', us) ∧
      CapsPositive funded' ∧ funded'.find? x = funded.find? x ∧
      ∀ (book : OrderBook) (side : BookSide),
        (book.apply us).ofOffer side x = book.ofOffer side x := by
  induction cs generalizing funded with
  | nil => exact ⟨funded, [], rfl, hcaps, rfl, fun _ _ => rfl⟩
  | cons c cs ih =>
    obtain ⟨mid, hc, hrecaps⟩ := holdCaps?_change c hcaps
    obtain ⟨funded', us, hcs, hpos, hcap, hentries⟩ :=
      ih (hrecaps.positive hcaps) fun d hd => hne d (List.mem_cons_of_mem _ hd)
    have hx : c.offer ≠ x := hne c List.mem_cons_self
    rw [List.flatMap_cons, holdCaps?_append hc, hcs]
    refine ⟨funded', _, rfl, hpos, hcap.trans (hrecaps.other hx.symm), fun book side => ?_⟩
    rw [OrderBook.apply_trades_level, hentries, OrderBook.ofOffer_applyLevel, if_neg]
    exact fun h => hx ((OfferChange.held_offer c _).symm.trans h.2)

theorem ofOffer_patched (b : LiveBook) (o : Outcome) (funded : FundedSizes) (us : List BookUpdate)
    (side : BookSide) (x : OfferId) :
    (b.patched o funded us).book.ofOffer side x = (b.book.apply us).ofOffer side x := by
  unfold OrderBook.ofOffer
  rw [patched_entries]

/-- What a transaction makes of an offer that only one of its nodes names: where the node comes to
no updates the offer stands as it stood, and where it comes to a change the level of the change
takes the place of what stood there. -/
theorem applyOutcome?_of_named {before after : List AffectedNode} {n : AffectedNode}
    (hb : b.Sound) (hnew : b.skips o = false) (hnodes : o.offerNodes = before ++ n :: after)
    (hothers : ∀ n' ∈ before ++ after, n'.offerId? ≠ some x)
    (h : b.applyOutcome? o = some (b', us)) :
    (b.market.nodeUpdates? n = some [] → b'.funded.find? x = b.funded.find? x ∧
      ∀ side, b'.book.ofOffer side x = b.book.ofOffer side x) ∧
    ∀ c : OfferChange, c.offer = x → b.market.nodeUpdates? n = some c.updates →
      b'.funded.find? x = c.capAfter (b.funded.find? x) ∧
      ∀ side, b'.book.ofOffer side x = if side = c.level.side then
        (c.held (b.funded.find? x)).shown else b.book.ofOffer side x := by
  rw [applyOutcome?_of_not_skips hnew] at h
  obtain ⟨raw, hdiff, h⟩ := Option.bind_eq_some_iff.mp h
  obtain ⟨⟨funded, held⟩, hhold, h⟩ := Option.map_eq_some_iff.mp h
  cases h
  obtain ⟨parts, hparts, rfl⟩ := Option.map_eq_some_iff.mp hdiff
  rw [show o.nodes.filter (·.isOffer) = before ++ n :: after from hnodes] at hparts
  obtain ⟨first, us, last, hfirst, hus, hlast, rfl⟩ := Market.mapM_nodeUpdates?_split hparts
  obtain ⟨cs, hcs, hcsx⟩ := Market.changes_of_others hfirst
    fun n' hn' => hothers n' (List.mem_append_left _ hn')
  obtain ⟨ds, hds, hdsx⟩ := Market.changes_of_others hlast
    fun n' hn' => hothers n' (List.mem_append_right _ hn')
  obtain ⟨funded₁, us₁, h₁, hcaps₁, hcap₁, hentries₁⟩ := holdCaps?_others hb.caps hcsx
  rw [List.flatten_append, List.flatten_cons, hcs, hds, holdCaps?_append h₁] at hhold
  simp only [ofOffer_patched, patched_funded]
  constructor
  · intro hnone
    obtain rfl : us = [] := Option.some.inj (hus.symm.trans hnone)
    obtain ⟨funded₂, us₂, h₂, _, hcap₂, hentries₂⟩ := holdCaps?_others hcaps₁ hdsx
    rw [List.nil_append, h₂] at hhold
    cases hhold
    refine ⟨hcap₂.trans hcap₁, fun side => ?_⟩
    rw [OrderBook.apply_append, hentries₂, hentries₁]
  · rintro c rfl hc
    obtain rfl : us = c.updates := Option.some.inj (hus.symm.trans hc)
    obtain ⟨mid, hmid, hrecaps⟩ := holdCaps?_change c hcaps₁
    obtain ⟨funded₂, us₂, h₂, _, hcap₂, hentries₂⟩ :=
      holdCaps?_others (hrecaps.positive hcaps₁) hdsx
    rw [holdCaps?_append hmid, h₂] at hhold
    cases hhold
    refine ⟨?_, fun side => ?_⟩
    · rw [hcap₂, hrecaps.this, hcap₁]
    · rw [OrderBook.apply_append, OrderBook.apply_trades_level, hentries₂,
        OrderBook.ofOffer_applyLevel, hentries₁, hcap₁]
      simp only [OfferChange.held_side, OfferChange.held_offer, and_true]

end LiveBook

/-! ## What a node tells of an offer -/

namespace Market

variable {m : Market} {n : AffectedNode} {x : OfferId} {side : BookSide} {left : Legs}
  {trade : Option BookTrade}

/-- What a node leaves of an offer of the market: it names the offer, and its legs afterwards can
be read, stand on a side and, where there is something to take, have a price and a quality. -/
structure Leftover (m : Market) (n : AffectedNode) (x : OfferId) (side : BookSide) (left : Legs) :
    Prop where
  names : n.offerId? = some x
  reads : n.remaining = .ok (some left)
  sided : m.sideOf? left.gets.currency left.pays.currency = some side
  priced : (left.baseOn side).value.isPositive = true → left.gets.value.isPositive = true →
    ∃ price quality, left.priceOn side = .ok price ∧ left.quality = .ok quality

/-- What a node tells was taken of an offer that so much is left of: nothing where its size did
not change, and else the trade of the difference, if it has a price and a quality. -/
def Takes (n : AffectedNode) (x : OfferId) (side : BookSide) (left : Legs)
    (trade : Option BookTrade) : Prop :=
  (n.change = .ok none ∧ trade = none) ∨
  ∃ c taken priced, n.change = .ok (some c) ∧ c.taken? = some taken ∧
    takenTrade ⟨x, side, left, some c⟩ taken = .ok priced ∧ trade = priced.map (·.1)

theorem readNode_of_leftover (h : m.Leftover n x side left)
    {change : Option AffectedNode.Change} (hc : n.change = .ok change) :
    m.readNode n = .ok (some ⟨x, side, left, change⟩) :=
  readNode_eq_some_iff.mpr ⟨h.names, h.reads, h.sided, hc⟩

/-- What is left can be priced, whatever was taken. -/
theorem levelPrice_of_leftover (h : m.Leftover n x side left)
    (change : Option AffectedNode.Change) (priced : Option (BookTrade × Decimal)) :
    ∃ p, levelPrice ⟨x, side, left, change⟩ priced = .ok p := by
  unfold levelPrice
  split
  · rename_i hpos
    obtain ⟨hbase, hgets⟩ := Bool.and_eq_true_iff.mp hpos
    obtain ⟨price, quality, hprice, hquality⟩ := h.priced hbase hgets
    exact ⟨(price, quality), by rw [hprice, hquality]; rfl⟩
  · exact ⟨_, rfl⟩

/-- A reading with a trade that can be told comes to the trade and what is left. -/
theorem updatesOf_of_leftover (h : m.Leftover n x side left) (change : Option AffectedNode.Change)
    (taken : Option Legs) (priced : Option (BookTrade × Decimal))
    (ht : ∀ legs, taken = some legs → takenTrade ⟨x, side, left, change⟩ legs = .ok priced)
    (hnone : taken = none → priced = none) :
    ∃ c : OfferChange, c.offer = x ∧ c.level.side = side ∧ c.trade = priced.map (·.1) ∧
      c.level.entry.amount = (left.baseOn side).value.floorAtZero ∧
      updatesOf ⟨x, side, left, change⟩ taken = .ok c.updates := by
  let r : NodeReading := ⟨x, side, left, change⟩
  obtain ⟨p, hp⟩ := levelPrice_of_leftover h change priced
  have hnamed : ∀ t, priced = some t → r.Trades t.1 := by
    rintro t rfl
    cases htaken : taken with
    | none => cases hnone htaken
    | some legs => exact takenTrade_of_ok (ht legs htaken)
  obtain ⟨c, htrade, hlevel, hupdates⟩ := updates_of_trade hnamed p.1 p.2
  refine ⟨c, congrArg (·.entry.offer) hlevel, congrArg (·.side) hlevel, htrade,
    congrArg (·.entry.amount) hlevel, ?_⟩
  rw [← hupdates]
  cases taken with
  | none =>
    obtain rfl := hnone rfl
    simp only [updatesOf, hp, bind, Except.bind, pure, Except.pure]
    rfl
  | some legs =>
    simp only [updatesOf, ht legs rfl, hp, bind, Except.bind, pure, Except.pure]
    rfl

/-- A node whose trade can be told comes to the trade and what is left. -/
theorem nodeUpdates?_of_takes (h : m.Leftover n x side left) (ht : Takes n x side left trade) :
    ∃ c : OfferChange, c.offer = x ∧ c.level.side = side ∧ c.trade = trade ∧
      c.level.entry.amount = (left.baseOn side).value.floorAtZero ∧
      m.nodeUpdates? n = some c.updates := by
  unfold nodeUpdates?
  rcases ht with ⟨hchange, rfl⟩ | ⟨change, taken, priced, hchange, htaken, hpriced, rfl⟩
  · obtain ⟨c, hx, hside, htrade, hleft, hc⟩ := updatesOf_of_leftover h none none none
      (by simp) fun _ => rfl
    refine ⟨c, hx, hside, htrade, hleft, ?_⟩
    simp [readNode_of_leftover h hchange, hc]
  · obtain ⟨c, hx, hside, htrade, hleft, hc⟩ := updatesOf_of_leftover h (some change)
      (some taken) priced (by simpa using hpriced) (by simp)
    refine ⟨c, hx, hside, htrade, hleft, ?_⟩
    simp [readNode_of_leftover h hchange, htaken, hc]

/-- A node whose trade cannot be told comes to nothing. -/
theorem nodeUpdates?_of_not_takes (h : m.Leftover n x side left)
    (ht : ¬ ∃ trade, Takes n x side left trade) (hrange : ¬ m.TakesOutOfRange n) :
    m.nodeUpdates? n = some [] := by
  cases hchange : n.change with
  | error e =>
    have hread : m.readNode n = .error e := by
      simp only [readNode, h.names, h.reads, h.sided, hchange, Except.mapError, bind, Except.bind]
    simp [nodeUpdates?, hread]
  | ok change =>
    have hread := readNode_of_leftover h hchange
    cases change with
    | none => exact absurd ⟨none, Or.inl ⟨hchange, rfl⟩⟩ ht
    | some c =>
      cases htaken : c.taken? with
      | none => exact absurd ⟨_, c, hread, rfl, htaken⟩ hrange
      | some taken =>
        cases htrade : takenTrade ⟨x, side, left, some c⟩ taken with
        | ok priced => exact absurd ⟨_, Or.inr ⟨c, taken, priced, hchange, htaken, htrade, rfl⟩⟩ ht
        | error e =>
          simp [nodeUpdates?, hread, htaken, updatesOf, htrade, bind, Except.bind]

end Market

/-! ## Offers that are shown as they are -/

/-- What can still be taken of an offer with these legs, in base units. -/
def Legs.restOn (l : Legs) (side : BookSide) : Decimal := (l.baseOn side).value.floorAtZero

/-- How much of what is left of an offer the funds of its owner cover after a trade. Of an offer
without a cap it is all. -/
def coveredRest (rest : Decimal) (trade : Option BookTrade) : Option Decimal → Decimal
  | none => rest
  | some funds => rest.atMost ((trade.map fun t => funds.spend t.amount).getD funds)

namespace OfferChange

theorem held_amount (c : OfferChange) (cap : Option Decimal) :
    (c.held cap).entry.amount = coveredRest c.level.entry.amount c.trade cap := by
  cases cap with
  | none => rfl
  | some funds =>
    simp only [held, coveredRest, fundsLeft]
    cases c.trade <;> rfl

/-- What a change shows is what the cap that it leaves covers of the rest. -/
theorem shown_covered (c : OfferChange) {cap : Option Decimal}
    (hcap : ∀ funds, cap = some funds → funds.isPositive = true) :
    (c.held cap).shown = [] ∨ (c.held cap).shown = [(c.held cap).entry] ∧
      (c.held cap).entry.amount = coveredRest c.level.entry.amount none (c.capAfter cap) := by
  cases cap with
  | none =>
    cases hpos : c.level.entry.amount.isPositive with
    | true => exact Or.inr ⟨LevelUpdate.shown_of_isPositive hpos, rfl⟩
    | false =>
      refine Or.inl (if_neg ?_)
      rw [held, hpos]
      exact Bool.false_ne_true
  | some funds =>
    rcases shown_and_capAfter (c := c) (Decimal.nonneg_of_isPositive (hcap funds rfl)) with
      ⟨hshown, _⟩ | ⟨hshown, hafter⟩
    · exact Or.inl hshown
    · refine Or.inr ⟨hshown, ?_⟩
      rw [hafter]
      rfl

end OfferChange

namespace LiveBook

variable {b b' b₀ : LiveBook} {o : Outcome} {os : List Outcome} {us : List BookUpdate}
  {x : OfferId} {side : BookSide} {left : Legs} {n : AffectedNode} {before after : List AffectedNode}

/-- A book is up to date about an offer of which so much is left: the offer is gone, or it shows
the rest, as far as its cap covers it. -/
def UpToDate (b : LiveBook) (x : OfferId) (side : BookSide) (rest : Decimal) : Prop :=
  b.book.ofOffer side x = [] ∨ ∃ e, b.book.ofOffer side x = [e] ∧
    e.amount.toRat = (coveredRest rest none (b.funded.find? x)).toRat

section

variable (hb : b.Sound) (hnew : b.skips o = false) (hnodes : o.offerNodes = before ++ n :: after)
  (hothers : ∀ n' ∈ before ++ after, n'.offerId? ≠ some x)
  (hleft : b.market.Leftover n x side left) (h : b.applyOutcome? o = some (b', us))
include hb hnew hnodes hothers hleft h

/-- An offer whose trade can be told is shown with the rest of it, as far as its cap lasts. -/
theorem shows_rest_of_takes {trade : Option BookTrade} (ht : Market.Takes n x side left trade) :
    (∃ price quality, b'.book.ofOffer side x = LevelUpdate.shown ⟨side, ⟨x, price,
      coveredRest (left.restOn side) trade (b.funded.find? x), quality⟩⟩) ∧
    b'.UpToDate x side (left.restOn side) := by
  obtain ⟨c, rfl, rfl, rfl, hrest, hc⟩ := Market.nodeUpdates?_of_takes hleft ht
  replace hrest : c.level.entry.amount = left.restOn c.level.side := hrest
  obtain ⟨hcap, hentries⟩ := (applyOutcome?_of_named hb hnew hnodes hothers h).2 c rfl hc
  have hshown := (hentries c.level.side).trans (if_pos rfl)
  constructor
  · refine ⟨(c.held (b.funded.find? c.offer)).entry.price,
      (c.held (b.funded.find? c.offer)).entry.quality, ?_⟩
    rw [hshown, ← hrest, ← c.held_amount]
    congr 1
    cases b.funded.find? c.offer <;> rfl
  · rcases c.shown_covered (hb.caps c.offer) with hgone | ⟨hstands, hamount⟩
    · exact Or.inl (hshown.trans hgone)
    · refine Or.inr ⟨_, hshown.trans hstands, ?_⟩
      rw [hamount, hcap, hrest]

/-- An offer whose trade cannot be told stands as it stood, with the cap that it had. -/
theorem stands_of_not_takes (ht : ¬ ∃ trade, Market.Takes n x side left trade) :
    b'.funded.find? x = b.funded.find? x ∧
      ∀ side, b'.book.ofOffer side x = b.book.ofOffer side x := by
  have hrange : ¬ b.market.TakesOutOfRange n := by
    intro hn
    have hmem : n ∈ o.offerNodes := by simp [hnodes]
    rw [(applyOutcome?_eq_none_iff hb).mpr ⟨hnew, n, hmem, hn⟩] at h
    cases h
  exact (applyOutcome?_of_named hb hnew hnodes hothers h).1
    (Market.nodeUpdates?_of_not_takes hleft ht hrange)

end

/-- An offer that a new transaction names is shown as the transaction leaves it where the trade
can be told, less what the trade spends of its cap. Where it cannot be told the offer stands as it
stood, and is up to date only if it was so before. The ledger lists no offer under two nodes of a
transaction. -/
theorem offers_follow_computable_trades {snapshot : OfferSnapshot} {now : Nat}
    (hrun : (b₀.reset snapshot now).patchAll? os = some b) (hnew : b.skips o = false)
    (hnodes : o.offerNodes = before ++ n :: after)
    (hothers : ∀ n' ∈ before ++ after, n'.offerId? ≠ some x)
    (hleft : b.market.Leftover n x side left) :
    (b.applyOutcome? o = none ↔ ∃ n' ∈ o.offerNodes, b.market.TakesOutOfRange n') ∧
    ∀ b' us, b.applyOutcome? o = some (b', us) →
      (b'.UpToDate x side (left.restOn side) ↔
        (∃ trade, Market.Takes n x side left trade) ∨ b.UpToDate x side (left.restOn side)) ∧
      (∀ trade, Market.Takes n x side left trade → ∃ price quality, b'.book.ofOffer side x =
        LevelUpdate.shown ⟨side, ⟨x, price,
          coveredRest (left.restOn side) trade (b.funded.find? x), quality⟩⟩) ∧
      ((¬ ∃ trade, Market.Takes n x side left trade) →
        ∀ side', b'.book.ofOffer side' x = b.book.ofOffer side' x) := by
  have hb : b.Sound := (sound_reset b₀ snapshot now).patchAll? hrun
  refine ⟨by simp [applyOutcome?_eq_none_iff hb, hnew], fun b' us h => ⟨?_, ?_, ?_⟩⟩
  · by_cases ht : ∃ trade, Market.Takes n x side left trade
    · obtain ⟨trade, htrade⟩ := ht
      exact iff_of_true (shows_rest_of_takes hb hnew hnodes hothers hleft h htrade).2
        (Or.inl ⟨trade, htrade⟩)
    · obtain ⟨hcap, hentries⟩ := stands_of_not_takes hb hnew hnodes hothers hleft h ht
      unfold UpToDate
      rw [hcap, hentries]
      exact ⟨Or.inr, fun hup => hup.resolve_left ht⟩
  · exact fun trade ht => (shows_rest_of_takes hb hnew hnodes hothers hleft h ht).1
  · exact fun ht => (stands_of_not_takes hb hnew hnodes hothers hleft h ht).2

/-! The take of forty leaves sixty of the ask, and fifty of them are covered. -/

theorem take_of_a_capped_ask_is_told : ∃ b' us, cappedBook.applyOutcome? takeOfAsk = some (b', us) ∧
    b'.UpToDate ⟨"rA", 1⟩ .ask (.ofWord 60) ∧
    ∃ price quality, b'.book.ofOffer .ask ⟨"rA", 1⟩ =
      LevelUpdate.shown ⟨.ask, ⟨⟨"rA", 1⟩, price, .ofWord 50, quality⟩⟩ := by
  have hrun : ((new soloXrp 60).reset cappedSnapshot 0).patchAll? [] = some cappedBook := rfl
  have hleft : soloXrp.Leftover askNode ⟨"rA", 1⟩ .ask partAsk.legs :=
    ⟨rfl, by decide +kernel, by decide +kernel,
      fun _ _ => ⟨_, _, partAsk.priced, partAsk.qualified⟩⟩
  have htakes : Market.Takes askNode ⟨"rA", 1⟩ .ask partAsk.legs
      (some ⟨⟨"rA", 1⟩, .ask, ⟨5, 1, by decide, by decide⟩, .ofWord 40⟩) :=
    Or.inr ⟨⟨wholeAsk.legs, .ofWord 60, .ofWord 30⟩,
      ⟨⟨.issued "SOLO" "rIssuer", .ofWord 40⟩, ⟨.native, .ofWord 20⟩⟩,
      some (⟨⟨"rA", 1⟩, .ask, ⟨5, 1, by decide, by decide⟩, .ofWord 40⟩, .ofWord 500000),
      by decide +kernel, by decide +kernel, by decide +kernel, rfl⟩
  have hnodes : takeOfAsk.offerNodes = [] ++ askNode :: [] := rfl
  obtain ⟨_, hsome⟩ :=
    offers_follow_computable_trades hrun (by decide +kernel) hnodes (by simp) hleft
  obtain ⟨⟨b', us⟩, h⟩ : ∃ r, cappedBook.applyOutcome? takeOfAsk = some r :=
    Option.isSome_iff_exists.mp (by decide +kernel)
  obtain ⟨hup, hshown, _⟩ := hsome b' us h
  exact ⟨b', us, h, hup.mpr (Or.inl ⟨_, htakes⟩), hshown _ htakes⟩

/-! A transaction takes half of what an ask costs and next to nothing of what it gives. The trade
has no price, and the ask goes on as before though it has another size and another price. -/

def dust : Decimal := .tenth 13

def dustBook : LiveBook := (new soloXrp 60).reset
  ⟨[offerOf "rA" 1 (soloWire "0.0000000000001000000000000001") (.drops "20000000000")], some 100⟩ 0

def dustNode : AffectedNode where
  kind := .modified
  entryType := .offer
  ledgerIndex := "A"
  before := {
    takerGets := some (soloWire "0.0000000000001000000000000001")
    takerPays := some (.drops "20000000000") }
  after := {
    account := some "rA"
    sequence := some 1
    takerGets := some (soloWire "0.0000000000001")
    takerPays := some (.drops "10000000000") }

def dustTake : Outcome := { takeOfAsk with nodes := [dustNode] }

def dustLeft : Legs := ⟨⟨.issued "SOLO" "rIssuer", dust⟩, ⟨.native, .ofWord 10000⟩⟩

theorem ask_is_stale_after_dust :
    dustBook.skips dustTake = false ∧
    soloXrp.Leftover dustNode ⟨"rA", 1⟩ .ask dustLeft ∧ dustLeft.restOn .ask = dust ∧
    dustBook.funded.find? ⟨"rA", 1⟩ = none ∧
    askAmounts dustBook = [⟨1000000000000001, 28, by decide, by decide⟩] ∧
    (dustBook.patchAll? [dustTake]).map askAmounts =
      some [⟨1000000000000001, 28, by decide, by decide⟩] := by
  refine ⟨by decide +kernel, ⟨rfl, by decide +kernel, by decide +kernel, fun _ _ => ?_⟩, by decide,
    by decide +kernel, by decide +kernel, by decide +kernel⟩
  exact ⟨.ofWord 100000000000000000, ⟨100000000000000000000000, 0, by decide, by decide⟩,
    by decide +kernel, by decide +kernel⟩

end LiveBook

end OfferDesk
