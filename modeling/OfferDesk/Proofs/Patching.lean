-- Patching a book with a transaction against building it anew. Each node of a transaction comes to
-- one level at most, and changes what the book shows of its own offer only. The patched book is the
-- book of the offers that the transaction leaves exactly if each node says of its offer what a
-- snapshot says of it.
import OfferDesk.Proofs.Resting

namespace OfferDesk

/-! ## What a node tells of an offer -/

namespace AffectedNode

/-- The node leaves an offer there: it names it and gives both of its legs. -/
structure Leaves (n : AffectedNode) (o : Offer) : Prop where
  names : n.offerId? = some o.id
  gets : n.after.takerGets = some o.takerGets
  pays : n.after.takerPays = some o.takerPays

/-- The node tells of an offer that was there: it names it, and each former leg that it gives is
the one that the offer had. -/
structure Finds (n : AffectedNode) (o : Offer) : Prop where
  names : n.offerId? = some o.id
  gets : ∀ wire, n.before.takerGets = some wire → wire = o.takerGets
  pays : ∀ wire, n.before.takerPays = some wire → wire = o.takerPays

/-- The node gives both legs afterwards, and they can be read. -/
structure Reads (n : AffectedNode) (legs : Legs) : Prop where
  gets : ∃ wire, n.after.takerGets = some wire ∧ wire.amount = .ok legs.gets
  pays : ∃ wire, n.after.takerPays = some wire ∧ wire.amount = .ok legs.pays

/-- What is left of an offer with these legs: nothing if it is deleted. -/
def left (n : AffectedNode) (legs : Legs) : Legs :=
  if n.kind = .deleted then ⟨⟨legs.gets.currency, .zero⟩, ⟨legs.pays.currency, .zero⟩⟩ else legs

variable {n : AffectedNode} {o : Offer} {legs legs' : Legs} {m : Market}

theorem left_of_not_deleted (h : n.kind ≠ .deleted) (legs : Legs) : n.left legs = legs := if_neg h

theorem left_of_deleted (h : n.kind = .deleted) (legs : Legs) (side : BookSide) :
    ((n.left legs).baseOn side).value = .zero := by
  rw [left, if_pos h]
  cases side <;> rfl

theorem sideOf?_left (m : Market) (n : AffectedNode) (legs : Legs) :
    m.sideOf? (n.left legs).gets.currency (n.left legs).pays.currency =
      m.sideOf? legs.gets.currency legs.pays.currency := by
  unfold left
  split <;> rfl

theorem Leaves.reads_iff (h : n.Leaves o) :
    n.Reads legs ↔ o.takerGets.amount = .ok legs.gets ∧ o.takerPays.amount = .ok legs.pays := by
  constructor
  · rintro ⟨⟨_, hgets, hg⟩, ⟨_, hpays, hp⟩⟩
    rw [h.gets] at hgets
    rw [h.pays] at hpays
    cases hgets
    cases hpays
    exact ⟨hg, hp⟩
  · rintro ⟨hg, hp⟩
    exact ⟨⟨_, h.gets, hg⟩, ⟨_, h.pays, hp⟩⟩

theorem Reads.eq (h : n.Reads legs) (h' : n.Reads legs') : legs = legs' := by
  obtain ⟨_, hgets, hg⟩ := h.gets
  obtain ⟨_, hpays, hp⟩ := h.pays
  obtain ⟨_, hgets', hg'⟩ := h'.gets
  obtain ⟨_, hpays', hp'⟩ := h'.pays
  rw [hgets] at hgets'
  rw [hpays] at hpays'
  cases hgets'
  cases hpays'
  rw [hg] at hg'
  rw [hp] at hp'
  cases legs
  cases legs'
  cases hg'
  cases hp'
  rfl

theorem remaining_eq_some_iff {rest : Legs} :
    n.remaining = .ok (some rest) ↔ ∃ legs, n.Reads legs ∧ rest = n.left legs := by
  constructor
  · intro h
    unfold remaining at h
    split at h
    · rename_i getsWire paysWire hgets hpays
      obtain ⟨gets, hg, h⟩ := bind_eq_ok_iff.mp h
      obtain ⟨pays, hp, h⟩ := bind_eq_ok_iff.mp h
      refine ⟨⟨gets, pays⟩, ⟨⟨_, hgets, hg⟩, ⟨_, hpays, hp⟩⟩, ?_⟩
      unfold left
      by_cases hkind : n.kind = .deleted
      · rw [if_pos hkind] at h ⊢
        cases h
        rfl
      · rw [if_neg hkind] at h ⊢
        cases h
        rfl
    · cases h
  · rintro ⟨legs, ⟨⟨_, hgets, hg⟩, ⟨_, hpays, hp⟩⟩, rfl⟩
    simp only [remaining, left, hgets, hpays, hg, hp, bind, Except.bind, pure, Except.pure]
    split <;> rfl

theorem legAfter_of_agrees {before after : Amount} {wire : WireAmount}
    (hw : wire.amount = .ok after) (h : after.currency.agreesWith before.currency = true) :
    legAfter before (some wire) = .ok after.value := by
  simp only [legAfter, hw, Except.mapError, bind, Except.bind, h, if_true]
  rfl

theorem change_of_created (h : n.kind = .created) : n.change = .ok none := by
  simp [change, h, pure, Except.pure]

/-- A change of an offer that was there can be read if its legs stay in their currencies. -/
theorem change_of_finds {o : RestingOffer m} (hf : n.Finds o.offer) (hr : n.Reads legs)
    (hside : m.sideOf? legs.gets.currency legs.pays.currency = some o.side) :
    ∃ c, n.change = .ok c := by
  obtain ⟨getsWire, hgets, hgetsRead⟩ := hr.gets
  obtain ⟨paysWire, hpays, hpaysRead⟩ := hr.pays
  obtain ⟨hgetsAgree, hpaysAgree⟩ := Market.agrees_of_same_side hside o.sided
  by_cases hkind : n.kind = .created
  · exact ⟨none, change_of_created hkind⟩
  cases hbefore : n.before.takerGets with
  | none => exact ⟨none, by simp [change, hkind, hbefore, pure, Except.pure]⟩
  | some wire =>
    obtain rfl := hf.gets wire hbefore
    -- the former pays leg is the one afterwards where the node does not give it
    obtain ⟨formerWire, former, hformer, hread, hagrees⟩ : ∃ formerWire former,
        (n.before.takerPays <|> some paysWire) = some formerWire ∧
        formerWire.amount = .ok former ∧
        legs.pays.currency.agreesWith former.currency = true := by
      cases hpaysBefore : n.before.takerPays with
      | none => exact ⟨paysWire, legs.pays, by simp, hpaysRead, legs.pays.currency.agreesWith_self⟩
      | some wire =>
        obtain rfl := hf.pays wire hpaysBefore
        exact ⟨o.offer.takerPays, o.legs.pays, by simp, o.pays_read, hpaysAgree⟩
    refine ⟨some ⟨⟨o.legs.gets, former⟩, legs.gets.value, legs.pays.value⟩, ?_⟩
    simp only [change, hkind, if_false, hbefore, hformer, o.gets_read, hread, hgets, hpays,
      legAfter_of_agrees hgetsRead hgetsAgree, legAfter_of_agrees hpaysRead hagrees,
      Except.mapError, bind, Except.bind, pure, Except.pure]

end AffectedNode

/-! ## The level of a node -/

namespace Market

variable {m : Market} {n : AffectedNode} {o : Offer} {x : OfferId} {side : BookSide} {legs : Legs}
  {l : LevelUpdate}

/-- All ratios that a node needs are in range: the price and the quality of what was taken, and
those of what is left. -/
structure RatiosCompute (m : Market) (n : AffectedNode) : Prop where
  taken : ∀ r c taken, m.readNode n = .ok (some r) → r.change = some c → c.taken? = some taken →
    (taken.baseOn r.side).value.isPositive = true → (∃ p, taken.priceOn r.side = .ok p) ∧
      (taken.gets.value.isPositive = true → ∃ q, taken.quality = .ok q)
  left : ∀ r, m.readNode n = .ok (some r) → (r.remaining.baseOn r.side).value.isPositive = true →
    r.remaining.gets.value.isPositive = true →
      (∃ p, r.remaining.priceOn r.side = .ok p) ∧ ∃ q, r.remaining.quality = .ok q

theorem ratiosCompute_of_readNode {r : NodeReading} (hread : m.readNode n = .ok (some r))
    (htaken : ∀ c taken, r.change = some c → c.taken? = some taken →
      (∃ p, taken.priceOn r.side = .ok p) ∧ ∃ q, taken.quality = .ok q)
    (hleft : (∃ p, r.remaining.priceOn r.side = .ok p) ∧ ∃ q, r.remaining.quality = .ok q) :
    m.RatiosCompute n where
  taken r' c taken hread' hc ht _ := by
    obtain rfl := Option.some.inj (Except.ok.inj (hread.symm.trans hread'))
    obtain ⟨hprice, hquality⟩ := htaken c taken hc ht
    exact ⟨hprice, fun _ => hquality⟩
  left r' hread' _ _ := by
    obtain rfl := Option.some.inj (Except.ok.inj (hread.symm.trans hread'))
    exact hleft

/-- The level that a node comes to, if it comes to one. -/
def nodeLevel? (m : Market) (n : AffectedNode) : Option LevelUpdate := do
  (← m.nodeUpdates? n).findSome? fun
    | .level l => some l
    | .trade _ => none

theorem takenTrade_of_computes (h : m.RatiosCompute n) {r : NodeReading} {c : AffectedNode.Change}
    {taken : Legs} (hread : m.readNode n = .ok (some r)) (hc : r.change = some c)
    (ht : c.taken? = some taken) : ∃ trade, takenTrade r taken = .ok trade := by
  unfold takenTrade
  dsimp only
  split
  · rename_i hbase
    obtain ⟨⟨p, hp⟩, hquality⟩ := h.taken r c taken hread hc ht hbase
    rw [hp]
    split
    · rename_i hgets
      obtain ⟨q, hq⟩ := hquality hgets
      exact ⟨_, by rw [hq]; rfl⟩
    · exact ⟨_, rfl⟩
  · exact ⟨none, rfl⟩

/-- What is left is priced by its own legs where there is something of them. -/
theorem levelPrice_of_computes (h : m.RatiosCompute n) {r : NodeReading}
    (hread : m.readNode n = .ok (some r)) (trade : Option (BookTrade × Decimal)) :
    ∃ p, levelPrice r trade = .ok p ∧ ((r.remaining.baseOn r.side).value.isPositive = true →
      r.remaining.gets.value.isPositive = true →
        r.remaining.priceOn r.side = .ok p.1 ∧ r.remaining.quality = .ok p.2) := by
  unfold levelPrice
  split
  · rename_i hpos
    obtain ⟨hbase, hgets⟩ := Bool.and_eq_true_iff.mp hpos
    obtain ⟨⟨price, hprice⟩, quality, hquality⟩ := h.left r hread hbase hgets
    exact ⟨(price, quality), by rw [hprice, hquality]; rfl, fun _ _ => ⟨hprice, hquality⟩⟩
  · rename_i hnot
    refine ⟨_, rfl, fun hbase hgets => absurd ?_ hnot⟩
    rw [hbase, hgets]
    rfl

/-- A reading whose differences and ratios are in range comes to the level that is left. -/
theorem nodeLevel?_of_readNode (h : m.RatiosCompute n) (hrange : ¬ m.TakesOutOfRange n)
    {r : NodeReading} (hread : m.readNode n = .ok (some r)) :
    ∃ price quality, m.nodeLevel? n = some ⟨r.side,
        ⟨r.offer, price, (r.remaining.baseOn r.side).value.floorAtZero, quality⟩⟩ ∧
      ((r.remaining.baseOn r.side).value.isPositive = true →
        r.remaining.gets.value.isPositive = true →
          r.remaining.priceOn r.side = .ok price ∧ r.remaining.quality = .ok quality) := by
  obtain ⟨trade, htaken⟩ : ∃ trade, (∀ c, r.change = some c → ∃ taken, c.taken? = some taken ∧
      takenTrade r taken = .ok trade) ∧ (r.change = none → trade = none) := by
    cases hc : r.change with
    | none => exact ⟨none, by simp, fun _ => rfl⟩
    | some c =>
      cases ht : c.taken? with
      | none => exact absurd ⟨r, c, hread, hc, ht⟩ hrange
      | some taken =>
        obtain ⟨trade, htrade⟩ := takenTrade_of_computes h hread hc ht
        exact ⟨trade, by simp [htrade, ht], by simp⟩
  obtain ⟨p, hp, hpriced⟩ := levelPrice_of_computes h hread trade
  refine ⟨p.1, p.2, ?_, hpriced⟩
  unfold nodeLevel? nodeUpdates?
  rw [hread]
  cases hc : r.change with
  | none =>
    obtain rfl := htaken.2 hc
    simp [updatesOf, hp, hc, bind, Except.bind, pure, Except.pure]
  | some c =>
    obtain ⟨taken, ht, htrade⟩ := htaken.1 c hc
    simp [updatesOf, htrade, hp, hc, ht, bind, Except.bind, pure, Except.pure]
    cases trade <;> rfl

/-- A node that comes to a level names its offer, and has legs that stand on its side. -/
theorem reads_of_nodeLevel? (h : m.nodeLevel? n = some l) : n.offerId? = some l.entry.offer ∧
    ∃ legs, n.Reads legs ∧ m.sideOf? legs.gets.currency legs.pays.currency = some l.side := by
  obtain ⟨us, hus, hfind⟩ := Option.bind_eq_some_iff.mp h
  rcases nodeUpdates?_cases hus with rfl | ⟨r, c, hr, hc, rfl⟩
  · cases hfind
  · have hlevel : c.level = l := by
      unfold OfferChange.updates at hfind
      cases htrade : c.trade <;> rw [htrade] at hfind <;> exact Option.some.inj hfind
    subst hlevel
    obtain ⟨legs, hreads, hleft⟩ := AffectedNode.remaining_eq_some_iff.mp hr.remaining
    refine ⟨hr.names.trans (congrArg some hc.offer.symm), legs, hreads, ?_⟩
    have hsided := hr.sided
    rw [hleft, AffectedNode.sideOf?_left] at hsided
    rw [hsided, hc.side]

/-- A node whose legs stand on a side comes to the level that they leave there. -/
theorem nodeLevel?_of_reads (h : m.RatiosCompute n) (hrange : ¬ m.TakesOutOfRange n)
    (hname : n.offerId? = some x) (hreads : n.Reads legs)
    (hside : m.sideOf? legs.gets.currency legs.pays.currency = some side)
    (hchange : ∃ c, n.change = .ok c) :
    ∃ price quality, m.nodeLevel? n = some ⟨side,
        ⟨x, price, ((n.left legs).baseOn side).value.floorAtZero, quality⟩⟩ ∧
      (((n.left legs).baseOn side).value.isPositive = true →
        (n.left legs).gets.value.isPositive = true →
          (n.left legs).priceOn side = .ok price ∧ (n.left legs).quality = .ok quality) := by
  obtain ⟨c, hc⟩ := hchange
  have hread : m.readNode n = .ok (some ⟨x, side, n.left legs, c⟩) :=
    readNode_eq_some_iff.mpr ⟨hname, AffectedNode.remaining_eq_some_iff.mpr ⟨legs, hreads, rfl⟩,
      (AffectedNode.sideOf?_left m n legs).trans hside, hc⟩
  exact nodeLevel?_of_readNode h hrange hread

/-- The updates of a transaction are as good as the levels of its nodes. -/
theorem apply_diff? {nodes : List AffectedNode} {us : List BookUpdate}
    (hoffers : ∀ n ∈ nodes, n.isOffer = true) (h : m.diff? nodes = some us) (b : OrderBook) :
    b.apply us = (nodes.filterMap m.nodeLevel?).foldl OrderBook.applyLevel b := by
  obtain ⟨parts, hparts, rfl⟩ := Option.map_eq_some_iff.mp h
  rw [List.filter_eq_self.mpr hoffers] at hparts
  clear h hoffers
  induction nodes generalizing parts b with
  | nil =>
    cases hparts
    rfl
  | cons n ns ih =>
    rw [List.mapM_cons] at hparts
    obtain ⟨us, hus, hparts⟩ := Option.bind_eq_some_iff.mp hparts
    obtain ⟨rest, hrest, hparts⟩ := Option.bind_eq_some_iff.mp hparts
    cases hparts
    rw [List.flatten_cons]
    rcases nodeUpdates?_cases hus with rfl | ⟨r, c, _, _, rfl⟩
    · have hnone : m.nodeLevel? n = none := by
        rw [nodeLevel?, hus]
        rfl
      rw [List.nil_append, ih _ rest hrest, List.filterMap_cons_none hnone]
    · have hlevel : m.nodeLevel? n = some c.level := by
        rw [nodeLevel?, hus, OfferChange.updates]
        cases c.trade <;> rfl
      have htrades : c.updates = c.trade.toList.map .trade ++ [.level c.level] := by
        rw [OfferChange.updates]
        cases c.trade <;> rfl
      rw [htrades, OrderBook.apply_trades_level, ih _ rest hrest,
        List.filterMap_cons_some hlevel, List.foldl_cons]

/-- The levels of nodes that name different offers are of different offers. -/
theorem nodup_nodeLevels {nodes : List AffectedNode} (h : (nodes.map (·.offerId?)).Nodup) :
    ((nodes.filterMap m.nodeLevel?).map (·.entry.offer)).Nodup := by
  have hsub : (((nodes.filterMap m.nodeLevel?).map (·.entry.offer)).map some).Sublist
      (nodes.map (·.offerId?)) := by
    clear h
    induction nodes with
    | nil => exact List.Sublist.refl _
    | cons n ns ih =>
      cases hlevel : m.nodeLevel? n with
      | none =>
        rw [List.filterMap_cons_none hlevel]
        exact ih.cons _
      | some l =>
        rw [List.filterMap_cons_some hlevel, List.map_cons, List.map_cons, List.map_cons,
          (reads_of_nodeLevel? hlevel).1]
        exact ih.cons_cons _
  exact List.Nodup.of_map _ (hsub.nodup h)

/-! ## What a node says of its offer -/

/-- What a node shows of its offer. -/
def levelShown (m : Market) (n : AffectedNode) : Shown := fun side e =>
  ∃ l, m.nodeLevel? n = some l ∧ l.side = side ∧ l.entry.amount.isPositive = true ∧ l.entry = e

/-- What is shown after a node: on the side of its level nothing else of its offer. -/
def afterNode (m : Market) (shown : Shown) (n : AffectedNode) : Shown := fun side e =>
  (shown side e ∧ ∀ l, m.nodeLevel? n = some l → l.side ≠ side) ∨ m.levelShown n side e

theorem levelShown_of_level (h : m.nodeLevel? n = some l) {e : BookEntry} :
    m.levelShown n side e ↔
      l.side = side ∧ l.entry.amount.isPositive = true ∧ l.entry = e := by
  simp [levelShown, h]

/-- A node leaves its offer whole: on the side of the legs there is something left in quote where
there is something left in base. -/
def LeavesWhole (m : Market) (n : AffectedNode) : Prop :=
  n.kind ≠ .deleted → ∀ legs side, n.Reads legs →
    m.sideOf? legs.gets.currency legs.pays.currency = some side →
      (legs.baseOn side).value.isPositive = true → (legs.quoteOn side).value.isPositive = true

theorem leavesWhole_iff (hkind : n.kind ≠ .deleted) (hreads : n.Reads legs)
    (hside : m.sideOf? legs.gets.currency legs.pays.currency = some side) : m.LeavesWhole n ↔
      ((legs.baseOn side).value.isPositive = true →
        (legs.quoteOn side).value.isPositive = true) := by
  refine ⟨fun h => h hkind legs side hreads hside, fun h _ legs' side' hreads' hside' => ?_⟩
  obtain rfl := hreads.eq hreads'
  obtain rfl := Option.some.inj (hside.symm.trans hside')
  exact h

/-- A snapshot shows an offer that a node leaves only if there is something left of both legs. -/
theorem legs_of_sided (h : n.Leaves o) {p : SidedOffer} (hp : m.sided o = .ok (some p)) :
    ∃ legs, n.Reads legs ∧ m.sideOf? legs.gets.currency legs.pays.currency = some p.side ∧
      (legs.baseOn p.side).value.isPositive = true ∧
      (legs.quoteOn p.side).value.isPositive = true := by
  obtain ⟨whole, _, hs⟩ := stands_of_sided hp
  refine ⟨whole, h.reads_iff.mpr ⟨hs.gets_read, hs.pays_read⟩, hs.sided, ?_⟩
  cases p.side
  · exact ⟨hs.pays_positive, hs.gets_positive⟩
  · exact ⟨hs.gets_positive, hs.pays_positive⟩

/-- A node that leaves an offer whole shows of it what a snapshot shows. -/
theorem sided_of_whole (hleaves : n.Leaves o) (huncut : o.ownerFunds = none) (hreads : n.Reads legs)
    (hside : m.sideOf? legs.gets.currency legs.pays.currency = some side)
    (hbase : (legs.baseOn side).value.isPositive = true)
    (hquote : (legs.quoteOn side).value.isPositive = true) {price quality : Decimal}
    (hpriced : legs.gets.value.isPositive = true →
      legs.priceOn side = .ok price ∧ legs.quality = .ok quality) :
    m.sided o = .ok (some ⟨side, ⟨o.id, price, (legs.baseOn side).value, quality⟩, false⟩) := by
  obtain ⟨hgets, hpays⟩ : legs.gets.value.isPositive = true ∧
      legs.pays.value.isPositive = true := by
    cases side
    · exact ⟨hquote, hbase⟩
    · exact ⟨hbase, hquote⟩
  obtain ⟨hgetsRead, hpaysRead⟩ := hleaves.reads_iff.mp hreads
  obtain ⟨hprice, hquality⟩ := hpriced hgets
  rw [sided_uncut hgetsRead hpaysRead hside hgets hpays huncut, hprice, hquality]
  rfl

/-- A node that leaves an offer shows of it what a snapshot shows exactly if it leaves it whole. -/
theorem levelShown_iff (h : m.RatiosCompute n) (hrange : ¬ m.TakesOutOfRange n)
    (hleaves : n.Leaves o) (huncut : o.ownerFunds = none) (hkind : n.kind ≠ .deleted)
    (hchange : ∀ legs side, n.Reads legs →
      m.sideOf? legs.gets.currency legs.pays.currency = some side → ∃ c, n.change = .ok c) :
    (∀ side e, m.levelShown n side e ↔
      ∃ p, m.sided o = .ok (some p) ∧ p.side = side ∧ p.entry = e) ↔ m.LeavesWhole n := by
  by_cases hread : ∃ legs side, n.Reads legs ∧
      m.sideOf? legs.gets.currency legs.pays.currency = some side
  · obtain ⟨legs, side, hreads, hside⟩ := hread
    obtain ⟨price, quality, hlevel, hpriced⟩ :=
      nodeLevel?_of_reads h hrange hleaves.names hreads hside (hchange legs side hreads hside)
    rw [AffectedNode.left_of_not_deleted hkind] at hlevel hpriced
    have hpositive : ∀ p, m.sided o = .ok (some p) → (legs.baseOn side).value.isPositive = true ∧
        (legs.quoteOn side).value.isPositive = true := by
      intro p hp
      obtain ⟨legs', hreads', hside', hboth⟩ := legs_of_sided hleaves hp
      obtain rfl := hreads.eq hreads'
      obtain rfl := Option.some.inj (hside.symm.trans hside')
      exact hboth
    rw [leavesWhole_iff hkind hreads hside]
    simp only [levelShown_of_level hlevel, Decimal.isPositive_floorAtZero]
    cases hbase : (legs.baseOn side).value.isPositive with
    | false =>
      -- nothing is left, and neither shows anything
      rw [hbase] at hpositive
      refine iff_of_true (fun side' e => iff_of_false (fun hl => ?_) ?_) fun hb => nomatch hb
      · exact Bool.false_ne_true hl.2.1
      · rintro ⟨p, hp, _⟩
        exact Bool.false_ne_true (hpositive p hp).1
    | true =>
      cases hquote : (legs.quoteOn side).value.isPositive with
      | false =>
        -- the level shows something, and a snapshot nothing
        rw [hquote] at hpositive
        refine iff_of_false (fun hsame => ?_) fun hb => Bool.false_ne_true (hb rfl)
        obtain ⟨p, hp, _⟩ := (hsame side _).mp ⟨rfl, rfl, rfl⟩
        exact Bool.false_ne_true (hpositive p hp).2
      | true =>
        -- both show the offer as it is left
        refine iff_of_true (fun side' e => ?_) fun _ => rfl
        rw [sided_of_whole hleaves huncut hreads hside hbase hquote (hpriced hbase),
          Decimal.floorAtZero, if_pos hbase]
        simp
  · refine iff_of_true (fun side e => iff_of_false ?_ ?_) ?_
    · rintro ⟨l, hl, _⟩
      obtain ⟨_, legs, hreads, hside⟩ := reads_of_nodeLevel? hl
      exact hread ⟨legs, _, hreads, hside⟩
    · rintro ⟨p, hp, _⟩
      obtain ⟨legs, hreads, hside, _⟩ := legs_of_sided hleaves hp
      exact hread ⟨legs, _, hreads, hside⟩
    · exact fun _ legs side hreads hside => absurd ⟨legs, side, hreads, hside⟩ hread

end Market

/-! ## Transactions -/

variable {m : Market}

/-- What a node of a transaction does to the offers of a market: it adds one under a new handle,
leaves one with other legs, or takes one away. -/
inductive NodeTells (old : List (RestingOffer m)) (new : List Offer) (n : AffectedNode) : Prop where
  | created (o : Offer) (kind : n.kind = .created) (fresh : ∀ x ∈ old, x.id ≠ o.id)
    (leaves : n.Leaves o) (mem : o ∈ new)
  | modified (o : RestingOffer m) (o' : Offer) (kind : n.kind = .modified)
    (finds : n.Finds o.offer) (mem : o ∈ old) (leaves : n.Leaves o') (mem' : o' ∈ new)
  | deleted (o : RestingOffer m) (kind : n.kind = .deleted) (finds : n.Finds o.offer)
    (mem : o ∈ old) (gone : ∀ x ∈ new, x.id ≠ o.id)

theorem NodeTells.names {old : List (RestingOffer m)} {new : List Offer} {n : AffectedNode}
    (h : NodeTells old new n) : ∃ x, n.offerId? = some x := by
  cases h with
  | created o kind fresh leaves mem => exact ⟨_, leaves.names⟩
  | modified o o' kind finds mem leaves mem' => exact ⟨_, leaves.names⟩
  | deleted o kind finds mem gone => exact ⟨_, finds.names⟩

/-- The nodes describe a transaction that leaves other offers in a market: each does so for an
offer of its own, and all other offers stay. -/
structure Describes (nodes : List AffectedNode) (old : List (RestingOffer m)) (new : List Offer) :
    Prop where
  offers : ∀ n ∈ nodes, n.isOffer = true
  distinct : (nodes.map (·.offerId?)).Nodup
  each : ∀ n ∈ nodes, NodeTells old new n
  others : ∀ o : Offer, (∀ n ∈ nodes, n.offerId? ≠ some o.id) →
    (o ∈ new ↔ o ∈ old.map (·.offer))
  uncut : ∀ o ∈ new, o.ownerFunds = none

/-- The node keeps the offer that it names on its side: its legs can be read, and are in the
currencies that they were in. -/
def KeepsSide (old : List (RestingOffer m)) (n : AffectedNode) : Prop :=
  ∀ o ∈ old, n.offerId? = some o.id → ∃ legs, n.Reads legs ∧
    m.sideOf? legs.gets.currency legs.pays.currency = some o.side

/-- A patch is in step with the ledger about the offer of a node: what it takes is in range, its
legs can be read and stay in their currencies, and it leaves nothing to take in base for which
there is nothing in quote. -/
structure InStep (old : List (RestingOffer m)) (n : AffectedNode) : Prop where
  in_range : ¬ m.TakesOutOfRange n
  keeps_side : KeepsSide old n
  whole : m.LeavesWhole n

section

variable {old : List (RestingOffer m)} {new : List Offer} {n : AffectedNode} {x : OfferId}
  {nodes : List AffectedNode}

theorem RestingOffer.eq_of_id {os : List (RestingOffer m)} (h : (os.map (·.id)).Nodup)
    {o o' : RestingOffer m} (ho : o ∈ os) (ho' : o' ∈ os) (hid : o.id = o'.id) : o = o' :=
  List.inj_on_of_nodup_map h ho ho' hid

theorem leavesWhole_of_resting {o : RestingOffer m} (h : n.Leaves o.offer) : m.LeavesWhole n := by
  intro _ legs side hreads _ _
  obtain rfl : legs = o.legs := hreads.eq (h.reads_iff.mpr ⟨o.gets_read, o.pays_read⟩)
  cases side
  · exact o.gets_positive
  · exact o.pays_positive

/-- What a list of different offers shows of one of them. -/
theorem shown_of_mem (hnew : (new.map (·.id)).Nodup) {o : Offer} (ho : o ∈ new) {side : BookSide}
    {e : BookEntry} (hid : e.offer = o.id) : m.shown new side e ↔
      ∃ p, m.sided o = .ok (some p) ∧ p.side = side ∧ p.entry = e := by
  rw [Market.shown_iff]
  constructor
  · rintro ⟨o', ho', p, hp, hside, rfl⟩
    have hsame : o'.id = o.id := (Market.of_sided hp).1.symm.trans hid
    obtain rfl : o' = o := List.inj_on_of_nodup_map hnew ho' ho hsame
    exact ⟨p, hp, hside, rfl⟩
  · rintro ⟨p, hp, hside, hentry⟩
    exact ⟨o, ho, p, hp, hside, hentry⟩

/-- Offers that are not listed are not shown. -/
theorem not_shown (hgone : ∀ o ∈ new, o.id ≠ x) {side : BookSide} {e : BookEntry}
    (hid : e.offer = x) : ¬ m.shown new side e := by
  rw [Market.shown_iff]
  rintro ⟨o, ho, p, hp, _, rfl⟩
  exact hgone o ho ((Market.of_sided hp).1.symm.trans hid)

/-- The book and a snapshot agree about the offer of a node. -/
def AgreesAfter (old : List (RestingOffer m)) (new : List Offer) (n : AffectedNode) (x : OfferId) :
    Prop :=
  ∀ side e, e.offer = x →
    (m.afterNode (m.shown (old.map (·.offer))) n side e ↔ m.shown new side e)

theorem offer_of_levelShown (hname : n.offerId? = some x) {side : BookSide} {e : BookEntry}
    (h : m.levelShown n side e) : e.offer = x := by
  obtain ⟨l, hl, _, _, rfl⟩ := h
  exact Option.some.inj ((Market.reads_of_nodeLevel? hl).1.symm.trans hname)

/-- Where a node shows all that there is of an offer that it leaves, it is about the node that the
book and a snapshot can differ. -/
theorem agreesAfter_iff_of_leaves (hnew : (new.map (·.id)).Nodup) {o : Offer} (ho : o ∈ new)
    (hleaves : n.Leaves o) (hafter : ∀ side e, e.offer = o.id →
      (m.afterNode (m.shown (old.map (·.offer))) n side e ↔ m.levelShown n side e)) :
    AgreesAfter old new n o.id ↔ ∀ side e, m.levelShown n side e ↔
      ∃ p, m.sided o = .ok (some p) ∧ p.side = side ∧ p.entry = e := by
  constructor
  · intro h side e
    have hsame : e.offer = o.id → (m.levelShown n side e ↔
        ∃ p, m.sided o = .ok (some p) ∧ p.side = side ∧ p.entry = e) := fun hid =>
      (hafter side e hid).symm.trans ((h side e hid).trans (shown_of_mem hnew ho hid))
    constructor
    · exact fun hl => (hsame (offer_of_levelShown hleaves.names hl)).mp hl
    · rintro ⟨p, hp, hside, rfl⟩
      exact (hsame (Market.of_sided hp).1).mpr ⟨p, hp, hside, rfl⟩
  · intro h side e hid
    rw [hafter side e hid, shown_of_mem hnew ho hid]
    exact h side e

/-- Nothing else is shown of an offer that was not there before. -/
theorem afterNode_of_fresh (hfresh : ∀ o ∈ old, o.id ≠ x) (side : BookSide) (e : BookEntry)
    (hid : e.offer = x) :
    m.afterNode (m.shown (old.map (·.offer))) n side e ↔ m.levelShown n side e := by
  refine or_iff_right ?_
  rintro ⟨hshown, _⟩
  obtain ⟨o, ho, _, rfl⟩ := RestingOffer.shown_iff.mp hshown
  exact hfresh o ho hid

/-- A level on the side of an old offer takes the place of its entry. -/
theorem afterNode_of_level (hold : (old.map (·.id)).Nodup) {o : RestingOffer m} (ho : o ∈ old)
    {l : LevelUpdate} (hl : m.nodeLevel? n = some l) (hlside : l.side = o.side) (side : BookSide)
    (e : BookEntry) (hid : e.offer = o.id) :
    m.afterNode (m.shown (old.map (·.offer))) n side e ↔ m.levelShown n side e := by
  refine or_iff_right ?_
  rintro ⟨hshown, hother⟩
  obtain ⟨o', ho', rfl, rfl⟩ := RestingOffer.shown_iff.mp hshown
  obtain rfl : o' = o := RestingOffer.eq_of_id hold ho' ho hid
  exact hother l hl hlside

/-- An old offer whose node does not keep its side stands as it stood. -/
theorem afterNode_of_not_keeps {o : RestingOffer m} (ho : o ∈ old) (hnot : ¬ ∃ legs, n.Reads legs ∧
    m.sideOf? legs.gets.currency legs.pays.currency = some o.side) :
    m.afterNode (m.shown (old.map (·.offer))) n o.side o.entry := by
  refine Or.inl ⟨RestingOffer.shown_iff.mpr ⟨o, ho, rfl, rfl⟩, fun l hl hside => hnot ?_⟩
  obtain ⟨_, legs, hreads, hlegs⟩ := Market.reads_of_nodeLevel? hl
  exact ⟨legs, hreads, hlegs.trans (congrArg some hside)⟩

theorem keepsSide_iff (hold : (old.map (·.id)).Nodup) {o : RestingOffer m} (ho : o ∈ old)
    (hname : n.offerId? = some o.id) : KeepsSide old n ↔ ∃ legs, n.Reads legs ∧
      m.sideOf? legs.gets.currency legs.pays.currency = some o.side := by
  refine ⟨fun h => h o ho hname, fun h o' ho' hname' => ?_⟩
  obtain rfl : o' = o :=
    RestingOffer.eq_of_id hold ho' ho (Option.some.inj (hname'.symm.trans hname))
  exact h

/-- After a node that describes a transaction the book agrees with a snapshot about its offer
exactly if the node keeps the offer on its side and leaves it whole. -/
theorem agreesAfter_iff (hold : (old.map (·.id)).Nodup) (hnew : (new.map (·.id)).Nodup)
    (huncut : ∀ o ∈ new, o.ownerFunds = none) (h : NodeTells old new n)
    (hratios : m.RatiosCompute n) (hrange : ¬ m.TakesOutOfRange n) (hname : n.offerId? = some x) :
    AgreesAfter old new n x ↔ KeepsSide old n ∧ m.LeavesWhole n := by
  cases h with
  | created o kind fresh leaves mem =>
    obtain rfl := Option.some.inj (hname.symm.trans leaves.names)
    have hkeeps : KeepsSide old n := fun o' ho' hname' =>
      absurd (Option.some.inj (hname'.symm.trans hname)) (fresh o' ho')
    rw [agreesAfter_iff_of_leaves hnew mem leaves (afterNode_of_fresh fresh),
      Market.levelShown_iff hratios hrange leaves (huncut o mem) (by simp [kind]) fun _ _ _ _ =>
        ⟨none, AffectedNode.change_of_created kind⟩]
    exact (and_iff_right hkeeps).symm
  | modified o o' kind finds mem leaves mem' =>
    have hid : o.id = o'.id := Option.some.inj (finds.names.symm.trans leaves.names)
    obtain rfl := Option.some.inj (hname.symm.trans leaves.names)
    have hkind : n.kind ≠ .deleted := by simp [kind]
    rw [keepsSide_iff hold mem finds.names]
    by_cases hkeeps : ∃ legs, n.Reads legs ∧
        m.sideOf? legs.gets.currency legs.pays.currency = some o.side
    · have hchange : ∃ c, n.change = .ok c := by
        obtain ⟨legs, hreads, hside⟩ := hkeeps
        exact AffectedNode.change_of_finds finds hreads hside
      obtain ⟨legs, hreads, hside⟩ := hkeeps
      obtain ⟨price, quality, hlevel, _⟩ :=
        Market.nodeLevel?_of_reads hratios hrange hname hreads hside hchange
      rw [agreesAfter_iff_of_leaves hnew mem' leaves fun side e he =>
          afterNode_of_level hold mem hlevel rfl side e (he.trans hid.symm),
        Market.levelShown_iff hratios hrange leaves (huncut o' mem') hkind fun _ _ _ _ => hchange]
      exact (and_iff_right ⟨legs, hreads, hside⟩).symm
    · refine iff_of_false (fun hagrees => hkeeps ?_) fun h => hkeeps h.1
      have hshown := (hagrees o.side o.entry hid).mp (afterNode_of_not_keeps mem hkeeps)
      obtain ⟨p, hp, hside, _⟩ := (shown_of_mem hnew mem' hid).mp hshown
      obtain ⟨legs, hreads, hlegs, _⟩ := Market.legs_of_sided leaves hp
      exact ⟨legs, hreads, hside ▸ hlegs⟩
  | deleted o kind finds mem gone =>
    obtain rfl := Option.some.inj (hname.symm.trans finds.names)
    have hwhole : m.LeavesWhole n := fun hkind => absurd kind hkind
    rw [keepsSide_iff hold mem finds.names]
    by_cases hkeeps : ∃ legs, n.Reads legs ∧
        m.sideOf? legs.gets.currency legs.pays.currency = some o.side
    · refine iff_of_true (fun side e hid => ?_) ⟨hkeeps, hwhole⟩
      obtain ⟨legs, hreads, hside⟩ := hkeeps
      obtain ⟨price, quality, hlevel, _⟩ := Market.nodeLevel?_of_reads hratios hrange hname hreads
        hside (AffectedNode.change_of_finds finds hreads hside)
      rw [afterNode_of_level hold mem hlevel rfl side e hid]
      refine iff_of_false ?_ (not_shown gone hid)
      rw [Market.levelShown_of_level hlevel]
      rintro ⟨_, hpos, _⟩
      rw [AffectedNode.left_of_deleted kind] at hpos
      cases hpos
    · refine iff_of_false (fun hagrees => ?_) fun h => hkeeps h.1
      exact not_shown gone rfl ((hagrees o.side o.entry rfl).mp (afterNode_of_not_keeps mem hkeeps))

/-! ## Patched books -/

/-- What the patched book shows of an offer that a node names. -/
theorem patched_of_named (hd : (nodes.map (·.offerId?)).Nodup) {shown : Shown} (hn : n ∈ nodes)
    {side : BookSide} {e : BookEntry} (hname : n.offerId? = some e.offer) :
    (nodes.filterMap m.nodeLevel?).foldl Shown.patched shown side e ↔
      m.afterNode shown n side e := by
  have hown : ∀ n' ∈ nodes, ∀ l, m.nodeLevel? n' = some l → l.entry.offer = e.offer → n' = n := by
    intro n' hn' l hl hoffer
    have hname' : n'.offerId? = some e.offer := hoffer ▸ (Market.reads_of_nodeLevel? hl).1
    exact List.inj_on_of_nodup_map hd hn' hn (hname'.trans hname.symm)
  rw [Shown.patched_foldl_iff (Market.nodup_nodeLevels hd)]
  simp only [List.mem_filterMap]
  refine or_congr (and_congr_right fun _ => ?_) ?_
  · constructor
    · intro hkept l hl hside
      have hoffer := Option.some.inj ((Market.reads_of_nodeLevel? hl).1.symm.trans hname)
      exact hkept l ⟨n, hn, hl⟩ ⟨hside.symm, hoffer.symm⟩
    · rintro hkept l ⟨n', hn', hl⟩ ⟨hside, hoffer⟩
      obtain rfl := hown n' hn' l hl hoffer.symm
      exact hkept l hl hside.symm
  · constructor
    · rintro ⟨l, ⟨n', hn', hl⟩, hside, hpos, rfl⟩
      obtain rfl := hown n' hn' l hl rfl
      exact ⟨l, hl, hside.symm, hpos, rfl⟩
    · rintro ⟨l, hl, hside, hpos, rfl⟩
      exact ⟨l, ⟨n, hn, hl⟩, hside.symm, hpos, rfl⟩

/-- The patched book shows of an offer that no node names what it showed before. -/
theorem patched_of_unnamed (hd : (nodes.map (·.offerId?)).Nodup) {shown : Shown} {side : BookSide}
    {e : BookEntry} (hnone : ∀ n ∈ nodes, n.offerId? ≠ some e.offer) :
    (nodes.filterMap m.nodeLevel?).foldl Shown.patched shown side e ↔ shown side e := by
  have hother : ∀ l ∈ nodes.filterMap m.nodeLevel?, e.offer ≠ l.entry.offer := by
    intro l hl hoffer
    obtain ⟨n, hn, hl⟩ := List.mem_filterMap.mp hl
    exact hnone n hn (hoffer ▸ (Market.reads_of_nodeLevel? hl).1)
  rw [Shown.patched_foldl_iff (Market.nodup_nodeLevels hd)]
  constructor
  · rintro (⟨hshown, _⟩ | ⟨l, hl, _, _, rfl⟩)
    · exact hshown
    · exact absurd rfl (hother l hl)
  · exact fun hshown => Or.inl ⟨hshown, fun l hl h => hother l hl h.2⟩

/-- The patched book shows what a snapshot shows exactly if they agree about the offer of each
node. -/
theorem shown_patched_iff (h : Describes nodes old new) :
    (∀ side e, (nodes.filterMap m.nodeLevel?).foldl Shown.patched (m.shown (old.map (·.offer)))
      side e ↔ m.shown new side e) ↔
    ∀ n ∈ nodes, ∀ x, n.offerId? = some x → AgreesAfter old new n x := by
  constructor
  · rintro hsame n hn x hname side e rfl
    rw [← patched_of_named h.distinct hn hname]
    exact hsame side e
  · intro hagrees side e
    by_cases hnamed : ∃ n ∈ nodes, n.offerId? = some e.offer
    · obtain ⟨n, hn, hname⟩ := hnamed
      rw [patched_of_named h.distinct hn hname]
      exact hagrees n hn _ hname side e rfl
    · have hnone : ∀ n ∈ nodes, n.offerId? ≠ some e.offer := fun n hn hname => hnamed ⟨n, hn, hname⟩
      rw [patched_of_unnamed h.distinct hnone, Market.shown_iff, Market.shown_iff]
      -- both are about an offer that no node names, and such an offer stays
      have hstays : ∀ o p, m.sided o = .ok (some p) → p.entry = e →
          (o ∈ new ↔ o ∈ old.map (·.offer)) := by
        rintro o p hp rfl
        refine h.others o fun n hn hname => hnone n hn ?_
        rw [hname, (Market.of_sided hp).1]
      constructor
      · rintro ⟨o, ho, p, hp, hside, hentry⟩
        exact ⟨o, (hstays o p hp hentry).mpr ho, p, hp, hside, hentry⟩
      · rintro ⟨o, ho, p, hp, hside, hentry⟩
        exact ⟨o, (hstays o p hp hentry).mp ho, p, hp, hside, hentry⟩

/-- Patching the book of some offers with a transaction gives the book of the offers that the
transaction leaves exactly if every node is in step. -/
theorem patching_equals_rebuilding_iff (hold : (old.map (·.id)).Nodup)
    (hnew : (new.map (·.id)).Nodup) (h : Describes nodes old new)
    (hratios : ∀ n ∈ nodes, m.RatiosCompute n) :
    (∃ updates, m.diff? nodes = some updates ∧
      (m.snapshot (old.map (·.offer))).1.apply updates = (m.snapshot new).1) ↔
    ∀ n ∈ nodes, InStep old n := by
  have holds : ((old.map (·.offer)).map (·.id)).Nodup := by
    rw [List.map_map]
    exact hold
  have hpatched : ∀ updates, m.diff? nodes = some updates →
      ((m.snapshot (old.map (·.offer))).1.apply updates = (m.snapshot new).1 ↔
        ∀ n ∈ nodes, ∀ x, n.offerId? = some x → AgreesAfter old new n x) := by
    intro updates hdiff
    have hshows := OrderBook.shows_foldl (nodes.filterMap m.nodeLevel?)
      (Market.shows_snapshot (m := m) holds)
    rw [← Market.apply_diff? h.offers hdiff] at hshows
    rw [← shown_patched_iff h]
    constructor
    · intro heq side e
      rw [← (hshows side).2 e, heq, Market.mem_entries_snapshot]
    · intro hsame
      have hframe := OrderBook.apply_frame (m.snapshot (old.map (·.offer))).1 updates
      exact (hshows.congr hsame).eq (Market.shows_snapshot hnew) hframe.1 hframe.2
  have hnone : m.diff? nodes = none ↔ ∃ n ∈ nodes, m.TakesOutOfRange n := by
    rw [Market.diff?_eq_none_iff, List.filter_eq_self.mpr h.offers]
  by_cases hrange : ∃ n ∈ nodes, m.TakesOutOfRange n
  · refine iff_of_false ?_ ?_
    · rintro ⟨updates, hdiff, _⟩
      rw [hnone.mpr hrange] at hdiff
      cases hdiff
    · obtain ⟨n, hn, hout⟩ := hrange
      exact fun hstep => (hstep n hn).in_range hout
  · obtain ⟨updates, hdiff⟩ := Option.ne_none_iff_exists'.mp (mt hnone.mp hrange)
    have hnode : ∀ n ∈ nodes, (∀ x, n.offerId? = some x → AgreesAfter old new n x) ↔
        InStep old n := by
      intro n hn
      have hin : ¬ m.TakesOutOfRange n := fun hout => hrange ⟨n, hn, hout⟩
      have hiff := fun x =>
        agreesAfter_iff (x := x) hold hnew h.uncut (h.each n hn) (hratios n hn) hin
      obtain ⟨x, hname⟩ := (h.each n hn).names
      constructor
      · intro hagrees
        obtain ⟨hkeeps, hwhole⟩ := (hiff x hname).mp (hagrees x hname)
        exact ⟨hin, hkeeps, hwhole⟩
      · exact fun hstep y hy => (hiff y hy).mpr ⟨hstep.keeps_side, hstep.whole⟩
    calc (∃ updates, m.diff? nodes = some updates ∧
          (m.snapshot (old.map (·.offer))).1.apply updates = (m.snapshot new).1)
        ↔ (m.snapshot (old.map (·.offer))).1.apply updates = (m.snapshot new).1 := by
          simp [hdiff]
      _ ↔ ∀ n ∈ nodes, ∀ x, n.offerId? = some x → AgreesAfter old new n x := hpatched updates hdiff
      _ ↔ ∀ n ∈ nodes, InStep old n := forall₂_congr hnode

end

/-! A transaction takes two fifths of the one ask, and leaves a bid of its own. -/

def soloXrp : Market := ⟨"SOLO-XRP", .issued "SOLO" "rIssuer", .native⟩

def soloWire (value : String) : WireAmount := .issued ⟨"SOLO", "rIssuer", value⟩

def offerOf (account : String) (sequence : UInt32) (gets pays : WireAmount) : Offer :=
  ⟨account, sequence, gets, pays, "", 0, none, none, none⟩

def wholeAsk : RestingOffer soloXrp where
  offer := offerOf "rA" 1 (soloWire "100") (.drops "50000000")
  side := .ask
  legs := ⟨⟨.issued "SOLO" "rIssuer", .ofWord 100⟩, ⟨.native, .ofWord 50⟩⟩
  price := ⟨5, 1, by decide, by decide⟩
  quality := .ofWord 500000
  gets_read := by decide +kernel
  pays_read := by decide +kernel
  sided := by decide +kernel
  gets_positive := by decide +kernel
  pays_positive := by decide +kernel
  uncut := rfl
  priced := by decide +kernel
  qualified := by decide +kernel

def partAsk : RestingOffer soloXrp where
  offer := offerOf "rA" 1 (soloWire "60") (.drops "30000000")
  side := .ask
  legs := ⟨⟨.issued "SOLO" "rIssuer", .ofWord 60⟩, ⟨.native, .ofWord 30⟩⟩
  price := ⟨5, 1, by decide, by decide⟩
  quality := .ofWord 500000
  gets_read := by decide +kernel
  pays_read := by decide +kernel
  sided := by decide +kernel
  gets_positive := by decide +kernel
  pays_positive := by decide +kernel
  uncut := rfl
  priced := by decide +kernel
  qualified := by decide +kernel

def newBid : RestingOffer soloXrp where
  offer := offerOf "rB" 2 (.drops "10000000") (soloWire "40")
  side := .bid
  legs := ⟨⟨.native, .ofWord 10⟩, ⟨.issued "SOLO" "rIssuer", .ofWord 40⟩⟩
  price := ⟨25, 2, by decide, by decide⟩
  quality := Decimal.millionths (.ofWord 4)
  gets_read := by decide +kernel
  pays_read := by decide +kernel
  sided := by decide +kernel
  gets_positive := by decide +kernel
  pays_positive := by decide +kernel
  uncut := rfl
  priced := by decide +kernel
  qualified := by decide +kernel

def askNode : AffectedNode where
  kind := .modified
  entryType := .offer
  ledgerIndex := "A"
  before := { takerGets := some (soloWire "100"), takerPays := some (.drops "50000000") }
  after := {
    account := some "rA"
    sequence := some 1
    takerGets := some (soloWire "60")
    takerPays := some (.drops "30000000") }

def bidNode : AffectedNode where
  kind := .created
  entryType := .offer
  ledgerIndex := "B"
  before := {}
  after := {
    account := some "rB"
    sequence := some 2
    takerGets := some (.drops "10000000")
    takerPays := some (soloWire "40") }

theorem describes_partial_take :
    Describes [askNode, bidNode] [wholeAsk] [newBid.offer, partAsk.offer] where
  offers := by decide
  distinct := by decide
  each := by
    intro n hn
    rcases List.mem_cons.mp hn with rfl | hn
    · exact .modified wholeAsk partAsk.offer rfl ⟨rfl, by decide, by decide⟩ (by simp)
        ⟨rfl, rfl, rfl⟩ (by simp)
    · rw [List.mem_singleton.mp hn]
      refine .created newBid.offer rfl ?_ ⟨rfl, rfl, rfl⟩ (by simp)
      intro x hx
      rw [List.mem_singleton.mp hx]
      decide
  others := by
    intro o ho
    have hask : o ≠ wholeAsk.offer ∧ o ≠ partAsk.offer := by
      constructor <;> rintro rfl <;> exact ho askNode (by simp) rfl
    have hbid : o ≠ newBid.offer := by
      rintro rfl
      exact ho bidNode (by simp) rfl
    simp [hask, hbid]
  uncut := by decide

theorem ratiosCompute_partial_take : ∀ n ∈ [askNode, bidNode], soloXrp.RatiosCompute n := by
  intro n hn
  rcases List.mem_cons.mp hn with rfl | hn
  · have hread : soloXrp.readNode askNode = .ok (some ⟨partAsk.id, .ask, partAsk.legs,
        some ⟨wholeAsk.legs, .ofWord 60, .ofWord 30⟩⟩) := by decide +kernel
    refine Market.ratiosCompute_of_readNode hread ?_
      ⟨⟨_, partAsk.priced⟩, _, partAsk.qualified⟩
    rintro c taken hc ht
    cases hc
    have htaken : (⟨wholeAsk.legs, .ofWord 60, .ofWord 30⟩ : AffectedNode.Change).taken? =
        some ⟨⟨.issued "SOLO" "rIssuer", .ofWord 40⟩, ⟨.native, .ofWord 20⟩⟩ := by decide +kernel
    rw [htaken] at ht
    cases ht
    exact ⟨⟨partAsk.price, by decide +kernel⟩, partAsk.quality, by decide +kernel⟩
  · rw [List.mem_singleton.mp hn]
    have hread : soloXrp.readNode bidNode = .ok (some ⟨newBid.id, .bid, newBid.legs, none⟩) := by
      decide +kernel
    exact Market.ratiosCompute_of_readNode hread (fun c taken hc => nomatch hc)
      ⟨⟨_, newBid.priced⟩, _, newBid.qualified⟩

theorem inStep_partial_take : ∀ n ∈ [askNode, bidNode], InStep [wholeAsk] n := by
  intro n hn
  rcases List.mem_cons.mp hn with rfl | hn
  · have hleaves : askNode.Leaves partAsk.offer := ⟨rfl, rfl, rfl⟩
    refine ⟨?_, ?_, leavesWhole_of_resting hleaves⟩
    · rw [← Market.nodeUpdates?_eq_none_iff]
      decide +kernel
    · intro o ho _
      rw [List.mem_singleton.mp ho]
      exact ⟨partAsk.legs, hleaves.reads_iff.mpr ⟨partAsk.gets_read, partAsk.pays_read⟩,
        partAsk.sided⟩
  · rw [List.mem_singleton.mp hn]
    have hleaves : bidNode.Leaves newBid.offer := ⟨rfl, rfl, rfl⟩
    refine ⟨?_, ?_, leavesWhole_of_resting hleaves⟩
    · rw [← Market.nodeUpdates?_eq_none_iff]
      decide +kernel
    · intro o ho hname
      rw [List.mem_singleton.mp ho] at hname
      exact absurd hname (by decide)

theorem patch_of_a_partial_take : ∃ updates,
    soloXrp.diff? [askNode, bidNode] = some updates ∧
      (soloXrp.snapshot ([wholeAsk].map (·.offer))).1.apply updates =
        (soloXrp.snapshot [newBid.offer, partAsk.offer]).1 :=
  (patching_equals_rebuilding_iff (by decide) (by decide) describes_partial_take
    ratiosCompute_partial_take).mpr inStep_partial_take

/-! Another leaves sixty of the ask for nothing. -/

def hollowAsk : Offer := offerOf "rA" 1 (soloWire "60") (.drops "0")

def hollowNode : AffectedNode :=
  { askNode with after := { askNode.after with takerPays := some (.drops "0") } }

theorem describes_hollow_ask : Describes [hollowNode] [wholeAsk] [hollowAsk] where
  offers := by decide
  distinct := by decide
  each := by
    intro n hn
    rw [List.mem_singleton.mp hn]
    exact .modified wholeAsk hollowAsk rfl ⟨rfl, by decide, by decide⟩ (by simp) ⟨rfl, rfl, rfl⟩
      (by simp)
  others := by
    intro o ho
    have hask : o ≠ wholeAsk.offer ∧ o ≠ hollowAsk := by
      constructor <;> rintro rfl <;> exact ho hollowNode (by simp) rfl
    simp [hask]
  uncut := by decide

theorem ratiosCompute_hollow_ask : soloXrp.RatiosCompute hollowNode := by
  have hread : soloXrp.readNode hollowNode = .ok (some ⟨partAsk.id, .ask,
      ⟨partAsk.legs.gets, ⟨.native, .zero⟩⟩, some ⟨wholeAsk.legs, .ofWord 60, .zero⟩⟩) := by
    decide +kernel
  refine Market.ratiosCompute_of_readNode hread ?_
    ⟨⟨.zero, by decide +kernel⟩, .zero, by decide +kernel⟩
  rintro c taken hc ht
  cases hc
  have htaken : (⟨wholeAsk.legs, .ofWord 60, .zero⟩ : AffectedNode.Change).taken? =
      some ⟨⟨.issued "SOLO" "rIssuer", .ofWord 40⟩, ⟨.native, .ofWord 50⟩⟩ := by decide +kernel
  rw [htaken] at ht
  cases ht
  exact ⟨⟨⟨125, 2, by decide, by decide⟩, by decide +kernel⟩, .ofWord 1250000, by decide +kernel⟩

/-- The patched book goes on showing the sixty, at a price of nothing, and a snapshot shows no
ask. -/
theorem hollow_ask_is_shown_for_nothing :
    Describes [hollowNode] [wholeAsk] [hollowAsk] ∧
    (∀ n ∈ [hollowNode], soloXrp.RatiosCompute n) ∧
    (∃ updates, soloXrp.diff? [hollowNode] = some updates ∧
      ((soloXrp.snapshot ([wholeAsk].map (·.offer))).1.apply updates).asks =
        [⟨⟨"rA", 1⟩, .zero, .ofWord 60, .zero⟩]) ∧
    (soloXrp.snapshot [hollowAsk]).1.asks = [] ∧
    ¬ ∃ updates, soloXrp.diff? [hollowNode] = some updates ∧
      (soloXrp.snapshot ([wholeAsk].map (·.offer))).1.apply updates =
        (soloXrp.snapshot [hollowAsk]).1 := by
  have hpatched : (soloXrp.diff? [hollowNode]).map (fun updates =>
      ((soloXrp.snapshot ([wholeAsk].map (·.offer))).1.apply updates).asks) =
        some [⟨⟨"rA", 1⟩, .zero, .ofWord 60, .zero⟩] := by decide +kernel
  have hrebuilt : (soloXrp.snapshot [hollowAsk]).1.asks = [] := by decide +kernel
  obtain ⟨updates, hdiff, hasks⟩ := Option.map_eq_some_iff.mp hpatched
  refine ⟨describes_hollow_ask, ?_, ⟨updates, hdiff, hasks⟩, hrebuilt, ?_⟩
  · intro n hn
    rw [List.mem_singleton.mp hn]
    exact ratiosCompute_hollow_ask
  · rintro ⟨updates', hdiff', hsame⟩
    obtain rfl := Option.some.inj (hdiff.symm.trans hdiff')
    rw [hsame, hrebuilt] at hasks
    cases hasks

end OfferDesk
