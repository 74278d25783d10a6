-- What a transaction changes in a market, offer by offer. A node comes to a change of the offer
-- that it names: perhaps a trade, and then the level that is left. A change spends the cap of its
-- offer and is held to it, and touches no other cap.
import OfferDesk.Book.Live
import OfferDesk.Proofs.BookLevels

namespace OfferDesk

/-! ## Funds -/

namespace Decimal

variable {a b : Decimal}

/-- What is left of funds after something was taken of them, and never less than nothing. -/
def spend (funds taken : Decimal) : Decimal := ((funds.sub? taken).getD .zero).floorAtZero

/-- An amount, or the bound where it is more. -/
def atMost (amount bound : Decimal) : Decimal := if bound < amount then bound else amount

theorem spend_nonneg (a b : Decimal) : 0 ≤ (a.spend b).mantissa := floorAtZero_nonneg _

/-- Funds are spent as the difference says: it is in range where nothing is below zero. -/
theorem spend_eq (ha : 0 ≤ a.mantissa) (hb : 0 ≤ b.mantissa) :
    (a.sub? b).map floorAtZero = some (a.spend b) := by
  obtain ⟨c, hc⟩ := Option.isSome_iff_exists.mp (sub?_isSome ha hb)
  rw [spend, hc]
  rfl

theorem atMost_nonneg (ha : 0 ≤ a.mantissa) (hb : 0 ≤ b.mantissa) :
    0 ≤ (a.atMost b).mantissa := by
  unfold atMost
  split
  · exact hb
  · exact ha

/-- Held to a bound, an amount comes to zero where either of the two is zero. -/
theorem isZero_atMost (ha : 0 ≤ a.mantissa) (hb : 0 ≤ b.mantissa) :
    (a.atMost b).isZero = true ↔ a.isZero = true ∨ b.isZero = true := by
  have hpa := pow10_pos a.scale
  have hpb := pow10_pos b.scale
  unfold atMost isZero
  split
  · rename_i hlt
    -- above a bound that is not below zero there is no zero
    have hne : a.mantissa ≠ 0 := by
      intro hz
      have hlt' : b.mantissa * pow10 a.scale < a.mantissa * pow10 b.scale := hlt
      rw [hz, Int.zero_mul] at hlt'
      have hprod : 0 ≤ b.mantissa * pow10 a.scale := Int.mul_nonneg hb (by omega)
      omega
    simp [hne]
  · rename_i hle
    have hz : b.mantissa = 0 → a.mantissa = 0 := by
      intro hz
      by_contra hne
      refine hle (show b.mantissa * pow10 a.scale < a.mantissa * pow10 b.scale from ?_)
      rw [hz, Int.zero_mul]
      exact Int.mul_pos (by omega) (by omega)
    simp only [beq_iff_eq]
    exact ⟨Or.inl, fun h => h.elim id hz⟩

end Decimal

/-! ## The change of one offer -/

/-- What a node changes in a market: perhaps something was taken of an offer, and so much is left
of it. -/
structure OfferChange where
  trade : Option BookTrade
  level : LevelUpdate
  named : ∀ t, trade = some t → t.offer = level.entry.offer
  taken : ∀ t, trade = some t → t.amount.isPositive = true
  left : 0 ≤ level.entry.amount.mantissa

namespace OfferChange

variable {c : OfferChange}

def offer (c : OfferChange) : OfferId := c.level.entry.offer

/-- The updates that tell of a change. -/
def updates (c : OfferChange) : List BookUpdate :=
  (c.trade.map BookUpdate.trade).toList ++ [.level c.level]

/-- What the trade of a change leaves of the funds of its offer. -/
def fundsLeft (c : OfferChange) (funds : Decimal) : Decimal :=
  match c.trade with
  | none => funds
  | some t => funds.spend t.amount

/-- The level of a change, held to the funds of a capped offer. -/
def held (c : OfferChange) : Option Decimal → LevelUpdate
  | none => c.level
  | some funds => { c.level with
      entry := { c.level.entry with amount := c.level.entry.amount.atMost (c.fundsLeft funds) } }

/-- The cap of an offer after its change. -/
def capAfter (c : OfferChange) : Option Decimal → Option Decimal
  | none => none
  | some funds =>
    if (c.level.entry.amount.atMost (c.fundsLeft funds)).isZero then none
    else some (c.fundsLeft funds)

@[simp] theorem held_side (c : OfferChange) (cap : Option Decimal) :
    (c.held cap).side = c.level.side := by
  cases cap <;> rfl

@[simp] theorem held_offer (c : OfferChange) (cap : Option Decimal) :
    (c.held cap).entry.offer = c.offer := by
  cases cap <;> rfl

theorem fundsLeft_nonneg {funds : Decimal} (h : 0 ≤ funds.mantissa) :
    0 ≤ (c.fundsLeft funds).mantissa := by
  unfold fundsLeft
  split
  · exact h
  · exact Decimal.spend_nonneg _ _

/-- A cap that outlasts a change has something left. -/
theorem capAfter_positive {cap : Option Decimal} (h : ∀ funds, cap = some funds →
    funds.isPositive = true) {left : Decimal} (hleft : c.capAfter cap = some left) :
    left.isPositive = true := by
  cases cap with
  | none => cases hleft
  | some funds =>
    have hfunds := fundsLeft_nonneg (c := c) (Decimal.nonneg_of_isPositive (h funds rfl))
    simp only [capAfter] at hleft
    split at hleft
    · cases hleft
    · rename_i hshown
      cases hleft
      refine Decimal.isPositive_of_nonneg hfunds ?_
      have hz := mt (Decimal.isZero_atMost c.left hfunds).mpr hshown
      rw [not_or] at hz
      simpa using hz.2

end OfferChange

theorem bind_eq_ok_iff {ε α β : Type} {x : Except ε α} {f : α → Except ε β} {b : β} :
    x >>= f = .ok b ↔ ∃ a, x = .ok a ∧ f a = .ok b := by
  cases x with
  | error e =>
    constructor
    · intro h
      cases h
    · rintro ⟨_, h, _⟩
      cases h
  | ok a =>
    constructor
    · exact fun h => ⟨a, rfl, h⟩
    · rintro ⟨_, ha, h⟩
      cases ha
      exact h

theorem mapError_eq_ok_iff {ε δ α : Type} {x : Except ε α} {g : ε → δ} {a : α} :
    x.mapError g = .ok a ↔ x = .ok a := by
  cases x <;> simp [Except.mapError]

namespace NodeReading

/-- A trade that a reading tells of is one of its offer and its side, and something was taken. -/
structure Trades (r : NodeReading) (t : BookTrade) : Prop where
  offer : t.offer = r.offer
  side : t.makerSide = r.side
  positive : t.amount.isPositive = true

/-- A change that a reading comes to is one of its offer and its side. -/
structure Changes (r : NodeReading) (c : OfferChange) : Prop where
  offer : c.offer = r.offer
  side : c.level.side = r.side
  traded : ∀ t, c.trade = some t → Trades r t

end NodeReading

namespace Market

variable {m : Market} {n : AffectedNode}

/-- What a reading says of a node: the offer that it names, what it leaves of it and on which side,
and how it changes. -/
structure ReadsAs (m : Market) (n : AffectedNode) (r : NodeReading) : Prop where
  names : n.offerId? = some r.offer
  remaining : n.remaining = .ok (some r.remaining)
  sided : m.sideOf? r.remaining.gets.currency r.remaining.pays.currency = some r.side
  change : n.change = .ok r.change

theorem readNode_eq_some_iff {r : NodeReading} :
    m.readNode n = .ok (some r) ↔ m.ReadsAs n r := by
  constructor
  · intro h
    unfold readNode at h
    split at h
    · cases h
    · rename_i offer hoffer
      obtain ⟨remaining?, hremaining, h⟩ := bind_eq_ok_iff.mp h
      split at h
      · cases h
      · rename_i remaining
        split at h
        · cases h
        · rename_i side hside
          obtain ⟨change, hchange, h⟩ := bind_eq_ok_iff.mp h
          cases h
          exact ⟨hoffer, mapError_eq_ok_iff.mp hremaining, hside, hchange⟩
  · intro h
    simp only [readNode, h.names, h.remaining, h.sided, h.change, Except.mapError, bind,
      Except.bind, pure, Except.pure]

theorem takenTrade_of_ok {r : NodeReading} {taken : Legs} {t : BookTrade × Decimal}
    (h : takenTrade r taken = .ok (some t)) : r.Trades t.1 := by
  simp only [takenTrade] at h
  split at h
  · rename_i hbase
    obtain ⟨price, _, h⟩ := bind_eq_ok_iff.mp h
    split at h
    all_goals
      obtain ⟨quality, _, h⟩ := bind_eq_ok_iff.mp h
      cases h
      exact ⟨rfl, rfl, hbase⟩
  · cases h

/-- The updates of a reading with a trade are those of a change of its offer: the trade, and the
level that is left. -/
theorem updates_of_trade {r : NodeReading} {trade : Option (BookTrade × Decimal)}
    (ht : ∀ t, trade = some t → r.Trades t.1) (price quality : Decimal) :
    ∃ c : OfferChange, c.trade = trade.map (·.1) ∧
      c.level = ⟨r.side, ⟨r.offer, price, (r.remaining.baseOn r.side).value.floorAtZero, quality⟩⟩ ∧
      (trade.map fun t => BookUpdate.trade t.1).toList ++ [.level ⟨r.side,
        ⟨r.offer, price, (r.remaining.baseOn r.side).value.floorAtZero, quality⟩⟩] = c.updates := by
  refine ⟨⟨trade.map (·.1), ⟨r.side, ⟨r.offer, price,
    (r.remaining.baseOn r.side).value.floorAtZero, quality⟩⟩, ?_, ?_,
    Decimal.floorAtZero_nonneg _⟩, rfl, rfl, ?_⟩
  · intro t h
    obtain ⟨_, htrade, rfl⟩ := Option.map_eq_some_iff.mp h
    exact (ht _ htrade).offer
  · intro t h
    obtain ⟨_, htrade, rfl⟩ := Option.map_eq_some_iff.mp h
    exact (ht _ htrade).positive
  · rw [OfferChange.updates, Option.map_map]
    rfl

theorem updatesOf_of_ok {r : NodeReading} {taken : Option Legs} {us : List BookUpdate}
    (h : updatesOf r taken = .ok us) : ∃ c, r.Changes c ∧ us = c.updates := by
  have hread : ∀ trade : Option (BookTrade × Decimal), (∀ t, trade = some t → r.Trades t.1) →
      (levelPrice r trade >>= fun p => .ok ((trade.map fun t => BookUpdate.trade t.1).toList ++
        [.level ⟨r.side, ⟨r.offer, p.1, (r.remaining.baseOn r.side).value.floorAtZero, p.2⟩⟩])) =
          .ok us →
      ∃ c, r.Changes c ∧ us = c.updates := by
    intro trade ht h
    obtain ⟨p, _, h⟩ := bind_eq_ok_iff.mp h
    cases h
    obtain ⟨c, htrade, hlevel, hupdates⟩ := updates_of_trade ht p.1 p.2
    refine ⟨c, ⟨congrArg (·.entry.offer) hlevel, congrArg (·.side) hlevel, ?_⟩, hupdates⟩
    intro t h
    rw [htrade] at h
    obtain ⟨priced, hpriced, rfl⟩ := Option.map_eq_some_iff.mp h
    exact ht priced hpriced
  unfold updatesOf at h
  split at h
  · rename_i legs
    obtain ⟨trade, htrade, h⟩ := bind_eq_ok_iff.mp h
    exact hread trade (fun t ht => takenTrade_of_ok (ht ▸ htrade)) h
  · obtain ⟨trade, htrade, h⟩ := bind_eq_ok_iff.mp h
    cases htrade
    exact hread none (by simp) h

/-- The updates of a node: none, or those of a change that its reading comes to. -/
theorem nodeUpdates?_cases {us : List BookUpdate} (h : m.nodeUpdates? n = some us) :
    us = [] ∨ ∃ r c, m.ReadsAs n r ∧ r.Changes c ∧ us = c.updates := by
  have hread : ∀ r taken updates, m.readNode n = .ok (some r) →
      updatesOf r taken = .ok updates → some updates = some us →
      ∃ r c, m.ReadsAs n r ∧ r.Changes c ∧ us = c.updates := by
    intro r taken updates hr hupdates h
    cases h
    obtain ⟨c, hc, rfl⟩ := updatesOf_of_ok hupdates
    exact ⟨r, c, readNode_eq_some_iff.mp hr, hc, rfl⟩
  unfold nodeUpdates? at h
  split at h
  · exact Or.inl (Option.some.inj h).symm
  · exact Or.inl (Option.some.inj h).symm
  · rename_i r hr
    split at h
    · obtain ⟨legs, _, h⟩ := Option.bind_eq_some_iff.mp h
      dsimp only [Option.pure_def, Option.bind_eq_bind, Option.bind_some] at h
      split at h
      · rename_i updates hupdates
        exact Or.inr (hread r _ updates hr hupdates h)
      · exact Or.inl (Option.some.inj h).symm
    · dsimp only [Option.pure_def, Option.bind_eq_bind, Option.bind_some] at h
      split at h
      · rename_i updates hupdates
        exact Or.inr (hread r _ updates hr hupdates h)
      · exact Or.inl (Option.some.inj h).symm

/-- The updates of a transaction are those of changes of offers that its nodes name. -/
theorem diff?_changes {nodes : List AffectedNode} {us : List BookUpdate}
    (h : m.diff? nodes = some us) : ∃ cs : List OfferChange,
      us = cs.flatMap (·.updates) ∧
        (cs.map (·.offer)).Sublist ((nodes.filter (·.isOffer)).filterMap (·.offerId?)) := by
  obtain ⟨parts, hparts, rfl⟩ := Option.map_eq_some_iff.mp h
  clear h
  generalize nodes.filter (·.isOffer) = nodes at hparts
  induction nodes generalizing parts with
  | nil =>
    cases hparts
    exact ⟨[], rfl, List.Sublist.refl _⟩
  | cons n ns ih =>
    rw [List.mapM_cons] at hparts
    obtain ⟨us, hus, hparts⟩ := Option.bind_eq_some_iff.mp hparts
    obtain ⟨rest, hrest, hparts⟩ := Option.bind_eq_some_iff.mp hparts
    cases hparts
    obtain ⟨cs, hcs, hsub⟩ := ih rest hrest
    rcases nodeUpdates?_cases hus with rfl | ⟨r, c, hr, hc, rfl⟩
    · refine ⟨cs, by rw [List.flatten_cons, hcs, List.nil_append], hsub.trans ?_⟩
      rw [List.filterMap_cons]
      split
      · exact List.Sublist.refl _
      · exact List.sublist_cons_self _ _
    · refine ⟨c :: cs, by rw [List.flatten_cons, hcs, List.flatMap_cons], ?_⟩
      rw [List.filterMap_cons, hr.names, ← hc.offer]
      exact hsub.cons_cons _

/-! ## Differences out of range -/

/-- What a node takes of an offer of the market is no decimal. -/
def TakesOutOfRange (m : Market) (n : AffectedNode) : Prop :=
  ∃ r c, m.readNode n = .ok (some r) ∧ r.change = some c ∧ c.taken? = none

theorem nodeUpdates?_eq_none_iff : m.nodeUpdates? n = none ↔ m.TakesOutOfRange n := by
  unfold nodeUpdates? TakesOutOfRange
  rcases hread : m.readNode n with e | _ | r
  · simp
  · simp
  · cases hc : r.change with
    | none => cases hu : updatesOf r none <;> simp [hc, hu]
    | some c =>
      cases ht : c.taken? with
      | none => simp [hc, ht]
      | some taken => cases hu : updatesOf r (some taken) <;> simp [hc, ht, hu]

theorem mapM_nodeUpdates?_eq_none_iff {nodes : List AffectedNode} :
    nodes.mapM m.nodeUpdates? = none ↔ ∃ n ∈ nodes, m.TakesOutOfRange n := by
  induction nodes with
  | nil => simp
  | cons n ns ih =>
    rw [List.mapM_cons, List.exists_mem_cons_iff, ← ih, ← nodeUpdates?_eq_none_iff]
    cases m.nodeUpdates? n with
    | none => simp
    | some us => cases ns.mapM m.nodeUpdates? <;> simp

theorem diff?_eq_none_iff {nodes : List AffectedNode} : m.diff? nodes = none ↔
    ∃ n ∈ nodes.filter (·.isOffer), m.TakesOutOfRange n := by
  rw [diff?, Option.map_eq_none_iff, mapM_nodeUpdates?_eq_none_iff]

end Market

/-! ## Holding the caps -/

namespace LiveBook

variable {funded : FundedSizes} {cs : List OfferChange}

/-- Every cap has something left. -/
def CapsPositive (funded : FundedSizes) : Prop :=
  ∀ x cap, funded.find? x = some cap → cap.isPositive = true

theorem holdCaps?_cons {funded' : FundedSizes} {u u' : BookUpdate}
    (h : holdCap? funded u = some (funded', u')) (us : List BookUpdate) :
    holdCaps? funded (u :: us) = (holdCaps? funded' us).map fun r => (r.1, u' :: r.2) := by
  rw [holdCaps?, h, Option.bind_eq_bind, Option.bind_some]
  dsimp only
  cases holdCaps? funded' us <;> rfl

theorem holdCaps?_append {funded' : FundedSizes} {us us' : List BookUpdate}
    (h : holdCaps? funded us = some (funded', us')) (vs : List BookUpdate) :
    holdCaps? funded (us ++ vs) = (holdCaps? funded' vs).map fun r => (r.1, us' ++ r.2) := by
  induction us generalizing funded us' with
  | nil =>
    cases h
    exact Option.map_id'.symm
  | cons u us ih =>
    rw [holdCaps?] at h
    obtain ⟨⟨mid, u'⟩, hu, h⟩ := Option.bind_eq_some_iff.mp h
    obtain ⟨⟨last, rest⟩, hus, h⟩ := Option.bind_eq_some_iff.mp h
    cases h
    rw [List.cons_append, holdCaps?_cons hu, ih hus, Option.map_map]
    rfl

theorem holdCap?_trade {t : BookTrade} {cap : Decimal} (hcap : funded.find? t.offer = some cap)
    (hfunds : 0 ≤ cap.mantissa) (ht : t.amount.isPositive = true) :
    holdCap? funded (.trade t) = some (funded.put t.offer (cap.spend t.amount), .trade t) := by
  obtain ⟨left, hleft, hspend⟩ :=
    Option.map_eq_some_iff.mp (Decimal.spend_eq hfunds (Decimal.nonneg_of_isPositive ht))
  simp only [holdCap?, hcap, hleft, ← hspend]
  rfl

theorem holdCap?_level {l : LevelUpdate} {left : Decimal}
    (hcap : funded.find? l.entry.offer = some left) :
    holdCap? funded (.level l) = some
      (if (l.entry.amount.atMost left).isZero then funded.erase l.entry.offer else funded,
        .level { l with entry := { l.entry with amount := l.entry.amount.atMost left } }) := by
  simp only [holdCap?, hcap]
  rfl

/-- The level of a change of a capped offer, once its trade is spent. -/
theorem holdCap?_left (c : OfferChange) {cap : Decimal}
    (hcap : funded.find? c.offer = some (c.fundsLeft cap)) :
    ∃ funded', holdCap? funded (.level c.level) = some (funded', .level (c.held (some cap))) ∧
      ∀ x, funded'.find? x = if x = c.offer then c.capAfter (some cap) else funded.find? x := by
  refine ⟨_, holdCap?_level hcap, fun x => ?_⟩
  rw [OfferChange.capAfter]
  by_cases hz : (c.level.entry.amount.atMost (c.fundsLeft cap)).isZero = true
  · rw [if_pos hz, if_pos hz, Table.find?_erase]
    rfl
  · rw [if_neg hz, if_neg hz]
    split
    · rename_i hx
      rw [hx, hcap]
    · rfl

/-- After a change the cap of its offer is what the change leaves of it. The others are as they
were. -/
def Recaps (c : OfferChange) (funded funded' : FundedSizes) : Prop :=
  ∀ x, funded'.find? x =
    if x = c.offer then c.capAfter (funded.find? c.offer) else funded.find? x

namespace Recaps

variable {c : OfferChange} {funded' : FundedSizes}

theorem this (h : Recaps c funded funded') :
    funded'.find? c.offer = c.capAfter (funded.find? c.offer) :=
  (h c.offer).trans (if_pos rfl)

theorem other {x : OfferId} (h : Recaps c funded funded') (hx : x ≠ c.offer) :
    funded'.find? x = funded.find? x :=
  (h x).trans (if_neg hx)

theorem positive (h : Recaps c funded funded') (hcaps : CapsPositive funded) :
    CapsPositive funded' := by
  intro x cap hx
  by_cases hthis : x = c.offer
  · rw [hthis, h.this] at hx
    exact OfferChange.capAfter_positive (fun funds hf => hcaps _ _ hf) hx
  · rw [h.other hthis] at hx
    exact hcaps _ _ hx

end Recaps

/-- A change spends and holds the cap of its own offer, and no other. -/
theorem holdCaps?_change (c : OfferChange) (hcaps : CapsPositive funded) :
    ∃ funded' : FundedSizes, holdCaps? funded c.updates = some (funded',
        c.trade.toList.map .trade ++ [.level (c.held (funded.find? c.offer))]) ∧
      Recaps c funded funded' := by
  unfold Recaps
  cases hcap : funded.find? c.offer with
  | none =>
    have hlevel : holdCap? funded (.level c.level) = some (funded, .level c.level) := by
      have hnone : funded.find? c.level.entry.offer = none := hcap
      simp only [holdCap?, hnone]
    have hsame : ∀ x, funded.find? x = if x = c.offer then c.capAfter none else funded.find? x := by
      intro x
      split
      · rename_i hx
        rw [hx, hcap]
        rfl
      · rfl
    refine ⟨funded, ?_, hsame⟩
    cases htrade : c.trade with
    | none =>
      rw [OfferChange.updates, htrade]
      exact holdCaps?_cons hlevel []
    | some t =>
      have ht : holdCap? funded (.trade t) = some (funded, .trade t) := by
        simp only [holdCap?, c.named t htrade, show funded.find? c.level.entry.offer = none from hcap]
      rw [OfferChange.updates, htrade]
      show holdCaps? funded (.trade t :: [.level c.level]) = _
      rw [holdCaps?_cons ht, holdCaps?_cons hlevel]
      rfl
  | some cap =>
    have hfunds : 0 ≤ cap.mantissa := Decimal.nonneg_of_isPositive (hcaps _ _ hcap)
    cases htrade : c.trade with
    | none =>
      have hleft : funded.find? c.offer = some (c.fundsLeft cap) := by
        rw [hcap, OfferChange.fundsLeft, htrade]
      obtain ⟨funded', hlevel, hfind⟩ := holdCap?_left c hleft
      refine ⟨funded', ?_, hfind⟩
      rw [OfferChange.updates, htrade]
      exact holdCaps?_cons hlevel []
    | some t =>
      have hcapT : funded.find? t.offer = some cap := (c.named t htrade) ▸ hcap
      have hspent := holdCap?_trade hcapT hfunds (c.taken t htrade)
      have hleft : (funded.put t.offer (cap.spend t.amount)).find? c.offer =
          some (c.fundsLeft cap) := by
        rw [c.named t htrade, OfferChange.fundsLeft, htrade]
        exact Table.find?_put_self ..
      obtain ⟨funded', hlevel, hfind⟩ := holdCap?_left c hleft
      refine ⟨funded', ?_, fun x => ?_⟩
      · rw [OfferChange.updates, htrade]
        show holdCaps? funded (.trade t :: [.level c.level]) = _
        rw [holdCaps?_cons hspent, holdCaps?_cons hlevel]
        rfl
      · rw [hfind, c.named t htrade]
        split
        · rfl
        · rename_i hx
          exact Table.find?_put_of_ne _ _ hx

/-- The caps that have something left do so after any changes. -/
theorem holdCaps?_changes (hcaps : CapsPositive funded) (cs : List OfferChange) :
    ∃ funded' us, holdCaps? funded (cs.flatMap (·.updates)) = some (funded', us) ∧
      CapsPositive funded' := by
  induction cs generalizing funded with
  | nil => exact ⟨funded, [], rfl, hcaps⟩
  | cons c cs ih =>
    obtain ⟨mid, hc, hrecaps⟩ := holdCaps?_change c hcaps
    obtain ⟨funded', us, hcs, hpos⟩ := ih (hrecaps.positive hcaps)
    rw [List.flatMap_cons, holdCaps?_append hc, hcs]
    exact ⟨funded', _, rfl, hpos⟩

/-- Changes of different offers: each is held to the cap that its offer had before all of them,
and leaves the cap that it leaves alone. -/
theorem holdCaps?_distinct (hcaps : CapsPositive funded) (hd : (cs.map (·.offer)).Nodup) :
    ∃ funded' us, holdCaps? funded (cs.flatMap (·.updates)) = some (funded', us) ∧
      (∀ b : OrderBook, b.apply us =
        (cs.map fun c => c.held (funded.find? c.offer)).foldl OrderBook.applyLevel b) ∧
      (∀ c ∈ cs, funded'.find? c.offer = c.capAfter (funded.find? c.offer)) ∧
      ∀ x, (∀ c ∈ cs, c.offer ≠ x) → funded'.find? x = funded.find? x := by
  induction cs generalizing funded with
  | nil => exact ⟨funded, [], rfl, fun _ => rfl, by simp, fun _ _ => rfl⟩
  | cons c cs ih =>
    rw [List.map_cons, List.nodup_cons] at hd
    have hne : ∀ d ∈ cs, d.offer ≠ c.offer := by
      intro d hd' heq
      exact hd.1 (List.mem_map.mpr ⟨d, hd', heq⟩)
    obtain ⟨mid, hc, hrecaps⟩ := holdCaps?_change c hcaps
    have hothers : ∀ d ∈ cs, mid.find? d.offer = funded.find? d.offer :=
      fun d hd' => hrecaps.other (hne d hd')
    obtain ⟨funded', us, hcs, happly, hafter, hrest⟩ := ih (hrecaps.positive hcaps) hd.2
    rw [List.flatMap_cons, holdCaps?_append hc, hcs]
    refine ⟨funded', _, rfl, fun b => ?_, fun d hd' => ?_, fun x hx => ?_⟩
    · rw [OrderBook.apply_trades_level, happly, List.map_cons, List.foldl_cons]
      congr 1
      exact List.map_congr_left fun d hd' => by rw [hothers d hd']
    · rcases List.mem_cons.mp hd' with rfl | hd'
      · rw [hrest _ hne, hrecaps.this]
      · rw [hafter d hd', hothers d hd']
    · rw [hrest x fun d hd' => hx d (List.mem_cons_of_mem _ hd'),
        hrecaps.other (hx c List.mem_cons_self).symm]

end LiveBook

end OfferDesk
