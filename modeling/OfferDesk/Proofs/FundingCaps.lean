-- The caps of a live book hold until the next snapshot. One pass over the updates of a transaction
-- spends the caps, and only then is the book changed. What ties the two together is that a cap
-- belongs to the one entry of its offer, and that this entry shows no more than the cap.
import OfferDesk.Proofs.Redelivery
import OfferDesk.Proofs.TidyBooks

namespace OfferDesk

/-! ## Amounts -/

namespace Decimal

theorem le_of_not_lt {a b : Decimal} (h : ¬ b < a) : a ≤ b := Int.not_lt.mp h

theorem le_refl (a : Decimal) : a ≤ a := Int.le_refl _

theorem atMost_le (a b : Decimal) : a.atMost b ≤ b := by
  unfold atMost
  split
  · exact le_refl b
  · rename_i h
    exact le_of_not_lt h

end Decimal

/-! ## Logs of updates -/

namespace BookUpdate

variable {x : OfferId} {us us' : List BookUpdate} {side : OfferId → BookSide}

/-- What an update says was taken of an offer. -/
def taken? (x : OfferId) : BookUpdate → Option Decimal
  | trade t => if t.offer = x then some t.amount else none
  | level _ => none

/-- What was taken of an offer, trade by trade. -/
def takenOf (x : OfferId) (us : List BookUpdate) : List Decimal := us.filterMap (taken? x)

theorem takenOf_append (x : OfferId) (us us' : List BookUpdate) :
    takenOf x (us ++ us') = takenOf x us ++ takenOf x us' := List.filterMap_append ..

/-- A change of which a trade tells takes as much as the trade says, and only of its own offer. -/
theorem takenOf_change (x : OfferId) (trade : Option BookTrade) (l : LevelUpdate) :
    takenOf x (trade.toList.map .trade ++ [.level l]) =
      (trade.filter (·.offer = x)).toList.map (·.amount) := by
  cases trade with
  | none => rfl
  | some t =>
    by_cases hx : t.offer = x
    · simp [takenOf, taken?, hx, Option.filter]
    · simp [takenOf, taken?, hx, Option.filter]

/-- Every level of an offer is on the side of this offer. -/
def OneSided (side : OfferId → BookSide) (us : List BookUpdate) : Prop :=
  ∀ l, .level l ∈ us → l.side = side l.entry.offer

theorem oneSided_append :
    OneSided side (us ++ us') ↔ OneSided side us ∧ OneSided side us' := by
  simp only [OneSided, List.mem_append, or_imp, forall_and]

end BookUpdate

namespace OrderBook

variable {b b' : OrderBook} {x : OfferId} {us us' : List BookUpdate}

theorem apply_append (b : OrderBook) (us us' : List BookUpdate) :
    b.apply (us ++ us') = (b.apply us).apply us' := List.foldl_append ..

/-- What updates make of the sides depends on the sides alone. -/
theorem entries_apply (h : ∀ s, b.entries s = b'.entries s) (us : List BookUpdate) (s : BookSide) :
    (b.apply us).entries s = (b'.apply us).entries s := by
  unfold apply
  induction us generalizing b b' with
  | nil => exact h s
  | cons u us ih =>
    cases u with
    | trade t => exact ih h
    | level l =>
      apply ih
      intro s
      show (b.applyLevel l).entries s = (b'.applyLevel l).entries s
      rw [applyLevel_entries, applyLevel_entries, h]

theorem entry?_congr (h : ∀ s, b.entries s = b'.entries s) (x : OfferId) :
    b.entry? x = b'.entry? x := by
  have hbids : b.bids = b'.bids := h .bid
  have hasks : b.asks = b'.asks := h .ask
  unfold entry?
  rw [hbids, hasks]

/-- An entry of an offer stands in the book, and shows no more than a bound. -/
def ShowsAtMost (b : OrderBook) (x : OfferId) (bound : Decimal) : Prop :=
  ∃ s e, b.entry? x = some (s, e) ∧ e.amount ≤ bound

/-- On a tidy side an entry is the only one of its offer. -/
theorem Tidy.ofOffer_eq {s : BookSide} {e : BookEntry} (h : b.Tidy) (he : e ∈ b.entries s) :
    b.ofOffer s e.offer = [e] := by
  obtain ⟨before, after, hes⟩ := List.append_of_mem he
  have hothers : ∀ x ∈ before ++ after, ¬ x.offer = e.offer :=
    fun x hx => ne_of_nodup_middle (hes ▸ (h s).distinct) hx
  have hbefore : before.filter (·.offer = e.offer) = [] := by
    simpa [List.filter_eq_nil_iff] using fun x hx => hothers x (List.mem_append_left _ hx)
  have hafter : after.filter (·.offer = e.offer) = [] := by
    simpa [List.filter_eq_nil_iff] using fun x hx => hothers x (List.mem_append_right _ hx)
  unfold ofOffer
  rw [hes, List.filter_append, hbefore, List.filter_cons_of_pos (by simp), hafter]
  rfl

/-- The entry of an offer stands in the book from the start of some updates to the end, at every
moment. -/
def Keeps (b : OrderBook) (x : OfferId) (us : List BookUpdate) : Prop :=
  ∀ before, before <+: us → entry? (b.apply before) x ≠ none

theorem Keeps.append (h : b.Keeps x (us ++ us')) :
    b.Keeps x us ∧ (b.apply us).Keeps x us' := by
  constructor
  · intro before hbefore
    exact h before (hbefore.trans (List.prefix_append us us'))
  · intro before hbefore
    rw [← apply_append]
    exact h (us ++ before) ((List.prefix_append_right_inj us).mpr hbefore)

theorem Keeps.congr (h : b.Keeps x us) (heq : ∀ s, b.entries s = b'.entries s) : b'.Keeps x us := by
  intro before hbefore
  rw [← entry?_congr (entries_apply heq before)]
  exact h before hbefore

end OrderBook

/-! ## The cap and the entry after a change -/

namespace OfferChange

variable {c : OfferChange} {funds : Decimal}

/-- After a change of a capped offer either nothing is shown and the cap is forgotten, or an entry
is shown and the cap is what the trade left of it. -/
theorem shown_and_capAfter (hfunds : 0 ≤ funds.mantissa) :
    (c.held (some funds)).shown = [] ∧ c.capAfter (some funds) = none ∨
      (c.held (some funds)).shown = [(c.held (some funds)).entry] ∧
        c.capAfter (some funds) = some (c.fundsLeft funds) := by
  by_cases hz : (c.level.entry.amount.atMost (c.fundsLeft funds)).isZero = true
  · exact Or.inl ⟨LevelUpdate.shown_of_isZero hz, if_pos hz⟩
  · have hamount := Decimal.atMost_nonneg c.left (fundsLeft_nonneg (c := c) hfunds)
    have hpos := Decimal.isPositive_of_nonneg hamount (Bool.eq_false_iff.mpr hz)
    exact Or.inr ⟨LevelUpdate.shown_of_isPositive hpos, if_neg hz⟩

/-- What the trade of a change leaves is what the updates of the change spend. -/
theorem fundsLeft_eq (c : OfferChange) (funds : Decimal) (l : LevelUpdate) :
    c.fundsLeft funds = (BookUpdate.takenOf c.offer
      (c.trade.toList.map .trade ++ [.level l])).foldl Decimal.spend funds := by
  rw [BookUpdate.takenOf_change]
  unfold fundsLeft
  cases htrade : c.trade with
  | none => rfl
  | some t =>
    have hoffer : t.offer = c.offer := c.named t htrade
    simp [Option.filter, hoffer]

theorem takenOf_of_ne {x : OfferId} (hx : x ≠ c.offer) (l : LevelUpdate) :
    BookUpdate.takenOf x (c.trade.toList.map .trade ++ [.level l]) = [] := by
  rw [BookUpdate.takenOf_change]
  cases htrade : c.trade with
  | none => rfl
  | some t =>
    have hoffer : t.offer = c.offer := c.named t htrade
    simp [Option.filter, hoffer, hx.symm]

end OfferChange

namespace LiveBook

open BookUpdate

variable {side : OfferId → BookSide} {book book' : OrderBook} {funded funded' : FundedSizes}
  {x : OfferId} {e : BookEntry} {us us' : List BookUpdate} {c : OfferChange}

/-! ## Caps and entries -/

/-- What ties the caps to the book. Every entry stands on the side of its offer. A cap has
something left, and belongs to the one entry of its offer, which shows no more. -/
structure Capped (side : OfferId → BookSide) (book : OrderBook) (funded : FundedSizes) : Prop where
  own : ∀ s, ∀ e ∈ book.entries s, s = side e.offer
  caps : CapsPositive funded
  held : ∀ x left, funded.find? x = some left →
    ∃ e, book.ofOffer (side x) x = [e] ∧ e.amount ≤ left

namespace Capped

/-- The one entry of an offer is the one that is found. -/
theorem entry?_eq (h : Capped side book funded) (he : book.ofOffer (side x) x = [e]) :
    book.entry? x = some (side x, e) := by
  have hfind : (book.entries (side x)).find? (·.offer = x) = some e := by
    rw [← List.head?_filter, show (book.entries (side x)).filter (·.offer = x) = [e] from he]
    rfl
  unfold OrderBook.entry?
  cases hs : side x with
  | bid =>
    rw [hs] at hfind
    rw [show book.bids.find? (·.offer = x) = some e from hfind]
  | ask =>
    rw [hs] at hfind
    -- the bids are looked through first, but this offer is none of them
    have hnone : book.bids.find? (·.offer = x) = none := by
      apply List.find?_eq_none.mpr
      intro d hd hx
      have hown := h.own .bid d hd
      rw [of_decide_eq_true hx, hs] at hown
      cases hown
    rw [hnone, show book.asks.find? (·.offer = x) = some e from hfind]
    rfl

/-- Where an entry of an offer is found, there is one on its side. -/
theorem ofOffer_ne_nil (h : Capped side book funded) (hx : book.entry? x ≠ none) :
    book.ofOffer (side x) x ≠ [] := by
  obtain ⟨⟨s, e⟩, he⟩ := Option.ne_none_iff_exists'.mp hx
  have hmem : e ∈ book.entries s ∧ e.offer = x := by
    unfold OrderBook.entry? at he
    split at he
    · rename_i hfind
      cases he
      exact ⟨List.mem_of_find?_eq_some hfind, by simpa using List.find?_some hfind⟩
    · obtain ⟨d, hfind, hd⟩ := Option.map_eq_some_iff.mp he
      cases hd
      exact ⟨List.mem_of_find?_eq_some hfind, by simpa using List.find?_some hfind⟩
  obtain ⟨hmem, rfl⟩ := hmem
  rw [← h.own s e hmem]
  exact List.ne_nil_of_mem (OrderBook.mem_ofOffer.mpr hmem)

theorem congr (h : Capped side book funded) (heq : ∀ s, book.entries s = book'.entries s) :
    Capped side book' funded where
  own s e he := h.own s e (heq s ▸ he)
  caps := h.caps
  held x left hx := by
    unfold OrderBook.ofOffer
    rw [← heq]
    exact h.held x left hx

/-- One change of an offer on its side keeps the caps and the entries together. -/
theorem change (h : Capped side book funded) (hside : c.level.side = side c.offer)
    (hrecaps : Recaps c funded funded') :
    Capped side (book.applyLevel (c.held (funded.find? c.offer))) funded' where
  own s e he := by
    have hof := OrderBook.mem_ofOffer.mpr he
    rw [OrderBook.ofOffer_applyLevel] at hof
    split at hof
    · rename_i hthis
      rw [OfferChange.held_side, OfferChange.held_offer] at hthis
      rw [hthis.1, hside, hthis.2]
    · exact h.own s e (OrderBook.mem_ofOffer.mp hof)
  caps := hrecaps.positive h.caps
  held x left hx := by
    rw [OrderBook.ofOffer_applyLevel, OfferChange.held_side, OfferChange.held_offer]
    by_cases hthis : x = c.offer
    · -- a cap that is left is what the trade left of it, and the level is held to just this
      subst hthis
      rw [hrecaps.this] at hx
      rw [if_pos ⟨hside.symm, rfl⟩]
      cases hcap : funded.find? c.offer with
      | none =>
        rw [hcap] at hx
        cases hx
      | some funds =>
        rw [hcap] at hx
        have hfunds := Decimal.nonneg_of_isPositive (h.caps _ _ hcap)
        rcases c.shown_and_capAfter hfunds with ⟨_, hnone⟩ | ⟨hshown, hleft⟩
        · rw [hnone] at hx
          cases hx
        · rw [hleft] at hx
          cases hx
          exact ⟨_, hshown, Decimal.atMost_le _ _⟩
    · rw [hrecaps.other hthis] at hx
      rw [if_neg fun hc => hthis hc.2.symm]
      exact h.held x left hx

/-- Where an entry still stands after a change of its capped offer, the cap is what the trade left
of it. -/
theorem capAfter_of_stands (h : Capped side book funded) (hside : c.level.side = side c.offer)
    (hrecaps : Recaps c funded funded') {cap : Decimal} (hcap : funded.find? c.offer = some cap)
    (hstands : OrderBook.entry? (book.applyLevel (c.held (funded.find? c.offer))) c.offer ≠ none) :
    c.capAfter (some cap) = some (c.fundsLeft cap) := by
  have hentry := (h.change hside hrecaps).ofOffer_ne_nil hstands
  rw [OrderBook.ofOffer_applyLevel, OfferChange.held_side, OfferChange.held_offer,
    if_pos ⟨hside.symm, rfl⟩, hcap] at hentry
  have hfunds := Decimal.nonneg_of_isPositive (h.caps _ _ hcap)
  rcases c.shown_and_capAfter hfunds with ⟨hshown, _⟩ | ⟨_, hleft⟩
  · exact absurd hshown hentry
  · exact hleft

end Capped

/-! ## What updates make of the caps -/

/-- Updates that were held to the caps. They keep caps and entries together, and a cap whose entry
stays has been spent by their trades. -/
structure Spends (side : OfferId → BookSide) (book : OrderBook) (funded : FundedSizes)
    (us : List BookUpdate) (book' : OrderBook) (funded' : FundedSizes) : Prop where
  entries : ∀ s, book'.entries s = (book.apply us).entries s
  capped : Capped side book' funded'
  spent : ∀ x cap, funded.find? x = some cap → book.Keeps x us →
    funded'.find? x = some ((takenOf x us).foldl Decimal.spend cap)

namespace Spends

variable {book₁ : OrderBook} {funded₁ : FundedSizes}

theorem refl (h : Capped side book funded) : Spends side book funded [] book funded :=
  ⟨fun _ => rfl, h, fun _ _ hx _ => hx⟩

theorem trans (h : Spends side book funded us book₁ funded₁)
    (h' : Spends side book₁ funded₁ us' book' funded') :
    Spends side book funded (us ++ us') book' funded' where
  entries s := by rw [h'.entries, OrderBook.apply_append, OrderBook.entries_apply h.entries]
  capped := h'.capped
  spent x cap hx hkeeps := by
    obtain ⟨hfirst, hthen⟩ := hkeeps.append
    rw [h'.spent x _ (h.spent x cap hx hfirst) (hthen.congr fun s => (h.entries s).symm),
      takenOf_append, List.foldl_append]

/-- The updates of one change, once they are held to the caps. -/
theorem change (h : Capped side book funded) (hside : c.level.side = side c.offer)
    (hrecaps : Recaps c funded funded') :
    Spends side book funded
      (c.trade.toList.map .trade ++ [.level (c.held (funded.find? c.offer))])
      (book.applyLevel (c.held (funded.find? c.offer))) funded' := by
  have happly := book.apply_trades_level c.trade.toList (c.held (funded.find? c.offer)) []
  rw [List.append_nil] at happly
  refine ⟨fun s => by rw [happly]; rfl, h.change hside hrecaps, ?_⟩
  intro x cap hx hkeeps
  by_cases hthis : x = c.offer
  · -- the entry still stands, so the cap was not forgotten
    subst hthis
    have hstands := hkeeps _ List.prefix_rfl
    rw [happly] at hstands
    rw [hrecaps.this, hx, h.capAfter_of_stands hside hrecaps hx hstands, c.fundsLeft_eq]
  · rw [hrecaps.other hthis, OfferChange.takenOf_of_ne hthis, hx]
    rfl

/-- The updates of changes, one after another. -/
theorem changes (h : Capped side book funded) (cs : List OfferChange)
    (hhold : holdCaps? funded (cs.flatMap (·.updates)) = some (funded', us))
    (hsides : OneSided side us) : ∃ book', Spends side book funded us book' funded' := by
  induction cs generalizing book funded us with
  | nil =>
    cases hhold
    exact ⟨book, refl h⟩
  | cons c cs ih =>
    obtain ⟨mid, hc, hrecaps⟩ := holdCaps?_change c h.caps
    rw [List.flatMap_cons, holdCaps?_append hc] at hhold
    obtain ⟨⟨last, rest⟩, hrest, hhold⟩ := Option.map_eq_some_iff.mp hhold
    cases hhold
    obtain ⟨hfirst, hsides⟩ := oneSided_append.mp hsides
    have hside : c.level.side = side c.offer := by
      simpa using hfirst _ (List.mem_append_right _ List.mem_cons_self)
    have hchange := change h hside hrecaps
    obtain ⟨book', hspends⟩ := ih hchange.capped hrest hsides
    exact ⟨book', hchange.trans hspends⟩

end Spends

/-! ## Runs -/

variable {b b' : LiveBook} {o : Outcome} {os : List Outcome} {snapshot : OfferSnapshot}
  {now : Nat}

/-- Patches the book with transactions, one after another, and gives the updates of them all. -/
def patchLog? (b : LiveBook) : List Outcome → Option (LiveBook × List BookUpdate)
  | [] => some (b, [])
  | o :: os => do
    let (b, us) ← b.applyOutcome? o
    let (b, rest) ← patchLog? b os
    return (b, us ++ rest)

theorem patchLog?_cons (b : LiveBook) (o : Outcome) (os : List Outcome) :
    b.patchLog? (o :: os) = (b.applyOutcome? o).bind fun r =>
      (r.1.patchLog? os).map fun r' => (r'.1, r.2 ++ r'.2) := by
  rw [patchLog?]
  cases b.applyOutcome? o with
  | none => rfl
  | some r =>
    obtain ⟨b, us⟩ := r
    dsimp only [Option.bind_eq_bind, Option.bind_some]
    cases b.patchLog? os <;> rfl

/-- The book of a run is the same, whether its updates are looked at or not. -/
theorem patchLog?_book (b : LiveBook) (os : List Outcome) :
    (b.patchLog? os).map (·.1) = b.patchAll? os := by
  induction os generalizing b with
  | nil => rfl
  | cons o os ih =>
    rw [patchLog?_cons, patchAll?_cons]
    cases b.applyOutcome? o with
    | none => rfl
    | some r =>
      rw [Option.bind_some, Option.bind_some, ← ih, Option.map_map]
      rfl

theorem Spends.outcome (h : Capped side b.book b.funded)
    (happly : b.applyOutcome? o = some (b', us)) (hsides : OneSided side us) :
    Spends side b.book b.funded us b'.book b'.funded := by
  rcases applyOutcome?_cases happly with ⟨_, rfl, rfl⟩ | ⟨_, raw, funded, hdiff, hhold, rfl⟩
  · exact .refl h
  · obtain ⟨cs, rfl, _⟩ := Market.diff?_changes hdiff
    obtain ⟨book, hspends⟩ := Spends.changes h cs hhold hsides
    rw [patched_funded]
    refine ⟨fun s => patched_entries funded s, ?_, hspends.spent⟩
    exact hspends.capped.congr fun s => (hspends.entries s).trans (patched_entries funded s).symm

theorem Spends.run (h : Capped side b.book b.funded) (hrun : b.patchLog? os = some (b', us))
    (hsides : OneSided side us) : Spends side b.book b.funded us b'.book b'.funded := by
  induction os generalizing b us with
  | nil =>
    cases hrun
    exact .refl h
  | cons o os ih =>
    rw [patchLog?_cons] at hrun
    obtain ⟨⟨mid, first⟩, hfirst, hrun⟩ := Option.bind_eq_some_iff.mp hrun
    obtain ⟨⟨last, rest⟩, hrest, hrun⟩ := Option.map_eq_some_iff.mp hrun
    cases hrun
    obtain ⟨hside, hsides⟩ := oneSided_append.mp hsides
    have hspends := Spends.outcome h hfirst hside
    exact hspends.trans (ih hspends.capped hrest hsides)

/-! ## Snapshots -/

theorem mem_entries_reset {s : BookSide} : e ∈ (b.reset snapshot now).book.entries s ↔
    ∃ p ∈ b.market.sidedOffers snapshot.offers, p.side = s ∧ p.entry = e := by
  have hbook : (b.reset snapshot now).book.entries s =
      (b.market.snapshot snapshot.offers).1.entries s := by cases s <;> rfl
  rw [hbook]
  exact Market.mem_entries_snapshot

/-- A snapshot of different offers caps each of them at what it shows. -/
theorem capped_reset (b : LiveBook) (now : Nat)
    (hdistinct : (snapshot.offers.map (·.id)).Nodup)
    (hsides : ∀ p ∈ b.market.sidedOffers snapshot.offers, p.side = side p.entry.offer) :
    Capped side (b.reset snapshot now).book (b.reset snapshot now).funded where
  own s e he := by
    obtain ⟨p, hp, rfl, rfl⟩ := mem_entries_reset.mp he
    exact hsides p hp
  caps := capsPositive_fundedSizes b.market snapshot.offers
  held x left hx := by
    obtain ⟨p, hp, _, rfl, rfl⟩ := of_fundedSizes hx
    have hmem : p.entry ∈ (b.reset snapshot now).book.entries (side p.entry.offer) :=
      mem_entries_reset.mpr ⟨p, hp, hsides p hp, rfl⟩
    exact ⟨p.entry, (tidy_reset b now hdistinct).ofOffer_eq hmem, Decimal.le_refl _⟩

theorem find?_fundedSizes {ps : List SidedOffer} {p : SidedOffer}
    (h : (ps.map (·.entry.offer)).Nodup) (hp : p ∈ ps) (hcapped : p.capped = true) :
    (Market.fundedSizes ps).find? p.entry.offer = some p.entry.amount := by
  unfold Market.fundedSizes
  apply Table.find?_ofList
  · rw [List.map_map]
    exact (List.filter_sublist.map _).nodup h
  · exact List.mem_map_of_mem (List.mem_filter.mpr ⟨hp, hcapped⟩)

/-- The caps of a snapshot of different offers, after any transactions that keep each offer on its
side. An offer that the snapshot cut short, and that has stood in the book since, shows no more
than its funded size less all that was taken of it, trade by trade and never less than nothing. And
every cap that is left belongs to an entry that shows no more than the cap. -/
theorem caps_hold_until_the_next_snapshot (hdistinct : (snapshot.offers.map (·.id)).Nodup)
    (hrun : (b.reset snapshot now).patchLog? os = some (b', us))
    (hshown : ∀ p ∈ b.market.sidedOffers snapshot.offers, p.side = side p.entry.offer)
    (hsides : OneSided side us) :
    (∀ p ∈ b.market.sidedOffers snapshot.offers, p.capped = true →
      (b.reset snapshot now).book.Keeps p.entry.offer us →
      b'.book.ShowsAtMost p.entry.offer
        ((takenOf p.entry.offer us).foldl Decimal.spend p.entry.amount)) ∧
    ∀ x left, b'.funded.find? x = some left → b'.book.ShowsAtMost x left := by
  have hspends := Spends.run (capped_reset b now hdistinct hshown) hrun hsides
  have hheld : ∀ x left, b'.funded.find? x = some left → b'.book.ShowsAtMost x left := by
    intro x left hx
    obtain ⟨e, he, hle⟩ := hspends.capped.held x left hx
    exact ⟨side x, e, hspends.capped.entry?_eq he, hle⟩
  refine ⟨?_, hheld⟩
  intro p hp hcapped hkeeps
  have hcap : (b.reset snapshot now).funded.find? p.entry.offer = some p.entry.amount :=
    find?_fundedSizes (Market.nodup_sidedOffers hdistinct) hp hcapped
  exact hheld _ _ (hspends.spent _ _ hcap hkeeps)

/-! The owner of the ask holds ninety of the hundred. A take of forty leaves fifty of them. -/

def askCap : SidedOffer := ⟨.ask, { wholeAsk.entry with amount := .ofWord 90 }, true⟩

def takeOfCap : List BookUpdate :=
  [.trade ⟨⟨"rA", 1⟩, .ask, wholeAsk.price, .ofWord 40⟩,
    .level ⟨.ask, { wholeAsk.entry with amount := .ofWord 50 }⟩]

def onAsks (_ : OfferId) : BookSide := .ask

theorem fifty_left_after_a_take : ∃ b, cappedBook.patchLog? [takeOfAsk] = some (b, takeOfCap) ∧
    b.book.ShowsAtMost ⟨"rA", 1⟩ (.ofWord 50) := by
  have hlog : (cappedBook.patchLog? [takeOfAsk]).map (·.2) = some takeOfCap := by decide +kernel
  obtain ⟨⟨b, us⟩, hrun, rfl⟩ := Option.map_eq_some_iff.mp hlog
  have hshown : soloXrp.sidedOffers cappedSnapshot.offers = [askCap] := by decide +kernel
  have hsides : ∀ p ∈ soloXrp.sidedOffers cappedSnapshot.offers,
      p.side = onAsks p.entry.offer := by
    rw [hshown]
    decide
  have hmem : askCap ∈ soloXrp.sidedOffers cappedSnapshot.offers := by
    rw [hshown]
    exact List.mem_singleton_self _
  have honAsks : OneSided onAsks takeOfCap := by simp [OneSided, takeOfCap, onAsks]
  have hkeeps : cappedBook.book.Keeps ⟨"rA", 1⟩ takeOfCap := by
    intro before hbefore
    rcases List.prefix_cons_iff.mp hbefore with rfl | ⟨rest, rfl, hrest⟩
    · decide +kernel
    rcases List.prefix_cons_iff.mp hrest with rfl | ⟨last, rfl, hlast⟩
    · decide +kernel
    · rw [List.prefix_nil.mp hlast]
      decide +kernel
  refine ⟨b, hrun, ?_⟩
  have hcaps := caps_hold_until_the_next_snapshot (b := new soloXrp 60) (by decide) hrun hsides
    honAsks
  exact hcaps.1 askCap hmem rfl hkeeps

end LiveBook

end OfferDesk
