-- A snapshot depends on which usable offers it is made of, and on nothing else: not on the order
-- in which they are listed, and not on offers of which nothing can be shown. Each usable offer has
-- just its own entry, and an entry that is cut short has its funded size beside it.
import OfferDesk.Proofs.CappedPrices
import OfferDesk.Proofs.FundingCaps

namespace OfferDesk

namespace Market

variable {m : Market} {offers others : List Offer} {o : Offer} {p : SidedOffer}

/-- An offer of which a snapshot shows something. -/
def Usable (m : Market) (o : Offer) : Prop := ∃ p, m.sided o = .ok (some p)

/-- Two snapshots that nobody can tell apart: the books are the same, and so is the funded size of
every offer. -/
def SameSnapshot (s t : OrderBook × FundedSizes) : Prop :=
  s.1 = t.1 ∧ ∀ x, s.2.find? x = t.2.find? x

theorem SameSnapshot.trans {s t u : OrderBook × FundedSizes} (h : SameSnapshot s t)
    (h' : SameSnapshot t u) : SameSnapshot s u :=
  ⟨h.1.trans h'.1, fun x => (h.2 x).trans (h'.2 x)⟩

/-! ## What a snapshot holds -/

theorem tidy_snapshot (h : (offers.map (·.id)).Nodup) : (m.snapshot offers).1.Tidy := by
  intro side
  cases side with
  | bid => exact LiveBook.tidy_entriesOn h .bid
  | ask => exact LiveBook.tidy_entriesOn h .ask

theorem find?_funded_iff (h : (offers.map (·.id)).Nodup) {x : OfferId} {left : Decimal} :
    (m.snapshot offers).2.find? x = some left ↔
      ∃ p ∈ m.sidedOffers offers, p.capped = true ∧ p.entry.offer = x ∧ p.entry.amount = left := by
  constructor
  · exact LiveBook.of_fundedSizes
  · rintro ⟨p, hp, hcapped, rfl, rfl⟩
    exact LiveBook.find?_fundedSizes (nodup_sidedOffers h) hp hcapped

/-- Of different offers, no two usable ones have the same handle. -/
theorem sided_unique (h : (offers.map (·.id)).Nodup) {p' : SidedOffer}
    (hp : p ∈ m.sidedOffers offers) (hp' : p' ∈ m.sidedOffers offers)
    (hoffer : p'.entry.offer = p.entry.offer) : p' = p :=
  List.inj_on_of_nodup_map (nodup_sidedOffers h) hp' hp hoffer

/-! ## Snapshots of the same offers -/

theorem snapshot_congr (h : (offers.map (·.id)).Nodup) (h' : (others.map (·.id)).Nodup)
    (hsame : ∀ o, m.Usable o → (o ∈ others ↔ o ∈ offers)) :
    SameSnapshot (m.snapshot others) (m.snapshot offers) := by
  have hsided : ∀ p, p ∈ m.sidedOffers others ↔ p ∈ m.sidedOffers offers := by
    intro p
    rw [mem_sidedOffers, mem_sidedOffers]
    exact exists_congr fun o => and_congr_left fun ho => hsame o ⟨p, ho⟩
  constructor
  · have hshown : (m.snapshot others).1.Shows (m.shown offers) :=
      (shows_snapshot h').congr fun _ _ => exists_congr fun p => and_congr_left fun _ => hsided p
    exact hshown.eq (shows_snapshot h) rfl rfl
  · intro x
    refine Option.ext fun left => ?_
    rw [find?_funded_iff h', find?_funded_iff h]
    exact exists_congr fun p => and_congr_left fun _ => hsided p

/-- Which offers come first makes no difference. -/
theorem snapshot_perm (h : (offers.map (·.id)).Nodup) (hperm : others.Perm offers) :
    SameSnapshot (m.snapshot others) (m.snapshot offers) :=
  snapshot_congr h ((hperm.map _).nodup_iff.mpr h) fun _ _ => hperm.mem_iff

/-- Offers of which nothing is shown may as well be left out. -/
theorem snapshot_filter (h : (offers.map (·.id)).Nodup) {keep : Offer → Bool}
    (hkeep : ∀ o ∈ offers, m.Usable o → keep o = true) :
    SameSnapshot (m.snapshot (offers.filter keep)) (m.snapshot offers) := by
  refine snapshot_congr h ((List.filter_sublist.map _).nodup h) fun o husable => ?_
  rw [List.mem_filter]
  exact and_iff_left_of_imp fun ho => hkeep o ho husable

/-! ## The entry of an offer -/

/-- A usable offer has its entry on its side, and none on the other. -/
theorem ofOffer_snapshot (h : (offers.map (·.id)).Nodup) (ho : o ∈ offers)
    (hsided : m.sided o = .ok (some p)) (side : BookSide) :
    (m.snapshot offers).1.ofOffer side o.id = if side = p.side then [p.entry] else [] := by
  have hp : p ∈ m.sidedOffers offers := mem_sidedOffers.mpr ⟨o, ho, hsided⟩
  rw [← (of_sided hsided).1]
  by_cases hside : side = p.side
  · rw [if_pos hside]
    exact (tidy_snapshot h).ofOffer_eq (mem_entries_snapshot.mpr ⟨p, hp, hside.symm, rfl⟩)
  · rw [if_neg hside]
    refine List.filter_eq_nil_iff.mpr fun e he hoffer => hside ?_
    obtain ⟨p', hp', rfl, rfl⟩ := mem_entries_snapshot.mp he
    rw [sided_unique h hp hp' (of_decide_eq_true hoffer)]

theorem find?_funded_of_sided (h : (offers.map (·.id)).Nodup) (ho : o ∈ offers)
    (hsided : m.sided o = .ok (some p)) :
    (m.snapshot offers).2.find? o.id = if p.capped then some p.entry.amount else none := by
  have hp : p ∈ m.sidedOffers offers := mem_sidedOffers.mpr ⟨o, ho, hsided⟩
  rw [← (of_sided hsided).1]
  refine Option.ext fun left => ?_
  rw [find?_funded_iff h]
  constructor
  · rintro ⟨p', hp', hcapped, hoffer, rfl⟩
    obtain rfl := sided_unique h hp hp' hoffer
    rw [if_pos hcapped]
  · intro hleft
    split at hleft
    · rename_i hcapped
      cases hleft
      exact ⟨p, hp, hcapped, rfl, rfl⟩
    · cases hleft

/-- A snapshot of different offers depends only on the usable ones. It is the same for them in any
order, and with any of the others left out. A usable offer has one entry, on the side of its legs
and as it stands there, with its funded size if it is cut short; no other entry is in the book. -/
theorem snapshot_depends_on_usable_offers (m : Market) (offers : List Offer)
    (hids : (offers.map (·.id)).Nodup) :
    (∀ others, others.Perm offers → SameSnapshot (m.snapshot others) (m.snapshot offers)) ∧
    (∀ keep : Offer → Bool, (∀ o ∈ offers, m.Usable o → keep o = true) →
      SameSnapshot (m.snapshot (offers.filter keep)) (m.snapshot offers)) ∧
    (∀ o ∈ offers, ∀ p, m.sided o = .ok (some p) →
      (∃ whole held, m.Stands o whole held p) ∧
      (∀ side, (m.snapshot offers).1.ofOffer side o.id =
        if side = p.side then [p.entry] else []) ∧
      (m.snapshot offers).2.find? o.id = if p.capped then some p.entry.amount else none) ∧
    ∀ side, ∀ e ∈ (m.snapshot offers).1.entries side, ∃ o ∈ offers, ∃ p,
      m.sided o = .ok (some p) ∧ p.side = side ∧ p.entry = e := by
  refine ⟨fun others hperm => snapshot_perm hids hperm, fun keep hkeep => snapshot_filter hids hkeep,
    fun o ho p hsided => ⟨stands_of_sided hsided, ofOffer_snapshot hids ho hsided,
      find?_funded_of_sided hids ho hsided⟩, fun side e he => ?_⟩
  obtain ⟨p, hp, hside, hentry⟩ := mem_entries_snapshot.mp he
  obtain ⟨o, ho, hsided⟩ := mem_sidedOffers.mp hp
  exact ⟨o, ho, p, hsided, hside, hentry⟩

/-! An ask that its owner can fund in part, an offer of another market, one whose amount cannot be
read, and a bid. The bid and the ask alone, in the other order, make the same snapshot. -/

def foreignOffer : Offer := offerOf "rC" 3 (.issued ⟨"USD", "rGate", "5"⟩) (.drops "1000000")

def garbledOffer : Offer := offerOf "rD" 4 (soloWire "five") (.drops "1000000")

def mixedOffers : List Offer := [partFunded, foreignOffer, garbledOffer, newBid.offer]

theorem usable_of_mixedOffers :
    ∀ o ∈ mixedOffers, soloXrp.Usable o → decide (o.account = "rA" ∨ o.account = "rB") = true := by
  have hforeign : soloXrp.sided foreignOffer = .ok none := by decide +kernel
  have hgarbled : (soloXrp.sided garbledOffer).isOk = false := by decide +kernel
  simp only [mixedOffers, List.forall_mem_cons]
  refine ⟨fun _ => rfl, ?_, ?_, fun _ => rfl, fun _ h => nomatch h⟩
  · rintro ⟨p, hp⟩
    rw [hforeign] at hp
    cases hp
  · rintro ⟨p, hp⟩
    rw [hp] at hgarbled
    cases hgarbled

theorem two_of_four_offers_are_usable :
    SameSnapshot (soloXrp.snapshot [newBid.offer, partFunded]) (soloXrp.snapshot mixedOffers) ∧
    (soloXrp.snapshot mixedOffers).1.ofOffer .ask ⟨"rA", 1⟩ =
      [{ wholeAsk.entry with amount := .ofWord 40 }] ∧
    (soloXrp.snapshot mixedOffers).2.find? ⟨"rA", 1⟩ = some (.ofWord 40) := by
  have hask : soloXrp.sided partFunded =
      .ok (some ⟨.ask, { wholeAsk.entry with amount := .ofWord 40 }, true⟩) := by decide +kernel
  obtain ⟨_, hfilter, hentry, _⟩ := snapshot_depends_on_usable_offers soloXrp mixedOffers
    (by decide +kernel)
  obtain ⟨hperm, _⟩ := snapshot_depends_on_usable_offers soloXrp
    [partFunded, newBid.offer] (by decide +kernel)
  have hswap := hperm [newBid.offer, partFunded] (.swap _ _ _)
  have hkept := hfilter _ usable_of_mixedOffers
  obtain ⟨_, hshown, hfunded⟩ := hentry partFunded List.mem_cons_self _ hask
  exact ⟨hswap.trans hkept, hshown .ask, hfunded⟩

end Market

end OfferDesk
