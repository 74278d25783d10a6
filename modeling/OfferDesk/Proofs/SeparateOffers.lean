-- Transactions that name different offers do not get into each other's way. An update reads and
-- changes the cap of its own offer alone, and updates of different offers come onto a book in any
-- order. So it makes no difference which of two such transactions patches a live book first.
import OfferDesk.Proofs.LedgerCurrencies
import OfferDesk.Proofs.StaleLevels

namespace OfferDesk

/-- The offers that updates are about. -/
def BookUpdate.offers (us : List BookUpdate) : List OfferId := us.map (·.offer)

/-- The offers that the nodes of a transaction name. -/
def Outcome.namedOffers (o : Outcome) : List OfferId := o.offerNodes.filterMap (·.offerId?)

/-! ## Updates of a book -/

namespace OrderBook

variable {b : OrderBook} {u v : BookUpdate} {us vs : List BookUpdate}

theorem ordered_applyUpdate (h : b.Ordered) (u : BookUpdate) : (b.applyUpdate u).Ordered := by
  cases u with
  | trade t => exact h
  | level l => exact ordered_applyLevel h

theorem applyUpdate_comm (h : b.Ordered) (hne : u.offer ≠ v.offer) :
    (b.applyUpdate u).applyUpdate v = (b.applyUpdate v).applyUpdate u := by
  cases u with
  | trade t => rfl
  | level l =>
    cases v with
    | trade t => rfl
    | level l' => exact applyLevel_comm h hne

theorem apply_applyUpdate (h : b.Ordered) (hne : ∀ u ∈ us, u.offer ≠ v.offer) :
    (b.apply us).applyUpdate v = (b.applyUpdate v).apply us := by
  unfold apply
  induction us generalizing b with
  | nil => rfl
  | cons u us ih =>
    rw [List.foldl_cons, List.foldl_cons,
      ih (ordered_applyUpdate h u) fun w hw => hne w (List.mem_cons_of_mem _ hw),
      applyUpdate_comm h (hne u List.mem_cons_self)]

/-- Updates of different offers can come in any order. -/
theorem apply_comm (h : b.Ordered) (hne : ∀ v ∈ vs, ∀ u ∈ us, u.offer ≠ v.offer) :
    (b.apply us).apply vs = (b.apply vs).apply us := by
  induction vs generalizing b with
  | nil => rfl
  | cons v vs ih =>
    show ((b.apply us).applyUpdate v).apply vs = ((b.applyUpdate v).apply vs).apply us
    rw [apply_applyUpdate h (hne v List.mem_cons_self),
      ih (ordered_applyUpdate h v) fun w hw => hne w (List.mem_cons_of_mem _ hw)]

end OrderBook

namespace LiveBook

open BookUpdate (offers)

/-! ## One cap for each offer -/

section Caps

variable {funded funded' other held spent : FundedSizes} {u u' : BookUpdate}
  {us us' vs vs' : List BookUpdate} {P : OfferId → Prop}

/-- Some offers have the same caps in two tables. -/
def SameCaps (P : OfferId → Prop) (funded other : FundedSizes) : Prop :=
  ∀ x, P x → funded.find? x = other.find? x

/-- An update of an offer without a cap stands as it is. -/
theorem holdCap?_uncapped (hnone : funded.find? u.offer = none) :
    holdCap? funded u = some (funded, u) := by
  cases u with
  | trade t =>
    have ht : funded.find? t.offer = none := hnone
    simp only [holdCap?, ht]
  | level l =>
    have hl : funded.find? l.entry.offer = none := hnone
    simp only [holdCap?, hl]

/-- A trade spends the cap of its offer, if the difference is a decimal. -/
theorem holdCap?_spends {t : BookTrade} {cap : Decimal} (hcap : funded.find? t.offer = some cap) :
    holdCap? funded (.trade t) =
      (cap.sub? t.amount).map fun left => (funded.put t.offer left.floorAtZero, .trade t) := by
  simp only [holdCap?, hcap]
  cases cap.sub? t.amount <;> rfl

/-- Held to its cap an update is one of the same offer, and no other cap changes. -/
theorem holdCap?_frame (h : holdCap? funded u = some (funded', u')) :
    u'.offer = u.offer ∧ SameCaps (· ≠ u.offer) funded' funded := by
  cases hcap : funded.find? u.offer with
  | none =>
    rw [holdCap?_uncapped hcap] at h
    cases h
    exact ⟨rfl, fun _ _ => rfl⟩
  | some cap =>
    cases u with
    | trade t =>
      rw [holdCap?_spends hcap] at h
      obtain ⟨left, _, h⟩ := Option.map_eq_some_iff.mp h
      cases h
      exact ⟨rfl, fun x hx => Table.find?_put_of_ne _ _ hx⟩
    | level l =>
      rw [holdCap?_level hcap] at h
      cases h
      refine ⟨rfl, fun x hx => ?_⟩
      split
      · exact (Table.find?_erase ..).trans (if_neg hx)
      · rfl

/-- What becomes of an update and of its cap depends on this cap alone. -/
theorem holdCap?_congr (hsame : funded.find? u.offer = other.find? u.offer)
    (h : holdCap? funded u = some (funded', u')) :
    ∃ other', holdCap? other u = some (other', u') ∧
      funded'.find? u.offer = other'.find? u.offer := by
  cases hcap : funded.find? u.offer with
  | none =>
    rw [holdCap?_uncapped hcap] at h
    cases h
    exact ⟨other, holdCap?_uncapped (hsame ▸ hcap), hsame⟩
  | some cap =>
    have hcap' : other.find? u.offer = some cap := hsame ▸ hcap
    cases u with
    | trade t =>
      rw [holdCap?_spends hcap] at h
      obtain ⟨left, hleft, h⟩ := Option.map_eq_some_iff.mp h
      cases h
      refine ⟨_, by rw [holdCap?_spends hcap', hleft]; rfl, ?_⟩
      exact (Table.find?_put_self ..).trans (Table.find?_put_self ..).symm
    | level l =>
      rw [holdCap?_level hcap] at h
      cases h
      refine ⟨_, holdCap?_level hcap', ?_⟩
      show Table.find? _ l.entry.offer = Table.find? _ l.entry.offer
      split
      · rw [Table.find?_erase, Table.find?_erase, if_pos rfl, if_pos rfl]
      · exact hsame

/-- Updates that are held to the caps are of the same offers, and the caps of all others stay. -/
theorem holdCaps?_frame (h : holdCaps? funded us = some (funded', us')) :
    offers us' = offers us ∧ SameCaps (· ∉ offers us) funded' funded := by
  induction us generalizing funded us' with
  | nil =>
    cases h
    exact ⟨rfl, fun _ _ => rfl⟩
  | cons u us ih =>
    obtain ⟨⟨mid, w⟩, hu, h⟩ := Option.bind_eq_some_iff.mp h
    obtain ⟨⟨last, ws⟩, hus, h⟩ := Option.bind_eq_some_iff.mp h
    cases h
    obtain ⟨hoffer, hothers⟩ := holdCap?_frame hu
    obtain ⟨hoffers, hrest⟩ := ih hus
    refine ⟨congrArg₂ List.cons hoffer hoffers, fun x hx => ?_⟩
    obtain ⟨hthis, hlater⟩ := not_or.mp (mt List.mem_cons.mpr hx)
    exact (hrest x hlater).trans (hothers x hthis)

/-- What becomes of updates and of their caps depends on these caps alone. -/
theorem holdCaps?_congr (hus : ∀ u ∈ us, P u.offer) (hcaps : SameCaps P funded other)
    (h : holdCaps? funded us = some (funded', us')) :
    ∃ other', holdCaps? other us = some (other', us') ∧ SameCaps P funded' other' := by
  induction us generalizing funded other us' with
  | nil =>
    cases h
    exact ⟨other, rfl, hcaps⟩
  | cons u us ih =>
    obtain ⟨⟨mid, w⟩, hu, h⟩ := Option.bind_eq_some_iff.mp h
    obtain ⟨⟨last, ws⟩, hrest, h⟩ := Option.bind_eq_some_iff.mp h
    cases h
    obtain ⟨mid', hu', hthis⟩ := holdCap?_congr (hcaps _ (hus u List.mem_cons_self)) hu
    have hmid : SameCaps P mid mid' := by
      intro x hx
      by_cases hux : x = u.offer
      · rw [hux, hthis]
      · rw [(holdCap?_frame hu).2 x hux, (holdCap?_frame hu').2 x hux, hcaps x hx]
    obtain ⟨other', hrest', hcaps'⟩ :=
      ih (fun v hv => hus v (List.mem_cons_of_mem _ hv)) hmid hrest
    exact ⟨other', by rw [holdCaps?_cons hu', hrest']; rfl, hcaps'⟩

/-- After updates of other offers some updates become what they were to become before. -/
theorem holdCaps?_after (hapart : ∀ x ∈ offers us, x ∉ offers vs)
    (hu : holdCaps? funded us = some (spent, us')) (hv : holdCaps? funded vs = some (held, vs')) :
    ∃ both, holdCaps? spent vs = some (both, vs') ∧ SameCaps (· ∈ offers vs) both held ∧
      SameCaps (· ∉ offers vs) both spent := by
  have hbefore : SameCaps (· ∈ offers vs) funded spent :=
    fun x hx => ((holdCaps?_frame hu).2 x fun hmem => hapart x hmem hx).symm
  obtain ⟨both, hboth, hsame⟩ :=
    holdCaps?_congr (fun v hv => List.mem_map.mpr ⟨v, hv, rfl⟩) hbefore hv
  exact ⟨both, hboth, fun x hx => (hsame x hx).symm, (holdCaps?_frame hboth).2⟩

end Caps

/-! ## Two transactions -/

variable {b b₀ c d : LiveBook} {o p : Outcome} {us vs : List BookUpdate}

/-- Two live books that show the same offers, each held to the same cap. -/
structure Alike (b c : LiveBook) : Prop where
  bids : b.book.bids = c.book.bids
  asks : b.book.asks = c.book.asks
  funded : ∀ x, b.funded.find? x = c.funded.find? x

theorem offers_subset_of_diff? {m : Market} (h : m.diff? o.nodes = some us) :
    offers us ⊆ o.namedOffers := by
  intro x hx
  obtain ⟨u, hu, rfl⟩ := List.mem_map.mp hx
  obtain ⟨n, hn, hoffer, r, hr, hthis, _⟩ := Market.readsAs_of_mem_diff? h hu
  refine List.mem_filterMap.mpr ⟨n, List.mem_filter.mpr ⟨hn, hoffer⟩, ?_⟩
  rw [hr.names, hthis]

/-- One transaction after another comes to nothing just if a difference of legs in either is no
decimal. -/
theorem patchAll?_pair_eq_none_iff (hb : b.Sound) (ho : b.skips o = false)
    (hp : b.skips p = false) : b.patchAll? [o, p] = none ↔
      ∃ n ∈ o.offerNodes ++ p.offerNodes, b.market.TakesOutOfRange n := by
  simp only [List.mem_append, or_and_right, exists_or]
  rw [patchAll?_cons]
  cases hfirst : b.applyOutcome? o with
  | none =>
    have hrange := (applyOutcome?_eq_none_iff hb).mp hfirst
    exact iff_of_true rfl (Or.inl hrange.2)
  | some r =>
    obtain ⟨c, us⟩ := r
    obtain ⟨hmarket, hledger⟩ := applyOutcome?_frame hfirst
    have hrange : ¬ ∃ n ∈ o.offerNodes, b.market.TakesOutOfRange n := by
      intro hn
      rw [(applyOutcome?_eq_none_iff hb).mpr ⟨ho, hn⟩] at hfirst
      cases hfirst
    rw [Option.bind_some, patchAll?_singleton, Option.map_eq_none_iff,
      applyOutcome?_eq_none_iff (hb.applyOutcome? hfirst), skips_congr hledger, hp, hmarket]
    simp [hrange]

/-- The second of two transactions on different offers patches the book as if it came first. -/
theorem applyOutcome?_after (ho : b.skips o = false) (hp : b.skips p = false)
    (hapart : ∀ x ∈ o.namedOffers, x ∉ p.namedOffers) (hfirst : b.applyOutcome? o = some (c, us))
    (halone : b.applyOutcome? p = some (d, vs)) :
    (∀ x ∈ offers us, x ∉ offers vs) ∧ (∀ x, x ∉ offers us → c.funded.find? x = b.funded.find? x) ∧
    ∃ both, c.applyOutcome? p = some (both, vs) ∧
      (∀ side, both.book.entries side = ((b.book.apply us).apply vs).entries side) ∧
      SameCaps (· ∈ offers vs) both.funded d.funded ∧
      SameCaps (· ∉ offers vs) both.funded c.funded := by
  obtain ⟨_, hledger⟩ := applyOutcome?_frame hfirst
  have hpc : c.skips p = false := (skips_congr hledger p).trans hp
  rw [applyOutcome?_of_not_skips ho] at hfirst
  rw [applyOutcome?_of_not_skips hp] at halone
  obtain ⟨raw, hraw, hfirst⟩ := Option.bind_eq_some_iff.mp hfirst
  obtain ⟨raw', hraw', halone⟩ := Option.bind_eq_some_iff.mp halone
  obtain ⟨⟨spent, us'⟩, hspent, hfirst⟩ := Option.map_eq_some_iff.mp hfirst
  obtain ⟨⟨held, vs'⟩, hheld, halone⟩ := Option.map_eq_some_iff.mp halone
  cases hfirst
  cases halone
  have hrawApart : ∀ x ∈ offers raw, x ∉ offers raw' :=
    fun x hx hx' => hapart x (offers_subset_of_diff? hraw hx) (offers_subset_of_diff? hraw' hx')
  obtain ⟨both, hboth, hthis, hothers⟩ := holdCaps?_after hrawApart hspent hheld
  obtain ⟨hus, hcaps⟩ := holdCaps?_frame hspent
  obtain ⟨hvs, _⟩ := holdCaps?_frame hheld
  rw [hus, hvs]
  simp only [patched_funded]
  refine ⟨hrawApart, hcaps, (b.patched o spent us').patched p both vs', ?_, fun side => ?_,
    by rwa [patched_funded], by rwa [patched_funded]⟩
  · rw [applyOutcome?_of_not_skips hpc, patch?, patched_market, hraw', Option.bind_some,
      patched_funded, hboth]
    rfl
  · rw [patched_entries]
    exact OrderBook.entries_apply (patched_entries spent) vs' side

/-- Two new transactions that name different offers patch a live book in either order with the same
result: the same bids and asks, and the same cap for each offer. Neither order has a result just if a
difference of legs in one of them is no decimal. -/
theorem patches_of_different_offers_commute {snapshot : OfferSnapshot} {now : Nat}
    {os : List Outcome} (hrun : (b₀.reset snapshot now).patchAll? os = some b)
    (ho : b.skips o = false) (hp : b.skips p = false)
    (hapart : ∀ x ∈ o.namedOffers, x ∉ p.namedOffers) :
    Option.Rel Alike (b.patchAll? [o, p]) (b.patchAll? [p, o]) ∧
    (b.patchAll? [o, p] = none ↔
      ∃ n ∈ o.offerNodes ++ p.offerNodes, b.market.TakesOutOfRange n) := by
  have hb : b.Sound := (sound_reset b₀ snapshot now).patchAll? hrun
  have hnone := patchAll?_pair_eq_none_iff hb ho hp
  refine ⟨?_, hnone⟩
  by_cases hrange : ∃ n ∈ o.offerNodes ++ p.offerNodes, b.market.TakesOutOfRange n
  · have hrange' : ∃ n ∈ p.offerNodes ++ o.offerNodes, b.market.TakesOutOfRange n := by
      obtain ⟨n, hn, hout⟩ := hrange
      exact ⟨n, by rwa [List.mem_append, or_comm, ← List.mem_append], hout⟩
    rw [hnone.mpr hrange, (patchAll?_pair_eq_none_iff hb hp ho).mpr hrange']
    exact .none
  -- in range, each of the two patches the book alone
  have hgoes {q : Outcome} (hq : ∀ n ∈ q.offerNodes, n ∈ o.offerNodes ++ p.offerNodes) :
      ∃ r, b.applyOutcome? q = some r := by
    refine Option.ne_none_iff_exists'.mp fun hfail => hrange ?_
    obtain ⟨_, n, hn, hout⟩ := (applyOutcome?_eq_none_iff hb).mp hfail
    exact ⟨n, hq n hn, hout⟩
  obtain ⟨⟨c, us⟩, hc⟩ := hgoes fun n hn => List.mem_append_left _ hn
  obtain ⟨⟨d, vs⟩, hd⟩ := hgoes fun n hn => List.mem_append_right _ hn
  obtain ⟨husvs, hcframe, both, hboth, hentries, hthis, hothers⟩ :=
    applyOutcome?_after ho hp hapart hc hd
  obtain ⟨_, hdframe, both', hboth', hentries', hthis', hothers'⟩ :=
    applyOutcome?_after hp ho (fun x hx hx' => hapart x hx' hx) hd hc
  have hsides : ∀ side, both.book.entries side = both'.book.entries side := by
    intro side
    rw [hentries, hentries', OrderBook.apply_comm hb.ordered]
    intro v hv u hu heq
    exact husvs _ (List.mem_map_of_mem hu) (heq ▸ List.mem_map_of_mem hv)
  have hcaps : ∀ x, both.funded.find? x = both'.funded.find? x := by
    intro x
    by_cases hv : x ∈ offers vs
    · rw [hthis x hv, hothers' x fun hu => husvs x hu hv]
    · rw [hothers x hv]
      by_cases hu : x ∈ offers us
      · rw [hthis' x hu]
      · rw [hothers' x hu, hcframe x hu, hdframe x hv]
  rw [patchAll?_cons, patchAll?_cons, hc, hd, Option.bind_some, Option.bind_some,
    patchAll?_singleton, patchAll?_singleton, hboth, hboth']
  exact .some ⟨hsides .bid, hsides .ask, hcaps⟩

/-! The ask that its owner can fund in part is taken from, and another one comes in at its price. -/

theorem take_beside_a_new_ask :
    (∀ x ∈ takeOfAsk.namedOffers, x ∉ newAsk.namedOffers) ∧
    Option.Rel Alike (cappedBook.patchAll? [takeOfAsk, newAsk])
      (cappedBook.patchAll? [newAsk, takeOfAsk]) ∧
    (cappedBook.patchAll? [takeOfAsk, newAsk]).map askAmounts =
      some [.ofWord 50, .ofWord 10] := by
  have hrun : ((new soloXrp 60).reset cappedSnapshot 0).patchAll? [] = some cappedBook := rfl
  have hapart : ∀ x ∈ takeOfAsk.namedOffers, x ∉ newAsk.namedOffers := by decide +kernel
  exact ⟨hapart, (patches_of_different_offers_commute hrun (by decide +kernel) (by decide +kernel)
    hapart).1, by decide +kernel⟩

end LiveBook

end OfferDesk
