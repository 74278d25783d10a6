-- Live books under runs of transactions, and what a snapshot leaves: no cap is ever spent to
-- nothing, and both sides stay in order.
import OfferDesk.Proofs.OfferChanges
import OfferDesk.Proofs.Patching

namespace OfferDesk

namespace LiveBook

/-! ## Transactions -/

variable {b b' : LiveBook} {o : Outcome} {us : List BookUpdate}

/-- A transaction that the book takes no notice of: not a validated success, or in the snapshot
already. -/
def skips (b : LiveBook) (o : Outcome) : Bool :=
  !o.validated || !o.isSuccess || b.inSnapshot o.ledgerIndex

/-- Patches the book with transactions, one after another. -/
def patchAll? (b : LiveBook) (os : List Outcome) : Option LiveBook :=
  os.foldlM (fun b o => (b.applyOutcome? o).map (·.1)) b

/-- A state that a live book can be in: a cap has something left, and both sides are in order. -/
structure Sound (b : LiveBook) : Prop where
  caps : CapsPositive b.funded
  ordered : b.book.Ordered

theorem applyOutcome?_of_skips (h : b.skips o = true) : b.applyOutcome? o = some (b, []) := by
  unfold applyOutcome?
  exact if_pos h

/-- The book with updates that are held to the caps, and what is left of the caps. -/
def patched (b : LiveBook) (o : Outcome) (funded : FundedSizes) (us : List BookUpdate) : LiveBook :=
  if us.isEmpty then { b with funded := funded }
  else { b with
    book := { b.book.apply us with ledgerIndex := o.ledgerIndex <|> b.book.ledgerIndex }
    funded := funded }

@[simp] theorem patched_funded (funded : FundedSizes) : (b.patched o funded us).funded = funded := by
  cases us <;> rfl

@[simp] theorem patched_market (funded : FundedSizes) :
    (b.patched o funded us).market = b.market := by
  cases us <;> rfl

@[simp] theorem patched_snapshotLedger (funded : FundedSizes) :
    (b.patched o funded us).snapshotLedger = b.snapshotLedger := by
  cases us <;> rfl

@[simp] theorem patched_entries (funded : FundedSizes) (side : BookSide) :
    (b.patched o funded us).book.entries side = (b.book.apply us).entries side := by
  cases us <;> cases side <;> rfl

/-- Patches the book with a transaction, whatever its verdict and its ledger. -/
def patch? (b : LiveBook) (o : Outcome) : Option (LiveBook × List BookUpdate) :=
  (b.market.diff? o.nodes).bind fun raw =>
    (holdCaps? b.funded raw).map fun r => (b.patched o r.1 r.2, r.2)

theorem applyOutcome?_of_not_skips (h : b.skips o = false) : b.applyOutcome? o = b.patch? o := by
  have hskip : ¬(!o.validated || !o.isSuccess || b.inSnapshot o.ledgerIndex) = true := by
    rw [show (!o.validated || !o.isSuccess || b.inSnapshot o.ledgerIndex) = false from h]
    exact Bool.false_ne_true
  unfold applyOutcome? patch?
  rw [if_neg hskip]
  cases b.market.diff? o.nodes with
  | none => rfl
  | some raw =>
    dsimp only [Option.bind_eq_bind, Option.bind_some]
    cases holdCaps? b.funded raw with
    | none => rfl
    | some r =>
      obtain ⟨funded, us⟩ := r
      cases us <;> rfl

/-- All that a transaction can do to a live book. -/
theorem applyOutcome?_cases (h : b.applyOutcome? o = some (b', us)) :
    (b.skips o = true ∧ b' = b ∧ us = []) ∨
    (b.skips o = false ∧ ∃ raw funded, b.market.diff? o.nodes = some raw ∧
      holdCaps? b.funded raw = some (funded, us) ∧ b' = b.patched o funded us) := by
  cases hskip : b.skips o with
  | true =>
    rw [applyOutcome?_of_skips hskip] at h
    cases h
    exact Or.inl ⟨rfl, rfl, rfl⟩
  | false =>
    rw [applyOutcome?_of_not_skips hskip] at h
    obtain ⟨raw, hdiff, h⟩ := Option.bind_eq_some_iff.mp h
    obtain ⟨⟨funded, us⟩, hhold, h⟩ := Option.map_eq_some_iff.mp h
    cases h
    exact Or.inr ⟨rfl, raw, funded, hdiff, hhold, rfl⟩

/-- What no transaction changes of a live book. -/
theorem applyOutcome?_frame (h : b.applyOutcome? o = some (b', us)) :
    b'.market = b.market ∧ b'.snapshotLedger = b.snapshotLedger := by
  rcases applyOutcome?_cases h with ⟨_, rfl, _⟩ | ⟨_, raw, funded, _, _, rfl⟩
  · exact ⟨rfl, rfl⟩
  · exact ⟨patched_market funded, patched_snapshotLedger funded⟩

theorem skips_congr (h : b'.snapshotLedger = b.snapshotLedger) (o : Outcome) :
    b'.skips o = b.skips o := by
  unfold skips inSnapshot
  rw [h]

theorem Sound.applyOutcome? (hb : b.Sound) (h : b.applyOutcome? o = some (b', us)) : b'.Sound := by
  rcases applyOutcome?_cases h with ⟨_, rfl, _⟩ | ⟨_, raw, funded, hdiff, hhold, rfl⟩
  · exact hb
  · obtain ⟨cs, rfl, _⟩ := Market.diff?_changes hdiff
    obtain ⟨funded', us', hhold', hcaps⟩ := holdCaps?_changes hb.caps cs
    cases hhold.symm.trans hhold'
    refine ⟨?_, fun side => ?_⟩
    · rw [patched_funded]
      exact hcaps
    · rw [patched_entries]
      exact OrderBook.ordered_apply hb.ordered side

/-- What a transaction makes of a sound book, offer by offer: each level is held to the cap that
its offer had, and each cap is spent once. -/
theorem patch?_changes {cs : List OfferChange} (hb : b.Sound)
    (hdiff : b.market.diff? o.nodes = some (cs.flatMap (·.updates)))
    (hd : (cs.map (·.offer)).Nodup) :
    ∃ b' us, b.patch? o = some (b', us) ∧ b'.market = b.market ∧
      b'.snapshotLedger = b.snapshotLedger ∧
      (∀ side, b'.book.entries side =
        ((cs.map fun c => c.held (b.funded.find? c.offer)).foldl
          OrderBook.applyLevel b.book).entries side) ∧
      ∀ c ∈ cs, b'.funded.find? c.offer = c.capAfter (b.funded.find? c.offer) := by
  obtain ⟨funded, us, hhold, happly, hafter, _⟩ := holdCaps?_distinct hb.caps hd
  refine ⟨b.patched o funded us, us, ?_, patched_market funded, patched_snapshotLedger funded,
    fun side => ?_, ?_⟩
  · rw [patch?, hdiff, Option.bind_some, hhold]
    rfl
  · rw [patched_entries, happly]
  · rw [patched_funded]
    exact hafter

/-! ## Runs of transactions -/

variable {os : List Outcome}

theorem patchAll?_cons (b : LiveBook) (o : Outcome) (os : List Outcome) :
    b.patchAll? (o :: os) = (b.applyOutcome? o).bind fun r => r.1.patchAll? os := by
  rw [patchAll?, List.foldlM_cons]
  cases b.applyOutcome? o <;> rfl

theorem patchAll?_append (b : LiveBook) (os os' : List Outcome) :
    b.patchAll? (os ++ os') = (b.patchAll? os).bind fun b' => b'.patchAll? os' := by
  rw [patchAll?, List.foldlM_append]
  rfl

theorem patchAll?_singleton (b : LiveBook) (o : Outcome) :
    b.patchAll? [o] = (b.applyOutcome? o).map (·.1) := by
  rw [patchAll?_cons]
  cases b.applyOutcome? o <;> rfl

/-- The book stands through transactions that it ignores, and through those that change no offer
of its market. -/
theorem patchAll?_of_idle (h : ∀ o ∈ os, b.skips o = true ∨ b.market.diff? o.nodes = some []) :
    b.patchAll? os = some b := by
  induction os with
  | nil => rfl
  | cons o os ih =>
    have ho : b.applyOutcome? o = some (b, []) := by
      cases hskip : b.skips o with
      | true => exact applyOutcome?_of_skips hskip
      | false =>
        have hdiff := (h o List.mem_cons_self).resolve_left (by simp [hskip])
        rw [applyOutcome?_of_not_skips hskip, patch?, hdiff]
        rfl
    rw [patchAll?_cons, ho]
    exact ih fun x hx => h x (List.mem_cons_of_mem _ hx)

theorem patchAll?_frame (h : b.patchAll? os = some b') :
    b'.market = b.market ∧ b'.snapshotLedger = b.snapshotLedger := by
  induction os generalizing b with
  | nil =>
    cases h
    exact ⟨rfl, rfl⟩
  | cons o os ih =>
    rw [patchAll?_cons] at h
    obtain ⟨⟨mid, us⟩, ho, h⟩ := Option.bind_eq_some_iff.mp h
    obtain ⟨hmarket, hledger⟩ := applyOutcome?_frame ho
    exact ⟨(ih h).1.trans hmarket, (ih h).2.trans hledger⟩

theorem Sound.patchAll? (hb : b.Sound) (h : b.patchAll? os = some b') : b'.Sound := by
  induction os generalizing b with
  | nil =>
    cases h
    exact hb
  | cons o os ih =>
    rw [patchAll?_cons] at h
    obtain ⟨⟨mid, us⟩, ho, h⟩ := Option.bind_eq_some_iff.mp h
    exact ih (hb.applyOutcome? ho) h

/-! ## Snapshots -/

/-- A funded size is that of an offer that was cut short. -/
theorem of_fundedSizes {ps : List SidedOffer} {x : OfferId} {left : Decimal}
    (h : (Market.fundedSizes ps).find? x = some left) :
    ∃ p ∈ ps, p.capped = true ∧ p.entry.offer = x ∧ p.entry.amount = left := by
  obtain ⟨p, hp, hentry⟩ := List.mem_map.mp (Table.mem_of_find?_ofList h)
  obtain ⟨hmem, hcapped⟩ := List.mem_filter.mp hp
  cases hentry
  exact ⟨p, hmem, hcapped, rfl, rfl⟩

theorem capsPositive_fundedSizes (m : Market) (offers : List Offer) :
    CapsPositive (Market.fundedSizes (m.sidedOffers offers)) := by
  intro x cap hx
  obtain ⟨p, hp, _, _, rfl⟩ := of_fundedSizes hx
  obtain ⟨offer, _, hsided⟩ := Market.mem_sidedOffers.mp hp
  exact (Market.of_sided hsided).2

/-- A snapshot leaves a sound book, whatever it is made of. -/
theorem sound_reset (b : LiveBook) (snapshot : OfferSnapshot) (now : Nat) :
    (b.reset snapshot now).Sound where
  caps := capsPositive_fundedSizes b.market snapshot.offers
  ordered := by
    intro side
    cases side with
    | bid => exact BookEntry.ordered_sortOn .bid _
    | ask => exact BookEntry.ordered_sortOn .ask _

/-! A transaction of ledger 101 takes forty of an ask of a hundred. -/

def takeOfAsk : Outcome where
  hash := "CD"
  transaction := ⟨"rTaker", "OfferCreate", 3, none, none, 0, none, none, none⟩
  engineResult := "tesSUCCESS"
  nodes := [askNode]
  ledgerIndex := some 101
  validated := true
  date := none

/-- How much each ask shows. -/
def askAmounts (b : LiveBook) : List Decimal := b.book.asks.map (·.amount)

end LiveBook

end OfferDesk
