-- A live book stays tidy whatever happens to it: both sides strictly in order, no offer twice on a
-- side, and something left of every entry. An entry then has just one place on its side, so it does
-- not matter how the place is looked for.
import OfferDesk.Proofs.LiveBooks

namespace OfferDesk

theorem Decimal.compare_eq_lt_iff {a b : Decimal} : a.compare b = .lt ↔ a < b :=
  compare_lt_iff_lt

namespace BookEntry

variable {side : BookSide} {a b e : BookEntry} {es before after : List BookEntry}

/-! ## What it means to come before -/

theorem compareAsks_eq_lt_iff : a.compareAsks b = .lt ↔
    a.price < b.price ∨ a.price.compare b.price = .eq ∧ a.offer.compare b.offer = .lt := by
  rw [compareAsks, Ordering.then_eq_lt, Decimal.compare_eq_lt_iff]

theorem compareBids_eq_lt_iff : a.compareBids b = .lt ↔
    b.price < a.price ∨ b.price.compare a.price = .eq ∧ a.offer.compare b.offer = .lt := by
  rw [compareBids, Ordering.then_eq_lt, Decimal.compare_eq_lt_iff]

/-! ## Tidy sides -/

/-- A side as it should be. -/
structure Tidy (side : BookSide) (es : List BookEntry) : Prop where
  sorted : Sorted side es
  distinct : (es.map (·.offer)).Nodup
  positive : ∀ e ∈ es, e.amount.isPositive = true

/-- A new entry has one place on a side, and there it is put. -/
theorem insertOn_of_place (h : Sorted side (before ++ after))
    (hbefore : ∀ x ∈ before, compareOn side x e = .lt)
    (hafter : ∀ x ∈ after, compareOn side e x = .lt) :
    insertOn side e (before ++ after) = before ++ e :: after := by
  induction before with
  | nil =>
    cases after with
    | nil => rfl
    | cons x after =>
      have hnot : compareOn side x e ≠ .lt := by
        intro hlt
        have hself := compareOn_lt_trans hlt (hafter x List.mem_cons_self)
        rw [compareOn_self] at hself
        cases hself
      simp [insertOn, hnot]
  | cons x before ih =>
    rw [List.cons_append, insertOn, if_pos (hbefore x List.mem_cons_self),
      ih (List.Pairwise.tail h) fun y hy => hbefore y (List.mem_cons_of_mem _ hy)]
    rfl

theorem Tidy.filter (h : Tidy side es) (p : BookEntry → Bool) : Tidy side (es.filter p) where
  sorted := List.Pairwise.filter p h.sorted
  distinct := (List.filter_sublist.map _).nodup h.distinct
  positive e he := h.positive e (List.mem_of_mem_filter he)

theorem Tidy.insertOn (h : Tidy side es) (hnew : ∀ x ∈ es, x.offer ≠ e.offer)
    (hpos : e.amount.isPositive = true) : Tidy side (insertOn side e es) where
  sorted := sorted_insertOn h.sorted hnew
  distinct := by
    have hperm := (insertOn_perm side e es).map (·.offer)
    rw [hperm.nodup_iff, List.map_cons, List.nodup_cons]
    refine ⟨?_, h.distinct⟩
    intro hmem
    obtain ⟨x, hx, heq⟩ := List.mem_map.mp hmem
    exact hnew x hx heq
  positive x hx := by
    rcases mem_insertOn.mp hx with rfl | hx
    · exact hpos
    · exact h.positive x hx

theorem tidy_sortOn (hdistinct : (es.map (·.offer)).Nodup)
    (hpos : ∀ e ∈ es, e.amount.isPositive = true) : Tidy side (sortOn side es) where
  sorted := sorted_sortOn hdistinct
  distinct := by
    have hperm : (sortOn side es).Perm es := List.mergeSort_perm es _
    rw [(hperm.map (·.offer)).nodup_iff]
    exact hdistinct
  positive e he := hpos e (mem_sortOn.mp he)

end BookEntry

/-! ## Tidy books -/

namespace OrderBook

variable {b : OrderBook}

/-- Both sides are as they should be. -/
def Tidy (b : OrderBook) : Prop := ∀ side, BookEntry.Tidy side (b.entries side)

/-- A level leaves a tidy book: its offer goes from the side before its new entry comes. -/
theorem tidy_applyLevel (h : b.Tidy) (l : LevelUpdate) : (b.applyLevel l).Tidy := by
  intro side
  rw [entries_applyLevel]
  by_cases hside : side = l.side
  · subst hside
    have hothers := (h l.side).filter (·.offer ≠ l.entry.offer)
    rw [if_pos rfl]
    split
    · rename_i hpos
      apply hothers.insertOn _ hpos
      intro x hx
      simpa using (List.mem_filter.mp hx).2
    · exact hothers
  · rw [if_neg hside]
    exact h side

theorem tidy_apply (h : b.Tidy) (us : List BookUpdate) : (b.apply us).Tidy :=
  apply_induction h fun _ l hb => tidy_applyLevel hb l

end OrderBook

/-! ## Snapshots -/

namespace LiveBook

variable {m : Market} {offers : List Offer}

theorem tidy_entriesOn (h : (offers.map (·.id)).Nodup) (side : BookSide) :
    BookEntry.Tidy side (BookEntry.sortOn side (Market.entriesOn side (m.sidedOffers offers))) := by
  apply BookEntry.tidy_sortOn
  · rw [Market.entriesOn, List.map_map]
    exact (List.filter_sublist.map _).nodup (Market.nodup_sidedOffers h)
  · intro e he
    obtain ⟨p, hp, rfl⟩ := List.mem_map.mp he
    obtain ⟨o, _, hsided⟩ := Market.mem_sidedOffers.mp (List.mem_of_mem_filter hp)
    exact (Market.of_sided hsided).2

/-- A snapshot of different offers leaves a tidy book. -/
theorem tidy_reset (b : LiveBook) {snapshot : OfferSnapshot} (now : Nat)
    (h : (snapshot.offers.map (·.id)).Nodup) : (b.reset snapshot now).book.Tidy := by
  intro side
  cases side with
  | bid => exact tidy_entriesOn h .bid
  | ask => exact tidy_entriesOn h .ask

/-! ## Runs -/

/-- What can happen to a live book: a snapshot of different offers is put in place of it, or a
transaction patches it. -/
inductive Step where
  | reset (snapshot : OfferSnapshot) (now : Nat) (distinct : (snapshot.offers.map (·.id)).Nodup)
  | patch (o : Outcome)

namespace Step

def next? (b : LiveBook) : Step → Option LiveBook
  | reset snapshot now _ => some (b.reset snapshot now)
  | patch o => (b.applyOutcome? o).map (·.1)

end Step

/-- The book after one step after another. There is none where an amount leaves the range of
decimals. -/
def run? (b : LiveBook) (steps : List Step) : Option LiveBook := steps.foldlM Step.next? b

variable {b b' : LiveBook} {steps : List Step}

theorem tidy_new (m : Market) (interval : Nat) : (new m interval).book.Tidy := by
  intro side
  cases side <;> exact ⟨.nil, .nil, by simp [new, OrderBook.empty, OrderBook.entries]⟩

theorem tidy_next {step : Step} (h : b.book.Tidy) (hstep : step.next? b = some b') :
    b'.book.Tidy := by
  cases step with
  | reset snapshot now distinct =>
    cases hstep
    exact tidy_reset b now distinct
  | patch o =>
    obtain ⟨⟨_, us⟩, ho, rfl⟩ := Option.map_eq_some_iff.mp hstep
    rcases applyOutcome?_cases ho with ⟨_, rfl, _⟩ | ⟨_, raw, funded, _, _, rfl⟩
    · exact h
    · intro side
      rw [patched_entries]
      exact OrderBook.tidy_apply h us side

theorem tidy_run (h : b.book.Tidy) (hrun : b.run? steps = some b') : b'.book.Tidy := by
  induction steps generalizing b with
  | nil =>
    cases hrun
    exact h
  | cons step steps ih =>
    rw [run?, List.foldlM_cons, Option.bind_eq_bind, Option.bind_eq_some_iff] at hrun
    obtain ⟨mid, hstep, hrest⟩ := hrun
    exact ih (tidy_next h hstep) hrest

/-- At every point of a run the asks stand in the order of price and handle, the bids from the
dearest on and then by handle. No offer stands twice on a side, and no entry is empty. -/
theorem sides_stay_tidy {m : Market} {interval : Nat} (run : (new m interval).run? steps = some b) :
    b.book.asks.Pairwise (fun x y => x.price < y.price ∨
      x.price.compare y.price = .eq ∧ x.offer.compare y.offer = .lt) ∧
    b.book.bids.Pairwise (fun x y => y.price < x.price ∨
      y.price.compare x.price = .eq ∧ x.offer.compare y.offer = .lt) ∧
    ∀ side, ((b.book.entries side).map (·.offer)).Nodup ∧
      ∀ e ∈ b.book.entries side, e.amount.isPositive = true := by
  have htidy := tidy_run (tidy_new m interval) run
  refine ⟨?_, ?_, fun side => ⟨(htidy side).distinct, (htidy side).positive⟩⟩
  · exact (htidy .ask).sorted.imp BookEntry.compareAsks_eq_lt_iff.mp
  · exact (htidy .bid).sorted.imp BookEntry.compareBids_eq_lt_iff.mp

/-! A second ask comes in at the price of the first, which is then taken from. -/

def newAsk : Outcome :=
  { takeOfAsk with
    nodes := [{
      kind := .created
      entryType := .offer
      ledgerIndex := "B"
      before := {}
      after := {
        account := some "rB"
        sequence := some 2
        takerGets := some (soloWire "10")
        takerPays := some (.drops "5000000") } }] }

def twoAsks : List Step :=
  [.reset ⟨[offerOf "rA" 1 (soloWire "100") (.drops "50000000")], some 100⟩ 0 (by decide),
    .patch newAsk, .patch takeOfAsk]

theorem asks_of_one_price : ∃ b, (new soloXrp 60).run? twoAsks = some b ∧
    askAmounts b = [.ofWord 60, .ofWord 10] ∧
    b.book.asks.Pairwise (fun x y => x.price < y.price ∨
      x.price.compare y.price = .eq ∧ x.offer.compare y.offer = .lt) := by
  have hasks : ((new soloXrp 60).run? twoAsks).map askAmounts =
      some [.ofWord 60, .ofWord 10] := by decide +kernel
  obtain ⟨b, hrun, hamounts⟩ := Option.map_eq_some_iff.mp hasks
  exact ⟨b, hrun, hamounts, (sides_stay_tidy hrun).1⟩

end LiveBook

end OfferDesk
