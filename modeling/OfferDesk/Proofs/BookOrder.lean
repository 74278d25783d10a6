-- The order of the entries on a side, and books seen as what they show. Entries of different
-- offers are never equal in the order, so a side is given by the entries that stand on it.
import Mathlib.Data.List.Nodup
import OfferDesk.Book.Basic
import OfferDesk.Proofs.Decimals

namespace OfferDesk

/-! ## The order of a side -/

/-- An order of what is read off some values is one of the values. -/
theorem transCmp_of {α β : Type} (cmp : β → β → Ordering) [Std.TransCmp cmp] (f : α → β) :
    Std.TransCmp fun a b => cmp (f a) (f b) where
  eq_swap {a b} :=
    show cmp (f a) (f b) = (cmp (f b) (f a)).swap from Std.OrientedCmp.eq_swap
  isLE_trans {a b c} (hab : (cmp (f a) (f b)).isLE = true) hbc :=
    show (cmp (f a) (f c)).isLE = true from Std.TransCmp.isLE_trans hab hbc

/-- Where a list names everything once, no other member of it has the name of one. -/
theorem ne_of_nodup_middle {α β : Type} {f : α → β} {before after : List α} {a x : α}
    (h : ((before ++ a :: after).map f).Nodup) (hx : x ∈ before ++ after) : f x ≠ f a := by
  rw [List.map_append, List.map_cons, List.nodup_middle, List.nodup_cons, ← List.map_append] at h
  intro heq
  exact h.1 (List.mem_map.mpr ⟨x, hx, heq⟩)

namespace OfferId

theorem compare_eq_lex : OfferId.compare =
    compareLex (compareOn fun id => id.account) (compareOn fun id => id.sequence.toNat) := rfl

instance : Std.TransCmp OfferId.compare := by
  rw [compare_eq_lex]
  infer_instance

theorem eq_of_compare {a b : OfferId} (h : a.compare b = .eq) : a = b := by
  obtain ⟨haccount, hsequence⟩ := Ordering.then_eq_eq.mp h
  have ha : a.account = b.account := Std.LawfulEqOrd.eq_of_compare haccount
  have hs : a.sequence.toNat = b.sequence.toNat := Std.LawfulEqOrd.eq_of_compare hsequence
  cases a
  cases b
  simp_all [UInt32.toNat_inj]

end OfferId

namespace BookEntry

variable {side : BookSide} {a b e x : BookEntry} {es es' : List BookEntry}

instance transCmp_compareOn (side : BookSide) : Std.TransCmp (compareOn side) := by
  have hoffer : Std.TransCmp fun a b : BookEntry => a.offer.compare b.offer :=
    transCmp_of OfferId.compare offer
  have hprice : Std.TransCmp fun a b : BookEntry => a.price.compare b.price :=
    transCmp_of Decimal.compare price
  cases side with
  | bid =>
    exact inferInstanceAs (Std.TransCmp (compareLex
      (fun a b : BookEntry => b.price.compare a.price) fun a b => a.offer.compare b.offer))
  | ask =>
    exact inferInstanceAs (Std.TransCmp (compareLex
      (fun a b : BookEntry => a.price.compare b.price) fun a b => a.offer.compare b.offer))

theorem offer_eq_of_compareOn (h : compareOn side a b = .eq) : a.offer = b.offer := by
  cases side <;> exact OfferId.eq_of_compare (Ordering.then_eq_eq.mp h).2

/-- Each entry comes before all that follow it. -/
def Sorted (side : BookSide) (es : List BookEntry) : Prop :=
  es.Pairwise fun a b => compareOn side a b = .lt

theorem compareOn_self (side : BookSide) (a : BookEntry) : compareOn side a a = .eq :=
  Std.ReflCmp.compare_self

theorem compareOn_lt_trans (hab : compareOn side a b = .lt) (hbe : compareOn side b e = .lt) :
    compareOn side a e = .lt :=
  Std.TransCmp.lt_trans hab hbe

/-- An entry that does not come before one of another offer comes after it. -/
theorem compareOn_lt_of_ne (h : compareOn side a b ≠ .lt) (hne : a.offer ≠ b.offer) :
    compareOn side b a = .lt := by
  have hgt : compareOn side a b = .gt := by
    cases hc : compareOn side a b with
    | lt => exact absurd hc h
    | eq => exact absurd (offer_eq_of_compareOn hc) hne
    | gt => rfl
  exact Std.OrientedCmp.lt_of_gt hgt

theorem Sorted.nodup (h : Sorted side es) : es.Nodup := by
  refine List.Pairwise.imp ?_ h
  rintro a _ hab rfl
  rw [compareOn_self] at hab
  cases hab

/-- A side is given by the entries that stand on it. -/
theorem Sorted.eq_of_mem_iff (h : Sorted side es) (h' : Sorted side es')
    (hm : ∀ e, e ∈ es ↔ e ∈ es') : es = es' := by
  refine List.Perm.eq_of_pairwise ?_ h h'
    ((List.perm_ext_iff_of_nodup h.nodup h'.nodup).mpr hm)
  intro a b _ _ hab hba
  have haa := compareOn_lt_trans hab hba
  rw [compareOn_self] at haa
  cases haa

/-- No entry comes after one that follows it. Entries of one offer may stand next to each other,
as in a snapshot that names an offer twice. -/
def Ordered (side : BookSide) (es : List BookEntry) : Prop :=
  es.Pairwise fun a b => compareOn side a b ≠ .gt

theorem le_trans (hab : compareOn side a b ≠ .gt) (hbe : compareOn side b e ≠ .gt) :
    compareOn side a e ≠ .gt :=
  Ordering.isLE_iff_ne_gt.mp <| Std.TransCmp.isLE_trans (Ordering.isLE_iff_ne_gt.mpr hab)
    (Ordering.isLE_iff_ne_gt.mpr hbe)

theorem le_of_not_lt (h : compareOn side a b ≠ .lt) : compareOn side b a ≠ .gt :=
  fun hgt => h (Std.OrientedCmp.lt_of_gt hgt)

theorem not_lt_of_le (h : compareOn side a b ≠ .gt) : compareOn side b a ≠ .lt :=
  fun hlt => h (Std.OrientedCmp.gt_of_lt hlt)

/-! ## Sorting and inserting -/

theorem ordered_sortOn (side : BookSide) (es : List BookEntry) : Ordered side (sortOn side es) := by
  have hsorted : (sortOn side es).Pairwise fun a b => decide (compareOn side a b ≠ .gt) = true := by
    refine List.pairwise_mergeSort ?_ ?_ es
    · intro a b c hab hbc
      exact decide_eq_true (le_trans (of_decide_eq_true hab) (of_decide_eq_true hbc))
    · intro a b
      rw [Bool.or_eq_true, decide_eq_true_eq, decide_eq_true_eq, or_iff_not_imp_left, not_not]
      intro hgt
      exact le_of_not_lt (by simp [hgt])
  exact hsorted.imp of_decide_eq_true

theorem mem_sortOn : x ∈ sortOn side es ↔ x ∈ es := (List.mergeSort_perm es _).mem_iff

theorem sorted_sortOn (h : (es.map (·.offer)).Nodup) : Sorted side (sortOn side es) := by
  have hne : (sortOn side es).Pairwise fun a b => a.offer ≠ b.offer := by
    have hperm : (sortOn side es).Perm es := List.mergeSort_perm es _
    have hnodup : ((sortOn side es).map (·.offer)).Nodup :=
      (List.Perm.map (·.offer) hperm).nodup_iff.mpr h
    exact List.pairwise_map.mp hnodup
  refine ((ordered_sortOn side es).and hne).imp fun {a b} hab => ?_
  by_contra hlt
  exact hab.1 (Std.OrientedCmp.gt_of_lt (compareOn_lt_of_ne hlt hab.2))

theorem mem_insertOn : x ∈ insertOn side e es ↔ x = e ∨ x ∈ es := by
  induction es with
  | nil => simp [insertOn]
  | cons d es ih =>
    unfold insertOn
    split
    · rw [List.mem_cons, ih, List.mem_cons]
      exact or_left_comm
    · rw [List.mem_cons]

theorem sorted_insertOn (h : Sorted side es) (hn : ∀ x ∈ es, x.offer ≠ e.offer) :
    Sorted side (insertOn side e es) := by
  induction es with
  | nil => exact List.pairwise_singleton _ _
  | cons d es ih =>
    obtain ⟨hd, hes⟩ := List.pairwise_cons.mp h
    unfold insertOn
    split
    · rename_i hlt
      refine List.pairwise_cons.mpr ⟨fun x hx => ?_, ih hes fun x hx => hn x (.tail _ hx)⟩
      rcases mem_insertOn.mp hx with rfl | hx
      · exact hlt
      · exact hd x hx
    · rename_i hnot
      have hed := compareOn_lt_of_ne hnot (hn d List.mem_cons_self)
      refine List.pairwise_cons.mpr ⟨fun x hx => ?_, h⟩
      rcases List.mem_cons.mp hx with rfl | hx
      · exact hed
      · exact compareOn_lt_trans hed (hd x hx)

end BookEntry

/-! ## What a book shows -/

/-- The entries that stand on each side. -/
abbrev Shown := BookSide → BookEntry → Prop

/-- What is shown after a level: the old entry of the offer is gone from its side, and the new
one stands there if anything is left. -/
def Shown.patched (shown : Shown) (l : LevelUpdate) : Shown := fun side e =>
  (shown side e ∧ ¬(side = l.side ∧ e.offer = l.entry.offer)) ∨
    (side = l.side ∧ l.entry.amount.isPositive = true ∧ e = l.entry)

namespace OrderBook

variable {b b' : OrderBook} {shown : Shown}

/-- Both sides are in order and hold just these entries. -/
def Shows (b : OrderBook) (shown : Shown) : Prop :=
  ∀ side, BookEntry.Sorted side (b.entries side) ∧ ∀ e, e ∈ b.entries side ↔ shown side e

/-- Books that show the same have the same sides. -/
theorem Shows.entries_eq (h : b.Shows shown) (h' : b'.Shows shown) (side : BookSide) :
    b.entries side = b'.entries side :=
  (h side).1.eq_of_mem_iff (h' side).1 fun e => ((h side).2 e).trans ((h' side).2 e).symm

theorem shows_ofEntries (pair : String) {bids asks : List BookEntry}
    (hbids : (bids.map (·.offer)).Nodup) (hasks : (asks.map (·.offer)).Nodup) :
    (ofEntries pair bids asks).Shows fun side e =>
      e ∈ match side with
        | .bid => bids
        | .ask => asks := by
  intro side
  cases side with
  | bid => exact ⟨BookEntry.sorted_sortOn hbids, fun e => BookEntry.mem_sortOn⟩
  | ask => exact ⟨BookEntry.sorted_sortOn hasks, fun e => BookEntry.mem_sortOn⟩

theorem entries_withEntries (b : OrderBook) (side x : BookSide) (es : List BookEntry) :
    (b.withEntries side es).entries x = if x = side then es else b.entries x := by
  cases side <;> cases x <;> rfl

theorem entries_applyLevel (b : OrderBook) (l : LevelUpdate) (side : BookSide) :
    (b.applyLevel l).entries side = if side = l.side then
      if l.entry.amount.isPositive then
        BookEntry.insertOn l.side l.entry
          ((b.entries l.side).filter fun e => e.offer ≠ l.entry.offer)
      else (b.entries l.side).filter fun e => e.offer ≠ l.entry.offer
    else b.entries side :=
  entries_withEntries b l.side side _

theorem shows_applyLevel {l : LevelUpdate} (h : b.Shows shown) :
    (b.applyLevel l).Shows (shown.patched l) := by
  intro side
  rw [entries_applyLevel]
  by_cases hside : side = l.side
  · subst hside
    rw [if_pos rfl]
    obtain ⟨hsorted, hmem⟩ := h l.side
    have hothers : BookEntry.Sorted l.side
        ((b.entries l.side).filter fun e => e.offer ≠ l.entry.offer) :=
      List.Pairwise.filter _ hsorted
    split
    · rename_i hpos
      refine ⟨BookEntry.sorted_insertOn hothers fun x hx => ?_, fun e => ?_⟩
      · simpa using (List.mem_filter.mp hx).2
      · rw [BookEntry.mem_insertOn, List.mem_filter, hmem]
        simp [Shown.patched, hpos, or_comm]
    · rename_i hzero
      refine ⟨hothers, fun e => ?_⟩
      rw [List.mem_filter, hmem]
      simp [Shown.patched, hzero]
  · rw [if_neg hside]
    refine ⟨(h side).1, fun e => ?_⟩
    rw [(h side).2 e]
    simp [Shown.patched, hside]

/-! ## Many levels -/

theorem shows_foldl (levels : List LevelUpdate) (h : b.Shows shown) :
    (levels.foldl applyLevel b).Shows (levels.foldl Shown.patched shown) := by
  induction levels generalizing b shown with
  | nil => exact h
  | cons l ls ih => exact ih (shows_applyLevel h)

theorem Shows.congr {shown' : Shown} (h : b.Shows shown)
    (heq : ∀ side e, shown side e ↔ shown' side e) : b.Shows shown' :=
  fun side => ⟨(h side).1, fun e => ((h side).2 e).trans (heq side e)⟩

/-- A book is given by its pair, its ledger and its sides. -/
theorem ext_entries (hpair : b.pair = b'.pair) (hledger : b.ledgerIndex = b'.ledgerIndex)
    (h : ∀ side, b.entries side = b'.entries side) : b = b' := by
  have hbids : b.bids = b'.bids := h .bid
  have hasks : b.asks = b'.asks := h .ask
  cases b
  cases b'
  simp_all

/-- A book is given by its pair, its ledger and what it shows. -/
theorem Shows.eq (h : b.Shows shown) (h' : b'.Shows shown) (hpair : b.pair = b'.pair)
    (hledger : b.ledgerIndex = b'.ledgerIndex) : b = b' :=
  ext_entries hpair hledger (h.entries_eq h')

theorem withEntries_frame (b : OrderBook) (side : BookSide) (es : List BookEntry) :
    (b.withEntries side es).pair = b.pair ∧
      (b.withEntries side es).ledgerIndex = b.ledgerIndex := by
  cases side <;> exact ⟨rfl, rfl⟩

/-- Updates leave the pair and the ledger of a book alone. -/
theorem apply_frame (b : OrderBook) (updates : List BookUpdate) :
    (b.apply updates).pair = b.pair ∧ (b.apply updates).ledgerIndex = b.ledgerIndex := by
  unfold apply
  induction updates generalizing b with
  | nil => exact ⟨rfl, rfl⟩
  | cons u us ih =>
    rw [List.foldl_cons, (ih _).1, (ih _).2]
    cases u with
    | trade t => exact ⟨rfl, rfl⟩
    | level l => exact withEntries_frame b l.side _

theorem apply_trades (b : OrderBook) (trades : List BookTrade) :
    b.apply (trades.map .trade) = b := by
  unfold apply
  induction trades with
  | nil => rfl
  | cons t ts ih => exact ih

/-- A level after some trades, and what comes then. -/
theorem apply_trades_level (b : OrderBook) (trades : List BookTrade) (l : LevelUpdate)
    (rest : List BookUpdate) :
    b.apply (trades.map .trade ++ [.level l] ++ rest) = (b.applyLevel l).apply rest := by
  have htrades := apply_trades b trades
  unfold apply at htrades ⊢
  rw [List.foldl_append, List.foldl_append, htrades]
  rfl

end OrderBook

/-- What is shown after levels of different offers: the old entries that none of them replaces,
and the new entries. -/
theorem Shown.patched_foldl_iff {shown : Shown} {levels : List LevelUpdate}
    (hd : (levels.map (·.entry.offer)).Nodup) (side : BookSide) (e : BookEntry) :
    levels.foldl patched shown side e ↔
      (shown side e ∧ ∀ l ∈ levels, ¬(side = l.side ∧ e.offer = l.entry.offer)) ∨
      ∃ l ∈ levels, side = l.side ∧ l.entry.amount.isPositive = true ∧ e = l.entry := by
  induction levels generalizing shown with
  | nil => simp
  | cons l ls ih =>
    rw [List.map_cons, List.nodup_cons] at hd
    rw [List.foldl_cons, ih hd.2]
    simp only [patched, List.mem_cons, forall_eq_or_imp, exists_eq_or_imp]
    -- the entry of this level is of another offer than all that follow
    have hkept : e = l.entry → ∀ x ∈ ls, ¬(side = x.side ∧ e.offer = x.entry.offer) := by
      rintro rfl x hx ⟨_, hoffer⟩
      exact hd.1 (List.mem_map.mpr ⟨x, hx, hoffer.symm⟩)
    constructor
    · rintro (⟨⟨hs, hl⟩ | hl, hls⟩ | hls)
      · exact Or.inl ⟨hs, hl, hls⟩
      · exact Or.inr (Or.inl hl)
      · exact Or.inr (Or.inr hls)
    · rintro (⟨hs, hl, hls⟩ | hl | hls)
      · exact Or.inl ⟨Or.inl ⟨hs, hl⟩, hls⟩
      · exact Or.inl ⟨Or.inr hl, hkept hl.2.2⟩
      · exact Or.inr hls

end OfferDesk
