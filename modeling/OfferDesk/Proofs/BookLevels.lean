-- Levels on the sides of a book, one after another. A level of an offer takes the place of an
-- earlier one of the same offer, and levels of different offers do not get into each other's way.
import OfferDesk.Proofs.BookOrder

namespace OfferDesk

namespace BookEntry

variable {side : BookSide} {a b d e : BookEntry} {es : List BookEntry} {p : BookEntry → Bool}

theorem insertOn_perm (side : BookSide) (e : BookEntry) (es : List BookEntry) :
    (insertOn side e es).Perm (e :: es) := by
  induction es with
  | nil => exact .refl _
  | cons d es ih =>
    unfold insertOn
    split
    · exact (ih.cons d).trans (.swap e d es)
    · exact .refl _

theorem ordered_insertOn (h : Ordered side es) : Ordered side (insertOn side e es) := by
  induction es with
  | nil => exact List.pairwise_singleton _ _
  | cons d es ih =>
    obtain ⟨hd, hes⟩ := List.pairwise_cons.mp h
    unfold insertOn
    split
    · rename_i hlt
      refine List.pairwise_cons.mpr ⟨fun x hx => ?_, ih hes⟩
      rcases mem_insertOn.mp hx with rfl | hx
      · simp [hlt]
      · exact hd x hx
    · rename_i hnot
      have hed := le_of_not_lt hnot
      refine List.pairwise_cons.mpr ⟨fun x hx => ?_, h⟩
      rcases List.mem_cons.mp hx with rfl | hx
      · exact hed
      · exact le_trans hed (hd x hx)

/-- An entry goes between those that come before it and all others. -/
theorem insertOn_eq (h : Ordered side es) : insertOn side e es =
    es.filter (fun x => compareOn side x e = .lt) ++
      e :: es.filter (fun x => compareOn side x e ≠ .lt) := by
  induction es with
  | nil => rfl
  | cons d es ih =>
    obtain ⟨hd, hes⟩ := List.pairwise_cons.mp h
    unfold insertOn
    split
    · rename_i hlt
      simp [hlt, ih hes]
    · rename_i hnot
      have hrest : ∀ x ∈ d :: es, compareOn side x e ≠ .lt := by
        intro x hx
        rcases List.mem_cons.mp hx with rfl | hx
        · exact hnot
        · exact not_lt_of_le (le_trans (le_of_not_lt hnot) (hd x hx))
      rw [List.filter_eq_nil_iff.mpr (by simpa using hrest),
        List.filter_eq_self.mpr (by simpa using hrest), List.nil_append]

theorem filter_insertOn (h : Ordered side es) (he : p e = true) :
    (insertOn side e es).filter p = insertOn side e (es.filter p) := by
  rw [insertOn_eq h, insertOn_eq (List.Pairwise.filter p h), List.filter_append,
    List.filter_cons_of_pos he, List.filter_filter, List.filter_filter, List.filter_filter,
    List.filter_filter]
  simp only [Bool.and_comm]

theorem filter_insertOn_of_not (he : p e = false) :
    (insertOn side e es).filter p = es.filter p := by
  induction es with
  | nil => simp [insertOn, he]
  | cons d es ih =>
    unfold insertOn
    split
    · rw [List.filter_cons, List.filter_cons, ih]
    · rw [List.filter_cons_of_neg (by simp [he])]

theorem insertOn_comm_of_lt (hab : compareOn side a b = .lt) :
    insertOn side a (insertOn side b es) = insertOn side b (insertOn side a es) := by
  have hba : compareOn side b a ≠ .lt := by
    simp [Std.OrientedCmp.gt_of_lt hab]
  induction es with
  | nil => simp [insertOn, hab, hba]
  | cons d es ih =>
    by_cases hda : compareOn side d a = .lt
    · have hdb := compareOn_lt_trans hda hab
      simp [insertOn, hda, hdb, ih]
    · by_cases hdb : compareOn side d b = .lt
      · simp [insertOn, hda, hdb, hab]
      · simp [insertOn, hda, hdb, hab, hba]

/-- The entries of different offers can come in in any order. -/
theorem insertOn_comm (hne : a.offer ≠ b.offer) :
    insertOn side a (insertOn side b es) = insertOn side b (insertOn side a es) := by
  by_cases hab : compareOn side a b = .lt
  · exact insertOn_comm_of_lt hab
  · exact (insertOn_comm_of_lt (compareOn_lt_of_ne hab hne)).symm

end BookEntry

/-! ## A level on a side -/

namespace LevelUpdate

variable {l l' : LevelUpdate} {es : List BookEntry} {p : BookEntry → Bool}

/-- The entries that stand for an offer after a level of it. -/
def shown (l : LevelUpdate) : List BookEntry := if l.entry.amount.isPositive then [l.entry] else []

/-- Puts the entry of a level on a side, if anything is left of the offer. -/
def place (l : LevelUpdate) (es : List BookEntry) : List BookEntry :=
  if l.entry.amount.isPositive then BookEntry.insertOn l.side l.entry es else es

/-- What a level makes of its side. -/
def onto (l : LevelUpdate) (es : List BookEntry) : List BookEntry :=
  l.place (es.filter (·.offer ≠ l.entry.offer))

theorem ordered_onto (h : BookEntry.Ordered l.side es) : BookEntry.Ordered l.side (l.onto es) := by
  have hothers : BookEntry.Ordered l.side (es.filter (·.offer ≠ l.entry.offer)) :=
    List.Pairwise.filter _ h
  unfold onto place
  split
  · exact BookEntry.ordered_insertOn hothers
  · exact hothers

theorem filter_place (h : BookEntry.Ordered l.side es) (hl : p l.entry = true) :
    (l.place es).filter p = l.place (es.filter p) := by
  unfold place
  split
  · exact BookEntry.filter_insertOn h hl
  · rfl

theorem filter_place_of_not (hl : p l.entry = false) : (l.place es).filter p = es.filter p := by
  unfold place
  split
  · exact BookEntry.filter_insertOn_of_not hl
  · rfl

theorem place_comm (hside : l.side = l'.side) (hne : l.entry.offer ≠ l'.entry.offer) :
    l.place (l'.place es) = l'.place (l.place es) := by
  unfold place
  rw [hside]
  split <;> split
  · exact BookEntry.insertOn_comm hne
  · rfl
  · rfl
  · rfl

/-- Levels of different offers can come onto a side in any order. -/
theorem onto_comm (h : BookEntry.Ordered l.side es) (hside : l.side = l'.side)
    (hne : l.entry.offer ≠ l'.entry.offer) : l'.onto (l.onto es) = l.onto (l'.onto es) := by
  have hl : BookEntry.Ordered l.side (es.filter (·.offer ≠ l.entry.offer)) :=
    List.Pairwise.filter _ h
  have hl' : BookEntry.Ordered l'.side (es.filter (·.offer ≠ l'.entry.offer)) :=
    List.Pairwise.filter _ (hside ▸ h)
  unfold onto
  rw [filter_place hl (by simpa using hne), filter_place hl' (by simpa using hne.symm),
    place_comm hside.symm hne.symm, List.filter_filter, List.filter_filter]
  simp only [Bool.and_comm]

/-- A level takes the place of an earlier one of its offer. -/
theorem onto_again (hoffer : l'.entry.offer = l.entry.offer) : l'.onto (l.onto es) = l'.onto es := by
  unfold onto
  rw [filter_place_of_not (by simp [hoffer]), hoffer, List.filter_filter]
  simp

/-- What stands for an offer on a side after a level. -/
theorem ofOffer_onto (x : OfferId) : (l.onto es).filter (·.offer = x) =
    if l.entry.offer = x then l.shown else es.filter (·.offer = x) := by
  unfold onto
  split
  · rename_i hx
    subst hx
    have hnone : (es.filter (·.offer ≠ l.entry.offer)).filter (·.offer = l.entry.offer) = [] := by
      simp [List.filter_filter]
    unfold place shown
    split
    · -- the entry stands alone among those of its offer, wherever it was put
      have hperm := (BookEntry.insertOn_perm l.side l.entry
        (es.filter (·.offer ≠ l.entry.offer))).filter (·.offer = l.entry.offer)
      rw [List.filter_cons_of_pos (by simp), hnone] at hperm
      exact List.perm_singleton.mp hperm
    · exact hnone
  · rename_i hx
    rw [filter_place_of_not (by simpa using hx), List.filter_filter]
    refine List.filter_congr fun e _ => ?_
    by_cases he : e.offer = x
    · simp [he, Ne.symm hx]
    · simp [he]

/-- Levels that leave the same standing for an offer do the same to their side. -/
theorem onto_congr (hside : l.side = l'.side) (hoffer : l.entry.offer = l'.entry.offer)
    (h : l.shown = l'.shown) : l.onto es = l'.onto es := by
  unfold shown at h
  unfold onto place
  rw [hside, hoffer]
  split at h <;> split at h
  · rename_i hl hl'
    rw [if_pos hl, if_pos hl', List.cons.inj h |>.1]
  · cases h
  · cases h
  · rename_i hl hl'
    rw [if_neg hl, if_neg hl']

end LevelUpdate

/-! ## Levels of a book -/

namespace OrderBook

variable {b b' : OrderBook} {l l' : LevelUpdate} {ls : List LevelUpdate}

/-- Both sides are in order. -/
def Ordered (b : OrderBook) : Prop := ∀ side, BookEntry.Ordered side (b.entries side)

theorem applyLevel_entries (b : OrderBook) (l : LevelUpdate) (side : BookSide) :
    (b.applyLevel l).entries side =
      if side = l.side then l.onto (b.entries side) else b.entries side := by
  rw [entries_applyLevel]
  split
  · rename_i hside
    subst hside
    rfl
  · rfl

theorem applyLevel_frame (b : OrderBook) (l : LevelUpdate) :
    (b.applyLevel l).pair = b.pair ∧ (b.applyLevel l).ledgerIndex = b.ledgerIndex :=
  withEntries_frame b l.side _

theorem ordered_applyLevel (h : b.Ordered) : (b.applyLevel l).Ordered := by
  intro side
  rw [applyLevel_entries]
  split
  · rename_i hside
    subst hside
    exact LevelUpdate.ordered_onto (h _)
  · exact h side

theorem applyLevel_comm (h : b.Ordered) (hne : l.entry.offer ≠ l'.entry.offer) :
    (b.applyLevel l).applyLevel l' = (b.applyLevel l').applyLevel l := by
  refine ext_entries ?_ ?_ fun side => ?_
  · simp only [applyLevel_frame]
  · simp only [applyLevel_frame]
  · simp only [applyLevel_entries]
    split
    · rename_i hl'
      split
      · rename_i hl
        exact LevelUpdate.onto_comm (hl ▸ h side) (hl ▸ hl') hne
      · rfl
    · rfl

/-- A level takes the place of an earlier one of its offer on its side. -/
theorem applyLevel_again (hside : l'.side = l.side) (hoffer : l'.entry.offer = l.entry.offer) :
    (b.applyLevel l).applyLevel l' = b.applyLevel l' := by
  refine ext_entries ?_ ?_ fun side => ?_
  · simp only [applyLevel_frame]
  · simp only [applyLevel_frame]
  · simp only [applyLevel_entries, hside]
    split
    · exact LevelUpdate.onto_again hoffer
    · rfl

theorem applyLevel_congr (hside : l.side = l'.side) (hoffer : l.entry.offer = l'.entry.offer)
    (h : l.shown = l'.shown) : b.applyLevel l = b.applyLevel l' := by
  refine ext_entries ?_ ?_ fun side => ?_
  · simp only [applyLevel_frame]
  · simp only [applyLevel_frame]
  · simp only [applyLevel_entries, hside, LevelUpdate.onto_congr hside hoffer h]

theorem foldl_applyLevel_comm (h : b.Ordered)
    (hne : ∀ x ∈ ls, x.entry.offer ≠ l.entry.offer) :
    (ls.foldl applyLevel b).applyLevel l = ls.foldl applyLevel (b.applyLevel l) := by
  induction ls generalizing b with
  | nil => rfl
  | cons x xs ih =>
    rw [List.foldl_cons, List.foldl_cons,
      ih (ordered_applyLevel h) fun y hy => hne y (List.mem_cons_of_mem _ hy),
      applyLevel_comm h (hne x List.mem_cons_self)]

/-- What levels make of the sides depends on the sides alone. -/
theorem entries_foldl (h : ∀ side, b.entries side = b'.entries side) (side : BookSide) :
    (ls.foldl applyLevel b).entries side = (ls.foldl applyLevel b').entries side := by
  induction ls generalizing b b' with
  | nil => exact h side
  | cons l ls ih => exact ih fun side => by rw [applyLevel_entries, applyLevel_entries, h]

/-- What every level keeps of a book, updates keep. -/
theorem apply_induction {P : OrderBook → Prop} {updates : List BookUpdate} (h : P b)
    (hlevel : ∀ b l, P b → P (b.applyLevel l)) : P (b.apply updates) := by
  unfold apply
  induction updates generalizing b with
  | nil => exact h
  | cons u us ih =>
    cases u with
    | trade t => exact ih h
    | level l => exact ih (hlevel b l h)

theorem ordered_apply {updates : List BookUpdate} (h : b.Ordered) : (b.apply updates).Ordered :=
  apply_induction h fun _ _ => ordered_applyLevel

/-! ## Two rounds of levels -/

section Rounds

variable {α : Type} {cs : List α} {f g : α → LevelUpdate}

/-- After a second round of levels for the same offers, the first is forgotten. -/
theorem foldl_again (h : b.Ordered) (hside : ∀ c, (g c).side = (f c).side)
    (hoffer : ∀ c, (g c).entry.offer = (f c).entry.offer)
    (hd : (cs.map fun c => (f c).entry.offer).Nodup) :
    (cs.map g).foldl applyLevel ((cs.map f).foldl applyLevel b) =
      (cs.map g).foldl applyLevel b := by
  induction cs generalizing b with
  | nil => rfl
  | cons c cs ih =>
    rw [List.map_cons, List.nodup_cons] at hd
    have hothers : ∀ l ∈ cs.map f, l.entry.offer ≠ (g c).entry.offer := by
      intro l hl heq
      obtain ⟨d, hd', rfl⟩ := List.mem_map.mp hl
      exact hd.1 (List.mem_map.mpr ⟨d, hd', heq.trans (hoffer c)⟩)
    simp only [List.map_cons, List.foldl_cons]
    rw [foldl_applyLevel_comm (ordered_applyLevel h) hothers,
      applyLevel_again (hside c) (hoffer c), ih (ordered_applyLevel h) hd.2]

/-- Levels that leave the same standing give the same book. -/
theorem foldl_congr (hside : ∀ c, (f c).side = (g c).side)
    (hoffer : ∀ c, (f c).entry.offer = (g c).entry.offer)
    (h : ∀ c ∈ cs, (f c).shown = (g c).shown) :
    (cs.map f).foldl applyLevel b = (cs.map g).foldl applyLevel b := by
  induction cs generalizing b with
  | nil => rfl
  | cons c cs ih =>
    simp only [List.map_cons, List.foldl_cons]
    rw [applyLevel_congr (hside c) (hoffer c) (h c List.mem_cons_self),
      ih fun d hd => h d (List.mem_cons_of_mem _ hd)]

/-- The entries of an offer on a side. -/
def ofOffer (b : OrderBook) (side : BookSide) (x : OfferId) : List BookEntry :=
  (b.entries side).filter (·.offer = x)

theorem mem_ofOffer {side : BookSide} {e : BookEntry} :
    e ∈ b.ofOffer side e.offer ↔ e ∈ b.entries side := by
  simp [ofOffer]

theorem ofOffer_applyLevel (b : OrderBook) (l : LevelUpdate) (side : BookSide) (x : OfferId) :
    (b.applyLevel l).ofOffer side x =
      if side = l.side ∧ l.entry.offer = x then l.shown else b.ofOffer side x := by
  unfold ofOffer
  rw [applyLevel_entries]
  by_cases hside : side = l.side
  · simp only [hside, if_true, true_and, LevelUpdate.ofOffer_onto]
  · simp only [hside, if_false, false_and]

/-- What stands for an offer after levels depends on the levels of this offer alone. -/
theorem ofOffer_foldl_congr {side : BookSide} {x : OfferId}
    (hb : b.ofOffer side x = b'.ofOffer side x) (hside : ∀ c, (f c).side = (g c).side)
    (hoffer : ∀ c, (f c).entry.offer = (g c).entry.offer)
    (h : ∀ c ∈ cs, (f c).entry.offer = x → (f c).shown = (g c).shown) :
    ((cs.map f).foldl applyLevel b).ofOffer side x =
      ((cs.map g).foldl applyLevel b').ofOffer side x := by
  induction cs generalizing b b' with
  | nil => exact hb
  | cons c cs ih =>
    refine ih ?_ fun d hd => h d (List.mem_cons_of_mem _ hd)
    rw [ofOffer_applyLevel, ofOffer_applyLevel, hside, hoffer]
    split
    · rename_i hc
      exact h c List.mem_cons_self ((hoffer c).trans hc.2)
    · exact hb

theorem ofOffer_foldl_of_not {side : BookSide} {x : OfferId}
    (h : ∀ c ∈ cs, (f c).entry.offer ≠ x) :
    ((cs.map f).foldl applyLevel b).ofOffer side x = b.ofOffer side x := by
  induction cs generalizing b with
  | nil => rfl
  | cons c cs ih =>
    rw [List.map_cons, List.foldl_cons, ih fun d hd => h d (List.mem_cons_of_mem _ hd),
      ofOffer_applyLevel, if_neg fun hc => h c List.mem_cons_self hc.2]

/-- What stands for an offer after levels of different offers, one of them of this offer. -/
theorem ofOffer_foldl (hd : (cs.map fun c => (f c).entry.offer).Nodup) {c : α} (hc : c ∈ cs) :
    ((cs.map f).foldl applyLevel b).ofOffer (f c).side (f c).entry.offer = (f c).shown := by
  induction cs generalizing b with
  | nil => cases hc
  | cons d cs ih =>
    rw [List.map_cons, List.nodup_cons] at hd
    rw [List.map_cons, List.foldl_cons]
    rcases List.mem_cons.mp hc with rfl | hc
    · rw [ofOffer_foldl_of_not, ofOffer_applyLevel, if_pos ⟨rfl, rfl⟩]
      intro d hd' heq
      exact hd.1 (List.mem_map.mpr ⟨d, hd', heq⟩)
    · exact ih hd.2 hc

/-- Rounds of levels for the same offers give the same sides just if they leave the same
standing for each of them. -/
theorem foldl_entries_eq_iff (hside : ∀ c, (f c).side = (g c).side)
    (hoffer : ∀ c, (f c).entry.offer = (g c).entry.offer)
    (hd : (cs.map fun c => (f c).entry.offer).Nodup) :
    (∀ side, ((cs.map f).foldl applyLevel b).entries side =
      ((cs.map g).foldl applyLevel b).entries side) ↔ ∀ c ∈ cs, (f c).shown = (g c).shown := by
  constructor
  · intro h c hc
    have hd' : (cs.map fun c => (g c).entry.offer).Nodup := by
      simpa only [hoffer] using hd
    rw [← ofOffer_foldl hd hc, ← ofOffer_foldl hd' hc, ← hside, ← hoffer]
    unfold ofOffer
    rw [h]
  · intro h side
    rw [foldl_congr hside hoffer h]

end Rounds

end OrderBook

end OfferDesk
