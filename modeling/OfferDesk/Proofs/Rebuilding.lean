-- What a rebuild of a book keeps of the streams. While a look at a book waits for its two answers
-- the streams go on to patch the book that is about to be given up. The new one holds what was
-- read and what comes after the commit, and nothing of what came before it.
import OfferDesk.Desk.BookView
import OfferDesk.Desk.Streaming
import OfferDesk.Proofs.SnapshotLedger

namespace OfferDesk

/-! ## The books of a desk -/

namespace DeskState

variable {s s' : DeskState} {d : Desk} {o : Outcome}

/-- A transaction of a stream patches the book of every pair. -/
theorem find?_patchBooks (h : s.patchBooks? o = some s') (pair : String) :
    s'.books.find? pair = (s.books.find? pair).bind fun b => b.patchAll? [o] := by
  simp only [patchBooks?, Option.bind_eq_bind, Option.bind_eq_some_iff, Option.pure_def,
    Option.some.injEq] at h
  obtain ⟨books, hbooks, rfl⟩ := h
  rw [Table.find?_map? hbooks]
  simp only [LiveBook.patchAll?_singleton]

theorem books_applyFills (h : s.applyFills? d o = some s') : s'.books = s.books := by
  simp only [applyFills?, Option.bind_eq_bind, Option.bind_eq_some_iff, Option.pure_def,
    Option.some.injEq] at h
  obtain ⟨_, _, rfl⟩ := h
  rfl

theorem find?_userOutcome (h : s.userOutcome? d o = some s') (pair : String) :
    s'.books.find? pair = (s.books.find? pair).bind fun b => b.patchAll? [o] := by
  simp only [userOutcome?, Option.bind_eq_bind, Option.bind_eq_some_iff] at h
  obtain ⟨s₁, hpatch, hfills⟩ := h
  rw [books_applyFills hfills]
  exact find?_patchBooks hpatch pair

end DeskState

theorem bind_patchAll?_nil (b? : Option LiveBook) : (b?.bind fun b => b.patchAll? []) = b? := by
  cases b? <;> rfl

/-! ## What reaches a desk while a look at a book waits -/

/-- A reply to the look, a transaction of the account stream or of the book stream, a rebuild that
another look commits, or a change of the desk that leaves the books alone. -/
inductive BookEvent where
  | reply (r : Reply)
  | userMessage (o : Outcome)
  | bookMessage (o : Outcome)
  | rebuilt (market : Market) (snapshot : OfferSnapshot)
  | elsewhere (change : DeskState → DeskState) (keeps : ∀ s, (change s).books = s.books)

namespace BookEvent

def reply? : BookEvent → Option Reply
  | reply r => some r
  | _ => none

/-- The transaction that an event delivers. -/
def outcome? : BookEvent → Option Outcome
  | userMessage o => some o
  | bookMessage o => some o
  | _ => none

/-- Whether an event is a rebuild of the book of a pair. -/
def rebuilds (pair : String) : BookEvent → Bool
  | rebuilt m _ => m.pair = pair
  | _ => false

end BookEvent

namespace BookView

/-- The desk and the look after an event. A reply that nobody waits for does nothing, and there is
no result where an amount leaves the range of decimals. -/
def step? (d : Desk) (t : Turn BookView Result) : BookEvent → Option (Turn BookView Result)
  | .reply r =>
    match t.2 with
    | .ask _ _ w => some (w.resume d t.1 r)
    | _ => some t
  | .userMessage o => (t.1.userOutcome? d o).map (·, t.2)
  | .bookMessage o => (t.1.patchBooks? o).map (·, t.2)
  | .rebuilt m snapshot => some ((commit d t.1 m snapshot).1, t.2)
  | .elsewhere change _ => some (change t.1, t.2)

/-- The desk and the look after one event after another. -/
def run? (d : Desk) (t : Turn BookView Result) (events : List BookEvent) :
    Option (Turn BookView Result) :=
  events.foldlM (step? d) t

variable {d : Desk} {s s' : DeskState} {p p' : Progress BookView Result} {event : BookEvent}
  {events : List BookEvent} {pair : String} {market : Market}

theorem run?_cons {t t' : Turn BookView Result} (h : run? d t (event :: events) = some t') :
    ∃ t₁, step? d t event = some t₁ ∧ run? d t₁ events = some t' := by
  rw [run?, List.foldlM_cons, Option.bind_eq_bind, Option.bind_eq_some_iff] at h
  exact h

/-- Whether a look has come to an end. -/
def isOver : Progress BookView Result → Bool
  | .ask .. => false
  | _ => true

/-- An event that is no reply to a waiting look leaves the look as it is. -/
theorem step?_look (h : step? d (s, p) event = some (s', p'))
    (hapart : isOver p = true ∨ event.reply? = none) : p' = p := by
  cases event with
  | reply r =>
    cases p with
    | ask pause request w => simp [isOver, BookEvent.reply?] at hapart
    | done result => cases h; rfl
    | halted => cases h; rfl
  | userMessage o =>
    obtain ⟨s₁, _, he⟩ := Option.map_eq_some_iff.mp h
    cases he
    rfl
  | bookMessage o =>
    obtain ⟨s₁, _, he⟩ := Option.map_eq_some_iff.mp h
    cases he
    rfl
  | rebuilt m snapshot => cases h; rfl
  | elsewhere change keeps => cases h; rfl

/-- Such an event patches the book of a pair with what it delivers, unless it rebuilds that book. -/
theorem step?_books (h : step? d (s, p) event = some (s', p'))
    (hapart : isOver p = true ∨ event.reply? = none) (hkeeps : event.rebuilds pair = false) :
    s'.books.find? pair =
      (s.books.find? pair).bind fun b => b.patchAll? event.outcome?.toList := by
  have hidle := bind_patchAll?_nil (s.books.find? pair)
  cases event with
  | reply r =>
    cases p with
    | ask pause request w => simp [isOver, BookEvent.reply?] at hapart
    | done result =>
      cases h
      exact hidle.symm
    | halted =>
      cases h
      exact hidle.symm
  | userMessage o =>
    obtain ⟨s₁, hs, he⟩ := Option.map_eq_some_iff.mp h
    cases he
    exact DeskState.find?_userOutcome hs pair
  | bookMessage o =>
    obtain ⟨s₁, hs, he⟩ := Option.map_eq_some_iff.mp h
    cases he
    exact DeskState.find?_patchBooks hs pair
  | rebuilt m snapshot =>
    cases h
    have hne : pair ≠ m.pair := by
      rintro rfl
      simp [BookEvent.rebuilds] at hkeeps
    exact (Table.find?_put_of_ne s.books _ hne).trans hidle.symm
  | elsewhere change keeps =>
    cases h
    rw [keeps s]
    exact hidle.symm

/-- After the end of a look nothing becomes of it any more. -/
theorem run?_look (h : run? d (s, p) events = some (s', p')) (hover : isOver p = true) :
    p' = p := by
  induction events generalizing s with
  | nil => cases h; rfl
  | cons event events ih =>
    obtain ⟨⟨s₁, p₁⟩, hstep, hrun⟩ := run?_cons h
    obtain rfl := step?_look hstep (Or.inl hover)
    exact ih hrun

/-- After the end of a look the book of a pair is patched with all that is delivered, as long as
no other look rebuilds it. -/
theorem run?_books (h : run? d (s, p) events = some (s', p')) (hover : isOver p = true)
    (hkeeps : ∀ e ∈ events, e.rebuilds pair = false) : s'.books.find? pair =
      (s.books.find? pair).bind fun b => b.patchAll? (events.filterMap (·.outcome?)) := by
  induction events generalizing s with
  | nil =>
    cases h
    exact (bind_patchAll?_nil _).symm
  | cons event events ih =>
    obtain ⟨⟨s₁, p₁⟩, hstep, hrun⟩ := run?_cons h
    have hbooks := step?_books hstep (Or.inl hover) (hkeeps event List.mem_cons_self)
    obtain rfl := step?_look hstep (Or.inl hover)
    rw [ih hrun fun e he => hkeeps e (List.mem_cons_of_mem _ he), hbooks, Option.bind_assoc]
    have hsplit : (event :: events).filterMap (·.outcome?) =
        event.outcome?.toList ++ events.filterMap (·.outcome?) := by
      rw [List.filterMap_cons]
      cases event.outcome? <;> rfl
    simp only [hsplit, LiveBook.patchAll?_append]

/-! ## The replies to a look -/

theorem start_cases (d : Desk) (s : DeskState) (market : Market) :
    start d s market = advance d s market (BookFetch.start market d.config.offersLimit) ∨
      ∃ book, start d s market = (s, .done (.ok book)) := by
  unfold start
  split
  · split
    · exact Or.inl rfl
    · exact Or.inr ⟨_, rfl⟩
  · exact Or.inl rfl

/-- While a look waits, its fetch has come as far as the replies bring it. -/
theorem run?_fetch {q : Progress BookFetch BookFetch.Result} {pause : Nat} {request : Request}
    {w : BookView} (h : run? d (advance d s market q) events = some (s', .ask pause request w)) :
    w.market = market ∧
      BookFetch.answered q (events.filterMap (·.reply?)) = .ask pause request w.fetch := by
  induction events generalizing s q with
  | nil =>
    cases q with
    | ask pause₀ request₀ f =>
      cases h
      exact ⟨rfl, rfl⟩
    | done result => cases result <;> cases h
    | halted => cases h
  | cons event events ih =>
    cases q with
    | ask pause₀ request₀ f =>
      obtain ⟨⟨s₁, p₁⟩, hstep, hrun⟩ := run?_cons h
      cases hr : event.reply? with
      | none =>
        obtain rfl := step?_look hstep (Or.inr hr)
        rw [List.filterMap_cons, hr]
        exact ih (s := s₁) (q := .ask pause₀ request₀ f) hrun
      | some r =>
        cases event with
        | reply r' =>
          cases hr
          have hresume : advance d s market (f.resume r) = (s₁, p₁) := Option.some.inj hstep
          rw [← hresume] at hrun
          exact ih hrun
        | userMessage o => cases hr
        | bookMessage o => cases hr
        | rebuilt m snapshot => cases hr
        | elsewhere change keeps => cases hr
    | done result => cases result <;> cases run?_look h rfl
    | halted => cases run?_look h rfl

/-! ## A rebuild -/

/-- A look that comes to a book with a reply has two successful answers, and has built the book
anew from them. -/
theorem rebuild_of_answers {events : List BookEvent} {pause : Nat} {request : Request}
    {w : BookView} {reply : Reply} {s₁ s₂ : DeskState} {book : OrderBook}
    (hwait : run? d (start d s market) events = some (s₁, .ask pause request w))
    (hdone : w.resume d s₁ reply = (s₂, .done (.ok book))) :
    ∃ base quote, events.filterMap (·.reply?) = [.ok base] ∧ reply = .ok quote ∧
      s₂ = (commit d s₁ market (BookFetch.snapshotOf base quote)).1 := by
  have hstart : start d s market =
      advance d s market (BookFetch.start market d.config.offersLimit) := by
    rcases start_cases d s market with h | ⟨b, h⟩
    · exact h
    · rw [h] at hwait
      cases run?_look hwait rfl
  rw [hstart] at hwait
  obtain ⟨hmarket, hfetch⟩ := run?_fetch hwait
  rw [resume, hmarket] at hdone
  rcases BookFetch.answered_cases market d.config.offersLimit (events.filterMap (·.reply?)) with
    ⟨hreplies, hq⟩ | ⟨base, hreplies, _, hq⟩ | ⟨_, _, _, _, _, _, hq⟩ | ⟨e, hq⟩
  · have hw : w.fetch = ⟨market, d.config.offersLimit, .base⟩ :=
      (Progress.ask.inj (hfetch.symm.trans hq)).2.2
    rw [hw] at hdone
    rcases BookFetch.success_or_not reply with ⟨a, rfl, ha⟩ | hnot
    · rw [BookFetch.resume_base ha] at hdone
      cases hdone
    · obtain ⟨e, he⟩ := BookFetch.resume_of_not_ok ⟨market, d.config.offersLimit, .base⟩ hnot
      rw [he] at hdone
      cases hdone
  · have hw : w.fetch = BookFetch.afterBase market d.config.offersLimit base :=
      (Progress.ask.inj (hfetch.symm.trans hq)).2.2
    rw [hw] at hdone
    rcases BookFetch.success_or_not reply with ⟨quote, rfl, hquote⟩ | hnot
    · rw [BookFetch.resume_afterBase hquote] at hdone
      cases hdone
      exact ⟨base, quote, hreplies, rfl, rfl⟩
    · obtain ⟨e, he⟩ := BookFetch.resume_of_not_ok
        (BookFetch.afterBase market d.config.offersLimit base) hnot
      rw [he] at hdone
      cases hdone
  · cases hfetch.symm.trans hq
  · cases hfetch.symm.trans hq

/-- A rebuild of a book that no other rebuild of it follows. The new book is built of the two
answers and patched with what is delivered after its commit. It holds all that was delivered if
what came before the commit is in the snapshot already, or about other markets. -/
theorem rebuild_keeps_what_follows {before after : List BookEvent} {pause : Nat}
    {request : Request} {w : BookView} {reply : Reply} {s₁ s₂ s₃ : DeskState} {book : OrderBook}
    (hwait : run? d (start d s market) before = some (s₁, .ask pause request w))
    (hdone : w.resume d s₁ reply = (s₂, .done (.ok book)))
    (hafter : run? d (s₂, .done (.ok book)) after = some (s₃, p))
    (hlast : ∀ e ∈ after, e.rebuilds market.pair = false) :
    ∃ base quote committed, before.filterMap (·.reply?) = [.ok base] ∧ reply = .ok quote ∧
      committed = ((s₁.books.find? market.pair).getD
        (.new market d.config.resetInterval.toNat)).reset (BookFetch.snapshotOf base quote) s₁.now ∧
      s₂.books.find? market.pair = some committed ∧
      s₃.books.find? market.pair = committed.patchAll? (after.filterMap (·.outcome?)) ∧
      ((∀ o ∈ before.filterMap (·.outcome?),
          committed.skips o = true ∨ committed.market.diff? o.nodes = some []) →
        s₃.books.find? market.pair = committed.patchAll?
          (before.filterMap (·.outcome?) ++ after.filterMap (·.outcome?))) := by
  obtain ⟨base, quote, hbase, hquote, hcommit⟩ := rebuild_of_answers hwait hdone
  have hcommitted : s₂.books.find? market.pair = some
      (((s₁.books.find? market.pair).getD (.new market d.config.resetInterval.toNat)).reset
        (BookFetch.snapshotOf base quote) s₁.now) := by
    rw [hcommit]
    exact Table.find?_put_self ..
  have hbook := run?_books hafter rfl hlast
  rw [hcommitted, Option.bind_some] at hbook
  refine ⟨base, quote, _, hbase, hquote, rfl, hcommitted, hbook, fun hidle => ?_⟩
  rw [LiveBook.patchAll?_append, LiveBook.patchAll?_of_idle hidle, Option.bind_some]
  exact hbook

/-! The first look at a book. The asks are read at ledger 100, the book stream brings a transaction,
and then the bids are read, of ledger 100 too. -/

def bookDesk : Desk where
  signer := ⟨"rMe", fun _ => .error "locked"⟩
  config := default
  markets := .ofList [("SOLO-XRP", soloXrp)]

open LiveBook (asksAnswer bidsAnswer takeOfAsk askAmounts)

/-- The book of the two answers. -/
def rebuiltBook : LiveBook :=
  (LiveBook.new soloXrp bookDesk.config.resetInterval.toNat).reset
    (BookFetch.snapshotOf asksAnswer (bidsAnswer 100)) 0

/-- The desk after the commit. -/
def rebuiltDesk : DeskState :=
  (commit bookDesk {} soloXrp (BookFetch.snapshotOf asksAnswer (bidsAnswer 100))).1

/-- The look between the two answers. -/
def betweenReads : BookView :=
  ⟨soloXrp, BookFetch.afterBase soloXrp bookDesk.config.offersLimit asksAnswer⟩

def askingForBids : Progress BookView Result :=
  .ask 0 (.bookOffers soloXrp.quote soloXrp.base bookDesk.config.offersLimit) betweenReads

/-- A take that both answers hold already comes before the commit, and another one after it. -/
theorem book_of_a_rebuild : ∃ s₃ p,
    run? bookDesk (start bookDesk {} soloXrp) [.reply (.ok asksAnswer),
      .bookMessage (takeOfAsk.inLedger 100)] = some ({}, askingForBids) ∧
    betweenReads.resume bookDesk {} (.ok (bidsAnswer 100)) =
      (rebuiltDesk, .done (.ok rebuiltBook.book)) ∧
    run? bookDesk (rebuiltDesk, .done (.ok rebuiltBook.book)) [.bookMessage takeOfAsk] =
      some (s₃, p) ∧
    s₃.books.find? "SOLO-XRP" = rebuiltBook.patchAll? [takeOfAsk.inLedger 100, takeOfAsk] := by
  have hwait : run? bookDesk (start bookDesk {} soloXrp) [.reply (.ok asksAnswer),
      .bookMessage (takeOfAsk.inLedger 100)] = some ({}, askingForBids) := rfl
  have hdone : betweenReads.resume bookDesk {} (.ok (bidsAnswer 100)) =
      (rebuiltDesk, .done (.ok rebuiltBook.book)) := rfl
  obtain ⟨⟨s₃, p⟩, hafter⟩ := Option.isSome_iff_exists.mp
    (show (run? bookDesk (rebuiltDesk, .done (.ok rebuiltBook.book))
      [.bookMessage takeOfAsk]).isSome = true by decide +kernel)
  refine ⟨s₃, p, hwait, hdone, hafter, ?_⟩
  have hlast : ∀ e ∈ [BookEvent.bookMessage takeOfAsk], e.rebuilds soloXrp.pair = false := by
    intro e he
    rw [List.mem_singleton.mp he]
    rfl
  obtain ⟨base, quote, committed, hbase, hquote, hcommitted, _, _, hall⟩ :=
    rebuild_keeps_what_follows hwait hdone hafter hlast
  obtain rfl : asksAnswer = base := Except.ok.inj (List.cons.inj hbase).1
  obtain rfl : bidsAnswer 100 = quote := Except.ok.inj hquote
  obtain rfl : committed = rebuiltBook := hcommitted
  refine hall fun o ho => Or.inl ?_
  rw [List.mem_singleton.mp ho]
  decide +kernel

/-- The take comes while the look waits for the bids. It is newer than the snapshot, and the new
book does not show it. -/
theorem take_before_the_commit_is_lost :
    run? bookDesk (start bookDesk {} soloXrp) [.reply (.ok asksAnswer), .bookMessage takeOfAsk] =
      some ({}, askingForBids) ∧
    betweenReads.resume bookDesk {} (.ok (bidsAnswer 100)) =
      (rebuiltDesk, .done (.ok rebuiltBook.book)) ∧
    rebuiltDesk.books.find? "SOLO-XRP" = some rebuiltBook ∧
    rebuiltBook.skips takeOfAsk = false ∧ askAmounts rebuiltBook = [.ofWord 100] ∧
    (rebuiltBook.patchAll? [takeOfAsk]).map askAmounts = some [.ofWord 60] :=
  ⟨rfl, rfl, by decide +kernel⟩

end BookView

end OfferDesk
