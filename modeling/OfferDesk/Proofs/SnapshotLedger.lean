-- The ledger of a snapshot. A fetch reads the two directions of a market one after the other, and
-- ledgers may close in between; the snapshot goes by the later of the two. So a transaction is
-- taken in just if it is newer than both reads, whichever direction it is about.
import OfferDesk.Book.Fetch
import OfferDesk.Proofs.LiveBooks

namespace OfferDesk

/-! ## What a fetch comes to -/

namespace BookFetch

variable {market : Market} {limit : UInt32} {rs : List Reply}

/-- How a fetch goes on with a reply, if it waits for one. -/
def next (p : Progress BookFetch Result) (r : Reply) : Progress BookFetch Result :=
  match p with
  | .ask _ _ f => f.resume r
  | p => p

/-- How far a fetch has come with the replies in turn. -/
def answered (p : Progress BookFetch Result) (rs : List Reply) : Progress BookFetch Result :=
  rs.foldl next p

/-- The snapshot of an answer for each direction. -/
def snapshotOf (base quote : Answer) : OfferSnapshot :=
  add (add ⟨[], none⟩ base.result) quote.result

theorem answered_done (result : Result) (rs : List Reply) :
    answered (.done result) rs = .done result := by
  induction rs with
  | nil => rfl
  | cons r rs ih => exact ih

theorem answered_cons (pause : Nat) (request : Request) (f : BookFetch) (r : Reply)
    (rs : List Reply) : answered (.ask pause request f) (r :: rs) = answered (f.resume r) rs := rfl

/-- The fetch while it waits for the offers of the quote currency. -/
def afterBase (market : Market) (limit : UInt32) (base : Answer) : BookFetch :=
  ⟨market, limit, .quote (add ⟨[], none⟩ base.result)⟩

theorem resume_of_not_ok (f : BookFetch) {r : Reply}
    (h : ∀ a, r = .ok a → a.success = false) : ∃ e, f.resume r = .done (.error e) := by
  cases r with
  | error text => exact ⟨_, rfl⟩
  | ok a =>
    have ha := h a rfl
    exact ⟨_, by rw [resume, take, ha]; rfl⟩

theorem resume_base {a : Answer} (h : a.success = true) :
    resume ⟨market, limit, .base⟩ (.ok a) =
      .ask 0 (.bookOffers market.quote market.base limit) (afterBase market limit a) := by
  rw [resume, take, if_pos h]
  rfl

theorem resume_afterBase {base a : Answer} (h : a.success = true) :
    (afterBase market limit base).resume (.ok a) = .done (.ok (snapshotOf base a)) := by
  rw [resume, take, if_pos h]
  rfl

theorem success_or_not (r : Reply) :
    (∃ a, r = .ok a ∧ a.success = true) ∨ ∀ a, r = .ok a → a.success = false := by
  cases r with
  | error text => exact Or.inr fun _ h => nomatch h
  | ok a =>
    cases ha : a.success with
    | true => exact Or.inl ⟨a, rfl, ha⟩
    | false =>
      refine Or.inr fun a' h => ?_
      cases h
      exact ha

/-- All that a fetch can come to: it waits for its first reply or its second, gives the snapshot
of two successful answers, or has failed. -/
theorem answered_cases (market : Market) (limit : UInt32) (rs : List Reply) :
    (rs = [] ∧ answered (start market limit) rs = start market limit) ∨
    (∃ base, rs = [.ok base] ∧ base.success = true ∧ answered (start market limit) rs =
      .ask 0 (.bookOffers market.quote market.base limit) (afterBase market limit base)) ∨
    (∃ base quote rest, rs = .ok base :: .ok quote :: rest ∧ base.success = true ∧
      quote.success = true ∧
        answered (start market limit) rs = .done (.ok (snapshotOf base quote))) ∨
    ∃ e, answered (start market limit) rs = .done (.error e) := by
  cases rs with
  | nil => exact Or.inl ⟨rfl, rfl⟩
  | cons r rs =>
    rcases success_or_not r with ⟨base, rfl, hbase⟩ | hr
    · rw [start, answered_cons, resume_base hbase]
      cases rs with
      | nil => exact Or.inr (Or.inl ⟨base, rfl, hbase, rfl⟩)
      | cons r rs =>
        rcases success_or_not r with ⟨quote, rfl, hquote⟩ | hr
        · rw [answered_cons, resume_afterBase hquote, answered_done]
          exact Or.inr (Or.inr (Or.inl ⟨base, quote, rs, rfl, hbase, hquote, rfl⟩))
        · obtain ⟨e, he⟩ := resume_of_not_ok (afterBase market limit base) hr
          rw [answered_cons, he, answered_done]
          exact Or.inr (Or.inr (Or.inr ⟨e, rfl⟩))
    · obtain ⟨e, he⟩ := resume_of_not_ok ⟨market, limit, .base⟩ hr
      rw [start, answered_cons, he, answered_done]
      exact Or.inr (Or.inr (Or.inr ⟨e, rfl⟩))

theorem snapshotOf_ledgerIndex {base quote : Answer} {i₁ i₂ : UInt32}
    (h₁ : ledgerOf? base.result = some i₁) (h₂ : ledgerOf? quote.result = some i₂) :
    (snapshotOf base quote).ledgerIndex = some (max i₁ i₂) := by
  simp only [snapshotOf, add, h₁, h₂, laterOf]

end BookFetch

/-! ## What the snapshot keeps out -/

/-- The same transaction in another ledger. -/
def Outcome.inLedger (o : Outcome) (index : UInt32) : Outcome := { o with ledgerIndex := some index }

namespace LiveBook

variable {b b₀ : LiveBook} {o : Outcome} {os : List Outcome} {m : Market} {limit : UInt32}
  {base quote : Answer} {snapshot : OfferSnapshot} {i₁ i₂ : UInt32}

/-- A validated success is taken in just if it is of a later ledger than both reads. -/
theorem skips_inLedger_iff (h : b.snapshotLedger = some (max i₁ i₂)) (hv : o.validated = true)
    (hs : o.isSuccess = true) (n : UInt32) :
    b.skips (o.inLedger n) = false ↔ i₁ < n ∧ i₂ < n := by
  have hs' : (o.inLedger n).isSuccess = true := hs
  have hskips : b.skips (o.inLedger n) = decide (n ≤ if i₁ ≤ i₂ then i₂ else i₁) := by
    simp only [skips, hs', inSnapshot, h]
    simp [Outcome.inLedger, hv]
    rfl
  rw [hskips, decide_eq_false_iff_not]
  split
  · grind
  · grind

/-- A book goes by a snapshot of two reads. A transaction of a later ledger than both patches it,
and any other is ignored; so all that is newer than the read of one direction is taken in just if
the other direction was not read later. -/
theorem newer_than_both_reads
    (hfetch : BookFetch.answered (BookFetch.start m limit) [.ok base, .ok quote] =
      .done (.ok snapshot))
    (h₁ : BookFetch.ledgerOf? base.result = some i₁)
    (h₂ : BookFetch.ledgerOf? quote.result = some i₂) {now : Nat}
    (hrun : (b₀.reset snapshot now).patchAll? os = some b)
    (hv : o.validated = true) (hs : o.isSuccess = true) :
    (∀ n, b.applyOutcome? (o.inLedger n) =
      if i₁ < n ∧ i₂ < n then b.patch? (o.inLedger n) else some (b, [])) ∧
    ((∀ n, i₁ < n → b.skips (o.inLedger n) = false) ↔ i₂ ≤ i₁) ∧
    ((∀ n, i₂ < n → b.skips (o.inLedger n) = false) ↔ i₁ ≤ i₂) := by
  have hledger : b.snapshotLedger = some (max i₁ i₂) := by
    rcases BookFetch.answered_cases m limit [.ok base, .ok quote] with
      ⟨h, _⟩ | ⟨_, h, _⟩ | ⟨_, _, _, h, _, _, hdone⟩ | ⟨e, hdone⟩
    · cases h
    · cases h
    · cases h
      cases hfetch.symm.trans hdone
      rw [(patchAll?_frame hrun).2]
      exact BookFetch.snapshotOf_ledgerIndex h₁ h₂
    · cases hfetch.symm.trans hdone
  have hskips := skips_inLedger_iff hledger hv hs
  refine ⟨fun n => ?_, ?_, ?_⟩
  · split
    · rename_i hn
      exact applyOutcome?_of_not_skips ((hskips n).mpr hn)
    · rename_i hn
      exact applyOutcome?_of_skips (by simpa using mt (hskips n).mp hn)
  · simp only [hskips]
    refine ⟨fun h => ?_, fun hle n hn => ⟨hn, by grind⟩⟩
    -- the transactions of the later ledger are not taken in
    by_contra hlt
    have hself := h i₂ (by grind)
    grind
  · simp only [hskips]
    refine ⟨fun h => ?_, fun hle n hn => ⟨by grind, hn⟩⟩
    by_contra hlt
    have hself := h i₁ (by grind)
    grind

/-! The asks are read at ledger 100. Ledger 101 closes with a take of the one ask, and then the
bids are read. -/

def asksAnswer : Answer := .ofResult (.object [
  ("offers", .array [.object [("Account", .string "rA"), ("Sequence", .ofNat 1),
    ("TakerGets", (soloWire "100").toJson), ("TakerPays", .string "50000000")]]),
  ("ledger_index", .ofNat 100)])

def bidsAnswer (ledger : Nat) : Answer :=
  .ofResult (.object [("offers", .array []), ("ledger_index", .ofNat ledger)])

def readAcrossLedgers : LiveBook :=
  (new soloXrp 60).reset (BookFetch.snapshotOf asksAnswer (bidsAnswer 101)) 0

theorem newer_than_reads_of_two_ledgers : (∀ n, readAcrossLedgers.applyOutcome?
    (takeOfAsk.inLedger n) = if 100 < n ∧ 101 < n then
      readAcrossLedgers.patch? (takeOfAsk.inLedger n) else some (readAcrossLedgers, [])) ∧
    ((∀ n, 100 < n → readAcrossLedgers.skips (takeOfAsk.inLedger n) = false) ↔
      (101 : UInt32) ≤ 100) ∧
    ((∀ n, 101 < n → readAcrossLedgers.skips (takeOfAsk.inLedger n) = false) ↔
      (100 : UInt32) ≤ 101) :=
  have hfetch : BookFetch.answered (BookFetch.start soloXrp 60)
      [.ok asksAnswer, .ok (bidsAnswer 101)] =
      .done (.ok (BookFetch.snapshotOf asksAnswer (bidsAnswer 101))) := rfl
  have hrun : readAcrossLedgers.patchAll? [] = some readAcrossLedgers := rfl
  newer_than_both_reads hfetch (by decide +kernel) (by decide +kernel) hrun rfl (by decide)

/-- The take changes the ask after that was read, and the snapshot keeps it out. -/
theorem take_after_the_read_is_skipped :
    BookFetch.answered (BookFetch.start soloXrp 60) [.ok asksAnswer, .ok (bidsAnswer 101)] =
      .done (.ok (BookFetch.snapshotOf asksAnswer (bidsAnswer 101))) ∧
    BookFetch.ledgerOf? asksAnswer.result = some 100 ∧ takeOfAsk.ledgerIndex = some 101 ∧
    readAcrossLedgers.skips takeOfAsk = true ∧
    askAmounts readAcrossLedgers = [.ofWord 100] ∧
    (readAcrossLedgers.patchAll? [takeOfAsk]).map askAmounts = some [.ofWord 100] ∧
    (readAcrossLedgers.patch? takeOfAsk).map (askAmounts ·.1) = some [.ofWord 60] :=
  ⟨rfl, by decide +kernel⟩

end LiveBook

end OfferDesk
