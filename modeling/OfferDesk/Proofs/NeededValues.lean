-- The exact values that a message needs a decimal for. Legs are taken apart, shares are added up,
-- fees are charged and balances summed without a check, so a message stops the work at a desk just
-- if one of these values is too large for any decimal.
import OfferDesk.Proofs.BothSides
import OfferDesk.Proofs.DecimalRange
import OfferDesk.Proofs.DeskInvariants
import OfferDesk.Proofs.StaleLevels

namespace OfferDesk

/-- A pass comes to nothing just if one of its steps does. -/
theorem foldlM_eq_none_iff {α β : Type} {f : β → α → Option β} {b : β} {l : List α} :
    l.foldlM f b = none ↔ ∃ before a after b', l = before ++ a :: after ∧
      before.foldlM f b = some b' ∧ f b' a = none := by
  induction l generalizing b with
  | nil => simp
  | cons x xs ih =>
    rw [List.foldlM_cons]
    cases hx : f b x with
    | none => exact iff_of_true rfl ⟨[], x, xs, b, rfl, rfl, hx⟩
    | some b₁ =>
      rw [Option.bind_eq_bind, Option.bind_some, ih]
      constructor
      · rintro ⟨before, a, after, b', rfl, hbefore, ha⟩
        exact ⟨x :: before, a, after, b', rfl, by simp [hx, hbefore], ha⟩
      · rintro ⟨before, a, after, b', hsplit, hbefore, ha⟩
        cases before with
        | nil =>
          cases hsplit
          cases hbefore
          rw [hx] at ha
          cases ha
        | cons y before =>
          cases hsplit
          rw [List.foldlM_cons, hx] at hbefore
          exact ⟨before, a, after, b', rfl, hbefore, ha⟩

/-- What each step carries on to one step more holds after a pass for all its steps. -/
theorem foldlM_counts {α β : Type} {f : β → α → Option β} {P : Nat → β → Prop} {b b' : β}
    {l : List α} {k : Nat} (hstep : ∀ k b a b', a ∈ l → P k b → f b a = some b' → P (k + 1) b')
    (hb : P k b) (h : l.foldlM f b = some b') : P (k + l.length) b' := by
  induction l generalizing b k with
  | nil =>
    cases h
    exact hb
  | cons a l ih =>
    rw [List.foldlM_cons] at h
    obtain ⟨next, hnext, hrest⟩ := Option.bind_eq_some_iff.mp h
    have hfirst := hstep k b a next List.mem_cons_self hb hnext
    have hall := ih (fun k b x b' hx => hstep k b x b' (List.mem_cons_of_mem _ hx)) hfirst hrest
    rwa [Nat.add_assoc, Nat.add_comm 1] at hall

/-- One of the values that are needed is not near any decimal. -/
def Decimal.Lack (needs : Rat → Prop) : Prop := ∃ x, needs x ∧ ¬ Fits x

open Decimal (Fits Lack)

theorem Decimal.add?_eq_none_iff {a b : Decimal} :
    a.add? b = none ↔ ¬ Fits (a.toRat + b.toRat) := by
  rw [← add?_isSome_iff, Option.isSome_iff_ne_none, not_not]

theorem Decimal.sub?_eq_none_iff {a b : Decimal} :
    a.sub? b = none ↔ ¬ Fits (a.toRat - b.toRat) := by
  rw [← sub?_isSome_iff, Option.isSome_iff_ne_none, not_not]

theorem Decimal.mul?_eq_none_iff {a b : Decimal} :
    a.mul? b = none ↔ ¬ Fits (a.toRat * b.toRat) := by
  rw [← mul?_isSome_iff, Option.isSome_iff_ne_none, not_not]

/-! ## What was taken of an offer -/

/-- Both differences of legs. -/
inductive AffectedNode.Change.Needs (c : Change) : Rat → Prop where
  | gets : c.Needs (c.before.gets.value.toRat - c.getsAfter.toRat)
  | pays : c.Needs (c.before.pays.value.toRat - c.paysAfter.toRat)

theorem AffectedNode.Change.taken?_eq_none_iff {c : Change} :
    c.taken? = none ↔ Lack c.Needs := by
  unfold taken?
  constructor
  · intro h
    cases hgets : c.before.gets.value.sub? c.getsAfter with
    | none => exact ⟨_, .gets, Decimal.sub?_eq_none_iff.mp hgets⟩
    | some gets =>
      cases hpays : c.before.pays.value.sub? c.paysAfter with
      | none => exact ⟨_, .pays, Decimal.sub?_eq_none_iff.mp hpays⟩
      | some pays => simp [hgets, hpays] at h
  · rintro ⟨x, hx, hlack⟩
    cases hx with
    | gets => simp [Decimal.sub?_eq_none_iff.mpr hlack]
    | pays =>
      cases c.before.gets.value.sub? c.getsAfter <;> simp [Decimal.sub?_eq_none_iff.mpr hlack]

/-- What a transaction is patched into a book with: the legs that it takes of offers of the market.
The funds of capped offers are never missing. -/
inductive LiveBook.Needs (b : LiveBook) (o : Outcome) : Rat → Prop where
  | leg {n : AffectedNode} {r : NodeReading} {c : AffectedNode.Change} {x : Rat}
    (new : b.skips o = false) (mem : n ∈ o.offerNodes) (reads : b.market.readNode n = .ok (some r))
    (change : r.change = some c) (needs : c.Needs x) : b.Needs o x

theorem LiveBook.applyOutcome?_lacks_iff {b : LiveBook} {o : Outcome} (hb : b.Sound) :
    b.applyOutcome? o = none ↔ Lack (b.Needs o) := by
  rw [applyOutcome?_eq_none_iff hb]
  constructor
  · rintro ⟨hnew, n, hn, r, c, hreads, hchange, htaken⟩
    obtain ⟨x, hx, hlack⟩ := AffectedNode.Change.taken?_eq_none_iff.mp htaken
    exact ⟨x, .leg hnew hn hreads hchange hx, hlack⟩
  · rintro ⟨x, ⟨hnew, hn, hreads, hchange, hx⟩, hlack⟩
    exact ⟨hnew, _, hn, _, _, hreads, hchange,
      AffectedNode.Change.taken?_eq_none_iff.mpr ⟨x, hx, hlack⟩⟩

/-! ## What a taker adds up -/

/-- A share of an offer is added to a sum: its legs are taken apart, and its base and quote
added. -/
inductive Market.NeedsToAdd (m : Market) (sum : Share) (n : AffectedNode) : Rat → Prop where
  | leg {c : AffectedNode.Change} {x : Rat} (change : n.change = .ok (some c))
    (needs : c.Needs x) : m.NeedsToAdd sum n x
  | base {share : Share} (given : m.given? n = some share) :
    m.NeedsToAdd sum n (sum.1.toRat + share.1.toRat)
  | quote {share : Share} (given : m.given? n = some share) :
    m.NeedsToAdd sum n (sum.2.toRat + share.2.toRat)

namespace Trader

variable {ctx : Trader} {o : Outcome} {time : Stamp} {r : OrderRegister} {m : Market} {sum : Share}
  {n : AffectedNode} {order : Order}

theorem addTaken?_eq_none_iff : addTaken? m sum n = none ↔ Lack (m.NeedsToAdd sum n) := by
  constructor
  · intro h
    unfold addTaken? at h
    split at h
    · cases h
    · cases h
    · rename_i c hchange
      cases htaken : c.taken? with
      | none =>
        obtain ⟨x, hx, hlack⟩ := AffectedNode.Change.taken?_eq_none_iff.mp htaken
        exact ⟨x, .leg hchange hx, hlack⟩
      | some taken =>
        rw [htaken, Option.bind_eq_bind, Option.bind_some] at h
        split at h
        · cases h
        · rename_i base quote hshare
          have hgiven : m.given? n = some (base, quote) := by
            simp [Market.given?, hchange, htaken, hshare]
          cases hbase : sum.1.add? base with
          | none => exact ⟨_, .base hgiven, Decimal.add?_eq_none_iff.mp hbase⟩
          | some b =>
            cases hquote : sum.2.add? quote with
            | none => exact ⟨_, .quote hgiven, Decimal.add?_eq_none_iff.mp hquote⟩
            | some q => simp [hbase, hquote] at h
  · rintro ⟨x, hx, hlack⟩
    -- had the share been added, each value that is needed would have had its decimal
    by_contra hsome
    obtain ⟨next, hnext⟩ := Option.ne_none_iff_exists'.mp hsome
    cases hx with
    | leg hchange hx =>
      have htaken := AffectedNode.Change.taken?_eq_none_iff.mpr ⟨x, hx, hlack⟩
      rw [addTaken?, hchange] at hnext
      simp [htaken] at hnext
    | base hgiven =>
      rcases of_addTaken? hnext with ⟨hnone, _⟩ | ⟨share, hshare, hbase, _⟩
      · cases hnone.symm.trans hgiven
      · cases hshare.symm.trans hgiven
        cases (Decimal.add?_eq_none_iff.mpr hlack).symm.trans hbase
    | quote hgiven =>
      rcases of_addTaken? hnext with ⟨hnone, _⟩ | ⟨share, hshare, _, hquote⟩
      · cases hnone.symm.trans hgiven
      · cases hshare.symm.trans hgiven
        cases (Decimal.add?_eq_none_iff.mpr hlack).symm.trans hquote

theorem takenFrom?_eq_none_iff {nodes : List AffectedNode} : ctx.takenFrom? m nodes = none ↔
    ∃ before n after sum, nodes.filter (·.account? ≠ some ctx.account) = before ++ n :: after ∧
      before.foldlM (addTaken? m) (.zero, .zero) = some sum ∧ Lack (m.NeedsToAdd sum n) := by
  simp only [takenFrom?, foldlM_eq_none_iff, addTaken?_eq_none_iff]

end Trader

/-! ## What an order counts -/

/-- The fee on a share, before it is rounded. -/
def FeeRule.exactFee (rule : FeeRule) (side : Side) (share : Share) : Rat :=
  match side with
  | .buy => share.1.toRat * rule.baseTransferRate.toRat
  | .sell => share.2.toRat * rule.quoteTransferRate.toRat

theorem FeeRule.tradeFee?_eq_none_iff {rule : FeeRule} {side : Side} {share : Share} :
    rule.tradeFee? side share.1 share.2 = none ↔ ¬ Fits (rule.exactFee side share) := by
  cases side <;> simp only [tradeFee?, exactFee, Option.map_eq_none_iff, Decimal.mul?_eq_none_iff]

/-- A share is counted: it is added to what was executed, and a fee is charged on the trade that is
reported for it. -/
inductive Order.NeedsToCount (ctx : Trader) (o : Order) (share : Share) : Rat → Prop where
  | base : o.NeedsToCount ctx share (o.executedBase.toRat + share.1.toRat)
  | quote : o.NeedsToCount ctx share (o.executedQuote.toRat + share.2.toRat)
  | fee {rule : FeeRule} (reported : share.isReported = true)
    (listed : ctx.feeRules.find? o.pair = some rule) :
    o.NeedsToCount ctx share (rule.exactFee o.side share)

theorem Order.withFill?_eq_none_iff {o : Order} {hash : String} {base quote : Decimal} :
    o.withFill? hash base quote = none ↔ ¬ Fits (o.executedBase.toRat + base.toRat) ∨
      ¬ Fits (o.executedQuote.toRat + quote.toRat) := by
  rw [← Decimal.add?_eq_none_iff, ← Decimal.add?_eq_none_iff, withFill?]
  cases o.executedBase.add? base with
  | none => simp
  | some b => cases o.executedQuote.add? quote <;> simp

namespace Fill

variable {f : Fill} {ctx : Trader} {market : Market} {r : OrderRegister} {o : Order}
  {next : Order → OrderState}

theorem trades?_eq_none_iff : f.trades? ctx market o = none ↔
    Share.isReported (f.base, f.quote) = true ∧
      ∃ rule, ctx.feeRules.find? o.pair = some rule ∧
        ¬ Fits (rule.exactFee o.side (f.base, f.quote)) := by
  unfold trades? Share.isReported
  cases hbase : f.base.isPositive with
  | false => simp
  | true =>
    cases hprice : f.quote.div? f.base with
    | none => simp
    | some price =>
      cases hrule : ctx.feeRules.find? o.pair with
      | none => cases hside : o.side <;> simp [fee?, hrule, hside]
      | some rule =>
        simp only [← FeeRule.tradeFee?_eq_none_iff, fee?, hrule]
        cases hfee : rule.tradeFee? o.side f.base f.quote <;> simp [hfee]

theorem count?_eq_none_iff : f.count? ctx market r o next = none ↔
    o.hasApplied f.hash = false ∧ Lack (o.NeedsToCount ctx (f.base, f.quote)) := by
  unfold count?
  cases hc : o.hasApplied f.hash with
  | true => simp
  | false =>
    rw [if_neg Bool.false_ne_true]
    cases hfill : o.withFill? f.hash f.base f.quote with
    | none =>
      refine iff_of_true rfl ⟨rfl, ?_⟩
      rcases Order.withFill?_eq_none_iff.mp hfill with hbase | hquote
      · exact ⟨_, .base, hbase⟩
      · exact ⟨_, .quote, hquote⟩
    | some o' =>
      obtain ⟨_, _, _, _, rfl⟩ := Order.withFill?_eq_some_iff.mp hfill
      rw [Option.bind_eq_bind, Option.bind_some]
      cases htrades : f.trades? ctx market _ with
      | none =>
        obtain ⟨hreported, rule, hrule, hlack⟩ := trades?_eq_none_iff.mp htrades
        exact iff_of_true rfl ⟨rfl, _, .fee hreported hrule, hlack⟩
      | some trades =>
        refine iff_of_false (by simp) ?_
        rintro ⟨_, x, hx, hlack⟩
        cases hx with
        | base => cases (Order.withFill?_eq_none_iff.mpr (Or.inl hlack)).symm.trans hfill
        | quote => cases (Order.withFill?_eq_none_iff.mpr (Or.inr hlack)).symm.trans hfill
        | fee hreported hrule =>
          cases (trades?_eq_none_iff.mpr ⟨hreported, _, hrule, hlack⟩).symm.trans htrades

end Fill

/-! ## What a transaction makes of the orders -/

theorem Part.next?_eq_none_iff {ctx : Trader} {time : Stamp} {r : OrderRegister} {part : Part} :
    part.next? ctx time r = none ↔
      part r = none ∨ ∃ found, part r = some found ∧ found.enter? ctx time r = none := by
  unfold next?
  cases part r with
  | none => simp
  | some found => cases hfound : found.enter? ctx time r <;> simp [hfound]

theorem Part.next?_ne_none {ctx : Trader} {time : Stamp} {r : OrderRegister} {part : Part}
    {found : Finding} (hfound : part r = some found) (henter : found.enter? ctx time r ≠ none) :
    part.next? ctx time r ≠ none := by
  rw [Ne, next?_eq_none_iff, hfound]
  simpa using henter

namespace Trader

variable {ctx : Trader} {o : Outcome} {time : Stamp} {r : OrderRegister} {m : Market}
  {n : AffectedNode} {order : Order} {c : AffectedNode.Change}

/-- A transaction is the own offer of an order, and takes from others for it in a market. -/
structure TakesFor (ctx : Trader) (o : Outcome) (r : OrderRegister) (order : Order) (m : Market) :
    Prop where
  own : o.transaction.account = ctx.account
  kind : o.transaction.kind = "OfferCreate"
  found : r.resolve? o.transaction.sequence = some order
  success : o.isSuccess = true
  nodes : o.nodes.isEmpty = false
  listed : ctx.markets.find? order.pair = some m

/-- A node changes the size of a resting offer of an order. -/
structure RestsFor (ctx : Trader) (r : OrderRegister) (n : AffectedNode) (order : Order)
    (c : AffectedNode.Change) : Prop where
  own : n.account? = some ctx.account
  kind : n.kind ≠ .created
  found : ∃ sequence, n.sequence? = some sequence ∧ r.resolve? sequence = some order
  change : n.change = .ok (some c)

/-- An own transaction that does not take from others can be worked out and written down. -/
theorem takesFor_or_enters (ctx : Trader) (o : Outcome) (time : Stamp) (r : OrderRegister) :
    (∃ order m, ctx.TakesFor o r order m) ∨
      ∃ found, ctx.ownFinding? o time r = some found ∧ found.enter? ctx time r ≠ none := by
  unfold ownFinding?
  split
  swap
  · exact Or.inr ⟨.nothing, rfl, by simp [Finding.enter?]⟩
  rename_i hown
  split
  swap
  · split
    swap
    · exact Or.inr ⟨.nothing, rfl, by simp [Finding.enter?]⟩
    · refine Or.inr ⟨cancelFinding o r, rfl, ?_⟩
      rw [← ownCancel_eq ctx o time]
      simp
  rename_i hkind
  unfold createFinding?
  dsimp only
  split
  · exact Or.inr ⟨.nothing, rfl, by simp [Finding.enter?]⟩
  rename_i order hfound
  split
  · exact Or.inr ⟨.ends order .failed, rfl, by simp [Finding.enter?]⟩
  rename_i hsuccess
  split
  · exact Or.inr ⟨.nothing, rfl, by simp [Finding.enter?]⟩
  rename_i hnodes
  split
  · exact Or.inr ⟨.nothing, rfl, by simp [Finding.enter?]⟩
  · rename_i m hlisted
    exact Or.inl ⟨order, m, hown, hkind, hfound, by simpa using hsuccess, by simpa using hnodes,
      hlisted⟩

theorem next?_of_takesFor (h : ctx.TakesFor o r order m) :
    Part.next? ctx time r (ctx.ownFinding? o time) = none ↔ ctx.takenFrom? m o.offerNodes = none ∨
      ∃ share, ctx.takenFrom? m o.offerNodes = some share ∧ order.hasApplied o.hash = false ∧
        Lack (order.NeedsToCount ctx share) := by
  rw [Part.next?_eq_none_iff, ownFinding?, createFinding?]
  simp only [h.own, h.kind, h.found, h.success, h.nodes, h.listed, if_true, Bool.not_true,
    Bool.false_eq_true, if_false]
  cases ctx.takenFrom? m o.offerNodes with
  | none => simp
  | some share => simp [Finding.enter?, Fill.count?_eq_none_iff]

/-- Nothing comes of the own transaction just if what it takes from others cannot be added up, or
the sum cannot be counted. -/
theorem next?_own_eq_none_iff : Part.next? ctx time r (ctx.ownFinding? o time) = none ↔
    ∃ order m, ctx.TakesFor o r order m ∧ (ctx.takenFrom? m o.offerNodes = none ∨
      ∃ share, ctx.takenFrom? m o.offerNodes = some share ∧ order.hasApplied o.hash = false ∧
        Lack (order.NeedsToCount ctx share)) := by
  constructor
  · intro h
    rcases takesFor_or_enters ctx o time r with ⟨order, m, htakes⟩ | ⟨found, hfound, henter⟩
    · exact ⟨order, m, htakes, (next?_of_takesFor htakes).mp h⟩
    · exact absurd h (Part.next?_ne_none hfound henter)
  · rintro ⟨order, m, htakes, hlack⟩
    exact (next?_of_takesFor htakes).mpr hlack

/-- A node that does not change a resting offer of an order can be worked out and written down. -/
theorem restsFor_or_enters (ctx : Trader) (o : Outcome) (time : Stamp) (n : AffectedNode)
    (r : OrderRegister) : (∃ order c, ctx.RestsFor r n order c) ∨
      ∃ found, ctx.nodeFinding? o time n r = some found ∧ found.enter? ctx time r ≠ none := by
  unfold nodeFinding?
  split
  · exact Or.inr ⟨.nothing, rfl, by simp [Finding.enter?]⟩
  rename_i hown
  rw [not_or, not_not] at hown
  split
  · exact Or.inr ⟨.nothing, rfl, by simp [Finding.enter?]⟩
  rename_i sequence hsequence
  split
  · exact Or.inr ⟨.nothing, rfl, by simp [Finding.enter?]⟩
  rename_i order hfound
  split
  · exact Or.inr ⟨.nothing, rfl, by simp [Finding.enter?]⟩
  · exact Or.inr ⟨_, rfl, by split <;> simp [Finding.enter?]⟩
  · rename_i c hchange
    exact Or.inl ⟨order, c, hown.1, hown.2, ⟨sequence, hsequence, hfound⟩, hchange⟩

theorem next?_of_restsFor (h : ctx.RestsFor r n order c) :
    Part.next? ctx time r (ctx.nodeFinding? o time n) = none ↔ Lack c.Needs ∨
      ∃ m share, ctx.markets.find? order.pair = some m ∧ m.given? n = some share ∧
        order.hasApplied o.hash = false ∧ Lack (order.NeedsToCount ctx share) := by
  obtain ⟨sequence, hsequence, hfound⟩ := h.found
  rw [Part.next?_eq_none_iff, nodeFinding?, ← AffectedNode.Change.taken?_eq_none_iff]
  simp only [h.own, h.kind, hsequence, hfound, h.change, ne_eq, not_true_eq_false, or_self,
    if_false]
  cases htaken : c.taken? with
  | none => simp
  | some taken =>
    have hgiven (m : Market) : m.given? n = m.baseQuote? taken := by
      simp [Market.given?, h.change, htaken]
    cases hlisted : ctx.markets.find? order.pair with
    | none => simp [Finding.enter?]
    | some m =>
      cases hshare : m.baseQuote? taken with
      | none => simp [Finding.enter?, hgiven, hshare]
      | some share =>
        obtain ⟨base, quote⟩ := share
        simp [Finding.enter?, hgiven, hshare, Fill.count?_eq_none_iff]

/-- Nothing comes of a node just if it changes a resting offer of an order, and what was taken of
the offer cannot be told or cannot be counted. -/
theorem next?_node_eq_none_iff : Part.next? ctx time r (ctx.nodeFinding? o time n) = none ↔
    ∃ order c, ctx.RestsFor r n order c ∧ (Lack c.Needs ∨
      ∃ m share, ctx.markets.find? order.pair = some m ∧ m.given? n = some share ∧
        order.hasApplied o.hash = false ∧ Lack (order.NeedsToCount ctx share)) := by
  constructor
  · intro h
    rcases restsFor_or_enters ctx o time n r with ⟨order, c, hrests⟩ | ⟨found, hfound, henter⟩
    · exact ⟨order, c, hrests, (next?_of_restsFor hrests).mp h⟩
    · exact absurd h (Part.next?_ne_none hfound henter)
  · rintro ⟨order, c, hrests, hlack⟩
    exact (next?_of_restsFor hrests).mpr hlack

/-- The register after the own transaction and the first nodes. -/
def upTo? (ctx : Trader) (o : Outcome) (time : Stamp) (r : OrderRegister)
    (nodes : List AffectedNode) : Option OrderRegister :=
  (Part.next? ctx time r (ctx.ownFinding? o time)).bind fun r =>
    nodes.foldlM (fun r n => Part.next? ctx time r (ctx.nodeFinding? o time n)) r

/-- A transaction is taken in by an account. What it took from others for an order is added up and
counted, and what was taken of a resting offer is taken apart and counted. -/
inductive Needs (ctx : Trader) (o : Outcome) (time : Stamp) (r : OrderRegister) : Rat → Prop where
  | adds {order : Order} {m : Market} {before after : List AffectedNode} {n : AffectedNode}
    {sum : Share} {x : Rat} (takes : ctx.TakesFor o r order m)
    (others : o.offerNodes.filter (·.account? ≠ some ctx.account) = before ++ n :: after)
    (sofar : before.foldlM (addTaken? m) (.zero, .zero) = some sum)
    (needs : m.NeedsToAdd sum n x) : ctx.Needs o time r x
  | counts {order : Order} {m : Market} {share : Share} {x : Rat} (takes : ctx.TakesFor o r order m)
    (sum : ctx.takenFrom? m o.offerNodes = some share) (fresh : order.hasApplied o.hash = false)
    (needs : order.NeedsToCount ctx share x) : ctx.Needs o time r x
  | gives {before after : List AffectedNode} {n : AffectedNode} {r₁ : OrderRegister}
    {order : Order} {c : AffectedNode.Change} {x : Rat} (success : o.isSuccess = true)
    (nodes : o.offerNodes = before ++ n :: after) (sofar : ctx.upTo? o time r before = some r₁)
    (rests : ctx.RestsFor r₁ n order c) (needs : c.Needs x) : ctx.Needs o time r x
  | countsGiven {before after : List AffectedNode} {n : AffectedNode} {r₁ : OrderRegister}
    {order : Order} {c : AffectedNode.Change} {m : Market} {share : Share} {x : Rat}
    (success : o.isSuccess = true) (nodes : o.offerNodes = before ++ n :: after)
    (sofar : ctx.upTo? o time r before = some r₁) (rests : ctx.RestsFor r₁ n order c)
    (listed : ctx.markets.find? order.pair = some m) (given : m.given? n = some share)
    (fresh : order.hasApplied o.hash = false) (needs : order.NeedsToCount ctx share x) :
    ctx.Needs o time r x

/-- Nothing comes of the parts of a transaction just if nothing comes of the own transaction, or of
a node of a success. -/
theorem foldlM_parts_eq_none_iff : (ctx.parts o time).foldlM (Part.next? ctx time) r = none ↔
    Part.next? ctx time r (ctx.ownFinding? o time) = none ∨ o.isSuccess = true ∧
      ∃ before n after r₁, o.offerNodes = before ++ n :: after ∧
        ctx.upTo? o time r before = some r₁ ∧
        Part.next? ctx time r₁ (ctx.nodeFinding? o time n) = none := by
  rw [parts, List.foldlM_cons]
  cases hown : Part.next? ctx time r (ctx.ownFinding? o time) with
  | none => simp
  | some r₀ =>
    cases hsuccess : o.isSuccess with
    | false => simp
    | true => simp [List.foldlM_map, foldlM_eq_none_iff, upTo?, hown]

theorem foldlM_parts_lacks_iff :
    (ctx.parts o time).foldlM (Part.next? ctx time) r = none ↔ Lack (ctx.Needs o time r) := by
  simp only [foldlM_parts_eq_none_iff, next?_own_eq_none_iff, next?_node_eq_none_iff,
    takenFrom?_eq_none_iff]
  constructor
  · rintro (⟨order, m, htakes, ⟨before, n, after, sum, hothers, hsofar, x, hx, hlack⟩ |
      ⟨share, hsum, hfresh, x, hx, hlack⟩⟩ | ⟨hsuccess, before, n, after, r₁, hnodes, hsofar, order,
      c, hrests, ⟨x, hx, hlack⟩ | ⟨m, share, hlisted, hgiven, hfresh, x, hx, hlack⟩⟩)
    · exact ⟨x, .adds htakes hothers hsofar hx, hlack⟩
    · exact ⟨x, .counts htakes hsum hfresh hx, hlack⟩
    · exact ⟨x, .gives hsuccess hnodes hsofar hrests hx, hlack⟩
    · exact ⟨x, .countsGiven hsuccess hnodes hsofar hrests hlisted hgiven hfresh hx, hlack⟩
  · rintro ⟨x, hx, hlack⟩
    cases hx with
    | adds takes others sofar needs =>
      exact Or.inl ⟨_, _, takes, Or.inl ⟨_, _, _, _, others, sofar, x, needs, hlack⟩⟩
    | counts takes sum fresh needs =>
      exact Or.inl ⟨_, _, takes, Or.inr ⟨_, sum, fresh, x, needs, hlack⟩⟩
    | gives success nodes sofar rests needs =>
      exact Or.inr ⟨success, _, _, _, _, nodes, sofar, _, _, rests, Or.inl ⟨x, needs, hlack⟩⟩
    | countsGiven success nodes sofar rests listed given fresh needs =>
      exact Or.inr ⟨success, _, _, _, _, nodes, sofar, _, _, rests,
        Or.inr ⟨_, _, listed, given, fresh, x, needs, hlack⟩⟩

end Trader

/-- A transaction with a close time that is beyond 64 bits when it is counted from 1970. -/
def Outcome.ClosesLate (o : Outcome) : Prop :=
  ∃ seconds, o.date = some seconds ∧ UInt64.size ≤ seconds.toNat + Stamp.ledgerEpoch

instance (o : Outcome) : Decidable o.ClosesLate :=
  match h : o.date with
  | none => .isFalse (by simp [Outcome.ClosesLate, h])
  | some seconds => decidable_of_iff (UInt64.size ≤ seconds.toNat + Stamp.ledgerEpoch)
    (by simp [Outcome.ClosesLate, h])

theorem Outcome.ofClose?_eq_none_iff {o : Outcome} :
    Stamp.ofClose? o.date = none ↔ o.ClosesLate := by
  unfold ClosesLate Stamp.ofClose? Stamp.unixSeconds?
  cases o.date with
  | none => simp
  | some seconds => simp

/-- A transaction is taken in to the end just if it did not close late and nothing that it needs is
lacking. -/
theorem Trader.process?_lacks_iff {ctx : Trader} {o : Outcome} {r : OrderRegister} :
    ctx.process? o r = none ↔ o.validated = true ∧ (o.ClosesLate ∨
      ∃ time, Stamp.ofClose? o.date = some time ∧ Lack (ctx.Needs o time r)) := by
  rw [← Option.map_eq_none_iff (f := Prod.fst), process?_register]
  cases o.validated with
  | false => simp
  | true =>
    rw [← Outcome.ofClose?_eq_none_iff]
    cases Stamp.ofClose? o.date with
    | none => simp
    | some time => simp [foldlM_parts_lacks_iff]

end OfferDesk
