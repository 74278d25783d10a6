-- Messages that never stop the work. Where all amounts keep within whole bounds, and these leave
-- room for the offers and the trust lines there are, every value that is needed can be held.
import OfferDesk.Proofs.HaltedMessages
import OfferDesk.Proofs.PublishedTerms

namespace OfferDesk

open Decimal (Fits Lack)

/-! ## Bounds on offers -/

/-- All four values of a change lie between zero and a whole bound. -/
structure AffectedNode.Change.UpTo (c : Change) (leg : Nat) : Prop where
  gets : c.before.gets.value.UpTo leg
  pays : c.before.pays.value.UpTo leg
  getsAfter : c.getsAfter.UpTo leg
  paysAfter : c.paysAfter.UpTo leg

instance (c : AffectedNode.Change) (leg : Nat) : Decidable (c.UpTo leg) :=
  decidable_of_iff (c.before.gets.value.UpTo leg ∧ c.before.pays.value.UpTo leg ∧
      c.getsAfter.UpTo leg ∧ c.paysAfter.UpTo leg)
    ⟨fun ⟨gets, pays, getsAfter, paysAfter⟩ => ⟨gets, pays, getsAfter, paysAfter⟩,
      fun h => ⟨h.gets, h.pays, h.getsAfter, h.paysAfter⟩⟩

/-- The values of all offers that a transaction changes lie between zero and a whole bound. -/
def Outcome.LegsUpTo (o : Outcome) (leg : Nat) : Prop :=
  ∀ n ∈ o.offerNodes, ∀ c, n.change = .ok (some c) → c.UpTo leg

instance decidableLegs (n : AffectedNode) (leg : Nat) :
    Decidable (∀ c, n.change = .ok (some c) → c.UpTo leg) :=
  match n.change with
  | .ok (some c) => decidable_of_iff (c.UpTo leg) (by simp)
  | .ok none => .isTrue (by simp)
  | .error _ => .isTrue (by simp)

instance (o : Outcome) (leg : Nat) : Decidable (o.LegsUpTo leg) :=
  inferInstanceAs (Decidable (∀ n ∈ o.offerNodes, _))

/-- Both values of a share are at most a whole bound away from zero. -/
structure Share.Within (share : Share) (bound : Nat) : Prop where
  base : share.1.Within bound
  quote : share.2.Within bound

theorem Share.Within.mono {share : Share} {bound more : Nat} (h : share.Within bound)
    (hle : bound ≤ more) : share.Within more :=
  ⟨h.base.mono hle, h.quote.mono hle⟩

variable {leg bound : Nat} {c : AffectedNode.Change} {n : AffectedNode} {m : Market}
  {o : Outcome} {share sum total : Share} {nodes : List AffectedNode}

theorem AffectedNode.Change.UpTo.fits {x : Rat} (h : c.UpTo leg) (hleg : leg ≤ maxMantissa)
    (hx : c.Needs x) : Fits x := by
  cases hx with
  | gets => exact Decimal.fits_of_abs_le (h.gets.sub h.getsAfter) hleg
  | pays => exact Decimal.fits_of_abs_le (h.pays.sub h.paysAfter) hleg

/-- What an offer gave is no more than its legs were. -/
theorem Market.within_given? (h : ∀ c, n.change = .ok (some c) → c.UpTo leg)
    (hgiven : m.given? n = some share) : share.Within leg := by
  unfold given? at hgiven
  split at hgiven
  swap
  · cases hgiven
  rename_i c hchange
  obtain ⟨taken, htaken, hshare⟩ := Option.bind_eq_some_iff.mp hgiven
  obtain ⟨gets, hgets, htaken⟩ := Option.bind_eq_some_iff.mp htaken
  obtain ⟨pays, hpays, htaken⟩ := Option.bind_eq_some_iff.mp htaken
  cases htaken
  obtain ⟨side, _, rfl⟩ := Option.map_eq_some_iff.mp hshare
  have hgetsLeg := Decimal.within_sub? (h c hchange).gets (h c hchange).getsAfter hgets
  have hpaysLeg := Decimal.within_sub? (h c hchange).pays (h c hchange).paysAfter hpays
  cases side with
  | bid => exact ⟨hpaysLeg, hgetsLeg⟩
  | ask => exact ⟨hgetsLeg, hpaysLeg⟩

namespace Trader

theorem fits_of_needsToAdd {k : Nat} {x : Rat} (hn : ∀ c, n.change = .ok (some c) → c.UpTo leg)
    (hsum : sum.Within (k * leg)) (hmax : (k + 1) * leg ≤ maxMantissa)
    (hx : m.NeedsToAdd sum n x) : Fits x := by
  have hleg : leg ≤ maxMantissa := (Nat.le_mul_of_pos_left leg (Nat.succ_pos k)).trans hmax
  rw [Nat.add_mul, Nat.one_mul] at hmax
  cases hx with
  | leg hchange hx => exact (hn _ hchange).fits hleg hx
  | base hgiven =>
    exact Decimal.fits_of_abs_le (hsum.base.add (Market.within_given? hn hgiven).base) hmax
  | quote hgiven =>
    exact Decimal.fits_of_abs_le (hsum.quote.add (Market.within_given? hn hgiven).quote) hmax

/-- Each offer adds at most its legs. -/
theorem within_addTaken? {k : Nat} (hn : ∀ c, n.change = .ok (some c) → c.UpTo leg)
    (hsum : sum.Within (k * leg)) (h : addTaken? m sum n = some total) :
    total.Within ((k + 1) * leg) := by
  rw [Nat.add_mul, Nat.one_mul]
  rcases of_addTaken? h with ⟨_, rfl⟩ | ⟨share, hgiven, hbase, hquote⟩
  · exact hsum.mono (Nat.le_add_right _ _)
  · have hshare := Market.within_given? hn hgiven
    exact ⟨Decimal.within_add? hsum.base hshare.base hbase,
      Decimal.within_add? hsum.quote hshare.quote hquote⟩

theorem within_zero (bound : Nat) : Share.Within (.zero, .zero) bound :=
  ⟨Decimal.within_of_isZero rfl bound, Decimal.within_of_isZero rfl bound⟩

/-- What was taken of some offers is no more than all their legs were. -/
theorem within_taken (hnodes : ∀ n ∈ nodes, ∀ c, n.change = .ok (some c) → c.UpTo leg)
    (h : nodes.foldlM (addTaken? m) (.zero, .zero) = some total) :
    total.Within (nodes.length * leg) := by
  have hsum := foldlM_counts (P := fun k (sum : Share) => sum.Within (k * leg)) (k := 0)
    (fun k sum n next hn hsum hnext => within_addTaken? (hnodes n hn) hsum hnext)
    (within_zero _) h
  rwa [Nat.zero_add] at hsum

end Trader

/-! ## Bounds on orders -/

/-- What an order has executed. -/
def Order.executed (o : Order) : Share := (o.executedBase, o.executedQuote)

/-- Every order that does not have a transaction counted has executed no more than a whole bound. -/
def OrderRegister.ExecutedWithin (r : OrderRegister) (hash : String) (bound : Nat) : Prop :=
  ∀ clientId order, r.find? clientId = some order → order.hasApplied hash = false →
    order.executed.Within bound

/-- Both rates of every fee rule are at most a whole bound away from zero. -/
def Trader.RatesWithin (ctx : Trader) (rate : Nat) : Prop :=
  ∀ pair rule, ctx.feeRules.find? pair = some rule →
    rule.baseTransferRate.Within rate ∧ rule.quoteTransferRate.Within rate

variable {ctx : Trader} {time : Stamp} {r r' : OrderRegister} {order : Order}
  {executed rate : Nat} {x : Rat}

theorem FeeRule.abs_exactFee_le {rule : FeeRule} (side : Side)
    (hrates : rule.baseTransferRate.Within rate ∧ rule.quoteTransferRate.Within rate)
    (hshare : share.Within bound) : |rule.exactFee side share| ≤ (bound * rate : Nat) := by
  cases side with
  | buy => exact hshare.base.mul hrates.1
  | sell => exact hshare.quote.mul hrates.2

theorem Order.fits_of_needsToCount (horder : order.executed.Within executed)
    (hshare : share.Within bound) (hrates : ctx.RatesWithin rate)
    (hcounted : executed + bound ≤ maxMantissa) (hfees : bound * rate ≤ maxMantissa)
    (hx : order.NeedsToCount ctx share x) : Fits x := by
  cases hx with
  | base => exact Decimal.fits_of_abs_le (horder.base.add hshare.base) hcounted
  | quote => exact Decimal.fits_of_abs_le (horder.quote.add hshare.quote) hcounted
  | fee reported listed =>
    exact Decimal.fits_of_abs_le (FeeRule.abs_exactFee_le _ (hrates _ _ listed) hshare) hfees

/-- A part of a transaction counts it for an order, or leaves what the order has executed. -/
theorem OrderRegister.ExecutedWithin.next {part : Part} (hr : r.ExecutedWithin o.hash executed)
    (hfound : ∀ found, part r = some found → Trader.Found o r found)
    (h : Part.next? ctx time r part = some r') : r'.ExecutedWithin o.hash executed := by
  obtain ⟨found, w, hfits, hw, hreplaces⟩ := Part.replaces_next hfound h
  cases w with
  | none =>
    intro clientId order horder
    rw [hreplaces clientId] at horder
    exact hr clientId order horder
  | some a =>
    intro clientId order horder hfresh
    rw [hreplaces clientId] at horder
    split at horder
    swap
    · exact hr clientId order horder hfresh
    cases horder
    cases hfits with
    | nothing => cases hw
    | @ends _ found state hs _ =>
      cases hw
      exact hr _ found (OrderRegister.find?_of_resolve? hs) hfresh
    | @fills _ found m fill next hs hash _ _ =>
      simp only [Finding.replaces?] at hw
      split at hw
      · cases hw
      · simp only [Option.bind_eq_bind, Option.bind_eq_some_iff, Option.pure_def,
          Option.some.injEq] at hw
        obtain ⟨counted, hcounted, _, _, rfl⟩ := hw
        -- an order that counts the transaction is no longer one that the bound is about
        have happlied : counted.hasApplied fill.hash = true := Order.hasApplied_withFill? hcounted
        rw [hash] at happlied
        cases happlied.symm.trans hfresh

namespace Trader

theorem executedWithin_upTo (hr : r.ExecutedWithin o.hash executed)
    (h : ctx.upTo? o time r nodes = some r') : r'.ExecutedWithin o.hash executed := by
  obtain ⟨r₁, hown, hnodes⟩ := Option.bind_eq_some_iff.mp h
  exact foldlM_counts (P := fun _ r => r.ExecutedWithin o.hash executed) (k := 0)
    (fun _ _ _ _ _ hr hnext => hr.next (fun _ => found_nodeFinding) hnext)
    (hr.next (fun _ => found_ownFinding) hown) hnodes

/-- Within bounds that leave room for all the offers of a transaction, nothing that it needs is
lacking. -/
theorem fits_of_needs (hlegs : o.LegsUpTo leg) (hr : r.ExecutedWithin o.hash executed)
    (hrates : ctx.RatesWithin rate)
    (hcounted : executed + o.offerNodes.length * leg ≤ maxMantissa)
    (hfees : o.offerNodes.length * leg * rate ≤ maxMantissa) (hx : ctx.Needs o time r x) :
    Fits x := by
  have hothers : ∀ n ∈ o.offerNodes.filter (·.account? ≠ some ctx.account), ∀ c,
      n.change = .ok (some c) → c.UpTo leg := fun n hn => hlegs n (List.mem_of_mem_filter hn)
  have hfewer := o.offerNodes.length_filter_le (·.account? ≠ some ctx.account)
  have hall {k : Nat} (hk : k ≤ o.offerNodes.length) : k * leg ≤ maxMantissa :=
    ((Nat.mul_le_mul_right leg hk).trans (Nat.le_add_left _ executed)).trans hcounted
  cases hx with
  | @adds order m before after n sum x takes others sofar needs =>
    rw [others] at hothers hfewer
    have hsum := within_taken (fun n hn => hothers n (List.mem_append_left _ hn)) sofar
    refine fits_of_needsToAdd (hothers n (by simp)) hsum (hall ?_) needs
    rw [List.length_append, List.length_cons] at hfewer
    omega
  | @counts order m share x takes sum fresh needs =>
    have hshare := within_taken hothers sum
    have horder := hr _ order (OrderRegister.find?_of_resolve? takes.found) fresh
    exact Order.fits_of_needsToCount horder (hshare.mono (Nat.mul_le_mul_right leg hfewer)) hrates
      hcounted hfees needs
  -- a resting offer gives no more than one leg, which is no more than all of them together
  | @gives before after n r₁ order c x _ nodes sofar rests needs =>
    have hn : n ∈ o.offerNodes := by simp [nodes]
    refine (hlegs n hn c rests.change).fits ?_ needs
    simpa using hall (List.length_pos_of_mem hn)
  | @countsGiven before after n r₁ order c m share x _ nodes sofar rests listed given fresh needs =>
    have hn : n ∈ o.offerNodes := by simp [nodes]
    obtain ⟨sequence, _, hfound⟩ := rests.found
    have horder :=
      executedWithin_upTo hr sofar _ order (OrderRegister.find?_of_resolve? hfound) fresh
    have hshare := (Market.within_given? (hlegs n hn) given).mono
      (Nat.le_mul_of_pos_left leg (List.length_pos_of_mem hn))
    exact Order.fits_of_needsToCount horder hshare hrates hcounted hfees needs

end Trader

/-! ## Bounds on balances -/

namespace Reserve

variable {reserve : Reserve} {part : Nat} {ownerCount : UInt32} {kept : Decimal}

theorem within_ownerCount (ownerCount : UInt32) :
    (Decimal.ofWord ownerCount.toUInt64).Within (UInt32.size - 1) := by
  have hlt : ownerCount.toNat < UInt32.size := ownerCount.toNat_lt
  refine Decimal.within_iff.mpr ?_
  show (ownerCount.toUInt64.toNat : Int).natAbs ≤ (UInt32.size - 1) * 1
  rw [UInt32.toNat_toUInt64, Int.natAbs_natCast]
  omega

/-- A base and as much for each object come to no more than as much for a full word of objects. -/
theorem part_add_objects (part : Nat) : part + part * (UInt32.size - 1) = part * UInt32.size := by
  unfold UInt32.size
  omega

theorem fits_of_needs {x : Rat} (hbase : reserve.base.Within part)
    (hobject : reserve.perObject.Within part) (hmax : part * UInt32.size ≤ maxMantissa)
    (hx : reserve.Needs ownerCount x) : Fits x := by
  have hcount := within_ownerCount ownerCount
  cases hx with
  | objects =>
    refine Decimal.fits_of_abs_le (hobject.mul hcount) (le_trans ?_ hmax)
    exact Nat.mul_le_mul_left part (Nat.sub_le _ _)
  | all product =>
    refine Decimal.fits_of_abs_le (hbase.add (Decimal.within_mul? hobject hcount product)) ?_
    rwa [part_add_objects]

theorem within_required? (hbase : reserve.base.Within part)
    (hobject : reserve.perObject.Within part) (h : reserve.required? ownerCount = some kept) :
    kept.Within (part * UInt32.size) := by
  obtain ⟨product, hproduct, hkept⟩ := Option.bind_eq_some_iff.mp h
  rw [← part_add_objects]
  exact Decimal.within_add? hbase
    (Decimal.within_mul? hobject (within_ownerCount ownerCount) hproduct) hkept

end Reserve

namespace Balances

variable {b b' : Balances} {line : String × Decimal} {lines : List (String × Decimal)}
  {native kept : Decimal} {reserve : Reserve} {ownerCount : UInt32} {holding : Holding}
  {part more each : Nat}

/-- All that is held of each currency is at most a whole bound away from zero, and so is what can be
spent of it. -/
def HoldsWithin (b : Balances) (bound : Nat) : Prop := ∀ symbol,
  (b.holding symbol).total.Within bound ∧ (b.holding symbol).available.Within bound

theorem fits_of_needsToSpare (hnative : native.Within bound) (hbase : reserve.base.Within part)
    (hobject : reserve.perObject.Within part) (hmax : bound + part * UInt32.size ≤ maxMantissa)
    (hx : NeedsToSpare native ownerCount reserve x) : Fits x := by
  cases hx with
  | reserve needs =>
    exact Reserve.fits_of_needs hbase hobject ((Nat.le_add_left _ _).trans hmax) needs
  | spare required =>
    have hkept := (Reserve.within_required? hbase hobject required).neg
    have hspare := hnative.add hkept
    rw [Decimal.toRat_neg, ← sub_eq_add_neg] at hspare
    exact Decimal.fits_of_abs_le hspare hmax

theorem holdsWithin_native (hnative : native.Within bound) (hbase : reserve.base.Within part)
    (hobject : reserve.perObject.Within part)
    (h : nativeHolding? native ownerCount reserve = some holding) :
    HoldsWithin (Table.empty.put Currency.nativeSymbol holding)
      (bound + part * UInt32.size) := by
  obtain ⟨kept, hkept, h⟩ := Option.bind_eq_some_iff.mp h
  obtain ⟨spare, hspare, h⟩ := Option.bind_eq_some_iff.mp h
  cases h
  have hleft : spare.Within (bound + part * UInt32.size) :=
    Decimal.within_add? hnative (Reserve.within_required? hbase hobject hkept).neg hspare
  intro symbol
  rw [holding_start]
  split
  · exact ⟨hnative.mono (Nat.le_add_right _ _), hleft.floorAtZero⟩
  · exact ⟨Decimal.within_of_isZero rfl _, Decimal.within_of_isZero rfl _⟩

theorem fits_of_needsToAdd (hb : b.HoldsWithin bound) (hline : line.2.Within each)
    (hmax : bound + each ≤ maxMantissa) (hx : b.NeedsToAdd line x) : Fits x := by
  cases hx with
  | total => exact Decimal.fits_of_abs_le ((hb _).1.add hline) hmax
  | available => exact Decimal.fits_of_abs_le ((hb _).2.add hline) hmax

theorem HoldsWithin.addLine? (hb : b.HoldsWithin bound) (hline : line.2.Within each)
    (h : b.addLine? line = some b') : b'.HoldsWithin (bound + each) := by
  obtain ⟨holding, hholding, rfl⟩ := addLine?_eq_some_iff.mp h
  obtain ⟨htotal, havailable⟩ := Holding.add?_eq_some_iff.mp hholding
  intro symbol
  rw [holding_put]
  split
  · exact ⟨Decimal.within_add? (hb _).1 hline htotal, Decimal.within_add? (hb _).2 hline havailable⟩
  · exact ⟨(hb symbol).1.mono (Nat.le_add_right _ _), (hb symbol).2.mono (Nat.le_add_right _ _)⟩

theorem HoldsWithin.addLines (hb : b.HoldsWithin bound) (hlines : ∀ l ∈ lines, l.2.Within each)
    (h : lines.foldlM Balances.addLine? b = some b') :
    b'.HoldsWithin (bound + lines.length * each) := by
  have hstep (k : Nat) (b : Balances) (l : String × Decimal) (next : Balances) (hl : l ∈ lines)
      (hb : b.HoldsWithin (bound + k * each)) (hnext : b.addLine? l = some next) :
      next.HoldsWithin (bound + (k + 1) * each) := by
    rw [Nat.add_mul, Nat.one_mul, ← Nat.add_assoc]
    exact hb.addLine? (hlines l hl) hnext
  have hstart : b.HoldsWithin (bound + 0 * each) := by rwa [Nat.zero_mul, Nat.add_zero]
  have hall := foldlM_counts (P := fun k (b : Balances) => b.HoldsWithin (bound + k * each))
    hstep hstart h
  rwa [Nat.zero_add] at hall

/-- An account and its objects hold amounts within bounds, and the reserve is worked out from parts
within bounds, that leave room for all the trust lines. -/
structure Moderate (account : String) (info objects : Json) (reserve : Reserve)
    (own part each : Nat) : Prop where
  native : ∀ data value, nativeOf info = .ok (data, value) → value.Within own
  base : reserve.base.Within part
  perObject : reserve.perObject.Within part
  lines : ∀ line ∈ linesOf account objects, line.2.Within each
  room : own + part * UInt32.size + (linesOf account objects).length * each ≤ maxMantissa

theorem Moderate.fits {account : String} {info objects : Json} {own : Nat}
    (h : Moderate account info objects reserve own part each)
    (hx : Needs account info objects reserve x) : Fits x := by
  have hroom : own + part * UInt32.size ≤ maxMantissa := (Nat.le_add_right _ _).trans h.room
  cases hx with
  | native told needs =>
    exact fits_of_needsToSpare (h.native _ _ told) h.base h.perObject hroom needs
  | @line data value holding before after line b x told spare lines sofar needs =>
    have hline := h.lines
    have hstart := holdsWithin_native (h.native _ _ told) h.base h.perObject spare
    rw [lines] at hline
    have hb := hstart.addLines (fun l hl => hline l (List.mem_append_left _ hl)) sofar
    refine fits_of_needsToAdd hb (hline line (by simp)) ?_ needs
    have hmore : (before.length + 1) * each ≤ (linesOf account objects).length * each := by
      refine Nat.mul_le_mul_right each ?_
      rw [lines, List.length_append, List.length_cons]
      omega
    rw [Nat.add_mul, Nat.one_mul] at hmore
    have hall := h.room
    omega

end Balances

/-! ## Messages at a desk -/

/-- A transaction closes in time, and its legs, what the orders have executed and the fee rates keep
within bounds that leave room for all the offers that it changes. -/
structure Outcome.Moderate (o : Outcome) (ctx : Trader) (r : OrderRegister)
    (leg executed rate : Nat) : Prop where
  closes : ¬ o.ClosesLate
  legs : o.LegsUpTo leg
  orders : r.ExecutedWithin o.hash executed
  rates : ctx.RatesWithin rate
  counted : executed + o.offerNodes.length * leg ≤ maxMantissa
  fees : o.offerNodes.length * leg * rate ≤ maxMantissa

theorem Decimal.not_lack_of_fits {needs : Rat → Prop} (h : ∀ x, needs x → Fits x) :
    ¬ Lack needs := by
  rintro ⟨x, hx, hlack⟩
  exact hlack (h x hx)

theorem AffectedNode.Change.UpTo.mono {more : Nat} (h : c.UpTo leg) (hle : leg ≤ more) :
    c.UpTo more :=
  ⟨h.gets.mono hle, h.pays.mono hle, h.getsAfter.mono hle, h.paysAfter.mono hle⟩

/-- Where there are offers at all, there is room for a leg. -/
theorem Outcome.Moderate.legsUpTo_max (h : o.Moderate ctx r leg executed rate) :
    o.LegsUpTo maxMantissa := by
  intro n hn c hc
  have hpos : 0 < o.offerNodes.length := List.length_pos_of_mem hn
  refine (h.legs n hn c hc).mono ?_
  calc leg ≤ o.offerNodes.length * leg := Nat.le_mul_of_pos_left leg hpos
    _ ≤ executed + o.offerNodes.length * leg := Nat.le_add_left _ _
    _ ≤ maxMantissa := h.counted

/-- Offers with no leg below zero can always be patched into the books. -/
theorem DeskState.fits_of_needsToPatch {s : DeskState} (hlegs : o.LegsUpTo maxMantissa)
    (hx : s.NeedsToPatch o x) : Fits x := by
  obtain ⟨_, _, hn, hreads, hchange, hx⟩ := hx
  have hc := (Market.readNode_eq_some_iff.mp hreads).change
  rw [hchange] at hc
  exact (hlegs _ hn _ hc).fits (Nat.le_refl _) hx

theorem Outcome.Moderate.not_halts {s : DeskState} {d : Desk} {info objects : Reply}
    {own part each : Nat} (h : o.Moderate (s.trader d) s.register leg executed rate)
    (hreplies : ∀ a b, info = .ok a → objects = .ok b →
      Balances.Moderate d.account a.result b.result d.config.reserve own part each) :
    ¬ o.Halts d s info objects := by
  intro hhalts
  cases hhalts with
  | patch lack =>
    exact Decimal.not_lack_of_fits (fun _ => DeskState.fits_of_needsToPatch h.legsUpTo_max) lack
  | late _ late => exact h.closes late
  | fill _ _ lack =>
    exact Decimal.not_lack_of_fits
      (fun _ => Trader.fits_of_needs h.legs h.orders h.rates h.counted h.fees) lack
  | balances _ told _ listed _ lack =>
    exact Decimal.not_lack_of_fits (fun _ => (hreplies _ _ told listed).fits) lack

namespace BusyDesk

open UserStream (handled)

variable {d : Desk} {g : BusyDesk} {events : List BusyEvent}

/-- A message of a stream stops the work at a desk just where no decimal holds a value that it needs,
or where it closes too late. One that cannot be read is left out, and one that does not stop the
work is taken in to the end. So offers with no leg below zero never stop the book stream, and
amounts within bounds never stop the account stream. -/
theorem messages_halt_only_out_of_range (hrun : run? d ⟨{}, .empty⟩ events = some g) (event : Json)
    (s₁ s₂ : DeskState) (info objects : Reply) :
    (∀ e, Outcome.ofStream event = .error e → g.state.bookEvent? event = some g.state ∧
      handled d g.state event s₁ info s₂ objects = (g.state, .done ())) ∧
    ∀ o, Outcome.ofStream event = .ok o →
      (g.state.bookEvent? event = none ↔ Lack (g.state.NeedsToPatch o)) ∧
      ((handled d g.state event s₁ info s₂ objects).2 = .halted ↔
        o.Halts d g.state info objects) ∧
      ((handled d g.state event s₁ info s₂ objects).2 = .halted ∨
        (handled d g.state event s₁ info s₂ objects).2 = .done ()) ∧
      (o.LegsUpTo maxMantissa → g.state.bookEvent? event ≠ none) ∧
      ∀ leg executed rate own part each,
        o.Moderate (g.state.trader d) g.state.register leg executed rate →
        (∀ a b, info = .ok a → objects = .ok b →
          Balances.Moderate d.account a.result b.result d.config.reserve own part each) →
        (handled d g.state event s₁ info s₂ objects).2 = .done () := by
  have hs : g.state.BooksSound := by
    refine keeps_run DeskState.invariant_booksSound ?_ hrun
    intro pair b hb
    cases hb
  refine ⟨fun e he => ⟨by rw [DeskState.bookEvent?, he], UserStream.handled_of_error he⟩, ?_⟩
  intro o ho
  have hbook : g.state.bookEvent? event = none ↔ Lack (g.state.NeedsToPatch o) := by
    rw [DeskState.bookEvent?, ho]
    exact DeskState.patchBooks?_eq_none_iff hs
  obtain ⟨hhalts, hends⟩ := UserStream.handled_of_ok d s₁ s₂ info objects hs ho
  refine ⟨hbook, hhalts, hends, fun hlegs hnone => ?_, ?_⟩
  · exact Decimal.not_lack_of_fits (fun _ => DeskState.fits_of_needsToPatch hlegs) (hbook.mp hnone)
  · intro leg executed rate own part each hmoderate hreplies
    exact hends.resolve_left fun h => hmoderate.not_halts hreplies (hhalts.mp h)

/-! A fill of a resting order comes in, and the balances after it are those of a plain account. -/

def soloJson (value : String) : Json := .object
  [("currency", .string "SOLO"), ("issuer", .string "rIssuer"), ("value", .string value)]

/-- A node that leaves so much SOLO of an offer for XRP. -/
def takeNode (account before after : String) : Json := .object [("ModifiedNode", .object
  [("LedgerEntryType", .string "Offer"), ("LedgerIndex", .string "I"),
    ("PreviousFields", .object [("TakerGets", soloJson before), ("TakerPays", .string "50000000")]),
    ("FinalFields", .object [("Account", .string account), ("Sequence", .ofNat 7),
      ("TakerGets", soloJson after), ("TakerPays", .string "30000000")])])]

def messageOf (account : String) (nodes : List Json) (date : Nat) : Json := .object
  [("transaction", .object [("Account", .string account),
      ("TransactionType", .string "OfferCreate"), ("Sequence", .ofNat 3)]),
    ("meta", .object [("AffectedNodes", .array nodes),
      ("TransactionResult", .string "tesSUCCESS")]),
    ("hash", .string "AB"), ("ledger_index", .ofNat 9), ("date", .ofNat date)]

def soloLine (peer value : String) : Json := .object [("LedgerEntryType", .string "RippleState"),
  ("Balance", .object [("currency", .string "SOLO"), ("issuer", .string "rOne"),
    ("value", .string value)]),
  ("LowLimit", .object [("currency", .string "SOLO"), ("issuer", .string "rMe"),
    ("value", .string "0")]),
  ("HighLimit", .object [("currency", .string "SOLO"), ("issuer", .string peer),
    ("value", .string "0")])]

def linesAnswer (lines : List Json) : Answer :=
  .ofResult (.object [("account_objects", .array lines)])

def fillMessage : Json := messageOf "rTaker" [takeNode "rMe" "100" "60"] 800000000

def restingState : DeskState where
  register := OrderRegister.empty.track RegisterStep.restingOrder

theorem a_fill_is_taken_in :
    run? rulesDesk ⟨{}, .empty⟩ [.track RegisterStep.restingOrder] = some ⟨restingState, .empty⟩ ∧
    (handled rulesDesk restingState fillMessage {} (.ok (ownAccount "50000000")) {}
      (.ok (linesAnswer [soloLine "rA" "5"]))).2 = .done () := by
  have hrun : run? rulesDesk ⟨{}, .empty⟩ [.track RegisterStep.restingOrder] =
      some ⟨restingState, .empty⟩ := rfl
  have horders : restingState.register.ExecutedWithin "AB" 0 := by
    intro x order horder _
    rw [restingState, OrderRegister.find?_track] at horder
    split at horder <;> cases horder
    exact Trader.within_zero 0
  obtain ⟨o, ho⟩ : ∃ o, Outcome.ofStream fillMessage = .ok o := ⟨_, rfl⟩
  refine ⟨hrun, ?_⟩
  refine ((messages_halt_only_out_of_range hrun fillMessage {} {} _ _).2 o ho).2.2.2.2
    100 0 0 50 10 5 ?_ ?_
  · cases ho
    exact {
      closes := by decide +kernel
      legs := by decide +kernel
      orders := horders
      rates := nofun
      counted := by decide +kernel
      fees := by decide +kernel }
  · rintro a b ⟨⟩ ⟨⟩
    exact {
      native := by
        intro data value h
        cases h
        decide +kernel
      base := by decide +kernel
      perObject := by decide +kernel
      lines := by decide +kernel
      room := by decide +kernel }

/-! Offers swing from one sign to the other, a taker takes more than any decimal from two offers, a
transaction closes in a year that is too far off, and two trust lines hold more together than any
decimal. -/

def emptyBook : Answer := .ofResult (.object [("offers", .array [])])

def lookAtBook : List BusyEvent :=
  [.start 0 (.view "SOLO-XRP"), .reply 0 (.ok emptyBook), .reply 0 (.ok emptyBook)]

def takingOrder : Order := { RegisterStep.restingOrder with exchangeId := some "3-20" }

theorem messages_out_of_range_halt :
    (∃ g, run? rulesDesk ⟨{}, .empty⟩ lookAtBook = some g ∧
      g.state.bookEvent? (messageOf "rX" [takeNode "rA" "5e28" "-5e28"] 800000000) = none) ∧
    (∃ g, run? rulesDesk ⟨{}, .empty⟩ [.track takingOrder] = some g ∧
      (handled rulesDesk g.state
        (messageOf "rMe" [takeNode "rA" "5e28" "0", takeNode "rB" "5e28" "0"] 800000000)
        g.state (.error "") g.state (.error "")).2 = .halted) ∧
    (handled rulesDesk {} (messageOf "rX" [] (UInt64.size - 1)) {} (.error "") {} (.error "")).2 =
      .halted ∧
    (handled rulesDesk {} (messageOf "rMe" [] 800000000) {} (.ok (ownAccount "50000000")) {}
      (.ok (linesAnswer [soloLine "rA" "5e28", soloLine "rB" "5e28"]))).2 = .halted := by
  have hbook : (run? rulesDesk ⟨{}, .empty⟩ lookAtBook).map (fun g =>
      g.state.bookEvent? (messageOf "rX" [takeNode "rA" "5e28" "-5e28"] 800000000)) =
        some none := by decide +kernel
  obtain ⟨g, hrun, hnone⟩ := Option.map_eq_some_iff.mp hbook
  exact ⟨⟨g, hrun, hnone⟩, ⟨_, rfl, by decide +kernel⟩, by decide +kernel, by decide +kernel⟩

end BusyDesk

end OfferDesk
