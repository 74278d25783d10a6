-- A transaction touches only the orders that it names. Each of its parts reads one sequence and
-- writes the order that this leads to, so two registers that agree on the named sequences go on
-- alike. Transactions that name different orders can therefore be taken in in any order.
import OfferDesk.Proofs.Replay
import OfferDesk.Proofs.SingleOrders

namespace OfferDesk

/-! ## The sequences of a transaction -/

namespace Outcome

/-- The sequences by which a transaction names offers of an account. One that is not validated
names none. -/
def named (o : Outcome) (account : String) : List UInt32 :=
  if !o.validated then []
  else (o.ownSequence? account).toList ++
    if o.isSuccess then o.offerNodes.filterMap (·.restingSequence? account) else []

variable {o : Outcome} {account : String} {sequence : UInt32}

theorem ownSequence?_eq_some_iff : o.ownSequence? account = some sequence ↔
    o.transaction.account = account ∧
      (o.transaction.kind = "OfferCreate" ∧ o.transaction.sequence = sequence ∨
        o.transaction.kind = "OfferCancel" ∧ o.transaction.offerSequence = some sequence) := by
  unfold ownSequence?
  split
  · rename_i own
    split
    · rename_i kind
      simp [own, kind]
    · rename_i other
      split
      · rename_i kind
        simp [own, kind]
      · rename_i kind
        simp [other, kind]
  · rename_i foreign
    simp [foreign]

theorem restingSequence?_eq_some_iff {n : AffectedNode} :
    n.restingSequence? account = some sequence ↔
      n.account? = some account ∧ n.kind ≠ .created ∧ n.sequence? = some sequence := by
  unfold AffectedNode.restingSequence?
  split
  · rename_i skipped
    simp only [reduceCtorEq, false_iff]
    rintro ⟨own, kind, _⟩
    exact skipped.elim (fun h => h own) kind
  · rename_i named
    simp only [not_or, not_not] at named
    simp [named]

/-- The list holds just what a validated transaction names. -/
theorem mem_named :
    sequence ∈ o.named account ↔ o.validated = true ∧ o.Names account sequence := by
  unfold named
  cases hv : o.validated with
  | false => simp
  | true =>
    simp only [Bool.not_true, Bool.false_eq_true, if_false, List.mem_append, Option.mem_toList,
      ownSequence?_eq_some_iff, true_and]
    constructor
    · rintro (⟨own, ⟨kind, rfl⟩ | ⟨kind, offer⟩⟩ | hresting)
      · exact .create own kind
      · exact .cancel own kind offer
      · split at hresting
        · rename_i success
          obtain ⟨n, hn, hs⟩ := List.mem_filterMap.mp hresting
          obtain ⟨own, kind, offer⟩ := restingSequence?_eq_some_iff.mp hs
          exact .resting success hn own kind offer
        · cases hresting
    · intro h
      cases h with
      | create own kind => exact Or.inl ⟨own, Or.inl ⟨kind, rfl⟩⟩
      | cancel own kind offer => exact Or.inl ⟨own, Or.inr ⟨kind, offer⟩⟩
      | resting success mem own kind offer =>
        rw [if_pos success]
        exact Or.inr (List.mem_filterMap.mpr
          ⟨_, mem, restingSequence?_eq_some_iff.mpr ⟨own, kind, offer⟩⟩)

end Outcome

/-! ## Orders under some sequences -/

/-- An order that goes on keeps all but what the ledger tells about it. -/
theorem Order.Advances.changes {a a' : Order} (h : a.Advances a') :
    a' = { a with
      state := a'.state
      executedBase := a'.executedBase
      executedQuote := a'.executedQuote
      appliedHashes := a'.appliedHashes } := by
  have hplaced := h.placed
  cases a
  cases a'
  simp only [Order.asPlaced, Order.mk.injEq, true_and, and_true] at hplaced
  obtain ⟨rfl, rfl, rfl, rfl, rfl, rfl, rfl, rfl⟩ := hplaced
  rfl

namespace OrderRegister

variable {S : UInt32 → Prop} {r r' r₁ l l' l₁ : OrderRegister} {x : String} {a : Order}
  {n : UInt32}

/-- The id is one of a live order that carries one of some sequences. -/
def Carries (S : UInt32 → Prop) (r : OrderRegister) (x : String) : Prop :=
  ∃ n a, S n ∧ a ∈ r.carrying n ∧ a.clientId = x

/-- The live orders that carry one of some sequences are the same in both registers. -/
def Agree (S : UInt32 → Prop) (r l : OrderRegister) : Prop :=
  ∀ n, S n → ∀ a, a ∈ r.carrying n ↔ a ∈ l.carrying n

theorem Agree.resolve?_eq (h : Agree S r l) (hn : S n) : r.resolve? n = l.resolve? n := by
  refine Option.ext fun a => ?_
  simp only [resolve?_eq_some_iff_only, h n hn]

/-- An order that carries another sequence is none of those under them. -/
theorem not_carries (ha : r.find? x = some a) (hs : a.sequence? = some n) (hn : ¬ S n) :
    ¬ r.Carries S x := by
  rintro ⟨m, b, hm, hb, rfl⟩
  obtain ⟨hf, _, hseq⟩ := mem_carrying.mp hb
  rw [ha] at hf
  cases hf
  rw [hs] at hseq
  cases hseq
  exact hn hm

theorem Advances.carries (h : r.Advances r') (hx : r'.Carries S x) : r.Carries S x := by
  obtain ⟨n, a', hn, ha', rfl⟩ := hx
  obtain ⟨a, ha, hadvances⟩ := h.descends.mem_carrying ha'
  exact ⟨n, a, hn, ha, hadvances.clientId_eq.symm⟩

/-- What became of two registers. The orders under some sequences, in the first, became the same;
the others are as they were in each. -/
def Parallel (S : UInt32 → Prop) (r l r' l' : OrderRegister) : Prop :=
  ∀ x, r.Carries S x ∧ r'.find? x = l'.find? x ∨ r'.find? x = r.find? x ∧ l'.find? x = l.find? x

theorem Parallel.refl (r l : OrderRegister) : Parallel S r l r l := fun _ => Or.inr ⟨rfl, rfl⟩

theorem Parallel.trans (h : Parallel S r l r₁ l₁) (hr : r.Advances r₁)
    (h' : Parallel S r₁ l₁ r' l') : Parallel S r l r' l' := by
  intro x
  rcases h' x with ⟨hx, heq⟩ | ⟨hr', hl'⟩
  · exact Or.inl ⟨hr.carries hx, heq⟩
  · rw [hr', hl']
    exact h x

theorem Parallel.agree (h : Parallel S r l r' l') (ha : Agree S r l) : Agree S r' l' := by
  intro n hn a
  have hbefore := ha n hn a
  simp only [mem_carrying] at hbefore ⊢
  rcases h a.clientId with ⟨_, heq⟩ | ⟨hr', hl'⟩
  · rw [heq]
  · rw [hr', hl', hbefore]

/-- The same order put in place of one under the sequences, or nothing. -/
theorem Parallel.replaces {w : Option Order} (hr : Replaces w r r') (hl : Replaces w l l')
    (hw : ∀ a, w = some a → r.Carries S a.clientId) : Parallel S r l r' l' := by
  intro x
  cases w with
  | none => exact Or.inr ⟨hr x, hl x⟩
  | some a =>
    by_cases hx : x = a.clientId
    · exact Or.inl ⟨hx ▸ hw a rfl, by rw [hr x, hl x, if_pos hx, if_pos hx]⟩
    · exact Or.inr ⟨by rw [hr x, if_neg hx], by rw [hl x, if_neg hx]⟩

end OrderRegister

/-! ## Events -/

namespace OrderEvent

/-- The events that are about one order. -/
def eventsOf (clientId : String) (events : List OrderEvent) : List OrderEvent :=
  events.filter (·.clientId = clientId)

theorem eventsOf_eq_nil {clientId : String} {events : List OrderEvent}
    (h : ∀ e ∈ events, e.clientId ≠ clientId) : eventsOf clientId events = [] := by
  apply List.filter_eq_nil_iff.mpr
  intro e he
  simpa using h e he

end OrderEvent

namespace OrderRegister

variable {r l : OrderRegister} {x : String}

/-- What is reported of an order does not depend on any other. -/
theorem snd_report_congr (h : r.find? x = l.find? x) (state : OrderState) (isFill : Bool)
    (time : Stamp) : (r.report x state isFill time).2 = (l.report x state isFill time).2 := by
  unfold report move?
  rw [h]
  cases l.find? x with
  | none => rfl
  | some a =>
    simp only [Option.bind_eq_bind, Option.bind_some]
    by_cases hmoves : a.state ≠ state ∧ a.state.canMoveTo state = true
    · simp only [if_pos hmoves, Option.pure_def]
    · simp only [if_neg hmoves]
      by_cases hfill : isFill = true ∧ a.state = state
      · simp only [if_pos hfill]
      · simp only [if_neg hfill]

theorem clientId_of_report {state : OrderState} {isFill : Bool} {time : Stamp} {e : OrderEvent}
    (he : e ∈ (r.report x state isFill time).2) : e.clientId = x := by
  unfold report at he
  split at he
  · rename_i r' a' hm
    obtain ⟨a, ha, _, _, rfl, _⟩ := move?_eq_some_iff.mp hm
    obtain rfl := List.mem_singleton.mp he
    exact clientId_of_find? ha
  · split at he
    · rename_i a ha
      split at he
      · obtain rfl := List.mem_singleton.mp he
        exact clientId_of_find? ha
      · cases he
    · cases he

end OrderRegister

namespace Finding

variable {ctx : Trader} {t : Outcome} {time : Stamp} {r l r' : OrderRegister} {found : Finding}
  {events : List OrderEvent} {e : OrderEvent}

/-- Whatever is reported is about the order that was found. -/
theorem clientId_of_enter (henter : found.enter? ctx time r = some (r', events)) (he : e ∈ events) :
    ∃ o, found.order? = some o ∧ e.clientId = o.clientId := by
  cases found with
  | nothing =>
    cases henter
    cases he
  | ends order state =>
    have hevents : (r.report order.clientId state false time).2 = events :=
      congrArg Prod.snd (Option.some.inj henter)
    exact ⟨order, rfl, OrderRegister.clientId_of_report (hevents ▸ he)⟩
  | fills order market fill next =>
    refine ⟨order, rfl, ?_⟩
    simp only [enter?, Fill.count?] at henter
    split at henter
    · cases henter
      cases he
    · simp only [Option.bind_eq_bind, Option.bind_eq_some_iff, Option.pure_def, Option.some.injEq,
        Prod.mk.injEq] at henter
      obtain ⟨o', ho', trades, htrades, _, rfl⟩ := henter
      rw [← Order.clientId_withFill? ho']
      rcases List.mem_append.mp he with he | he
      · exact Fill.clientId_of_trades? htrades he
      · exact OrderRegister.clientId_of_report he

/-- Where two registers hold the order that was found, it is reported alike. -/
theorem rel_enter_events (hr : Trader.Found t r found) (hl : Trader.Found t l found) :
    Option.Rel (fun a b => a.2 = b.2) (found.enter? ctx time r) (found.enter? ctx time l) := by
  have hfits := hr.fits
  have hfits' := hl.fits
  cases found with
  | nothing => exact .some rfl
  | ends order state =>
    exact .some (OrderRegister.snd_report_congr (hfits.1.trans hfits'.1.symm) state false time)
  | fills order market fill next =>
    simp only [enter?, Fill.count?]
    split
    · exact .some rfl
    cases order.withFill? fill.hash fill.base fill.quote with
    | none => exact .none
    | some o' =>
      simp only [Option.bind_eq_bind, Option.bind_some]
      cases fill.trades? ctx market o' with
      | none => exact .none
      | some trades =>
        have hboth : (r.track o').find? o'.clientId = (l.track o').find? o'.clientId := by
          rw [OrderRegister.find?_track_self, OrderRegister.find?_track_self]
        exact .some (congrArg (trades ++ ·)
          (OrderRegister.snd_report_congr hboth _ _ _))

end Finding

/-! ## Two registers side by side -/

namespace OrderRegister

/-- Two registers that went on alike: with the same events, all about the orders under some
sequences, and with nothing else changed. -/
structure Twins (S : UInt32 → Prop) (r l : OrderRegister) (a b : Reported) : Prop where
  events : a.2 = b.2
  about : ∀ e ∈ a.2, r.Carries S e.clientId
  orders : Parallel S r l a.1 b.1
  advances : r.Advances a.1

namespace Twins

open OrderEvent

variable {S : UInt32 → Prop} {r l : OrderRegister} {a b a' b' : Reported}

theorem refl (r l : OrderRegister) : Twins S r l (r, []) (l, []) where
  events := rfl
  about := by simp
  orders := .refl r l
  advances := .refl r

theorem append (h : Twins S r l a b) (h' : Twins S a.1 b.1 a' b') :
    Twins S r l (a'.1, a.2 ++ a'.2) (b'.1, b.2 ++ b'.2) where
  events := by rw [h.events, h'.events]
  about e he := by
    rcases List.mem_append.mp he with he | he
    · exact h.about e he
    · exact h.advances.carries (h'.about e he)
  orders := h.orders.trans h.advances h'.orders
  advances := h.advances.trans h'.advances

/-- What does not carry the sequences is left alone, and nothing is reported of it. -/
theorem leaves {x : String} (h : Twins S r l a b) (hx : ¬ r.Carries S x) :
    a.1.find? x = r.find? x ∧ eventsOf x a.2 = [] :=
  ⟨((h.orders x).resolve_left fun hc => hx hc.1).1,
    eventsOf_eq_nil fun e he hid => hx (hid ▸ h.about e he)⟩

/-- A register still agrees with what became of it on other sequences. -/
theorem agree {T : UInt32 → Prop} (h : Twins S r l a b) (hT : ∀ n, T n → ¬ S n) :
    Agree T r a.1 := by
  intro n hn o
  simp only [mem_carrying]
  constructor
  · rintro ⟨ho, hl, hs⟩
    exact ⟨(h.leaves (not_carries ho hs (hT n hn))).1.trans ho, hl, hs⟩
  · rintro ⟨ho, hl, hs⟩
    obtain ⟨o', ho', hadvances⟩ := h.advances.backward ho
    have hout := not_carries ho' (hadvances.sequence?_eq.symm.trans hs) (hT n hn)
    exact ⟨(h.leaves hout).1.symm.trans ho, hl, hs⟩

end Twins

end OrderRegister

namespace Part

open OrderRegister (Agree Twins Parallel)

/-- The part reads one sequence, out of some, and finds what a part of the transaction can. -/
def Within (t : Outcome) (S : UInt32 → Prop) (part : Part) : Prop :=
  (∃ sequence?, part.Reads sequence? ∧ ∀ n, sequence? = some n → S n) ∧
    ∀ r found, part r = some found → Trader.Found t r found

variable {ctx : Trader} {t : Outcome} {time : Stamp} {S : UInt32 → Prop} {part : Part}
  {parts : List Part} {r l : OrderRegister} {found : Finding}

/-- Registers that agree on the sequences that a part may read give it the same to find. -/
theorem Within.same (h : part.Within t S) (ha : Agree S r l) : part r = part l := by
  obtain ⟨⟨sequence?, hreads, hS⟩, _⟩ := h
  refine hreads.same r l ?_
  cases sequence? with
  | none => rfl
  | some n => exact ha.resolve?_eq (hS n rfl)

theorem Within.carries {o : Order} (h : part.Within t S) (hpart : part r = some found)
    (ho : found.order? = some o) : r.Carries S o.clientId := by
  obtain ⟨⟨sequence?, hreads, hS⟩, hfound⟩ := h
  obtain ⟨n, rfl, hn⟩ := Option.bind_eq_some_iff.mp (hreads.order hfound hpart ho)
  exact ⟨n, o, hS n rfl, OrderRegister.mem_carrying_of_resolve? hn, rfl⟩

/-- What a part found is written down alike in both registers. -/
theorem Within.rel_enter (h : part.Within t S) (hr : part r = some found)
    (hl : part l = some found) :
    Option.Rel (Twins S r l) (found.enter? ctx time r) (found.enter? ctx time l) := by
  have hfound := h.2 r found hr
  have hfound' := h.2 l found hl
  refine rel_imp (Finding.rel_enter_events hfound hfound') fun a b ha hb hevents => ?_
  obtain ⟨w, hw, hreplaces⟩ := Finding.replaces_of_enter hfound ha
  obtain ⟨w', hw', hreplaces'⟩ := Finding.replaces_of_enter hfound' hb
  obtain rfl : w = w' := Option.some.inj (hw.symm.trans hw')
  refine ⟨hevents, fun e he => ?_, .replaces hreplaces hreplaces' ?_,
    Finding.advances_enter hfound ha⟩
  · obtain ⟨o, ho, hid⟩ := Finding.clientId_of_enter ha he
    exact hid ▸ h.carries hr ho
  · rintro c rfl
    obtain ⟨o, ho, hid⟩ := Finding.clientId_of_replaces hw
    exact hid ▸ h.carries hr ho

/-- Parts that read the sequences on which two registers agree do the same in both. -/
theorem rel_trace (hparts : ∀ part ∈ parts, part.Within t S) (ha : Agree S r l) :
    Option.Rel (fun a b => Twins S r l a.1 b.1) (trace? ctx time r parts)
      (trace? ctx time l parts) := by
  induction parts generalizing r l with
  | nil => exact .some (.refl r l)
  | cons part parts ih =>
    have hpart := hparts part List.mem_cons_self
    simp only [trace?, ← hpart.same ha, Option.bind_eq_bind]
    cases hfound : part r with
    | none => exact .none
    | some found =>
      have hfound' : part l = some found := hpart.same ha ▸ hfound
      simp only [Option.bind_some]
      refine rel_bind (hpart.rel_enter hfound hfound') fun a b h => ?_
      have hrest := ih (fun p hp => hparts p (List.mem_cons_of_mem _ hp)) (h.orders.agree ha)
      exact rel_bind hrest fun a' b' h' => .some (h.append h')

theorem twins_trace {r' : OrderRegister} {events : List OrderEvent} {fills : List Fill}
    (hparts : ∀ part ∈ parts, part.Within t S)
    (h : trace? ctx time r parts = some ((r', events), fills)) :
    Twins S r r (r', events) (r', events) := by
  have hrel : Option.Rel _ (trace? ctx time r parts) (trace? ctx time r parts) :=
    rel_trace hparts fun _ _ _ => Iff.rfl
  rw [h] at hrel
  cases hrel with
  | some htwins => exact htwins

end Part

namespace Trader

open OrderRegister (Agree Twins)

variable {ctx : Trader} {o p : Outcome} {time : Stamp} {r r' l : OrderRegister}
  {events : List OrderEvent}

theorem within_ownFinding {S : UInt32 → Prop}
    (h : ∀ n, o.ownSequence? ctx.account = some n → S n) :
    Part.Within o S (ctx.ownFinding? o time) :=
  ⟨⟨_, reads_ownFinding, h⟩, fun _ _ => found_ownFinding⟩

theorem within_nodeFinding {S : UInt32 → Prop} {n : AffectedNode}
    (h : ∀ k, n.restingSequence? ctx.account = some k → S k) :
    Part.Within o S (ctx.nodeFinding? o time n) :=
  ⟨⟨_, reads_nodeFinding n, h⟩, fun _ _ => found_nodeFinding⟩

theorem within_parts (hv : o.validated = true) :
    ∀ part ∈ ctx.parts o time, part.Within o (· ∈ o.named ctx.account) := by
  intro part hpart
  simp only [Outcome.named, hv, Bool.not_true, Bool.false_eq_true, if_false, List.mem_append,
    Option.mem_toList]
  rcases List.mem_cons.mp hpart with rfl | hpart
  · exact within_ownFinding fun n hn => Or.inl hn
  · split at hpart
    · rename_i success
      obtain ⟨n, hmem, rfl⟩ := List.mem_map.mp hpart
      apply within_nodeFinding
      intro k hk
      rw [if_pos success]
      exact Or.inr (List.mem_filterMap.mpr ⟨n, hmem, hk⟩)
    · cases hpart

/-- Registers that agree on what a transaction names go on alike. -/
theorem rel_process (ctx : Trader) (o : Outcome) (ha : Agree (· ∈ o.named ctx.account) r l) :
    Option.Rel (Twins (· ∈ o.named ctx.account) r l) (ctx.process? o r) (ctx.process? o l) := by
  simp only [process?_eq_trace, trace?]
  by_cases hv : o.validated = true
  · simp only [hv, Bool.not_true, Bool.false_eq_true, if_false, Option.bind_eq_bind]
    cases Stamp.ofClose? o.date with
    | none => exact .none
    | some time =>
      simp only [Option.bind_some, Option.map_eq_bind]
      exact rel_bind (Part.rel_trace (within_parts hv) ha) fun a b h => .some h
  · simp only [hv, Bool.not_false, if_true]
    exact .some (.refl r l)

/-! ## What is left alone -/

/-- What a transaction changes or reports is about orders that it names. -/
theorem twins_process (h : ctx.process? o r = some (r', events)) :
    Twins (· ∈ o.named ctx.account) r r (r', events) (r', events) := by
  have hrel := rel_process ctx o (r := r) (l := r) fun _ _ _ => Iff.rfl
  rw [h] at hrel
  cases hrel with
  | some htwins => exact htwins

end Trader

/-! ## The ids in their order -/

namespace OrderRegister

variable {r r' : OrderRegister}

theorem keys_track {o : Order} (h : r.find? o.clientId ≠ none) :
    (r.track o).orders.keys = r.orders.keys :=
  Table.keys_put r.orders o h

theorem keys_move (r : OrderRegister) (clientId : String) (state : OrderState) :
    (r.move clientId state).orders.keys = r.orders.keys := by
  unfold move
  split
  · rename_i r' o' hm
    obtain ⟨o, ho, _, _, rfl, rfl⟩ := move?_eq_some_iff.mp hm
    apply keys_track
    rw [show r.find? o.clientId = some o from clientId_of_find? ho ▸ ho]
    simp
  · rfl

/-- Registers with the same ids in the same order, and the same order under each, are the same. -/
theorem ext_of_find? (hkeys : r.orders.keys = r'.orders.keys) (h : ∀ x, r.find? x = r'.find? x) :
    r = r' := by
  have horders : r.orders = r'.orders := Table.ext_of_find? hkeys h
  cases r
  cases r'
  cases horders
  rfl

end OrderRegister

namespace Trader

open OrderEvent OrderRegister
open RegisterStep (soloTrader restingOrder partialFill)

variable {ctx : Trader} {o p : Outcome} {r r' r₁ l₁ : OrderRegister} {events : List OrderEvent}

theorem Effect.keys (h : ctx.Effect o r r' events) : r'.orders.keys = r.orders.keys := by
  induction h with
  | nothing r => rfl
  | ends _ _ _ report =>
    rw [eq_move_of_report report]
    exact keys_move _ _ _
  | @counts r r' order f market next events _ _ _ found _ _ count =>
    unfold Fill.count? at count
    by_cases hcounted : order.hasApplied f.hash = true
    · rw [if_pos hcounted] at count
      cases count
      rfl
    · simp only [if_neg hcounted, Option.bind_eq_bind, Option.bind_eq_some_iff, Option.pure_def,
        Option.some.injEq, Prod.mk.injEq] at count
      obtain ⟨o', ho', _, _, hr', _⟩ := count
      rw [eq_move_of_report (Prod.ext hr' rfl), keys_move]
      apply keys_track
      rw [Order.clientId_withFill? ho', find?_of_resolve? found]
      simp
  | andThen _ _ ih ih' => rw [ih', ih]

/-! ## One after the other -/

/-- The same register with the same events of each order. -/
def SameReport (a b : Reported) : Prop := a.1 = b.1 ∧ ∀ x, eventsOf x a.2 = eventsOf x b.2

/-- What comes of a transaction is the same before and after one that names other orders. -/
theorem rel_process_after (hp : ctx.process? p r = some (l₁, events))
    (hdisjoint : ∀ n ∈ o.named ctx.account, n ∉ p.named ctx.account) :
    Option.Rel (Twins (· ∈ o.named ctx.account) r l₁) (ctx.process? o r) (ctx.process? o l₁) :=
  rel_process ctx o ((twins_process hp).agree hdisjoint)

/-- Two transactions that name different orders, taken in in either order from one register. -/
theorem sameReport_of_twins {S T : UInt32 → Prop} {a b a' b' : Reported}
    (hdisjoint : ∀ n, S n → ¬ T n) (ha : Twins S r b.1 a a') (hb : Twins T r a.1 b b')
    (hkeys : b'.1.orders.keys = a'.1.orders.keys) :
    SameReport (b'.1, a.2 ++ b'.2) (a'.1, b.2 ++ a'.2) := by
  have hone : ∀ x, r.Carries S x → ¬ r.Carries T x := by
    rintro x ⟨n, o, hn, ho, rfl⟩
    obtain ⟨hf, _, hs⟩ := mem_carrying.mp ho
    exact not_carries hf hs (hdisjoint n hn)
  constructor
  · refine ext_of_find? hkeys fun x => ?_
    rcases ha.orders x with ⟨hx, hsame⟩ | ⟨hstays, hlater⟩
    · -- the first transaction is about this order, so the second leaves it
      obtain ⟨_, hleft⟩ := (hb.orders x).resolve_left fun h => hone x hx h.1
      rw [hleft, hsame]
    · rcases hb.orders x with ⟨_, hsame⟩ | ⟨hstays', hlater'⟩
      · rw [← hsame, hlater]
      · rw [hlater', hlater, hstays, hstays']
  · intro x
    simp only [eventsOf, List.filter_append, ← ha.events, ← hb.events]
    by_cases hx : r.Carries S x
    · rw [show b.2.filter _ = [] from (hb.leaves (hone x hx)).2, List.append_nil,
        List.nil_append]
    · rw [show a.2.filter _ = [] from (ha.leaves hx).2, List.append_nil, List.nil_append]

/-- Transactions that name different orders can be taken in in any order. -/
theorem rel_andThen_comm (ctx : Trader)
    (hdisjoint : ∀ n ∈ o.named ctx.account, n ∉ p.named ctx.account) (r : OrderRegister) :
    Option.Rel SameReport (andThen (ctx.process? o) (ctx.process? p) r)
      (andThen (ctx.process? p) (ctx.process? o) r) := by
  have hdisjoint' : ∀ n ∈ p.named ctx.account, n ∉ o.named ctx.account :=
    fun n hp ho => hdisjoint n ho hp
  simp only [andThen, Option.bind_eq_bind]
  cases ho : ctx.process? o r with
  | none =>
    cases hp : ctx.process? p r with
    | none => exact .none
    | some b =>
      -- what fails at first fails after the other transaction, too
      have hlater := rel_process_after hp hdisjoint
      rw [ho] at hlater
      simp only [Option.bind_some, Option.bind_none, eq_none_of_rel hlater]
      exact .none
  | some a =>
    have hthen := rel_process_after ho hdisjoint'
    cases hp : ctx.process? p r with
    | none =>
      rw [hp] at hthen
      simp only [Option.bind_some, Option.bind_none, eq_none_of_rel hthen]
      exact .none
    | some b =>
      have hlater := rel_process_after hp hdisjoint
      rw [hp] at hthen
      rw [ho] at hlater
      obtain ⟨b', hb', hthen⟩ := exists_of_some_rel hthen
      obtain ⟨a', ha', hlater⟩ := exists_of_some_rel hlater
      simp only [Option.bind_some, hb', ha']
      refine .some (sameReport_of_twins hdisjoint hlater hthen ?_)
      rw [(effect_process hb').keys, (effect_process ha').keys, (effect_process ho).keys,
        (effect_process hp).keys]

/-- A transaction changes only live orders that carry a sequence it names, and of those only what
the ledger tells about them; nothing else is reported. Transactions that name no order together
give the same register in either order, with the same events of each order. -/
theorem transactions_touch_only_what_they_name (ctx : Trader) (o : Outcome) :
    (∀ r r' events, ctx.process? o r = some (r', events) → ∀ clientId,
      r'.find? clientId = r.find? clientId ∧ eventsOf clientId events = [] ∨
      ∃ n a a', n ∈ o.named ctx.account ∧ r.find? clientId = some a ∧ a.isLive = true ∧
        a.sequence? = some n ∧ r'.find? clientId = some a' ∧
        a' = { a with
          state := a'.state
          executedBase := a'.executedBase
          executedQuote := a'.executedQuote
          appliedHashes := a'.appliedHashes }) ∧
    ∀ p, (∀ n ∈ o.named ctx.account, n ∉ p.named ctx.account) → ∀ r,
      Option.Rel SameReport (andThen (ctx.process? o) (ctx.process? p) r)
        (andThen (ctx.process? p) (ctx.process? o) r) := by
  refine ⟨fun r r' events h x => ?_, fun p hdisjoint r => rel_andThen_comm ctx hdisjoint r⟩
  have htwins := twins_process h
  by_cases hx : r.Carries (· ∈ o.named ctx.account) x
  · obtain ⟨n, a, hn, ha, rfl⟩ := hx
    obtain ⟨hf, hl, hs⟩ := mem_carrying.mp ha
    obtain ⟨a', hf', hadvances⟩ := htwins.advances.forward hf
    exact Or.inr ⟨n, a, a', hn, hf, hl, hs, hf', hadvances.changes⟩
  · exact Or.inl (htwins.leaves hx)

/-! An offer is taken from while the cancel of another one comes in. -/

def otherOrder : Order :=
  { Order.start "1-2" "SOLO-XRP" .sell .limit (.ofWord 50) none .moment with
    exchangeId := some "8-20"
    state := .pendingCancel }

def cancelOfOther : Outcome where
  hash := "CD"
  transaction := ⟨"rMe", "OfferCancel", 9, none, none, 0, none, none, some 8⟩
  engineResult := "tesSUCCESS"
  nodes := []
  ledgerIndex := some 9
  validated := true
  date := none

def twoOrders : OrderRegister := (OrderRegister.empty.track restingOrder).track otherOrder

theorem taken_while_another_is_cancelled :
    (∃ r' events,
      soloTrader.process? partialFill twoOrders = some (r', events) ∧
        r'.find? "1-2" = some otherOrder ∧ eventsOf "1-2" events = []) ∧
    ∃ a b,
      andThen (soloTrader.process? partialFill)
        (soloTrader.process? cancelOfOther) twoOrders = some a ∧
      andThen (soloTrader.process? cancelOfOther)
        (soloTrader.process? partialFill) twoOrders = some b ∧
      SameReport a b := by
  have hother : twoOrders.find? "1-2" = some otherOrder := by decide +kernel
  have hfill : partialFill.named "rMe" = [7] := by decide +kernel
  have hcancel : cancelOfOther.named "rMe" = [8] := by decide +kernel
  obtain ⟨htouches, hcomm⟩ :=
    transactions_touch_only_what_they_name soloTrader partialFill
  constructor
  · obtain ⟨⟨r', events⟩, h⟩ := Option.isSome_iff_exists.mp (show
      (soloTrader.process? partialFill twoOrders).isSome = true by
        decide +kernel)
    refine ⟨r', events, h, ?_⟩
    rcases htouches twoOrders r' events h "1-2" with ⟨hsame, hnone⟩ | ⟨n, a, _, hn, ha, _, hs, _⟩
    · exact ⟨hsame.trans hother, hnone⟩
    · rw [hother] at ha
      cases ha
      have hsequence : otherOrder.sequence? = some 8 := by decide +kernel
      rw [show n = 7 from List.mem_singleton.mp (hfill ▸ hn), hsequence] at hs
      cases hs
  · obtain ⟨b, hb⟩ := Option.isSome_iff_exists.mp (show
      (andThen (soloTrader.process? cancelOfOther)
        (soloTrader.process? partialFill) twoOrders).isSome = true by
        decide +kernel)
    have hdisjoint : ∀ n ∈ partialFill.named "rMe", n ∉ cancelOfOther.named "rMe" := by
      simp [hfill, hcancel]
    have hrel := hcomm cancelOfOther hdisjoint twoOrders
    rw [hb] at hrel
    obtain ⟨a, ha, hsame⟩ := exists_of_rel_some hrel
    exact ⟨a, b, ha, hb, hsame⟩

end Trader

end OfferDesk
