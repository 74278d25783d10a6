-- What one turn of a placement does. Until it submits, nothing can find its order, so the order
-- waits untouched. It submits in the same turn in which it gets its sequence, and it gets none that
-- another live order carries.
import OfferDesk.Proofs.DeskEvents
import OfferDesk.Proofs.Submitting

namespace OfferDesk

/-! ## Sequences held alone -/

namespace OrderRegister

variable {r r' : OrderRegister} {clientId x : String} {id : ExchangeId}

/-- As long as the order under a client id is live, no other live order carries its sequence. -/
def Sole (clientId : String) (r : OrderRegister) : Prop :=
  ∀ n, ∀ o ∈ r.carrying n, o.clientId = clientId → ∀ a ∈ r.carrying n, a.clientId = clientId

theorem Descends.sole (h : r.Descends r') (hr : r.Sole clientId) : r'.Sole clientId := by
  intro n o' ho' hid a' ha'
  obtain ⟨o, ho, hoo⟩ := h.mem_carrying ho'
  obtain ⟨a, ha, haa⟩ := h.mem_carrying ha'
  rw [haa.clientId_eq]
  exact hr n o ho (hoo.clientId_eq ▸ hid) a ha

/-- An order that is assigned a sequence holds it alone, and so does any order that held its own
before. -/
theorem sole_assign (h : r.assign x id = .ok r') (hr : clientId = x ∨ r.Sole clientId) :
    r'.Sole clientId := by
  have hfree := (assign_eq_ok_iff.mp h).1
  intro n o ho hid a ha
  rcases mem_carrying_assign h ho with ⟨hox, rfl⟩ | ⟨hox, ho'⟩
  · rcases mem_carrying_assign h ha with ⟨hax, _⟩ | ⟨_, ha'⟩
    · rw [hax, ← hox, hid]
    · rw [hfree a ha', ← hox, hid]
  · rcases hr with rfl | hr
    · exact absurd hid hox
    · rcases mem_carrying_assign h ha with ⟨_, rfl⟩ | ⟨_, ha'⟩
      · exact absurd (hfree o ho') hox
      · exact hr n o ho' hid a ha'

/-! ## What a change spares -/

/-- The second register is the first after a change that is about one order at most: every other
order stays or is reached by a transaction, and what holds its sequence alone goes on doing so. -/
structure Spares (about : Option String) (r r' : OrderRegister) : Prop where
  others : ∀ x a, about ≠ some x → r.find? x = some a →
    ∃ a', r'.find? x = some a' ∧ (a' = a ∨ a.Reaches a')
  sole : ∀ x, r.Sole x → r'.Sole x

theorem Spares.refl (about : Option String) (r : OrderRegister) : r.Spares about r :=
  ⟨fun _ a _ ha => ⟨a, ha, Or.inl rfl⟩, fun _ h => h⟩

theorem Spares.trans {about : Option String} {r'' : OrderRegister} (h : r.Spares about r')
    (h' : r'.Spares about r'') : r.Spares about r'' where
  others x a hx ha := by
    obtain ⟨a', ha', hreached⟩ := h.others x a hx ha
    obtain ⟨a'', ha'', hreached'⟩ := h'.others x a' hx ha'
    exact ⟨a'', ha'', Order.eq_or_reaches_trans hreached hreached'⟩
  sole x hx := h'.sole x (h.sole x hx)

end OrderRegister

theorem RegisterCall.spares_next {r r' : OrderRegister} {call : RegisterCall}
    (h : call.next? r = some r') : r.Spares call.clientId? r' where
  others _ _ hx ha := find?_of_next h hx ha
  sole x hx := by
    cases call with
    | step ctx s => exact (RegisterStep.descends_next? h).sole hx
    | assign clientId id =>
      simp only [next?] at h
      split at h
      · rename_i r₁ hassign
        cases h
        exact OrderRegister.sole_assign hassign (Or.inr hx)
      · cases h
        exact hx

namespace DeskState

variable {d : Desk} {s s' : DeskState} {e : DeskEvent} {o : Order} {t : Outcome}

theorem spares_track (s : DeskState) (ho : o.exchangeId = none) :
    s.register.Spares (some o.clientId) (s.track o).register :=
  RegisterCall.spares_next (show RegisterCall.next? s.register (.step default (.track o ho)) = _
    from rfl)

theorem spares_move (s : DeskState) (clientId : String) (state : OrderState) :
    s.register.Spares (some clientId) (s.move clientId state).register := by
  rw [register_move]
  exact RegisterCall.spares_next (show RegisterCall.next? s.register
    (.step default (.move clientId state)) = _ from rfl)

theorem spares_applyFills (h : s.applyFills? d t = some s') (about : Option String) :
    s.register.Spares about s'.register := by
  obtain ⟨rules, events, hp⟩ := process?_of_applyFills h
  have hnext : RegisterCall.next? s.register (.step ⟨d.account, d.markets, rules⟩ (.takeIn t)) =
      some s'.register := Option.map_eq_some_iff.mpr ⟨_, hp, rfl⟩
  have hspares := RegisterCall.spares_next hnext
  exact ⟨fun x a _ ha => hspares.others x a (fun hx => nomatch hx) ha, hspares.sole⟩

theorem spares_after (h : s.after? d e = some s') :
    s.register.Spares e.clientId? s'.register where
  others _ _ hx ha := order?_of_after h hx ha
  sole x hx := by
    cases e with
    | message o =>
      obtain ⟨rules, events, hp⟩ := process?_of_userOutcome h
      exact (Trader.effect_process hp).advances.descends.sole hx
    | reread terms books now =>
      cases h
      exact hx
    | orders call =>
      obtain ⟨r, hr, hs⟩ := Option.bind_eq_some_iff.mp h
      cases hs
      exact (RegisterCall.spares_next hr).sole x hx

theorem signed_move (s : DeskState) (clientId : String) (state : OrderState) :
    (s.move clientId state).signed = s.signed := by
  unfold move
  split <;> rfl

theorem signed_applyFills (h : s.applyFills? d t = some s') : s'.signed = s.signed := by
  simp only [applyFills?, Option.bind_eq_bind, Option.bind_eq_some_iff, Option.pure_def,
    Option.some.injEq, Prod.exists] at h
  obtain ⟨register, events, _, rfl⟩ := h
  rfl

/-! ## Orders that wait for their sequence -/

/-- The order under a client id has just been placed, and has no exchange id yet. -/
def IsNew (clientId : String) (s : DeskState) : Prop :=
  ∃ o, s.order? clientId = some o ∧ o.state = .pendingCreate ∧ o.exchangeId = none

/-- Nothing that is about another order touches one without an exchange id. -/
theorem IsNew.spared {about : Option String} {clientId : String} (h : s.IsNew clientId)
    (hs : s.register.Spares about s'.register) (hc : about ≠ some clientId) :
    s'.IsNew clientId := by
  obtain ⟨o, ho, hstate, hid⟩ := h
  obtain ⟨o', ho', rfl | hreached⟩ := hs.others clientId o hc ho
  · exact ⟨o', ho', hstate, hid⟩
  · have hnumbered := hreached.numbered
    simp [Order.sequence?, hid] at hnumbered

theorem isNew_track (s : DeskState) (o : PlaceOrder) : (s.track o.toOrder).IsNew o.clientId :=
  ⟨o.toOrder, OrderRegister.find?_track_self _ _, rfl, rfl⟩

end DeskState

/-! ## Before the submission -/

/-- The signer signs each transaction as it is. -/
def Signer.IsFaithful (signer : Signer) : Prop :=
  ∀ t signed, signer.sign t = .ok signed → signed.transaction = t

/-- The second desk has the same orders, and has signed the same transactions. -/
structure DeskState.SameOrders (s s' : DeskState) : Prop where
  register : s'.register = s.register
  signed : s'.signed = s.signed

namespace BookView

/-- A look at a book leaves the orders alone, and submits nothing. -/
def Looks (s : DeskState) (t : Turn BookView Result) : Prop :=
  s.SameOrders t.1 ∧ t.2.submits = []

variable {d : Desk} {s : DeskState} {market : Market}

theorem looks_advance {p : Progress BookFetch BookFetch.Result} (h : p.submits = []) :
    Looks s (advance d s market p) := by
  unfold advance Turn.andThen
  cases p with
  | ask pause request f => exact ⟨⟨rfl, rfl⟩, h⟩
  | halted => exact ⟨⟨rfl, rfl⟩, rfl⟩
  | done result => cases result <;> exact ⟨⟨rfl, rfl⟩, rfl⟩

theorem looks_start (d : Desk) (s : DeskState) (market : Market) :
    Looks s (start d s market) := by
  unfold start
  split
  · split
    · exact looks_advance rfl
    · exact ⟨⟨rfl, rfl⟩, rfl⟩
  · exact looks_advance rfl

theorem looks_resume (d : Desk) (s : DeskState) (v : BookView) (reply : Reply) :
    Looks s (v.resume d s reply) := by
  refine looks_advance ?_
  cases reply with
  | error text => rfl
  | ok a =>
    unfold BookFetch.resume BookFetch.take
    dsimp only
    split
    · split <;> rfl
    · rfl

end BookView

namespace Placing

/-- What a turn of a placement that has not submitted its transaction can come to. It submits only
if its order gets the sequence of the transaction. -/
inductive Prepares (d : Desk) (o : PlaceOrder) (s : DeskState) : Turn Placing Result → Prop where
  | waits {s' : DeskState} {pause : Nat} {request : Request} {w : Placing}
    (same : s.SameOrders s') (order : w.order = o) (stage : w.stage.isSubmitted = false)
    (quiet : request.submits = []) : Prepares d o s (s', .ask pause request w)
  | halts {s' : DeskState} (same : s.SameOrders s') : Prepares d o s (s', .halted)
  | fails {s' : DeskState} {reason : Failure} (same : s.SameOrders s') :
    Prepares d o s (fail s' o none reason)
  | submits {s' : DeskState} {t : Transaction} {signed : SignedTransaction} {id : ExchangeId}
    (log : s'.signed = s.signed ++ [t]) (sign : d.signer.sign t = .ok signed)
    (numbered : t.sequence = some id.sequence)
    (assigned : s.register.assign o.clientId id = .ok s'.register) :
    Prepares d o s (s', .ask 0 (.submit signed.blob) ⟨o, .submitting id signed⟩)
  | loses {s' : DeskState} {t : Transaction} {sequence : UInt32} {owner : Order}
    (register : s'.register = s.register) (log : s'.signed = s.signed ++ [t])
    (numbered : t.sequence = some sequence) (taken : owner ∈ s.register.carrying sequence)
    (other : owner.clientId ≠ o.clientId) :
    Prepares d o s (s'.move o.clientId .failed,
      .done (.error (.duplicateSequence o.clientId sequence owner.clientId)))

section

variable {d : Desk} {o : PlaceOrder} {s s' : DeskState} {market : Market}
  (hsigner : d.signer.IsFaithful) (hnew : s.IsNew o.clientId)
include hsigner hnew

theorem prepares_submit {t : Transaction} {signed : SignedTransaction} {sequence last : UInt32}
    (hs : s'.register = s.register) (hlog : s'.signed = s.signed ++ [t])
    (hsign : d.signer.sign t = .ok signed) (hsequence : t.sequence = some sequence)
    (hlast : t.lastLedger = some last) : Prepares d o s (submit o s' signed) := by
  obtain ⟨a, ha, _⟩ := hnew
  unfold submit
  rw [hsigner t signed hsign, hsequence, hlast, hs]
  dsimp only
  by_cases hfree : ∀ b ∈ s.register.carrying sequence, b.clientId = o.clientId
  · have hassign : s.register.assign o.clientId ⟨sequence, last⟩ = .ok _ :=
      OrderRegister.assign_eq_ok_iff.mpr ⟨hfree, a, ha, rfl⟩
    rw [hassign]
    exact .submits hlog hsign hsequence hassign
  · push Not at hfree
    obtain ⟨b, hb, hne⟩ := hfree
    have hb' : b ∈ s.register.carrying (ExchangeId.mk sequence last).sequence := hb
    obtain ⟨owner, howner, hother, hassign⟩ := OrderRegister.assign_of_owner hb' hne
    rw [hassign]
    exact .loses hs hlog hsequence howner hother

theorem prepares_fill {t : Transaction} {p : Progress Autofill Autofill.Result}
    (hs : s.SameOrders s') (hp : Autofill.Fills t p) : Prepares d o s (fill d o s' p) := by
  unfold fill Turn.andThen
  cases p with
  | halted => exact hp.elim
  | ask pause request f => exact .waits hs rfl rfl hp.2
  | done result =>
    cases result with
    | error e => exact .fails hs
    | ok t' =>
      obtain ⟨sequence, fee, last, ht⟩ := hp
      have hsequence : t'.sequence = some sequence := by rw [ht]
      have hlast : t'.lastLedger = some last := by rw [ht]
      simp only [filled, DeskState.sign]
      cases hsign : d.signer.sign t' with
      | error text => exact .fails hs
      | ok signed =>
        exact prepares_submit hsigner hnew hs.register (by rw [← hs.signed]) hsign hsequence hlast

theorem prepares_build (hs : s.SameOrders s') (price : Decimal) :
    Prepares d o s (build d o market s' price) := by
  unfold build
  dsimp only
  split
  · exact .halts hs
  · exact .fails hs
  · exact prepares_fill hsigner hnew hs (Autofill.fills_start _ _)

theorem prepares_price {t : Turn BookView BookView.Result} (h : BookView.Looks s t) :
    Prepares d o s (price d o market t) := by
  obtain ⟨s', p⟩ := t
  obtain ⟨hs, hp⟩ := h
  unfold price Turn.andThen
  cases p with
  | halted => exact .halts hs
  | ask pause request v => exact .waits hs rfl rfl hp
  | done result =>
    cases result with
    | error e => exact .fails hs
    | ok book =>
      simp only [priced]
      split
      · exact prepares_build hsigner hnew hs _
      · exact .fails hs

end

section

variable {d : Desk} {s : DeskState}

/-- A placement starts with its order tracked. -/
theorem prepares_start (hsigner : d.signer.IsFaithful) (s : DeskState) (o : PlaceOrder) :
    Prepares d o (s.track o.toOrder) (start d s o) := by
  have hsame : (s.track o.toOrder).SameOrders (s.track o.toOrder) := ⟨rfl, rfl⟩
  have hnew := s.isNew_track o
  unfold start
  dsimp only
  split
  · exact .fails hsame
  · split
    · exact prepares_build hsigner hnew hsame _
    · split
      · exact prepares_price hsigner hnew (BookView.looks_start _ _ _)
      · exact .fails hsame

/-- A placement signs nothing as it starts. It has to read its sequence first. -/
theorem signed_build (d : Desk) (o : PlaceOrder) (market : Market) (s : DeskState)
    (price : Decimal) : (build d o market s price).1.signed = s.signed := by
  unfold build
  dsimp only
  split
  · rfl
  · exact DeskState.signed_move _ _ _
  · rfl

theorem signed_start (d : Desk) (s : DeskState) (o : PlaceOrder) :
    (start d s o).1.signed = s.signed := by
  unfold start
  dsimp only
  split
  · exact DeskState.signed_move _ _ _
  · rename_i market _
    split
    · exact signed_build _ _ _ _ _
    · split
      · have hlooks := BookView.looks_start d (s.track o.toOrder) market
        generalize BookView.start d (s.track o.toOrder) market = t at hlooks ⊢
        obtain ⟨s', p⟩ := t
        have hsigned : s'.signed = s.signed := hlooks.1.signed
        unfold price Turn.andThen
        cases p with
        | halted => exact hsigned
        | ask pause request v => exact hsigned
        | done result =>
          cases result with
          | error e => exact (DeskState.signed_move _ _ _).trans hsigned
          | ok book =>
            simp only [priced]
            split
            · exact (signed_build _ _ _ _ _).trans hsigned
            · exact (DeskState.signed_move _ _ _).trans hsigned
      · exact DeskState.signed_move _ _ _

theorem prepares_resume {w : Placing} (hsigner : d.signer.IsFaithful)
    (hnew : s.IsNew w.order.clientId) (hw : w.stage.isSubmitted = false) (reply : Reply) :
    Prepares d w.order s (w.resume d s reply) := by
  unfold resume
  cases hstage : w.stage with
  | pricing market view => exact prepares_price hsigner hnew (BookView.looks_resume d s view reply)
  | filling f => exact prepares_fill hsigner hnew ⟨rfl, rfl⟩ (Autofill.fills_resume f reply)
  | submitting id signed => simp [hstage, Stage.isSubmitted] at hw
  | watching id watch => simp [hstage, Stage.isSubmitted] at hw

end

variable {d : Desk} {o : PlaceOrder} {s : DeskState} {clientId : String}

theorem Prepares.spares {t : Turn Placing Result} (h : Prepares d o s t) :
    s.register.Spares (some o.clientId) t.1.register := by
  cases h with
  | waits same order stage quiet =>
    rw [same.register]
    exact .refl _ _
  | halts same =>
    rw [same.register]
    exact .refl _ _
  | fails same => exact same.register ▸ DeskState.spares_move _ _ _
  | loses register log numbered taken other => exact register ▸ DeskState.spares_move _ _ _
  | submits log sign numbered assigned =>
    exact RegisterCall.spares_next (show RegisterCall.next? s.register (.assign o.clientId _) = _ by
      rw [RegisterCall.next?, assigned])

/-! ## Who gets a sequence -/

/-- The blob that a placement has submitted is of a transaction whose sequence its order, still
waiting to be created, holds alone among live orders. -/
def Holds (d : Desk) (s : DeskState) (clientId blob : String) : Prop :=
  ∃ t signed n a, d.signer.sign t = .ok signed ∧ signed.blob = blob ∧ t.sequence = some n ∧
    s.order? clientId = some a ∧ a.state = .pendingCreate ∧
    ∀ b, b ∈ s.register.carrying n ↔ b = a

theorem Prepares.holds {t : Turn Placing Result} {blob : String} (ht : Prepares d o s t)
    (hnew : s.IsNew o.clientId) (hblob : blob ∈ t.2.submits) : Holds d t.1 o.clientId blob := by
  cases ht with
  | waits same order stage quiet =>
    rw [show (Progress.ask _ _ _ : Progress Placing Result).submits = _ from quiet] at hblob
    cases hblob
  | halts same => cases hblob
  | fails same => cases hblob
  | loses register log numbered taken other => cases hblob
  | @submits s' t signed id log sign numbered assigned =>
    obtain rfl : blob = signed.blob := List.mem_singleton.mp hblob
    obtain ⟨a, ha, hstate, _⟩ := hnew
    have hfree := (OrderRegister.assign_eq_ok_iff.mp assigned).1
    obtain ⟨a', ha', hsets⟩ := OrderRegister.sets_assign assigned
    obtain rfl : a' = a := Option.some.inj (ha'.symm.trans ha)
    have hid : a'.clientId = o.clientId := OrderRegister.clientId_of_find? ha'
    have hown : s'.order? o.clientId = some { a' with exchangeId := some id.text } :=
      (hsets _).trans (if_pos rfl)
    refine ⟨t, signed, id.sequence, _, sign, rfl, numbered, hown, hstate, fun b => ⟨fun hb => ?_, ?_⟩⟩
    · rcases OrderRegister.mem_carrying_assign assigned hb with ⟨hb', _⟩ | ⟨hb', hbefore⟩
      · have hfind := (OrderRegister.mem_carrying.mp hb).1
        rw [hb', show s'.register.find? o.clientId = _ from hown] at hfind
        exact (Option.some.inj hfind).symm
      · exact absurd (hfree b hbefore) hb'
    · rintro rfl
      refine OrderRegister.mem_carrying.mpr ⟨hid ▸ hown, ?_, Order.sequence?_of_exchangeId rfl⟩
      simp [Order.isLive, hstate, OrderState.isTerminal]

/-- A placement that has signed a transaction in a turn has submitted it, and then no other live
order carried its sequence, or it has failed, because another one did. -/
theorem Prepares.of_signed {t : Turn Placing Result} {signed : Transaction} {n : UInt32}
    (ht : Prepares d o s t) (hsigned : t.1.signed = s.signed ++ [signed])
    (hn : signed.sequence = some n) :
    (∃ blob, t.2.submits = [blob] ∧ ∀ a ∈ s.register.carrying n, a.clientId = o.clientId) ∨
    ∃ owner ∈ s.register.carrying n, owner.clientId ≠ o.clientId ∧
      t.1.register = s.register.move o.clientId .failed ∧
      t.2 = .done (.error (.duplicateSequence o.clientId n owner.clientId)) := by
  cases ht with
  | waits same order stage quiet => simp [same.signed] at hsigned
  | halts same => simp [same.signed] at hsigned
  | fails same => simp [fail, DeskState.signed_move, same.signed] at hsigned
  | submits log sign numbered assigned =>
    simp only [log, List.append_cancel_left_eq, List.cons.injEq, and_true] at hsigned
    rw [hsigned, hn] at numbered
    cases numbered
    exact Or.inl ⟨_, rfl, (OrderRegister.assign_eq_ok_iff.mp assigned).1⟩
  | loses register log numbered taken other =>
    simp only [DeskState.signed_move, log, List.append_cancel_left_eq, List.cons.injEq,
      and_true] at hsigned
    rw [hsigned, hn] at numbered
    cases numbered
    exact Or.inr ⟨_, taken, other, by rw [DeskState.register_move, register], rfl⟩

/-- A live order that fails stays as it is otherwise, and so does every other order. -/
theorem order?_of_failed {s' : DeskState} {a : Order} (ha : s.order? clientId = some a)
    (hlive : a.isLive = true) (h : s'.register = s.register.move clientId .failed) :
    s'.order? clientId = some { a with state := .failed } ∧
      ∀ x, x ≠ clientId → s'.order? x = s.order? x := by
  have hmoved := s.register.sets_move clientId .failed
  rw [← h, show s.register.find? clientId = _ from ha, Option.map_some,
    Order.movedTo_of_live hlive (Or.inl rfl)] at hmoved
  exact ⟨(hmoved clientId).trans (if_pos rfl), fun x hx => (hmoved x).trans (if_neg hx)⟩

/-! ## After the submission -/

/-- What a turn of a placement that has submitted its transaction can come to. -/
inductive Settles (d : Desk) (o : PlaceOrder) (s : DeskState) : Turn Placing Result → Prop where
  | waits {pause : Nat} {request : Request} {w : Placing} (order : w.order = o)
    (stage : w.stage.isSubmitted = true) (quiet : request.submits = []) :
    Settles d o s (s, .ask pause request w)
  | halts : Settles d o s (s, .halted)
  | fails {id : ExchangeId} {reason : Failure} : Settles d o s (fail s o (some id) reason)
  | stands {t : Outcome} {s₁ s' : DeskState} {id : ExchangeId} (fills : s.applyFills? d t = some s₁)
    (moved : s' = s₁ ∨ s' = s₁.move o.clientId .opened) : Settles d o s (s', .done (.ok id.text))

theorem settles_watch {p : Progress Watch Finality} {id : ExchangeId} (hp : p.submits = []) :
    Settles d o s (watch d o id s p) := by
  unfold watch Turn.andThen
  cases p with
  | halted => exact .halts
  | ask pause request w => exact .waits rfl rfl hp
  | done v =>
    simp only [finish]
    split
    · exact .fails
    · split
      · exact .halts
      · rename_i s₁ hfills
        refine .stands hfills ?_
        split
        · exact Or.inr rfl
        · exact Or.inl rfl

theorem settles_resume {w : Placing} (hw : w.stage.isSubmitted = true) (reply : Reply) :
    Settles d w.order s (w.resume d s reply) := by
  obtain ⟨id, p, hp⟩ := poll?_of_isSubmitted d reply hw
  rw [resume_of_poll? hp]
  refine settles_watch ?_
  unfold Stage.poll? at hp
  split at hp
  · cases hp
    exact Watch.submits_start _ _ _
  · cases hp
    exact Watch.submits_resume _ _
  · cases hp

theorem Settles.spares {t : Turn Placing Result} (h : Settles d o s t) :
    s.register.Spares (some o.clientId) t.1.register := by
  cases h with
  | waits order stage quiet => exact .refl _ _
  | halts => exact .refl _ _
  | fails => exact DeskState.spares_move _ _ _
  | stands fills moved =>
    have hfills := DeskState.spares_applyFills fills (some o.clientId)
    rcases moved with rfl | rfl
    · exact hfills
    · exact hfills.trans (DeskState.spares_move _ _ _)

theorem Settles.signed {t : Turn Placing Result} (h : Settles d o s t) :
    t.1.signed = s.signed := by
  cases h with
  | waits order stage quiet => rfl
  | halts => rfl
  | fails => exact DeskState.signed_move _ _ _
  | stands fills moved =>
    rcases moved with rfl | rfl
    · exact DeskState.signed_applyFills fills
    · exact (DeskState.signed_move _ _ _).trans (DeskState.signed_applyFills fills)

theorem Settles.submits {t : Turn Placing Result} (h : Settles d o s t) : t.2.submits = [] := by
  cases h with
  | waits order stage quiet => exact quiet
  | halts => rfl
  | fails => rfl
  | stands fills moved => rfl

end Placing

end OfferDesk
