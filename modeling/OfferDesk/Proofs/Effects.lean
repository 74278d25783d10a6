-- What a transaction can do to the register. It reaches an order only through a sequence that it
-- names, and it can do three things there: end the order, count a fill, or nothing.
import OfferDesk.Fills
import OfferDesk.Proofs.Register

namespace OfferDesk

/-! ## Reports and fills -/

namespace OrderRegister

variable {r r' : OrderRegister} {clientId : String}

/-- A report leaves the register that the move leaves. -/
theorem eq_move_of_report {state : OrderState} {isFill : Bool} {time : Stamp}
    {events : List OrderEvent} (h : r.report clientId state isFill time = (r', events)) :
    r' = r.move clientId state := by
  unfold report at h
  unfold move
  cases hm : r.move? clientId state with
  | some m =>
    rw [hm] at h
    exact (congrArg Prod.fst h).symm
  | none =>
    rw [hm] at h
    cases hf : r.find? clientId with
    | none =>
      rw [hf] at h
      exact (congrArg Prod.fst h).symm
    | some o =>
      rw [hf] at h
      dsimp only at h
      split at h <;> exact (congrArg Prod.fst h).symm

end OrderRegister

namespace Fill

variable {f : Fill} {ctx : Trader} {market : Market} {r r' : OrderRegister} {o : Order}
  {next : Order → OrderState} {events : List OrderEvent}

/-- What is counted lets the register go on, and the order has the transaction counted. -/
theorem counted (ho : r.find? o.clientId = some o) (hl : o.isLive = true)
    (h : f.count? ctx market r o next = some (r', events)) :
    r.Advances r' ∧ ∃ o', r'.find? o.clientId = some o' ∧ o'.hasApplied f.hash = true := by
  unfold count? at h
  split at h
  · rename_i hc
    cases h
    exact ⟨.refl r, o, ho, hc⟩
  · simp only [Option.bind_eq_bind, Option.bind_eq_some_iff, Option.pure_def, Option.some.injEq,
      Prod.mk.injEq] at h
    obtain ⟨o', ho', _, _, hr', _⟩ := h
    rw [OrderRegister.eq_move_of_report (Prod.ext hr' rfl)]
    have hid : o'.clientId = o.clientId := Order.clientId_withFill? ho'
    have hfirst : r.Advances (r.track o') :=
      OrderRegister.advances_track (by rw [hid]; exact ho) (Order.advances_withFill? hl ho')
    have hthen := OrderRegister.advances_move (r.track o') o'.clientId (next o')
    obtain ⟨o'', ho'', ha⟩ := hthen.forward (OrderRegister.find?_track_self r o')
    rw [← hid]
    exact ⟨hfirst.trans hthen, o'', ho'', ha.counted _ (Order.hasApplied_withFill? ho')⟩

/-- What is counted leaves a confirmed order confirmed. -/
theorem confirmed {x : String} {sequence : UInt32} (ho : r.find? o.clientId = some o)
    (hnext : ∀ after, (next after).isConfirmed = true)
    (h : f.count? ctx market r o next = some (r', events)) (hx : r.Confirmed x sequence) :
    r'.Confirmed x sequence := by
  unfold count? at h
  split at h
  · cases h
    exact hx
  · simp only [Option.bind_eq_bind, Option.bind_eq_some_iff, Option.pure_def, Option.some.injEq,
      Prod.mk.injEq] at h
    obtain ⟨o', ho', _, _, hr', _⟩ := h
    rw [OrderRegister.eq_move_of_report (Prod.ext hr' rfl)]
    refine OrderRegister.confirmed_move (OrderRegister.confirmed_track hx fun hid => ?_)
      fun _ => hnext o'
    obtain ⟨a, hf, ha⟩ := hx
    rw [hid, Order.clientId_withFill? ho', ho] at hf
    cases hf
    obtain ⟨_, _, _, _, rfl⟩ := Order.withFill?_eq_some_iff.mp ho'
    exact ha

end Fill

/-! ## What a transaction names -/

/-- The sequences by which a transaction names offers of an account: its own offer, the offer it
cancels, and the resting offers it changed if it succeeded. -/
inductive Outcome.Names (o : Outcome) (account : String) : UInt32 → Prop where
  | create (own : o.transaction.account = account) (kind : o.transaction.kind = "OfferCreate") :
    o.Names account o.transaction.sequence
  | cancel {sequence : UInt32} (own : o.transaction.account = account)
    (kind : o.transaction.kind = "OfferCancel")
    (offer : o.transaction.offerSequence = some sequence) : o.Names account sequence
  | resting {n : AffectedNode} {sequence : UInt32} (success : o.isSuccess = true)
    (mem : n ∈ o.offerNodes) (own : n.account? = some account) (kind : n.kind ≠ .created)
    (offer : n.sequence? = some sequence) : o.Names account sequence

/-- Whether a transaction is the refused offer of an account under a sequence. -/
def Outcome.refuses (o : Outcome) (account : String) (sequence : UInt32) : Bool :=
  o.validated && o.transaction.account = account && o.transaction.kind = "OfferCreate" &&
    o.transaction.sequence = sequence && !o.isSuccess

/-! ## The effects of a transaction -/

namespace Trader

/-- What a validated transaction can make of a register, with the events that report it. -/
inductive Effect (ctx : Trader) (o : Outcome) :
    OrderRegister → OrderRegister → List OrderEvent → Prop where
  | nothing (r : OrderRegister) : ctx.Effect o r r []
  | ends {r r' : OrderRegister} {order : Order} {sequence : UInt32} {state : OrderState}
    {time : Stamp} {events : List OrderEvent} (named : o.Names ctx.account sequence)
    (found : r.resolve? sequence = some order)
    (cause : state = .canceled ∧ o.isSuccess = true ∨
      state = .failed ∧ o.refuses ctx.account sequence = true)
    (report : r.report order.clientId state false time = (r', events)) :
    ctx.Effect o r r' events
  | counts {r r' : OrderRegister} {order : Order} {f : Fill} {market : Market}
    {next : Order → OrderState} {events : List OrderEvent}
    (named : o.Names ctx.account f.sequence) (hash : f.hash = o.hash) (success : o.isSuccess = true)
    (found : r.resolve? f.sequence = some order)
    (listed : ctx.markets.find? order.pair = some market)
    (confirmed : ∀ after, (next after).isConfirmed = true)
    (count : f.count? ctx market r order next = some (r', events)) : ctx.Effect o r r' events
  | andThen {r r' r'' : OrderRegister} {events events' : List OrderEvent} :
    ctx.Effect o r r' events → ctx.Effect o r' r'' events' →
      ctx.Effect o r r'' (events ++ events')

variable {ctx : Trader} {o : Outcome} {time : Stamp} {r r' : OrderRegister}
  {events : List OrderEvent}

/-! ## What every effect keeps -/

/-- Whatever a transaction does, the orders only go on. -/
theorem Effect.advances (h : ctx.Effect o r r' events) : r.Advances r' := by
  induction h with
  | nothing r => exact .refl r
  | ends _ _ _ report =>
    rw [OrderRegister.eq_move_of_report report]
    exact OrderRegister.advances_move _ _ _
  | counts _ _ _ found _ _ count =>
    exact (Fill.counted (OrderRegister.find?_of_resolve? found)
      (OrderRegister.live_of_resolve? found) count).1
  | andThen _ _ ih ih' => exact ih.trans ih'

/-- A confirmed order stays confirmed, unless the transaction is its own refused offer. -/
theorem Effect.confirmed {clientId : String} {sequence : UInt32}
    (h : ctx.Effect o r r' events) (hr : r.Confirmed clientId sequence)
    (hnot : o.refuses ctx.account sequence = false) : r'.Confirmed clientId sequence := by
  induction h with
  | nothing r => exact hr
  | ends _ found cause report =>
    rw [OrderRegister.eq_move_of_report report]
    refine OrderRegister.confirmed_move hr fun hid => ?_
    rcases cause with ⟨rfl, _⟩ | ⟨rfl, refused⟩
    · rfl
    · obtain ⟨a, hf, hseq, _⟩ := hr
      rw [hid, OrderRegister.find?_of_resolve? found] at hf
      cases hf
      have hcarried := (OrderRegister.mem_carrying.mp
        (OrderRegister.mem_carrying_of_resolve? found)).2.2
      rw [hseq] at hcarried
      cases hcarried
      rw [hnot] at refused
      cases refused
  | counts _ _ _ found _ hnext count =>
    exact Fill.confirmed (OrderRegister.find?_of_resolve? found) hnext count hr
  | andThen _ _ ih ih' => exact ih' (ih hr)

/-! ## The parts of a transaction -/

theorem isConfirmed_takerState (resting filled : Bool) :
    (takerState resting filled).isConfirmed = true := by
  cases resting <;> cases filled <;> rfl

theorem effect_ownCreate (hv : o.validated = true) (own : o.transaction.account = ctx.account)
    (kind : o.transaction.kind = "OfferCreate")
    (h : ctx.ownCreate? o time r = some (r', events)) : ctx.Effect o r r' events := by
  unfold ownCreate? at h
  dsimp only at h
  split at h
  · cases h
    exact .nothing r
  rename_i order found
  split at h
  · rename_i refused
    refine .ends (.create own kind) found (Or.inr ⟨rfl, ?_⟩) (Option.some.inj h)
    simpa [Outcome.refuses, hv, own, kind] using refused
  rename_i success
  split at h
  · cases h
    exact .nothing r
  split at h
  · cases h
    exact .nothing r
  · rename_i market listed
    simp only [Option.bind_eq_bind, Option.bind_eq_some_iff, Prod.exists] at h
    obtain ⟨base, quote, _, count⟩ := h
    exact .counts (.create own kind) rfl (by simpa using success) found listed
      (fun _ => isConfirmed_takerState _ _) count

theorem effect_ownCancel (own : o.transaction.account = ctx.account)
    (kind : o.transaction.kind = "OfferCancel") (h : ownCancel o time r = (r', events)) :
    ctx.Effect o r r' events := by
  unfold ownCancel at h
  split at h
  · cases h
    exact .nothing r
  · rename_i order found
    obtain ⟨sequence, offer, found⟩ := Option.bind_eq_some_iff.mp found
    split at h
    · rename_i success
      exact .ends (.cancel own kind offer) found (Or.inl ⟨rfl, success⟩) h
    · cases h
      exact .nothing r

theorem effect_ownTransaction (hv : o.validated = true)
    (h : ctx.ownTransaction? o time r = some (r', events)) : ctx.Effect o r r' events := by
  unfold ownTransaction? at h
  split at h
  · rename_i own
    split at h
    · rename_i kind
      exact effect_ownCreate hv own kind h
    · split at h
      · rename_i kind
        exact effect_ownCancel own kind (Option.some.inj h)
      · cases h
        exact .nothing r
  · cases h
    exact .nothing r

theorem effect_makerNode {n : AffectedNode} (success : o.isSuccess = true) (mem : n ∈ o.offerNodes)
    (h : ctx.makerNode? o time r n = some (r', events)) : ctx.Effect o r r' events := by
  unfold makerNode? at h
  split at h
  · cases h
    exact .nothing r
  rename_i own
  simp only [ne_eq, not_or, not_not] at own
  split at h
  · cases h
    exact .nothing r
  rename_i sequence offer
  have named : o.Names ctx.account sequence := .resting success mem own.1 own.2 offer
  split at h
  · cases h
    exact .nothing r
  rename_i order found
  split at h
  · cases h
    exact .nothing r
  · split at h
    · exact .ends named found (Or.inl ⟨rfl, success⟩) (Option.some.inj h)
    · cases h
      exact .nothing r
  · simp only [Option.bind_eq_bind, Option.bind_eq_some_iff] at h
    obtain ⟨taken, _, h⟩ := h
    split at h
    · cases h
      exact .nothing r
    rename_i market listed
    split at h
    · cases h
      exact .nothing r
    · refine .counts named rfl success found listed (fun after => ?_) h
      split <;> rfl

theorem effect_makerNodes {nodes : List AffectedNode} (success : o.isSuccess = true)
    (mem : ∀ n ∈ nodes, n ∈ o.offerNodes)
    (h : ctx.makerNodes? o time r nodes = some (r', events)) : ctx.Effect o r r' events := by
  induction nodes generalizing r events with
  | nil =>
    cases h
    exact .nothing _
  | cons n ns ih =>
    simp only [makerNodes?, Option.bind_eq_bind, Option.bind_eq_some_iff, Option.pure_def,
      Option.some.injEq, Prod.mk.injEq, Prod.exists] at h
    obtain ⟨r₁, first, hn, _, rest, hns, rfl, rfl⟩ := h
    exact .andThen (effect_makerNode success (mem n List.mem_cons_self) hn)
      (ih (fun m hm => mem m (List.mem_cons_of_mem _ hm)) hns)

theorem effect_makerFills (h : ctx.makerFills? o time r = some (r', events)) :
    ctx.Effect o r r' events := by
  unfold makerFills? at h
  split at h
  · rename_i success
    exact effect_makerNodes success (fun _ => id) h
  · cases h
    exact .nothing r

theorem effect_process (h : ctx.process? o r = some (r', events)) : ctx.Effect o r r' events := by
  unfold process? at h
  split at h
  · cases h
    exact .nothing r
  · rename_i hv
    simp only [Option.bind_eq_bind, Option.bind_eq_some_iff, Option.pure_def, Option.some.injEq,
      Prod.mk.injEq, Prod.exists] at h
    obtain ⟨time, _, r₁, own, hown, _, made, hmade, rfl, rfl⟩ := h
    exact .andThen (effect_ownTransaction (by simpa using hv) hown) (effect_makerFills hmade)

/-! ## The own offer of an order -/

/-- A live order whose own offer succeeded is confirmed, once that is taken in. -/
theorem confirmed_of_ownCreate {order : Order} {market : Market} (hv : o.validated = true)
    (own : o.transaction.account = ctx.account) (kind : o.transaction.kind = "OfferCreate")
    (success : o.isSuccess = true) (changed : o.nodes.isEmpty = false)
    (found : r.resolve? o.transaction.sequence = some order)
    (fresh : order.hasApplied o.hash = false) (listed : ctx.markets.find? order.pair = some market)
    (h : ctx.process? o r = some (r', events)) :
    r'.Confirmed order.clientId o.transaction.sequence := by
  obtain ⟨hf, hl, hseq⟩ := OrderRegister.mem_carrying.mp
    (OrderRegister.mem_carrying_of_resolve? found)
  unfold process? at h
  simp only [hv, Bool.not_true, Bool.false_eq_true, if_false, Option.bind_eq_bind,
    Option.bind_eq_some_iff, Option.pure_def, Option.some.injEq, Prod.mk.injEq,
    Prod.exists] at h
  obtain ⟨time, _, r₁, es, hown, _, made, hmade, rfl, _⟩ := h
  -- the fills of resting offers leave confirmed what the own offer has confirmed
  refine (effect_makerFills hmade).confirmed ?_ (by simp [Outcome.refuses, success])
  simp only [ownTransaction?, if_pos own, if_pos kind, ownCreate?, found, success, changed,
    listed, Fill.count?, fresh, Bool.not_true, Bool.false_eq_true, if_false, Option.bind_eq_bind,
    Option.bind_eq_some_iff, Option.pure_def, Option.some.injEq, Prod.mk.injEq,
    Prod.exists] at hown
  obtain ⟨base, quote, _, o', ho', trades, _, hr₁, _⟩ := hown
  rw [OrderRegister.eq_move_of_report (Prod.ext hr₁ rfl)]
  obtain ⟨_, _, _, _, rfl⟩ := Order.withFill?_eq_some_iff.mp ho'
  refine OrderRegister.confirmed_of_move (OrderRegister.find?_track_self r _) hl hseq
    (isConfirmed_takerState _ _) ?_
  cases ctx.rests o.transaction.sequence o.offerNodes <;> cases base.isPositive <;> decide

end Trader

end OfferDesk
