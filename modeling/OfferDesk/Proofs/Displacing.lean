-- When a busy desk forgets a live order. Orders are kept by client id, while the ledger knows them
-- by sequence. An order that is put in the register can take the place of a live one, or carry its
-- sequence as well, and a placement under the same client id can give it another exchange id.
-- Nothing else makes the desk forget an order before it has ended.
import OfferDesk.Proofs.BusyDesks
import OfferDesk.Proofs.PlacingResults

namespace OfferDesk

/-! ## What a register remembers -/

namespace OrderRegister

variable {r r' r'' : OrderRegister} {a a' b o : Order} {clientId x : String} {n : UInt32}
  {w : Option Order}

/-- What is tracked under a client id is still tracked there, with its fills kept. If it was the
only live order of a sequence and lives on, it still is. -/
def Remembers (clientId : String) (r r' : OrderRegister) : Prop :=
  ∀ a, r.find? clientId = some a → ∃ a', r'.find? clientId = some a' ∧ a.KeepsFills a' ∧
    ∀ n, r.resolve? n = some a → a'.isLive = true → r'.resolve? n = some a'

theorem Remembers.trans (h : r.Remembers clientId r') (h' : r'.Remembers clientId r'')
    (ha : ∀ a', r'.find? clientId = some a' → a'.isLive = true) : r.Remembers clientId r'' := by
  intro a hfind
  obtain ⟨a', ha', hkeeps, hresolve⟩ := h a hfind
  obtain ⟨a'', ha'', hkeeps', hresolve'⟩ := h' a' ha'
  exact ⟨a'', ha'', hkeeps.trans hkeeps', fun n hn hl =>
    hresolve' n (hresolve n hn (ha a' ha')) hl⟩

/-- The only live order of a sequence remains so where no other one comes in. -/
theorem Descends.resolve?_forward (h : r.Descends r') (hn : r.resolve? n = some a)
    (ha' : r'.find? a.clientId = some a') (hl : a'.isLive = true)
    (hs : a'.sequence? = a.sequence?) : r'.resolve? n = some a' := by
  have honly := resolve?_eq_some_iff_only.mp hn
  have hid : a'.clientId = a.clientId := clientId_of_find? ha'
  refine resolve?_eq_some_iff_only.mpr fun b => ⟨fun hb => ?_, ?_⟩
  · obtain ⟨b₀, hb₀, hadvances⟩ := h.mem_carrying hb
    obtain rfl := (honly b₀).mp hb₀
    have hfb := (OrderRegister.mem_carrying.mp hb).1
    rw [hadvances.clientId_eq, ha'] at hfb
    exact (Option.some.inj hfb).symm
  · rintro rfl
    refine OrderRegister.mem_carrying.mpr ⟨by rw [hid]; exact ha', hl, ?_⟩
    rw [hs]
    exact (OrderRegister.mem_carrying.mp ((honly a).mpr rfl)).2.2

/-- Orders that continue are remembered. -/
theorem Continues.remembers (h : r.Continues r') (clientId : String) :
    r.Remembers clientId r' := by
  intro a ha
  obtain ⟨a', ha', hadvances⟩ := h.advances.forward ha
  obtain rfl := clientId_of_find? ha
  exact ⟨a', ha', h.keeps _ a a' ha ha', fun n hn hl =>
    h.advances.descends.resolve?_forward hn ha' hl hadvances.sequence?_eq⟩

/-- An order that is taken away is not remembered, and any other one is. -/
theorem remembers_untrack_iff (h : Sets x none r r') (ha : r.find? clientId = some a) :
    r.Remembers clientId r' ↔ x ≠ clientId := by
  constructor
  · rintro hremembers rfl
    obtain ⟨a', ha', _⟩ := hremembers a ha
    rw [h x, if_pos rfl] at ha'
    cases ha'
  · intro hx b hb
    have hb' := (h.find?_of_ne hx).trans hb
    obtain rfl := clientId_of_find? hb
    have hdescends : r.Descends r' := by
      intro y o ho _ _
      rw [h y] at ho
      split at ho
      · cases ho
      · exact ⟨o, ho, .refl o⟩
    exact ⟨b, hb', .refl b, fun n hn hl => hdescends.resolve?_forward hn hb' hl rfl⟩

/-- A live order displaces another one in a register if it would take its place without its fills,
or carries the sequence that leads to the other one. -/
def Displaces (r : OrderRegister) (o a : Order) : Prop :=
  if o.clientId = a.clientId then ¬a.KeepsFills o
  else o.isLive = true ∧ ∃ n, o.sequence? = some n ∧ r.resolve? n = some a

/-- A live order is remembered when another one is put in the register, exactly if this does not
displace it. -/
theorem remembers_sets_iff (h : Sets o.clientId (some o) r r')
    (ha : r.find? clientId = some a) (hl : a.isLive = true) :
    r.Remembers clientId r' ↔ ¬r.Displaces o a := by
  obtain rfl := clientId_of_find? ha
  have ho : r'.find? o.clientId = some o := by rw [h, if_pos rfl]
  unfold Displaces
  by_cases hid : o.clientId = a.clientId
  · rw [if_pos hid, not_not]
    rw [hid] at ho
    constructor
    · intro hremembers
      obtain ⟨a', ha', hkeeps, _⟩ := hremembers a ha
      obtain rfl := Option.some.inj (ho.symm.trans ha')
      exact hkeeps
    · intro hkeeps b hb
      obtain rfl := Option.some.inj (ha.symm.trans hb)
      refine ⟨o, ho, hkeeps, fun n hn hlive => ?_⟩
      have honly := resolve?_eq_some_iff_only.mp hn
      refine resolve?_eq_some_iff_only.mpr fun c => ⟨fun hc => ?_, ?_⟩
      · obtain ⟨hfind, hcl, hcs⟩ := mem_carrying.mp hc
        rw [h] at hfind
        split at hfind
        · exact (Option.some.inj hfind).symm
        · rename_i hne
          have hca := (honly c).mp (mem_carrying.mpr ⟨hfind, hcl, hcs⟩)
          exact absurd (by rw [hca, hid]) hne
      · rintro rfl
        refine mem_carrying.mpr ⟨by rw [hid]; exact ho, hlive, ?_⟩
        rw [hkeeps.sequence?_eq]
        exact (mem_carrying.mp ((honly a).mpr rfl)).2.2
  · rw [if_neg hid]
    have ha' : r'.find? a.clientId = some a := (h.find?_of_ne hid).trans ha
    constructor
    · rintro hremembers ⟨hol, n, hos, hn⟩
      obtain ⟨b, hb, _, hresolve⟩ := hremembers a ha
      obtain rfl := Option.some.inj (ha'.symm.trans hb)
      have hoa := (resolve?_eq_some_iff_only.mp (hresolve n hn hl) o).mp
        (mem_carrying.mpr ⟨ho, hol, hos⟩)
      exact hid (by rw [hoa])
    · intro hfree b hb
      obtain rfl := Option.some.inj (ha.symm.trans hb)
      refine ⟨a, ha', .refl a, fun n hn _ => ?_⟩
      have honly := resolve?_eq_some_iff_only.mp hn
      refine resolve?_eq_some_iff_only.mpr fun c => ⟨fun hc => ?_, ?_⟩
      · obtain ⟨hfind, hcl, hcs⟩ := mem_carrying.mp hc
        rw [h] at hfind
        split at hfind
        · obtain rfl := Option.some.inj hfind
          exact absurd ⟨hcl, n, hcs, hn⟩ hfree
        · exact (honly c).mp (mem_carrying.mpr ⟨hfind, hcl, hcs⟩)
      · rintro rfl
        exact mem_carrying.mpr ⟨ha', hl, (mem_carrying.mp ((honly c).mpr rfl)).2.2⟩

/-- The state of an order that is put in a register matters for what it displaces only as far as it
is live or not. -/
theorem displaces_state_iff {state : OrderState}
    (h : state.isTerminal = o.state.isTerminal ∨ o.sequence? = none) :
    r.Displaces { o with state := state } a ↔ r.Displaces o a := by
  unfold Displaces
  split
  · exact not_congr (Order.KeepsFills.state_iff state)
  · rcases h with h | h
    · simp only [Order.isLive, h]
      rfl
    · constructor
      · rintro ⟨_, n, hs, _⟩
        cases h.symm.trans hs
      · rintro ⟨_, n, hs, _⟩
        cases h.symm.trans hs

/-- A live order is remembered through the assignment of an exchange id, unless it is assigned a new
one itself. -/
theorem remembers_assign_iff {id : ExchangeId} (h : r.assign x id = .ok r')
    (ha : r.find? clientId = some a) (hl : a.isLive = true) :
    r.Remembers clientId r' ↔ (x = clientId → a.exchangeId = some id.text) := by
  obtain ⟨hfree, o, ho, rfl⟩ := assign_eq_ok_iff.mp h
  obtain rfl := clientId_of_find? ho
  obtain rfl := clientId_of_find? ha
  rw [remembers_sets_iff (r.sets_track { o with exchangeId := some id.text }) ha hl, Displaces]
  by_cases hid : o.clientId = a.clientId
  · obtain rfl : o = a := Option.some.inj (ho.symm.trans (hid ▸ ha))
    rw [if_pos rfl, not_not]
    constructor
    · exact fun hkeeps _ => hkeeps.exchangeId_eq.symm
    · intro hsame
      rw [← hsame rfl]
      exact .refl o
  · rw [if_neg hid]
    refine iff_of_true ?_ fun hx => absurd hx hid
    rintro ⟨_, n, hs, hn⟩
    rw [Order.sequence?_of_exchangeId (o := { o with exchangeId := some id.text }) rfl] at hs
    obtain rfl := Option.some.inj hs
    exact hid (hfree a (mem_carrying_of_resolve? hn)).symm

end OrderRegister

/-! ## Events that displace an order -/

/-- Whether an event makes a busy desk forget a live order: it puts an order in place that displaces
it, takes it away, or has another exchange id assigned to it. -/
def BusyEvent.Displaces (d : Desk) (g : BusyDesk) (a : Order) (event : BusyEvent) : Prop :=
  (∃ o, event.tracked? g.state = some o ∧ g.state.register.Displaces o a) ∨
    event.untracked? = some a.clientId ∨
    ∃ id, event.assigned? d g = some (a.clientId, id) ∧ a.exchangeId ≠ some id.text

namespace BusyEvent

variable {d : Desk} {g : BusyDesk} {event : BusyEvent} {a o : Order}

theorem assigned?_of_untracked {x : String} (h : event.untracked? = some x) :
    event.assigned? d g = none := by
  cases event with
  | untrack clientId => rfl
  | _ => cases h

/-- An event that puts an order in place takes none away, and assigns nothing. -/
theorem of_tracked {s : DeskState} (h : event.tracked? s = some o) :
    event.untracked? = none ∧ event.assigned? d g = none := by
  cases event with
  | start n job => exact ⟨rfl, rfl⟩
  | track b => exact ⟨rfl, rfl⟩
  | _ => cases h

/-- A placement displaces a live order that has its exchange id, just where it reuses its client
id. -/
theorem displaces_place_iff {n : Nat} {p : PlaceOrder} (hid : a.exchangeId.isSome = true) :
    (start n (.place p)).Displaces d g a ↔ p.clientId = a.clientId := by
  have hnew : p.toOrder.exchangeId = none := rfl
  constructor
  · rintro (⟨o, ho, hdisplaces⟩ | htaken | ⟨id, hassigned, _⟩)
    · cases ho
      unfold OrderRegister.Displaces at hdisplaces
      split at hdisplaces
      · assumption
      · obtain ⟨_, n, hs, _⟩ := hdisplaces
        simp [Order.sequence?, hnew] at hs
    · cases htaken
    · cases hassigned
  · intro hreused
    refine Or.inl ⟨p.toOrder, rfl, ?_⟩
    rw [OrderRegister.Displaces, if_pos (show p.toOrder.clientId = a.clientId from hreused)]
    intro hkeeps
    rw [← hkeeps.exchangeId_eq, hnew] at hid
    cases hid

end BusyEvent

namespace BusyDesk

variable {d : Desk} {g g' g₁ : BusyDesk} {event : BusyEvent} {events : List BusyEvent}
  {clientId : String} {a a' : Order}

/-- A live order is remembered through an event exactly if the event does not displace it. -/
theorem remembers_step_iff (h : step? d g event = some g')
    (ha : g.state.order? clientId = some a) (hl : a.isLive = true) :
    g.state.register.Remembers clientId g'.state.register ↔ ¬event.Displaces d g a := by
  have hid : a.clientId = clientId := OrderRegister.clientId_of_find? ha
  unfold BusyEvent.Displaces
  cases htracked : event.tracked? g.state with
  | some o =>
    obtain ⟨huntracked, hassigned⟩ := BusyEvent.of_tracked (d := d) (g := g) htracked
    obtain ⟨state, hsets, hlive⟩ := BusyEvent.sets_of_tracked h htracked
    rw [OrderRegister.remembers_sets_iff (o := { o with state := state }) hsets ha hl,
      OrderRegister.displaces_state_iff hlive]
    simp [huntracked, hassigned]
  | none =>
    cases huntracked : event.untracked? with
    | some x =>
      rw [OrderRegister.remembers_untrack_iff (BusyEvent.sets_of_untracked h huntracked) ha]
      simp [BusyEvent.assigned?_of_untracked huntracked, hid]
    | none =>
      have hturns := BusyEvent.turns_of_untracked h htracked huntracked
      cases hassigned : event.assigned? d g with
      | none =>
        rw [hassigned] at hturns
        simpa using OrderRegister.Continues.remembers hturns clientId
      | some x =>
        rw [hassigned] at hturns
        obtain ⟨x, id⟩ := x
        rw [OrderRegister.remembers_assign_iff hturns ha hl]
        simp only [reduceCtorEq, false_and, exists_const, Option.some.injEq, Prod.mk.injEq,
          false_or, hid, not_exists, not_and, not_not]
        exact ⟨fun hsame _ hx => hx.2 ▸ hsame hx.1, fun hsame hx => hsame id ⟨hx, rfl⟩⟩

/-! ## Whole runs -/

/-- What holds of each event of a run, up to one that leaves no live order under a client id. -/
def WhileLive (d : Desk) (clientId : String)
    (P : BusyDesk → Order → BusyEvent → BusyDesk → Prop) : BusyDesk → List BusyEvent → Prop
  | _, [] => True
  | g, event :: events => ∀ a, g.state.order? clientId = some a → a.isLive = true →
    ∀ g₁, step? d g event = some g₁ → P g a event g₁ ∧ WhileLive d clientId P g₁ events

/-- A live order is remembered through each event of a run, until it has ended. -/
def Remembered (d : Desk) (clientId : String) : BusyDesk → List BusyEvent → Prop :=
  WhileLive d clientId fun g _ _ g₁ => g.state.register.Remembers clientId g₁.state.register

/-- No event of a run displaces a live order, until it has ended. -/
def Undisplaced (d : Desk) (clientId : String) : BusyDesk → List BusyEvent → Prop :=
  WhileLive d clientId fun g a event _ => ¬event.Displaces d g a

theorem whileLive_congr {P Q : BusyDesk → Order → BusyEvent → BusyDesk → Prop}
    (h : ∀ g event g₁ a, step? d g event = some g₁ → g.state.order? clientId = some a →
      a.isLive = true → (P g a event g₁ ↔ Q g a event g₁)) :
    WhileLive d clientId P g events ↔ WhileLive d clientId Q g events := by
  induction events generalizing g with
  | nil => exact Iff.rfl
  | cons event events ih =>
    unfold WhileLive
    refine forall_congr' fun a => forall_congr' fun ha => forall_congr' fun hl =>
      forall_congr' fun g₁ => forall_congr' fun hstep => ?_
    rw [h g event g₁ a hstep ha hl, ih]

theorem remembered_iff : Remembered d clientId g events ↔ Undisplaced d clientId g events :=
  whileLive_congr fun _ _ _ _ hstep ha hl => remembers_step_iff hstep ha hl

/-- What becomes of a live order in a run: it is remembered to the end, or up to a desk at which it
has ended. -/
inductive Lives (d : Desk) (clientId : String) (g : BusyDesk) (events : List BusyEvent)
    (g' : BusyDesk) : Prop where
  | on (remembers : g.state.register.Remembers clientId g'.state.register)
    (live : ∀ a', g'.state.order? clientId = some a' → a'.isLive = true)
  | ends {before after : List BusyEvent} {g₁ : BusyDesk} {a : Order}
    (split : events = before ++ after) (reached : run? d g before = some g₁)
    (remembers : g.state.register.Remembers clientId g₁.state.register)
    (there : g₁.state.order? clientId = some a) (ended : a.isLive = false)

theorem lives_of_undisplaced (ha : g.state.order? clientId = some a) (hl : a.isLive = true)
    (hrun : run? d g events = some g') (h : Undisplaced d clientId g events) :
    Lives d clientId g events g' := by
  induction events generalizing g a with
  | nil =>
    cases hrun
    refine .on ((OrderRegister.Continues.refl _).remembers clientId) fun a' ha' => ?_
    obtain rfl := Option.some.inj (ha.symm.trans ha')
    exact hl
  | cons event events ih =>
    rw [run?_cons] at hrun
    obtain ⟨g₁, hstep, hrest⟩ := Option.bind_eq_some_iff.mp hrun
    obtain ⟨hstays, hlater⟩ := h a ha hl g₁ hstep
    have hfirst := (remembers_step_iff hstep ha hl).mpr hstays
    obtain ⟨a₁, ha₁, _, _⟩ := hfirst a ha
    have honly : ∀ b, g₁.state.register.find? clientId = some b → b = a₁ := fun b hb =>
      Option.some.inj (hb.symm.trans ha₁)
    cases hl₁ : a₁.isLive with
    | false =>
      have hsplit : event :: events = [event] ++ events := rfl
      have hreached : run? d g [event] = some g₁ := by
        rw [run?_cons, hstep]
        rfl
      exact .ends hsplit hreached hfirst ha₁ hl₁
    | true =>
      have hlive₁ : ∀ b, g₁.state.register.find? clientId = some b → b.isLive = true :=
        fun b hb => by rw [honly b hb, hl₁]
      cases ih ha₁ hl₁ hrest hlater with
      | on remembers live => exact .on (hfirst.trans remembers hlive₁) live
      | @ends before after g₂ b split reached remembers there ended =>
        have hsplit : event :: events = event :: before ++ after := congrArg (event :: ·) split
        have hreached : run? d g (event :: before) = some g₂ := by
          rw [run?_cons, hstep]
          exact reached
        exact .ends hsplit hreached (hfirst.trans remembers hlive₁) there ended

/-- Whether a run keeps off what is tracked under a client id. Nothing is put in place there, nor
anywhere else with a sequence already, nothing is taken away there, and no exchange id is assigned
there. -/
def KeepsOff (d : Desk) (clientId : String) : BusyDesk → List BusyEvent → Prop
  | _, [] => True
  | g, event :: events =>
    ((∀ o ∈ event.tracked? g.state, o.clientId ≠ clientId ∧ o.sequence? = none) ∧
      event.untracked? ≠ some clientId ∧ (event.assigned? d g).map (·.1) ≠ some clientId) ∧
    ∀ g₁ ∈ step? d g event, KeepsOff d clientId g₁ events

instance decidableKeepsOff (d : Desk) (clientId : String) :
    ∀ g events, Decidable (KeepsOff d clientId g events)
  | _, [] => .isTrue trivial
  | g, event :: events =>
    have : ∀ g₁, Decidable (KeepsOff d clientId g₁ events) := fun g₁ =>
      decidableKeepsOff d clientId g₁ events
    inferInstanceAs (Decidable (_ ∧ ∀ g₁ ∈ step? d g event, KeepsOff d clientId g₁ events))

theorem undisplaced_of_keepsOff (h : KeepsOff d clientId g events) :
    Undisplaced d clientId g events := by
  induction events generalizing g with
  | nil => trivial
  | cons event events ih =>
    obtain ⟨⟨htracked, huntracked, hassigned⟩, hrest⟩ := h
    intro a ha _ g₁ hstep
    obtain rfl := OrderRegister.clientId_of_find? ha
    refine ⟨?_, ih (hrest g₁ hstep)⟩
    rintro (⟨o, ho, hdisplaces⟩ | htaken | ⟨id, hid, _⟩)
    · obtain ⟨hne, hnone⟩ := htracked o ho
      rw [OrderRegister.Displaces, if_neg hne, hnone] at hdisplaces
      obtain ⟨_, _, hs, _⟩ := hdisplaces
      cases hs
    · exact huntracked htaken
    · exact hassigned (by rw [hid]; rfl)

/-- A live order with an exchange id is remembered event by event until it has ended, exactly if no
event before that displaces it. Then it is tracked with its exchange id and its fills, as the only
live order of its sequence, to the end of the run or up to its own end. A placement displaces it
just where it reuses its client id. -/
theorem live_orders_are_remembered (ha : g.state.order? clientId = some a) (hl : a.isLive = true)
    (hid : a.exchangeId.isSome = true) :
    (Remembered d clientId g events ↔ Undisplaced d clientId g events) ∧
    (Undisplaced d clientId g events → ∀ g', run? d g events = some g' →
      Lives d clientId g events g') ∧
    ∀ n p, (BusyEvent.start n (.place p)).Displaces d g a ↔ p.clientId = clientId := by
  refine ⟨remembered_iff, fun h g' hrun => lives_of_undisplaced ha hl hrun h, fun n p => ?_⟩
  rw [BusyEvent.displaces_place_iff hid, OrderRegister.clientId_of_find? ha]

/-! An order is placed and rests on the ledger. A second order that is placed under its client id
takes its place before it is even priced, while the first one still rests. A placement under another
client id, a cancel and the stream leave the first one in place. -/

def opening : List BusyEvent :=
  .start 0 (.place Placing.limitOrder) :: Placing.openingReplies.map (.reply 0 ·)

def reuse : BusyEvent := .start 1 (.place { Placing.limitOrder with pair := "NO-PAIR" })

theorem reused_id_forgets_an_open_order : ∃ g g' a,
    run? Cancelling.signingDesk ⟨{}, .empty⟩ opening = some g ∧
    g.state.order? "a" = some a ∧ a.state = .opened ∧ a.exchangeId = some "3-28" ∧
    g.state.register.resolve? 3 = some a ∧ step? Cancelling.signingDesk g reuse = some g' ∧
    (g'.state.order? "a").map (·.exchangeId) = some none ∧
    g'.state.register.carrying 3 = [] :=
  ⟨_, _, _, rfl, rfl, rfl, rfl, by decide +kernel, rfl, by decide +kernel, by decide +kernel⟩

def otherWork (a : Order) : List BusyEvent :=
  [.start 1 (.place { Placing.limitOrder with clientId := "b" }),
    .reply 1 (.ok Cancelling.accountAnswer), .reply 1 (.ok Cancelling.feeAnswer),
    .reply 1 (.ok Cancelling.currentAnswer), .start 2 (.cancel "a" a), .drop 2,
    .takeIn RegisterStep.soloTrader RegisterStep.partialFill]

theorem open_order_beside_other_work : ∃ g a g',
    run? Cancelling.signingDesk ⟨{}, .empty⟩ opening = some g ∧ g.state.order? "a" = some a ∧
    run? Cancelling.signingDesk g (otherWork a) = some g' ∧
    Lives Cancelling.signingDesk "a" g (otherWork a) g' := by
  obtain ⟨g, a, g', hopening, ha, hl, hid, hoff, hrun⟩ : ∃ g a g',
      run? Cancelling.signingDesk ⟨{}, .empty⟩ opening = some g ∧
      g.state.order? "a" = some a ∧ a.isLive = true ∧ a.exchangeId.isSome = true ∧
      KeepsOff Cancelling.signingDesk "a" g (otherWork a) ∧
      run? Cancelling.signingDesk g (otherWork a) = some g' :=
    ⟨_, _, _, rfl, rfl, rfl, rfl, by decide +kernel, rfl⟩
  exact ⟨g, a, g', hopening, ha, hrun,
    (live_orders_are_remembered ha hl hid).2.1 (undisplaced_of_keepsOff hoff) g' hrun⟩

end BusyDesk

end OfferDesk
