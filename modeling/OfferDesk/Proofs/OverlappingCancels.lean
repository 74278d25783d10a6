-- What several cancels of one order leave behind that are under way at once and all come to nothing.
-- Each remembers the state it has found, and takes the order back to it if the order waits for a
-- cancel by then, its own or another one. So a cancel that is older than the last fill can take the
-- order back to a state from before the fill. It does so only where a later one has marked the order
-- while it was waiting.
import OfferDesk.Proofs.Cancelling

namespace OfferDesk

/-! ## Cancels under way at once -/

/-- A desk with cancels of one order, each under its own number. -/
structure CancelRace where
  state : DeskState
  calls : Table Nat (Progress Cancelling Bool)

/-- What happens in a race: a cancel starts with the caller's copy of the order, gets a reply or is
dropped, or something else reaches the desk. -/
inductive CancelRaceEvent where
  | start (n : Nat) (order : Order)
  | reply (n : Nat) (r : Reply)
  | drop (n : Nat)
  | desk (e : DeskEvent)

namespace CancelRaceEvent

def desk? : CancelRaceEvent → Option DeskEvent
  | desk e => some e
  | _ => none

/-- What reaches the desk apart from the cancels. -/
def desks (events : List CancelRaceEvent) : List DeskEvent := events.filterMap (·.desk?)

end CancelRaceEvent

namespace CancelRace

/-- A race after a turn of one cancel. -/
def turn (g : CancelRace) (n : Nat) (t : Turn Cancelling Bool) : CancelRace :=
  ⟨t.1, g.calls.put n t.2⟩

@[simp] theorem calls_turn (g : CancelRace) (n : Nat) (t : Turn Cancelling Bool) :
    (g.turn n t).calls = g.calls.put n t.2 := rfl

/-- The race after an event. A number that is taken starts no other cancel, and a reply that nobody
waits for does nothing. There is no result where an amount leaves the range of decimals. -/
def step? (d : Desk) (clientId : String) (g : CancelRace) : CancelRaceEvent → Option CancelRace
  | .start n order =>
    match g.calls.find? n with
    | none => some (g.turn n (Cancelling.start d g.state clientId order))
    | some _ => some g
  | .reply n r =>
    match g.calls.find? n with
    | some (.ask _ _ w) => some (g.turn n (w.resume d g.state r))
    | _ => some g
  | .drop n =>
    match g.calls.find? n with
    | some (.ask _ _ w) => some ⟨w.drop g.state, g.calls.erase n⟩
    | _ => some g
  | .desk e => (g.state.after? d e).map (⟨·, g.calls⟩)

/-- The race after one event after another. -/
def run? (d : Desk) (clientId : String) (g : CancelRace) (events : List CancelRaceEvent) :
    Option CancelRace :=
  events.foldlM (step? d clientId) g

/-! ## What the cancels remember -/

/-- The cancel that waits with a progress. -/
def cancel? : Progress Cancelling Bool → Option CancelOrder
  | .ask _ _ w => some w.cancel
  | _ => none

/-- The cancel that waits under a number. -/
def waiting? (calls : Table Nat (Progress Cancelling Bool)) (n : Nat) : Option CancelOrder :=
  (calls.find? n).bind cancel?

/-- Unless the order is marked already, every cancel that waits remembers the state that the order
is in, or the mark of another cancel. -/
def Current (clientId : String) (g : CancelRace) : Prop :=
  ∀ o, g.state.order? clientId = some o → o.state ≠ .pendingCancel →
    ∀ n c, waiting? g.calls n = some c → c.previous = o.state ∨ c.previous = .pendingCancel

/-- Whenever a cancel starts, those that wait are current. -/
def StartsCurrent (d : Desk) (clientId : String) (g : CancelRace) : List CancelRaceEvent → Prop
  | [] => True
  | event :: events => (∀ n order, event = .start n order → g.Current clientId) ∧
    ∀ g', step? d clientId g event = some g' → StartsCurrent d clientId g' events

/-! ## The state that an order was taken back to -/

/-- The state that the order was last taken back to since anything else changed it, after an event
that led from the first desk to the second. -/
def noted (clientId : String) (s s' : DeskState) (last : Option OrderState) :
    CancelRaceEvent → Option OrderState
  | .desk _ => if s'.order? clientId = s.order? clientId then last else none
  | _ =>
    if s.isIn clientId .pendingCancel && !s'.isIn clientId .pendingCancel then
      (s'.order? clientId).map (·.state)
    else last

/-- The same after one event after another. -/
def takenBack (d : Desk) (clientId : String) (g : CancelRace) (last : Option OrderState) :
    List CancelRaceEvent → Option OrderState
  | [] => last
  | event :: events =>
    match step? d clientId g event with
    | some g' => takenBack d clientId g' (noted clientId g.state g'.state last event) events
    | none => last

/-! ## One step -/

variable {d : Desk} {g g' : CancelRace} {s₀ s₁ s s' : DeskState} {o : Order} {clientId : String}
  {state expected : OrderState} {last : Option OrderState} {event : CancelRaceEvent}
  {events : List CancelRaceEvent} {calls calls' : Table Nat (Progress Cancelling Bool)} {n m : Nat}
  {w : Cancelling} {p : Progress Cancelling Bool} {c : CancelOrder} {current : Prop}

/-- What an event does to a race: nothing, a turn or the end of one cancel, or a change of the
desk. -/
inductive Goes (d : Desk) (clientId : String) (g : CancelRace) :
    CancelRaceEvent → CancelRace → Prop where
  | idles {event : CancelRaceEvent} (apart : event.desk? = none) : Goes d clientId g event g
  | starts {n : Nat} {order : Order} (free : g.calls.find? n = none) :
    Goes d clientId g (.start n order) (g.turn n (Cancelling.start d g.state clientId order))
  | replies {n : Nat} {r : Reply} {pause : Nat} {request : Request} {w : Cancelling}
    (waits : g.calls.find? n = some (.ask pause request w)) :
    Goes d clientId g (.reply n r) (g.turn n (w.resume d g.state r))
  | drops {n : Nat} {pause : Nat} {request : Request} {w : Cancelling}
    (waits : g.calls.find? n = some (.ask pause request w)) :
    Goes d clientId g (.drop n) ⟨w.drop g.state, g.calls.erase n⟩
  | changes {e : DeskEvent} {s : DeskState} (after : g.state.after? d e = some s) :
    Goes d clientId g (.desk e) ⟨s, g.calls⟩

theorem goes_step? (h : step? d clientId g event = some g') : Goes d clientId g event g' := by
  cases event with
  | start n order =>
    simp only [step?] at h
    split at h
    · rename_i hfree
      cases h
      exact .starts hfree
    · cases h
      exact .idles rfl
  | reply n r =>
    simp only [step?] at h
    split at h
    · rename_i hwaits
      cases h
      exact .replies hwaits
    · cases h
      exact .idles rfl
  | drop n =>
    simp only [step?] at h
    split at h
    · rename_i hwaits
      cases h
      exact .drops hwaits
    · cases h
      exact .idles rfl
  | desk e =>
    obtain ⟨s, hs, rfl⟩ := Option.map_eq_some_iff.mp h
    exact .changes hs

/-- A cancel that has come to an end stays as it is. -/
theorem ended_kept (h : Goes d clientId g event g') (hn : g.calls.find? n = some p)
    (hp : Cancelling.isOver p = true) : g'.calls.find? n = some p := by
  have hne : ∀ m, g.calls.find? m = none ∨ (∃ pause request w,
      g.calls.find? m = some (.ask pause request w)) → n ≠ m := by
    rintro m hm rfl
    rw [hn] at hm
    rcases hm with hm | ⟨pause, request, w, hm⟩
    · cases hm
    · cases hm
      cases hp
  cases h with
  | idles apart => exact hn
  | starts free =>
    exact (g.calls.find?_put_of_ne _ (hne _ (Or.inl free))).trans hn
  | replies waits =>
    exact (g.calls.find?_put_of_ne _ (hne _ (Or.inr ⟨_, _, _, waits⟩))).trans hn
  | drops waits =>
    exact (g.calls.find?_erase _ n).trans ((if_neg (hne _ (Or.inr ⟨_, _, _, waits⟩))).trans hn)
  | changes after => exact hn

/-! ## What holds during a race -/

theorem waiting?_of_asks {pause : Nat} {request : Request}
    (h : calls.find? n = some (.ask pause request w)) : waiting? calls n = some w.cancel := by
  rw [waiting?, h]
  rfl

theorem waiting?_put (calls : Table Nat (Progress Cancelling Bool)) (n m : Nat)
    (p : Progress Cancelling Bool) :
    waiting? (calls.put n p) m = if m = n then cancel? p else waiting? calls m := by
  rw [waiting?, Table.find?_put]
  split <;> rfl

theorem waiting?_erase (calls : Table Nat (Progress Cancelling Bool)) (n m : Nat) :
    waiting? (calls.erase n) m = if m = n then none else waiting? calls m := by
  rw [waiting?, Table.find?_erase]
  split <;> rfl

/-- Every waiting cancel is one of the order, and remembers an end only of an order that has
ended. -/
def Fits (d : Desk) (o : Order) (calls : Table Nat (Progress Cancelling Bool)) : Prop :=
  ∀ n pause request w, calls.find? n = some (.ask pause request w) →
    w.cancel.clientId = o.clientId ∧ (∃ order, w.Asks d order request) ∧
      (w.cancel.previous.isTerminal = true → o.isLive = false)

/-- The order is in the state that is expected without any cancel under way, or a cancel waits that
has marked it and remembers that state. -/
def Accounted (calls : Table Nat (Progress Cancelling Bool)) (expected state : OrderState) : Prop :=
  state = expected ∨ state = .pendingCancel ∧ expected ≠ .pendingCreate ∧
    ∃ n c, waiting? calls n = some c ∧ c.previous = expected

/-- The order is expected in the state that it has without the cancels, and none that waits can take
it to another one. -/
structure Fresh (o : Order) (calls : Table Nat (Progress Cancelling Bool))
    (last : Option OrderState) (state : OrderState) : Prop where
  back : last.getD o.state = o.state
  marked : state = .pendingCancel → ∀ n c, waiting? calls n = some c →
    c.previous = o.state ∨ c.previous = .pendingCancel

/-- What holds of a race at a desk that would be `s₀` without it. The last part is for cancels that
start current. -/
structure Sound (d : Desk) (o : Order) (state : OrderState) (s₀ : DeskState) (g : CancelRace)
    (last : Option OrderState) (current : Prop) : Prop where
  same : DeskState.SameBut o state s₀ g.state
  fits : Fits d o g.calls
  accounted : Accounted g.calls (last.getD o.state) state
  fresh : current → Fresh o g.calls last state

theorem Fits.put (h : Fits d o calls) (hp : ∀ pause request w, p = .ask pause request w →
    w.cancel.clientId = o.clientId ∧ (∃ order, w.Asks d order request) ∧
      (w.cancel.previous.isTerminal = true → o.isLive = false)) : Fits d o (calls.put n p) := by
  intro m pause request w hm
  rw [Table.find?_put] at hm
  split at hm
  · cases hm
    exact hp pause request w rfl
  · exact h m pause request w hm

theorem Fits.erase (h : Fits d o calls) (n : Nat) : Fits d o (calls.erase n) := by
  intro m pause request w hm
  rw [Table.find?_erase] at hm
  split at hm
  · cases hm
  · exact h m pause request w hm

/-- What is noted after a turn of a cancel. -/
theorem noted_of_same {state' : OrderState} (h : DeskState.SameBut o state s₀ s)
    (h' : DeskState.SameBut o state' s₀ s') (he : event.desk? = none) :
    noted o.clientId s s' last event =
      if state = .pendingCancel ∧ state' ≠ .pendingCancel then some state' else last := by
  have hevent : noted o.clientId s s' last event =
      if s.isIn o.clientId .pendingCancel && !s'.isIn o.clientId .pendingCancel then
        (s'.order? o.clientId).map (·.state)
      else last := by
    cases event with
    | desk e => cases he
    | start n order => rfl
    | reply n r => rfl
    | drop n => rfl
  rw [hevent]
  simp only [DeskState.isIn, h.there, h'.there]
  simp

theorem noted_of_still (h : DeskState.SameBut o state s₀ s) (h' : DeskState.SameBut o state s₀ s')
    (he : event.desk? = none) : noted o.clientId s s' last event = last := by
  rw [noted_of_same h h' he, if_neg fun hboth => hboth.2 hboth.1]

/-! ## A cancel that is taken back -/

/-- Some cancel has come to an end, and not to nothing. -/
def Decided (g : CancelRace) : Prop :=
  ∃ n p, g.calls.find? n = some p ∧ Cancelling.isOver p = true ∧ p ≠ .done false

theorem decided_step (h : Goes d clientId g event g') (hg : Decided g) : Decided g' := by
  obtain ⟨n, p, hn, hover, hp⟩ := hg
  exact ⟨n, p, ended_kept h hn hover, hover, hp⟩

section

variable {state' : OrderState} (hn : waiting? calls n = some c)
  (hcalls : ∀ m, waiting? calls' m = if m = n then none else waiting? calls m)
  (hs : state' = Cancelling.restored c.previous state)
include hn hcalls hs

/-- The state an order is taken back to is the one that is expected from then on. -/
theorem Accounted.restored (h : Accounted calls (last.getD o.state) state) :
    Accounted calls' ((if state = .pendingCancel ∧ state' ≠ .pendingCancel then some state'
      else last).getD o.state) state' := by
  by_cases hback : state = .pendingCancel ∧ state' ≠ .pendingCancel
  · rw [if_pos hback]
    exact Or.inl rfl
  rw [if_neg hback]
  have hstays : state' = state := by
    by_cases hp : state = .pendingCancel
    · rw [hp] at hback ⊢
      simpa using hback
    · rw [hs, Cancelling.restored, if_neg fun hboth => hp hboth.1]
  rw [hstays]
  rcases h with h | ⟨hp, hnew, m, c', hm, hprev⟩
  · exact Or.inl h
  by_cases hmn : m = n
  · -- the cancel that remembers the expected state has not taken the order back to it
    subst hmn
    obtain rfl := Option.some.inj (hm.symm.trans hn)
    rw [hstays, Cancelling.restored, hprev, if_pos ⟨hp, hnew⟩] at hs
    exact Or.inl hs
  · exact Or.inr ⟨hp, hnew, m, c', (hcalls m).trans ((if_neg hmn).trans hm), hprev⟩

theorem Fresh.restored (h : Fresh o calls last state) :
    Fresh o calls' (if state = .pendingCancel ∧ state' ≠ .pendingCancel then some state' else last)
      state' := by
  have hstays : state ≠ .pendingCancel → state' = state := fun hp => by
    rw [hs, Cancelling.restored, if_neg fun hboth => hp hboth.1]
  refine ⟨?_, fun hp m c' hm => ?_⟩
  · by_cases hback : state = .pendingCancel ∧ state' ≠ .pendingCancel
    · rw [if_pos hback]
      have hprev : state' = c.previous := by
        rw [Cancelling.restored] at hs
        split at hs
        · exact hs
        · exact absurd (hs.trans hback.1) hback.2
      rcases h.marked hback.1 n c hn with hc | hc
      · exact hprev.trans hc
      · exact absurd (hprev.trans hc) hback.2
    · rw [if_neg hback]
      exact h.back
  · have hmarked : state = .pendingCancel := by
      by_contra hne
      exact hne ((hstays hne).symm.trans hp)
    rw [hcalls] at hm
    split at hm
    · cases hm
    · exact h.marked hmarked m c' hm

end

/-- A cancel that comes to nothing, or is dropped. -/
theorem Sound.restored {pause : Nat} {request : Request} (h : Sound d o state s₀ g last current)
    (hn : g.calls.find? n = some (.ask pause request w)) (halike : g.state.Alike s)
    (hcalls : ∀ m, waiting? calls' m = if m = n then none else waiting? g.calls m)
    (hfits : Fits d o calls') (he : event.desk? = none) :
    ∃ state', Sound d o state' s₀ ⟨Cancelling.restore s w.cancel, calls'⟩
      (noted o.clientId g.state (Cancelling.restore s w.cancel) last event) current := by
  obtain ⟨hid, _, hend⟩ := h.fits n pause request w hn
  have hp : state = .pendingCancel → w.cancel.previous.isTerminal = false := by
    rintro rfl
    by_contra hterminal
    have hdead := hend (by simpa using hterminal)
    have hlive : o.state.isTerminal = false := h.same.register.isTerminal_eq.symm
    simp [Order.isLive, hlive] at hdead
  have hsame := Cancelling.sameBut_restored (h.same.alike halike) hid hp
  have hwaits := waiting?_of_asks hn
  refine ⟨_, hsame, hfits, ?_, fun hc => ?_⟩
  · rw [noted_of_same h.same hsame he]
    exact h.accounted.restored hwaits hcalls rfl
  · rw [noted_of_same h.same hsame he]
    exact (h.fresh hc).restored hwaits hcalls rfl

/-! ## A cancel that starts or goes on -/

/-- A number that was free takes nothing away. -/
theorem Accounted.put (h : Accounted calls expected state) (hn : calls.find? n = none) :
    Accounted (calls.put n p) expected state := by
  rcases h with h | ⟨hp, hnew, m, c, hm, hprev⟩
  · exact Or.inl h
  · refine Or.inr ⟨hp, hnew, m, c, ?_, hprev⟩
    rw [waiting?_put, if_neg, hm]
    rintro rfl
    rw [waiting?, hn] at hm
    cases hm

/-- A cancel that marks the order remembers the state that is expected of it. -/
theorem Accounted.marked {request : Request} (h : Accounted calls expected state)
    (hn : calls.find? n = none) (hw : w.cancel.previous = state) :
    Accounted (calls.put n (.ask 0 request w)) expected
      (if state.canMoveTo .pendingCancel then .pendingCancel else state) := by
  by_cases hcan : state.canMoveTo .pendingCancel = true
  · rw [if_pos hcan]
    rcases h with rfl | ⟨rfl, hrest⟩
    · refine Or.inr ⟨rfl, ?_, n, w.cancel, waiting?_of_asks (Table.find?_put_self _ _ _), hw⟩
      rintro rfl
      cases hcan
    · exact Accounted.put (Or.inr ⟨rfl, hrest⟩) hn
  · rw [if_neg hcan]
    exact h.put hn

/-- A cancel that ends as it starts is nothing to the others. -/
theorem Fresh.put_done (h : Fresh o calls last state) :
    Fresh o (calls.put n (.done false)) last state := by
  refine ⟨h.back, fun hp m c hm => ?_⟩
  rw [waiting?_put] at hm
  split at hm
  · cases hm
  · exact h.marked hp m c hm

/-- A cancel that starts current remembers the state that the order has without the cancels, or
their mark. -/
theorem Fresh.marked_put {request : Request} {state' : OrderState} (h : Fresh o calls last state)
    (haccounted : Accounted calls (last.getD o.state) state) (hw : w.cancel.previous = state)
    (hcurrent : state ≠ .pendingCancel → ∀ n c, waiting? calls n = some c →
      c.previous = state ∨ c.previous = .pendingCancel) :
    Fresh o (calls.put n (.ask 0 request w)) last state' := by
  refine ⟨h.back, fun _ m c hm => ?_⟩
  rw [waiting?_put] at hm
  by_cases hp : state = .pendingCancel
  · split at hm
    · cases hm
      exact Or.inr (hw.trans hp)
    · exact h.marked hp m c hm
  · have hstate : state = o.state := by
      rcases haccounted with haccounted | ⟨hmarked, _⟩
      · exact haccounted.trans h.back
      · exact absurd hmarked hp
    split at hm
    · cases hm
      exact Or.inl (hw.trans hstate)
    · exact hstate ▸ hcurrent hp m c hm

/-- A cancel that starts. -/
theorem Sound.started {order : Order} {t : Turn Cancelling Bool}
    (h : Sound d o state s₀ g last current) (hn : g.calls.find? n = none)
    (ht : Cancelling.start d g.state o.clientId order = t) (he : event.desk? = none)
    (hcurrent : current → g.Current o.clientId) : ∃ state', Sound d o state' s₀ (g.turn n t)
      (noted o.clientId g.state t.1 last event) current := by
  cases hsequence : order.sequence? with
  | none =>
    have hstart : Cancelling.start d g.state o.clientId order = (g.state, .done false) := by
      unfold Cancelling.start
      rw [hsequence]
    rw [hstart] at ht
    subst ht
    refine ⟨state, h.same, h.fits.put (fun _ _ _ hp => nomatch hp), ?_, fun hc => ?_⟩
    · rw [noted_of_still h.same h.same he]
      exact h.accounted.put hn
    · rw [noted_of_still h.same h.same he]
      exact (h.fresh hc).put_done
  | some sequence =>
    obtain ⟨w, hstart, hcancel, hasks⟩ := Cancelling.start_of_order (d := d) hsequence h.same.there
    rw [hstart] at ht
    subst ht
    have hsame := h.same.move (show OrderState.pendingCancel.isTerminal = false from rfl)
    have hprev : w.cancel.previous = state := by rw [hcancel]
    have hnoted : noted o.clientId g.state (g.state.move o.clientId .pendingCancel) last event =
        last := by
      rw [noted_of_same h.same hsame he, if_neg]
      rintro ⟨rfl, hne⟩
      exact hne rfl
    refine ⟨_, hsame, h.fits.put fun pause request w' hp => ?_, ?_, fun hc => ?_⟩
    · cases hp
      refine ⟨by rw [hcancel], ⟨order, hasks⟩, fun hend => ?_⟩
      rw [hprev] at hend
      simpa [Order.isLive, ← h.same.register.isTerminal_eq] using hend
    · rw [hnoted]
      exact h.accounted.marked hn hprev
    · rw [hnoted]
      exact (h.fresh hc).marked_put h.accounted hprev fun hp => hcurrent hc _ h.same.there hp

/-- A cancel that goes on waiting. -/
theorem Sound.waited {pause pause' : Nat} {request request' : Request} {w' : Cancelling}
    (h : Sound d o state s₀ g last current) (hn : g.calls.find? n = some (.ask pause request w))
    (halike : g.state.Alike s) (hw : w'.cancel = w.cancel)
    (hasks : ∃ order, w'.Asks d order request') (he : event.desk? = none) :
    Sound d o state s₀ (g.turn n (s, .ask pause' request' w'))
      (noted o.clientId g.state s last event) current := by
  have hsame := h.same.alike halike
  obtain ⟨hid, _, hend⟩ := h.fits n pause request w hn
  have hwaits : waiting? (g.calls.put n (.ask pause' request' w')) = waiting? g.calls := by
    funext m
    rw [waiting?_put]
    split
    · rename_i hm
      rw [hm, waiting?_of_asks hn, cancel?, hw]
    · rfl
  have hnoted : noted o.clientId g.state s last event = last := noted_of_still h.same hsame he
  refine ⟨hsame, h.fits.put fun _ _ _ hp => ?_, ?_, fun hc => ⟨?_, ?_⟩⟩
  · cases hp
    rw [hw]
    exact ⟨hid, hasks, hend⟩
  · rw [hnoted, Accounted, calls_turn, hwaits]
    exact h.accounted
  · rw [hnoted]
    exact (h.fresh hc).back
  · rw [calls_turn, hwaits]
    exact (h.fresh hc).marked

/-- What a turn of one cancel does, as long as none is decided. -/
theorem sound_turn (h : Sound d o state s₀ g last current) (hg : Goes d o.clientId g event g')
    (he : event.desk? = none)
    (hcurrent : current → ∀ n order, event = .start n order → g.Current o.clientId) :
    Decided g' ∨ ∃ state', Sound d o state' s₀ g'
      (noted o.clientId g.state g'.state last event) current := by
  cases hg with
  | changes after => cases he
  | idles apart =>
    refine Or.inr ⟨state, ?_⟩
    rw [noted_of_still h.same h.same he]
    exact h
  | starts free => exact Or.inr (h.started free rfl he fun hc => hcurrent hc _ _ rfl)
  | drops waits =>
    exact Or.inr (h.restored waits (.refl _) (waiting?_erase _ _) (h.fits.erase _) he)
  | @replies n r pause request w waits =>
    obtain ⟨_, ⟨order, hasks⟩, _⟩ := h.fits n pause request w waits
    have hgoes := Cancelling.goes_resume (s := g.state) hasks r
    generalize w.resume d g.state r = t at hgoes ⊢
    cases hgoes with
    | waits alike cancel asks =>
      exact Or.inr ⟨state, h.waited waits alike cancel ⟨order, asks⟩ he⟩
    | fails alike =>
      exact Or.inr (h.restored waits alike (fun m => waiting?_put _ _ m _)
        (h.fits.put fun _ _ _ hp => nomatch hp) he)
    | halts =>
      exact Or.inl ⟨n, .halted, Table.find?_put_self _ _ _, rfl, fun hp => nomatch hp⟩
    | succeeds signs asked answered found success fills =>
      exact Or.inl ⟨n, .done true, Table.find?_put_self _ _ _, rfl, fun hp => nomatch hp⟩

/-! ## A change of the desk -/

/-- What is expected of an order that something else may have changed. -/
theorem Accounted.changed {o' : Order} {state' : OrderState}
    (h : Accounted calls (last.getD o.state) state)
    (hstate : state' = o'.state ∨ o' = o ∧ state' = state) :
    Accounted calls ((if { o' with state := state' } = { o with state := state } then last
      else none).getD o'.state) state' := by
  rcases hstate with rfl | ⟨rfl, rfl⟩
  · split
    · rename_i hkept
      have hstill : o'.state = state := congrArg Order.state hkept
      cases last with
      | none => exact Or.inl rfl
      | some last =>
        rw [hstill]
        exact h
    · exact Or.inl rfl
  · rw [if_pos rfl]
    exact h

/-- A transaction that reaches the order takes any mark off it, so whatever cancels remember that
wait, none can take it back. -/
theorem Fresh.changed {o' : Order} {state' : OrderState} (h : Fresh o calls last state)
    (haccounted : Accounted calls (last.getD o.state) state) (ho : o' = o ∨ o.Reaches o')
    (hnow : { o' with state := state' } = { o with state := state } ∨ state' ≠ .pendingCancel)
    (hstate : state' = o'.state ∨ o' = o ∧ state' = state) :
    Fresh o' calls (if { o' with state := state' } = { o with state := state } then last else none)
      state' := by
  have hreached : o' = o ∨ state' = o'.state ∧ o'.state ≠ .pendingCancel := by
    rcases ho with ho | ho
    · exact Or.inl ho
    · rcases hstate with hstate | ⟨hstate, _⟩
      · exact Or.inr ⟨hstate, ho.settled⟩
      · exact Or.inl hstate
  refine ⟨?_, fun hp m c hm => ?_⟩
  · split
    · rename_i hkept
      have hstill : state' = state := congrArg Order.state hkept
      rcases hreached with rfl | ⟨hstate, hsettled⟩
      · exact h.back
      · rcases haccounted with haccounted | ⟨hmarked, _⟩
        · cases last with
          | none => rfl
          | some last => exact haccounted.symm.trans (hstill.symm.trans hstate)
        · exact absurd (hstate.symm.trans (hstill.trans hmarked)) hsettled
    · rfl
  · rcases hreached with rfl | ⟨hstate, hsettled⟩
    · rcases hnow with hkept | hne
      · have hstill : state' = state := congrArg Order.state hkept
        exact h.marked (hstill.symm.trans hp) m c hm
      · exact absurd hp hne
    · exact absurd (hstate.symm.trans hp) hsettled

/-- What else reaches the desk, with what it does at the desk without the race. -/
theorem sound_change {e : DeskEvent} (h : Sound d o state s₀ g last current)
    (hs : g.state.after? d e = some s) (he : e.clientId? ≠ some o.clientId) :
    ∃ s₁ o' state', s₀.after? d e = some s₁ ∧ o'.clientId = o.clientId ∧
      Sound d o' state' s₁ ⟨s, g.calls⟩ (noted o.clientId g.state s last (.desk e)) current := by
  have hrel := h.same.after d he
  rw [hs] at hrel
  obtain ⟨s₁, hs₁, o', state', hsame, hid, ho, hstate⟩ := exists_of_rel_some hrel
  have hthere : s.order? o.clientId = some { o' with state := state' } := by
    rw [← hid]
    exact hsame.there
  have hnoted : noted o.clientId g.state s last (.desk e) =
      if { o' with state := state' } = { o with state := state } then last else none := by
    simp only [noted, hthere, h.same.there, Option.some.injEq]
  refine ⟨s₁, o', state', hs₁, hid, hsame, fun n pause request w hn => ?_, ?_, fun hc => ?_⟩
  · obtain ⟨hw, hasks, hend⟩ := h.fits n pause request w hn
    refine ⟨hw.trans hid.symm, hasks, fun hterminal => ?_⟩
    rcases ho with rfl | hreached
    · exact hend hterminal
    · have hdead := hend hterminal
      rw [hreached.live] at hdead
      cases hdead
  · rw [hnoted]
    exact h.accounted.changed hstate
  · rw [hnoted]
    refine (h.fresh hc).changed h.accounted ho ?_ hstate
    obtain ⟨now, hnow, hreached⟩ := DeskState.order?_of_after hs he h.same.there
    obtain rfl := Option.some.inj (hnow.symm.trans hthere)
    rcases hreached with hkept | hreached
    · exact Or.inl hkept
    · exact Or.inr hreached.settled

/-! ## A whole race -/

theorem run?_cons (g : CancelRace) :
    run? d clientId g (event :: events) = (step? d clientId g event).bind (run? d clientId · events) :=
  List.foldlM_cons

theorem decided_run (hg : Decided g) (h : run? d clientId g events = some g') : Decided g' := by
  induction events generalizing g with
  | nil =>
    cases h
    exact hg
  | cons event events ih =>
    rw [run?_cons] at h
    obtain ⟨g₁, hstep, hrest⟩ := Option.bind_eq_some_iff.mp h
    exact ih (decided_step (goes_step? hstep) hg) hrest

/-- What a race comes to, as long as no cancel is decided. -/
theorem sound_run (h : Sound d o state s₀ g last current)
    (hapart : ∀ e ∈ CancelRaceEvent.desks events, e.clientId? ≠ some o.clientId)
    (hrun : run? d o.clientId g events = some g')
    (hcurrent : current → StartsCurrent d o.clientId g events) :
    Decided g' ∨ ∃ s₁ o' state', s₀.afterAll? d (CancelRaceEvent.desks events) = some s₁ ∧
      o'.clientId = o.clientId ∧
      Sound d o' state' s₁ g' (takenBack d o.clientId g last events) current := by
  induction events generalizing g s₀ o state last with
  | nil =>
    cases hrun
    exact Or.inr ⟨s₀, o, state, rfl, rfl, h⟩
  | cons event events ih =>
    rw [run?_cons] at hrun
    obtain ⟨g₁, hstep, hrest⟩ := Option.bind_eq_some_iff.mp hrun
    have hlater : current → StartsCurrent d o.clientId g₁ events := fun hc =>
      (hcurrent hc).2 g₁ hstep
    rw [takenBack, hstep]
    cases he : event.desk? with
    | none =>
      have hdesks : CancelRaceEvent.desks (event :: events) = CancelRaceEvent.desks events := by
        rw [CancelRaceEvent.desks, List.filterMap_cons_none he]
        rfl
      rw [hdesks] at hapart ⊢
      rcases sound_turn h (goes_step? hstep) he fun hc => (hcurrent hc).1 with
        hdecided | ⟨state', hsound⟩
      · exact Or.inl (decided_run hdecided hrest)
      · exact ih hsound hapart hrest hlater
    | some e =>
      cases event with
      | desk e =>
        obtain ⟨s, hs, rfl⟩ := Option.map_eq_some_iff.mp hstep
        obtain ⟨s₁, o', state', hs₁, hid, hsound⟩ :=
          sound_change h hs (hapart e List.mem_cons_self)
        rw [← hid] at hrest hlater
        rcases ih hsound (fun e he => hid ▸ hapart e (List.mem_cons_of_mem _ he)) hrest hlater with
          hdecided | ⟨s₂, o₂, state₂, hs₂, hid₂, hsound₂⟩
        · exact Or.inl hdecided
        · refine Or.inr ⟨s₂, o₂, state₂, ?_, hid₂.trans hid, hid ▸ hsound₂⟩
          exact DeskState.afterAll?_cons.trans (by rw [hs₁]; exact hs₂)
      | start n order => cases he
      | reply n r => cases he
      | drop n => cases he

/-- What cancels of one order that all come to nothing, or are dropped, leave behind, however they
overlap. The desk is as if none had been tried, but for the state of the order: that is the one to
which a cancel has taken it back since the order last changed otherwise. So nothing is left of them
exactly if that is the state in which the order would be without them. It is, if no cancel marks
the order while another one waits that remembers another state. -/
theorem failed_cancels_take_back {a : Order} (ha : s.order? clientId = some a)
    (hapart : ∀ e ∈ CancelRaceEvent.desks events, e.clientId? ≠ some clientId)
    (hrun : run? d clientId ⟨s, .empty⟩ events = some g)
    (hfailed : ∀ p ∈ g.calls.values, p = .done false) :
    ∃ s₀ o, s.afterAll? d (CancelRaceEvent.desks events) = some s₀ ∧
      s₀.order? clientId = some o ∧
      DeskState.SameBut o ((takenBack d clientId ⟨s, .empty⟩ none events).getD o.state) s₀ g.state ∧
      (s₀.Agrees g.state ↔ ∀ state, takenBack d clientId ⟨s, .empty⟩ none events = some state →
        state = o.state) ∧
      (StartsCurrent d clientId ⟨s, .empty⟩ events → s₀.Agrees g.state) := by
  obtain rfl := OrderRegister.clientId_of_find? ha
  have hcalls : ∀ n p, g.calls.find? n = some p → p = .done false := fun n p hn =>
    hfailed p (List.mem_map_of_mem (g.calls.find?_eq_some_iff.mp hn))
  have hstart : Sound d a a.state s ⟨s, .empty⟩ none
      (StartsCurrent d a.clientId ⟨s, .empty⟩ events) :=
    ⟨.refl ha, (fun _ _ _ _ hn => nomatch hn), Or.inl rfl,
      fun _ => ⟨rfl, fun _ _ _ hn => nomatch hn⟩⟩
  rcases sound_run hstart hapart hrun id with ⟨n, p, hn, _, hp⟩ | ⟨s₀, o, state, hs₀, hid, hsound⟩
  · exact absurd (hcalls n p hn) hp
  generalize takenBack d a.clientId ⟨s, .empty⟩ none events = last at hsound ⊢
  have hstate : state = last.getD o.state := by
    rcases hsound.accounted with h | ⟨_, _, n, c, hn, _⟩
    · exact h
    · obtain ⟨p, hp, hc⟩ := Option.bind_eq_some_iff.mp hn
      rw [hcalls n p hp] at hc
      cases hc
  subst hstate
  have hhere : s₀.order? a.clientId = some o := hid ▸ hsound.same.register.here
  have hthere : g.state.order? a.clientId = some { o with state := last.getD o.state } :=
    hid ▸ hsound.same.there
  have hagrees : last.getD o.state = o.state → s₀.Agrees g.state := fun hback => by
    have hsame := hsound.same
    rw [hback] at hsame
    exact hsame.agrees
  refine ⟨s₀, o, hs₀, hhere, hsound.same, ⟨fun h state hlast => ?_, fun hlast => ?_⟩, fun hc =>
    hagrees (hsound.fresh hc).back⟩
  · have horder := h.orders a.clientId
    rw [hhere, hthere, hlast] at horder
    exact congrArg Order.state (Option.some.inj horder)
  · refine hagrees ?_
    cases last with
    | none => rfl
    | some state => exact hlast state rfl

/-! A resting order has two cancels whose connections both break. In the first race both have started
when the order is filled in part; in the second the fill falls between their starts. -/

def brokenReply : Reply := .error "connection reset by peer"

def fillAfterBoth : List CancelRaceEvent :=
  [.start 0 RegisterStep.restingOrder, .start 1 RegisterStep.restingOrder,
    .desk (.message RegisterStep.partialFill), .reply 0 brokenReply, .reply 1 brokenReply]

def fillBetween : List CancelRaceEvent :=
  [.start 0 RegisterStep.restingOrder, .desk (.message RegisterStep.partialFill),
    .start 1 RegisterStep.restingOrder, .reply 0 brokenReply, .reply 1 brokenReply]

theorem partial_fill_after_both_starts :
    ∃ g s₀ o, run? Cancelling.signingDesk "1-1" ⟨Cancelling.restingDesk, .empty⟩ fillAfterBoth =
        some g ∧
      Cancelling.restingDesk.afterAll? Cancelling.signingDesk
        (CancelRaceEvent.desks fillAfterBoth) = some s₀ ∧
      s₀.order? "1-1" = some o ∧ s₀.Agrees g.state := by
  have ha : Cancelling.restingDesk.order? "1-1" = some RegisterStep.restingOrder := by
    decide +kernel
  have hapart : ∀ e ∈ CancelRaceEvent.desks fillAfterBoth, e.clientId? ≠ some "1-1" := by
    simp [CancelRaceEvent.desks, fillAfterBoth, CancelRaceEvent.desk?, DeskEvent.clientId?]
  obtain ⟨g, hrun, hvalues, hlast⟩ : ∃ g, run? Cancelling.signingDesk "1-1"
      ⟨Cancelling.restingDesk, .empty⟩ fillAfterBoth = some g ∧
      g.calls.values = [.done false, .done false] ∧
      takenBack Cancelling.signingDesk "1-1" ⟨Cancelling.restingDesk, .empty⟩ none fillAfterBoth =
        none := ⟨_, rfl, rfl, rfl⟩
  obtain ⟨s₀, o, hs₀, ho, hsame, hagrees, _⟩ :=
    failed_cancels_take_back ha hapart hrun (by simp [hvalues])
  refine ⟨g, s₀, o, hrun, hs₀, ho, hagrees.mpr ?_⟩
  simp [hlast]

theorem older_cancel_takes_back_a_fill :
    ∃ g s₀ o, run? Cancelling.signingDesk "1-1" ⟨Cancelling.restingDesk, .empty⟩ fillBetween =
        some g ∧
      g.calls.values = [.done false, .done false] ∧
      Cancelling.restingDesk.afterAll? Cancelling.signingDesk
        (CancelRaceEvent.desks fillBetween) = some s₀ ∧
      s₀.order? "1-1" = some o ∧ o.state = .partiallyFilled ∧
      g.state.order? "1-1" = some { o with state := .opened } :=
  ⟨_, _, _, rfl, rfl, rfl, rfl, rfl, rfl⟩

end CancelRace

end OfferDesk
