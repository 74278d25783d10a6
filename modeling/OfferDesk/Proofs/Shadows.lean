-- A transaction never looks at the state of a live order: what it makes of an order follows from
-- everything else in it. So where two registers differ only in the state of one live order, a
-- transaction that touches the order makes them alike, and any other leaves the difference as it
-- is.
import OfferDesk.Proofs.Replacing
import OfferDesk.Proofs.Sequences

namespace OfferDesk

/-! ## Orders in other states -/

namespace Order

/-- A change of orders that changes nothing but their states, and neither ends nor revives one. -/
def ChangesStateOnly (f : Order → Order) : Prop :=
  ∀ o, f o = { o with state := (f o).state } ∧ (f o).isLive = o.isLive

/-- The change that puts one order in another state. -/
def restate (o : Order) (state : OrderState) (a : Order) : Order :=
  if a = o then { o with state := state } else a

variable {o a : Order} {state : OrderState} {f : Order → Order}

theorem changesStateOnly_id : ChangesStateOnly id := fun _ => ⟨rfl, rfl⟩

theorem changesStateOnly_restate (hs : state.isTerminal = o.state.isTerminal) :
    ChangesStateOnly (restate o state) := by
  intro a
  unfold restate
  split
  · rename_i ha
    subst ha
    exact ⟨rfl, by simp [isLive, hs]⟩
  · exact ⟨rfl, rfl⟩

theorem restate_of_clientId (h : a.clientId ≠ o.clientId) : restate o state a = a := by
  unfold restate
  rw [if_neg (by rintro rfl; exact h rfl)]

namespace ChangesStateOnly

theorem clientId_eq (hf : ChangesStateOnly f) (o : Order) : (f o).clientId = o.clientId := by
  rw [(hf o).1]

theorem pair_eq (hf : ChangesStateOnly f) (o : Order) : (f o).pair = o.pair := by
  rw [(hf o).1]

theorem sequence?_eq (hf : ChangesStateOnly f) (o : Order) : (f o).sequence? = o.sequence? := by
  rw [(hf o).1]
  rfl

end ChangesStateOnly

end Order

namespace OrderRegister

variable {r r' r₁ r₁' : OrderRegister} {o : Order} {clientId : String} {sequence : UInt32}
  {f : Order → Order} {w : Option Order}

/-! ## The orders of one register seen through a change -/

/-- The second register has the orders of the first, each changed. -/
def Maps (f : Order → Order) (r r' : OrderRegister) : Prop :=
  ∀ x, r'.find? x = (r.find? x).map f

/-- The same change of one entry in both leaves the orders of the one seen in the other. -/
theorem Maps.sets (h : r.Maps f r') (hs : Sets clientId w r r₁) (hs' : Sets clientId w r' r₁')
    (hw : w.map f = w) : r₁.Maps f r₁' := by
  intro x
  rw [hs x, hs' x]
  split
  · exact hw.symm
  · exact h x

theorem Maps.mem_carrying (h : r.Maps f r') (hf : Order.ChangesStateOnly f) :
    o ∈ r'.carrying sequence ↔ ∃ a ∈ r.carrying sequence, f a = o := by
  simp only [OrderRegister.mem_carrying, h _, Option.map_eq_some_iff]
  constructor
  · rintro ⟨⟨a, ha, rfl⟩, hl, hs⟩
    rw [(hf a).2] at hl
    rw [hf.clientId_eq] at ha
    rw [hf.sequence?_eq] at hs
    exact ⟨a, ⟨ha, hl, hs⟩, rfl⟩
  · rintro ⟨a, ⟨ha, hl, hs⟩, rfl⟩
    rw [hf.clientId_eq, (hf a).2, hf.sequence?_eq]
    exact ⟨⟨a, ha, rfl⟩, hl, hs⟩

/-- A sequence leads to the same order in both. -/
theorem Maps.resolve? (h : r.Maps f r') (hf : Order.ChangesStateOnly f) :
    r'.resolve? sequence = (r.resolve? sequence).map f := by
  have hone : ∀ a ∈ r.carrying sequence, ∀ b ∈ r.carrying sequence, f a = f b → a = b := by
    intro a ha b hb hab
    have hid : a.clientId = b.clientId := by rw [← hf.clientId_eq, hab, hf.clientId_eq]
    have hfa := (OrderRegister.mem_carrying.mp ha).1
    rw [hid, (OrderRegister.mem_carrying.mp hb).1] at hfa
    exact (Option.some.inj hfa).symm
  ext o
  rw [Option.map_eq_some_iff]
  simp only [resolve?_eq_some_iff_only, h.mem_carrying hf]
  constructor
  · intro hall
    obtain ⟨a, ha, rfl⟩ := (hall o).mpr rfl
    refine ⟨a, fun b => ⟨fun hb => ?_, fun hb => hb ▸ ha⟩, rfl⟩
    exact hone b hb a ha ((hall (f b)).mp ⟨b, hb, rfl⟩)
  · rintro ⟨a, hall, rfl⟩ o
    constructor
    · rintro ⟨b, hb, rfl⟩
      rw [(hall b).mp hb]
    · rintro rfl
      exact ⟨a, (hall a).mpr rfl, rfl⟩

end OrderRegister

/-! ## Findings that do not look at states -/

namespace Finding

variable {ctx : Trader} {o : Outcome} {found : Finding} {r : OrderRegister}
  {f : Order → Order}

/-- The same finding about a changed order. -/
def map (f : Order → Order) : Finding → Finding
  | nothing => .nothing
  | ends order state => .ends (f order) state
  | fills order market fill next => .fills (f order) market fill next

/-- What comes in place of an order does not depend on the state it was in. -/
theorem replaces?_map (hf : Order.ChangesStateOnly f) (h : Trader.Found o r found) :
    (found.map f).replaces? ctx = found.replaces? ctx := by
  cases h with
  | nothing => rfl
  | @ends _ order state _ _ => rw [map, replaces?, replaces?, (hf order).1]
  | @fills _ order market fill next _ _ _ blind =>
    rw [map, (hf order).1]
    generalize (f order).state = state
    have hsame : ∀ base quote hashes, next { order with
        state := state, executedBase := base, executedQuote := quote, appliedHashes := hashes } =
      next { order with
        executedBase := base, executedQuote := quote, appliedHashes := hashes } :=
      fun base quote hashes => blind { order with
        executedBase := base, executedQuote := quote, appliedHashes := hashes } state
    simp only [replaces?, Order.withFill?, Option.bind_eq_bind, Option.bind_assoc, Option.pure_def,
      Option.bind_some, hsame]
    rfl

end Finding

/-! ## The parts of a transaction -/

/-- A part finds the same of every order, whatever the states of the live orders are. -/
def Part.Blind (part : Part) : Prop :=
  ∀ f r r', Order.ChangesStateOnly f → r.Maps f r' → part r' = (part r).map (Finding.map f)

namespace Trader

variable {ctx : Trader} {o : Outcome} {time : Stamp}

theorem blind_createFinding : Part.Blind (ctx.createFinding? o time) := by
  intro f r r' hf hr
  unfold createFinding?
  dsimp only
  rw [hr.resolve? hf]
  cases r.resolve? o.transaction.sequence with
  | none => rfl
  | some order =>
    simp only [Option.map_some, hf.pair_eq]
    split
    · rfl
    split
    · rfl
    split
    · rfl
    · cases ctx.takenFrom? _ o.offerNodes <;> rfl

theorem blind_cancelFinding : Part.Blind fun r => some (cancelFinding o r) := by
  intro f r r' hf hr
  unfold cancelFinding
  cases o.transaction.offerSequence with
  | none => rfl
  | some sequence =>
    simp only [Option.bind_some, hr.resolve? hf]
    cases r.resolve? sequence with
    | none => rfl
    | some order =>
      simp only [Option.map_some]
      split <;> rfl

theorem blind_ownFinding : Part.Blind (ctx.ownFinding? o time) := by
  intro f r r' hf hr
  unfold ownFinding?
  split
  · split
    · exact blind_createFinding f r r' hf hr
    · split
      · exact blind_cancelFinding f r r' hf hr
      · rfl
  · rfl

theorem blind_nodeFinding (n : AffectedNode) : Part.Blind (ctx.nodeFinding? o time n) := by
  intro f r r' hf hr
  unfold nodeFinding?
  split
  · rfl
  split
  · rfl
  rename_i sequence _
  rw [hr.resolve? hf]
  cases r.resolve? sequence with
  | none => rfl
  | some order =>
    simp only [Option.map_some, hf.pair_eq]
    split
    · rfl
    · split <;> rfl
    · rename_i c _
      cases c.taken? with
      | none => rfl
      | some taken =>
        simp only [Option.bind_eq_bind, Option.bind_some]
        split
        · rfl
        split <;> rfl

theorem blind_parts : ∀ part ∈ ctx.parts o time, part.Blind := by
  intro part hpart
  rcases List.mem_cons.mp hpart with rfl | hpart
  · exact blind_ownFinding
  · split at hpart
    · obtain ⟨n, _, rfl⟩ := List.mem_map.mp hpart
      exact blind_nodeFinding n
    · cases hpart

end Trader

/-! ## Shadows -/

/-- Related steps from related states give related results. -/
theorem rel_foldlM {α σ τ : Type} {R : σ → τ → Prop} {step : σ → α → Option σ}
    {step' : τ → α → Option τ} {s : σ} {t : τ} (l : List α) (h : R s t)
    (hstep : ∀ a ∈ l, ∀ s t, R s t → Option.Rel R (step s a) (step' t a)) :
    Option.Rel R (l.foldlM step s) (l.foldlM step' t) := by
  induction l generalizing s t with
  | nil => exact .some h
  | cons a l ih =>
    rw [List.foldlM_cons, List.foldlM_cons]
    apply rel_bind (hstep a List.mem_cons_self s t h)
    intro s t h
    exact ih h fun b hb => hstep b (List.mem_cons_of_mem _ hb)

namespace OrderRegister

variable {r r' r₁ r₁' : OrderRegister} {a o : Order} {state : OrderState} {clientId : String}
  {w : Option Order}

/-- The second register has the orders of the first, but that one order of it may be in another
state. -/
def Shadows (o : Order) (state : OrderState) (r r' : OrderRegister) : Prop :=
  r.Maps id r' ∨ r.Maps (o.restate state) r'

namespace Shadows

theorem maps (h : Shadows o state r r') (hs : state.isTerminal = o.state.isTerminal) :
    ∃ f, Order.ChangesStateOnly f ∧ r.Maps f r' := by
  rcases h with h | h
  · exact ⟨id, Order.changesStateOnly_id, h⟩
  · exact ⟨o.restate state, Order.changesStateOnly_restate hs, h⟩

/-- The same entry of another order in both. -/
theorem sets (h : Shadows o state r r') (hs : Sets clientId w r r₁) (hs' : Sets clientId w r' r₁')
    (hw : ∀ a, w = some a → a.clientId ≠ o.clientId) : Shadows o state r₁ r₁' := by
  have hfix : w.map (o.restate state) = w := by
    cases w with
    | none => rfl
    | some a => rw [Option.map_some, Order.restate_of_clientId (hw a rfl)]
  rcases h with h | h
  · exact Or.inl (h.sets hs hs' Option.map_id_apply)
  · exact Or.inr (h.sets hs hs' hfix)

/-- The same order put in place in both makes them alike if it is the one they differ in. -/
theorem replaces (h : Shadows o state r r') (hr : Replaces w r r₁) (hr' : Replaces w r' r₁') :
    Shadows o state r₁ r₁' := by
  cases w with
  | none =>
    refine h.imp (fun h x => ?_) fun h x => ?_
    · rw [hr' x, hr x, h x]
    · rw [hr' x, hr x, h x]
  | some a =>
    by_cases ha : a.clientId = o.clientId
    · refine Or.inl fun x => ?_
      rw [hr x, hr' x]
      split
      · rfl
      rename_i hx
      rcases h with h | h
      · exact h x
      · rw [h x]
        cases hf : r.find? x with
        | none => rfl
        | some b =>
          rw [Option.map_some, Order.restate_of_clientId]
          · rfl
          · rw [clientId_of_find? hf, ← ha]
            exact hx
    · exact h.sets hr hr' fun b hb => by cases hb; exact ha

theorem next_part {ctx : Trader} {t : Outcome} {time : Stamp} {part : Part}
    (hs : state.isTerminal = o.state.isTerminal) (hpart : part.Blind)
    (hfound : ∀ r found, part r = some found → Trader.Found t r found)
    (h : Shadows o state r r') :
    Option.Rel (Shadows o state) (part.next? ctx time r) (part.next? ctx time r') := by
  obtain ⟨f, hf, hm⟩ := h.maps hs
  have hsame := hpart f r r' hf hm
  rw [Part.next?, Part.next?, hsame]
  cases hp : part r with
  | none => exact .none
  | some found =>
    have hfound₁ := hfound r found hp
    have hfound₂ := hfound r' (found.map f) (by rw [hsame, hp]; rfl)
    have hrel₁ := Finding.rel_enter ctx time hfound₁
    have hrel₂ := Finding.rel_enter ctx time hfound₂
    rw [Finding.replaces?_map hf hfound₁] at hrel₂
    simp only [Option.map_some, Option.bind_eq_bind, Option.bind_some, Option.pure_def]
    generalize found.replaces? ctx = w? at hrel₁ hrel₂
    generalize found.enter? ctx time r = x at hrel₁ ⊢
    generalize (found.map f).enter? ctx time r' = y at hrel₂ ⊢
    cases hrel₁ with
    | none =>
      cases hrel₂
      exact .none
    | some hrel₁ =>
      cases hrel₂ with
      | some hrel₂ => exact .some (h.replaces hrel₁ hrel₂)

/-- A transaction leaves two such registers so, or gives no result for both. -/
theorem process (ctx : Trader) (t : Outcome) (hs : state.isTerminal = o.state.isTerminal)
    (h : Shadows o state r r') :
    Option.Rel (Shadows o state) ((ctx.process? t r).map (·.1)) ((ctx.process? t r').map (·.1)) := by
  rw [Trader.process?_register, Trader.process?_register]
  split
  · exact .some h
  cases Stamp.ofClose? t.date with
  | none => exact .none
  | some time =>
    exact rel_foldlM _ h fun part hpart r r' h =>
      next_part hs (Trader.blind_parts part hpart) (Trader.found_parts part hpart) h

theorem elsewhere (h : Shadows o state r r') (hid : clientId ≠ o.clientId) :
    r'.find? clientId = r.find? clientId := by
  rcases h with h | h
  · rw [h clientId, Option.map_id_apply]
  · rw [h clientId]
    cases hf : r.find? clientId with
    | none => rfl
    | some a =>
      rw [Option.map_some, Order.restate_of_clientId]
      rw [clientId_of_find? hf]
      exact hid

theorem free_iff (h : Shadows o state r r') (hs : state.isTerminal = o.state.isTerminal)
    (sequence : UInt32) : (∀ a ∈ r'.carrying sequence, a.clientId = clientId) ↔
      ∀ a ∈ r.carrying sequence, a.clientId = clientId := by
  obtain ⟨f, hf, hm⟩ := h.maps hs
  constructor
  · intro hfree a ha
    rw [← hf.clientId_eq]
    exact hfree (f a) ((hm.mem_carrying hf).mpr ⟨a, ha, rfl⟩)
  · intro hfree b hb
    obtain ⟨a, ha, rfl⟩ := (hm.mem_carrying hf).mp hb
    rw [hf.clientId_eq]
    exact hfree a ha

/-- A call about other orders leaves two such registers so, or gives no result for both. -/
theorem next {call : RegisterCall} (hs : state.isTerminal = o.state.isTerminal)
    (hcall : call.clientId? ≠ some o.clientId) (h : Shadows o state r r') :
    Option.Rel (Shadows o state) (call.next? r) (call.next? r') := by
  cases call with
  | step ctx step =>
    cases step with
    | takeIn t => exact h.process ctx t hs
    | move x next =>
      have hx : x ≠ o.clientId := fun hx => hcall (congrArg some hx)
      have hmove := sets_move r' x next
      rw [h.elsewhere hx] at hmove
      refine .some (h.sets (sets_move r x next) hmove fun a ha => ?_)
      obtain ⟨b, hb, rfl⟩ := Option.map_eq_some_iff.mp ha
      rw [Order.clientId_movedTo, clientId_of_find? hb]
      exact hx
    | track a unassigned =>
      refine .some (h.sets (sets_track r a) (sets_track r' a) fun b hb => ?_)
      cases hb
      exact fun hx => hcall (congrArg some hx)
    | untrack x =>
      exact .some (h.sets (sets_untrack r x) (sets_untrack r' x) fun b hb => nomatch hb)
  | assign x id =>
    have hx : x ≠ o.clientId := fun hx => hcall (congrArg some hx)
    simp only [RegisterCall.next?]
    cases hr : r.assign x id with
    | ok r₁ =>
      obtain ⟨hfree, b, hb, rfl⟩ := assign_eq_ok_iff.mp hr
      rw [assign_eq_ok_iff.mpr
        ⟨(h.free_iff hs _).mpr hfree, b, (h.elsewhere hx).trans hb, rfl⟩]
      refine .some (h.sets (sets_track r _) (sets_track r' _) fun a ha => ?_)
      cases ha
      exact fun hid => hx ((clientId_of_find? hb).symm.trans hid)
    | error e =>
      cases hr' : r'.assign x id with
      | ok r₁ =>
        obtain ⟨hfree, b, hb, _⟩ := assign_eq_ok_iff.mp hr'
        rw [assign_eq_ok_iff.mpr
          ⟨(h.free_iff hs _).mp hfree, b, (h.elsewhere hx).symm.trans hb, rfl⟩] at hr
        cases hr
      | error e => exact .some h

end Shadows

/-! ## Two registers but for one state -/

/-- The second register has the orders of the first, but that one of them is in the given state. Only
a live order can be in another state, and only in that of a live one. -/
structure SameBut (o : Order) (state : OrderState) (r r' : OrderRegister) : Prop where
  here : r.find? o.clientId = some o
  there : r'.find? o.clientId = some { o with state := state }
  elsewhere : ∀ x, x ≠ o.clientId → r'.find? x = r.find? x
  alive : state = o.state ∨ o.isLive = true ∧ state.isTerminal = false

namespace SameBut

theorem refl (h : r.find? clientId = some o) : SameBut o o.state r r where
  here := (clientId_of_find? h).symm ▸ h
  there := show r.find? o.clientId = some o from (clientId_of_find? h).symm ▸ h
  elsewhere _ _ := rfl
  alive := Or.inl rfl

/-- Registers that differ in no state have the same orders. -/
theorem same (h : SameBut o o.state r r') (x : String) : r'.find? x = r.find? x := by
  by_cases hx : x = o.clientId
  · rw [hx, h.there, h.here]
  · exact h.elsewhere x hx

theorem isTerminal_eq (h : SameBut o state r r') : state.isTerminal = o.state.isTerminal := by
  rcases h.alive with rfl | ⟨hl, hs⟩
  · rfl
  · have hlive : o.state.isTerminal = false := by simpa [Order.isLive] using hl
    rw [hs, hlive]

theorem shadows (h : SameBut o state r r') : Shadows o state r r' := by
  refine Or.inr fun x => ?_
  by_cases hx : x = o.clientId
  · rw [hx, h.here, h.there, Option.map_some, Order.restate, if_pos rfl]
  · rw [h.elsewhere x hx]
    cases hf : r.find? x with
    | none => rfl
    | some a =>
      rw [Option.map_some, Order.restate_of_clientId]
      rw [clientId_of_find? hf]
      exact hx

/-- What has become of registers that differed in the state of an order: they differ so still and the
order is as it was, or they differ no more. -/
theorem of_shadows (h : SameBut o state r r') (h₁ : Shadows o state r₁ r₁')
    (hf : r₁.find? o.clientId = some a) : SameBut a a.state r₁ r₁' ∨ SameBut o state r₁ r₁' := by
  by_cases ha : a = o ∧ r₁.Maps (o.restate state) r₁'
  · obtain ⟨rfl, hm⟩ := ha
    refine Or.inr ⟨hf, ?_, fun x hx => h₁.elsewhere hx, h.alive⟩
    rw [hm, hf, Option.map_some, Order.restate, if_pos rfl]
  · have hid : a.clientId = o.clientId := clientId_of_find? hf
    refine Or.inl ⟨hid ▸ hf, ?_, fun x hx => h₁.elsewhere (hid ▸ hx), Or.inl rfl⟩
    show r₁'.find? a.clientId = some a
    rw [hid]
    rcases h₁ with h₁ | h₁
    · rw [h₁, hf]
      rfl
    · have hne : a ≠ o := fun heq => ha ⟨heq, h₁⟩
      rw [h₁, hf, Option.map_some, Order.restate, if_neg hne]

/-- A move of the order in the second register alone. -/
theorem move {next : OrderState} (h : SameBut o state r r') (hn : next.isTerminal = false) :
    SameBut o (if state.canMoveTo next then next else state) r (r'.move o.clientId next) := by
  have hmove := sets_move r' o.clientId next
  rw [h.there, Option.map_some] at hmove
  refine ⟨h.here, ?_, fun x hx => ?_, ?_⟩
  · rw [hmove, if_pos rfl, Order.movedTo]
    split <;> rfl
  · rw [hmove, if_neg hx]
    exact h.elsewhere x hx
  · split
    · rename_i hcan
      refine Or.inr ⟨?_, hn⟩
      cases hl : o.isLive with
      | true => rfl
      | false =>
        have hdead : o.state.isTerminal = true := by simpa [Order.isLive] using hl
        rw [OrderState.canMoveTo_of_terminal (h.isTerminal_eq.trans hdead)] at hcan
        cases hcan
    · exact h.alive

/-- Once the order is ended in both registers they differ no more. -/
theorem move_terminal {next : OrderState} (h : SameBut o state r r')
    (hn : next.isTerminal = true) : SameBut (o.movedTo next) (o.movedTo next).state
      (r.move o.clientId next) (r'.move o.clientId next) := by
  have hsame : { o with state := state }.movedTo next = o.movedTo next := by
    rcases h.alive with rfl | ⟨hl, hs⟩
    · rfl
    · rw [Order.movedTo_of_live hl (Or.inl hn),
        Order.movedTo_of_live (by simp [Order.isLive, hs]) (Or.inl hn)]
  have hmove := sets_move r o.clientId next
  have hmove' := sets_move r' o.clientId next
  rw [h.here, Option.map_some] at hmove
  rw [h.there, Option.map_some, hsame] at hmove'
  have hid := o.clientId_movedTo next
  refine ⟨?_, ?_, fun x hx => ?_, Or.inl rfl⟩
  · rw [hid, hmove, if_pos rfl]
  · show (r'.move o.clientId next).find? (o.movedTo next).clientId = some (o.movedTo next)
    rw [hid, hmove', if_pos rfl]
  · rw [hid] at hx
    rw [hmove, hmove', if_neg hx, if_neg hx]
    exact h.elsewhere x hx

end SameBut

end OrderRegister

end OfferDesk
