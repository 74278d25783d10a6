-- The laws of the register of orders: what is found in it, which order a sequence leads to, and
-- how the orders of a register may go on from one moment to a later one.
import Mathlib.Data.List.Nodup
import OfferDesk.Order.Register

namespace OfferDesk

/-! ## Two results side by side -/

section Rel

variable {σ τ σ' τ' : Type} {R : σ → τ → Prop} {Q : σ' → τ' → Prop} {x : Option σ} {y : Option τ}

theorem eq_none_of_rel (h : Option.Rel R none y) : y = none := by
  cases h
  rfl

theorem exists_of_some_rel {a : σ} (h : Option.Rel R (some a) y) : ∃ b, y = some b ∧ R a b := by
  cases h with
  | some h => exact ⟨_, rfl, h⟩

theorem exists_of_rel_some {b : τ} (h : Option.Rel R x (some b)) : ∃ a, x = some a ∧ R a b := by
  cases h with
  | some h => exact ⟨_, rfl, h⟩

theorem rel_imp {R' : σ → τ → Prop} (h : Option.Rel R x y)
    (himp : ∀ a b, x = some a → y = some b → R a b → R' a b) : Option.Rel R' x y := by
  cases h with
  | none => exact .none
  | some h => exact .some (himp _ _ rfl rfl h)

/-- What goes on from related results gives related results. -/
theorem rel_bind {f : σ → Option σ'} {g : τ → Option τ'} (h : Option.Rel R x y)
    (hrest : ∀ a b, R a b → Option.Rel Q (f a) (g b)) : Option.Rel Q (x.bind f) (y.bind g) := by
  cases h with
  | none => exact .none
  | some h => exact hrest _ _ h

end Rel

/-! ## How an order goes on -/

namespace OrderState

theorem canMoveTo_of_terminal {state next : OrderState} (h : state.isTerminal = true) :
    state.canMoveTo next = false := by
  unfold canMoveTo
  rw [if_pos h]

theorem canMoveTo_pendingCreate (state : OrderState) :
    state.canMoveTo .pendingCreate = false := by
  cases state <;> rfl

/-- A state of an order that the ledger has taken in. -/
def isConfirmed : OrderState → Bool
  | pendingCreate | failed => false
  | _ => true

/-- An order that can still change may be ended at any time. -/
theorem canMoveTo_terminal {state next : OrderState} (h : state.isTerminal = false)
    (hn : next.isTerminal = true) : state.canMoveTo next = true := by
  revert h hn
  cases state <;> cases next <;> decide

/-- An order that can still change may be confirmed by any state but that of a cancel on its
way. -/
theorem canMoveTo_confirmed {state next : OrderState} (h : state.isTerminal = false)
    (hn : next.isConfirmed = true) (hc : next ≠ .pendingCancel) : state.canMoveTo next = true := by
  revert h hn hc
  cases state <;> cases next <;> decide

end OrderState

namespace Order

/-- The order without what the ledger has told about it. -/
def asPlaced (o : Order) : Order :=
  { o with
    state := .pendingCreate
    executedBase := .zero
    executedQuote := .zero
    appliedHashes := [] }

/-- The second order may be what has become of the first. What the client asked for and the
exchange id stay, an order that has ended stays as it is, none goes back to its first state, and
a counted transaction stays counted. -/
structure Advances (o o' : Order) : Prop where
  placed : o'.asPlaced = o.asPlaced
  ended : o.isLive = false → o' = o
  begun : o'.state = .pendingCreate → o.state = .pendingCreate
  counted : ∀ hash, o.hasApplied hash = true → o'.hasApplied hash = true

namespace Advances

variable {o o' o'' : Order}

theorem refl (o : Order) : o.Advances o := ⟨rfl, fun _ => rfl, id, fun _ => id⟩

theorem trans (h : o.Advances o') (h' : o'.Advances o'') : o.Advances o'' where
  placed := h'.placed.trans h.placed
  ended hl := by
    have he := h.ended hl
    rw [h'.ended (by rw [he]; exact hl), he]
  begun hs := h.begun (h'.begun hs)
  counted hash hc := h'.counted hash (h.counted hash hc)

theorem clientId_eq (h : o.Advances o') : o'.clientId = o.clientId :=
  show o'.asPlaced.clientId = o.asPlaced.clientId by rw [h.placed]

theorem exchangeId_eq (h : o.Advances o') : o'.exchangeId = o.exchangeId :=
  show o'.asPlaced.exchangeId = o.asPlaced.exchangeId by rw [h.placed]

theorem pair_eq (h : o.Advances o') : o'.pair = o.pair :=
  show o'.asPlaced.pair = o.asPlaced.pair by rw [h.placed]

theorem sequence?_eq (h : o.Advances o') : o'.sequence? = o.sequence? := by
  unfold sequence?
  rw [h.exchangeId_eq]

/-- What is live now was live before. -/
theorem live_of_live (h : o.Advances o') (hl : o'.isLive = true) : o.isLive = true := by
  by_contra hn
  rw [h.ended (by simpa using hn)] at hl
  exact hn hl

end Advances

/-- A move that is allowed is a way to go on. -/
theorem advances_moved {o : Order} {state : OrderState} (h : o.state.canMoveTo state = true) :
    o.Advances { o with state := state } where
  placed := rfl
  ended hl := by
    have ht : o.state.isTerminal = true := by simpa [isLive] using hl
    rw [OrderState.canMoveTo_of_terminal ht] at h
    cases h
  begun hs := by
    dsimp only at hs
    subst hs
    rw [OrderState.canMoveTo_pendingCreate] at h
    cases h
  counted _ := id

theorem withFill?_eq_some_iff {o o' : Order} {hash : String} {base quote : Decimal} :
    o.withFill? hash base quote = some o' ↔
      ∃ b q, o.executedBase.add? base = some b ∧ o.executedQuote.add? quote = some q ∧
        o' = { o with
          executedBase := b
          executedQuote := q
          appliedHashes := o.appliedHashes ++ [hash] } := by
  simp only [withFill?, Option.bind_eq_bind, Option.bind_eq_some_iff, Option.pure_def,
    Option.some.injEq]
  constructor
  · rintro ⟨b, hb, q, hq, rfl⟩
    exact ⟨b, q, hb, hq, rfl⟩
  · rintro ⟨b, q, hb, hq, rfl⟩
    exact ⟨b, hb, q, hq, rfl⟩

/-- A fill that is counted is a way to go on for a live order. -/
theorem advances_withFill? {o o' : Order} {hash : String} {base quote : Decimal}
    (hl : o.isLive = true) (h : o.withFill? hash base quote = some o') : o.Advances o' := by
  obtain ⟨b, q, _, _, rfl⟩ := withFill?_eq_some_iff.mp h
  refine ⟨rfl, fun hn => ?_, id, fun x hx => ?_⟩
  · rw [hl] at hn
    cases hn
  · simp only [hasApplied, List.contains_eq_mem, decide_eq_true_eq] at hx ⊢
    exact List.mem_append_left _ hx

theorem hasApplied_withFill? {o o' : Order} {hash : String} {base quote : Decimal}
    (h : o.withFill? hash base quote = some o') : o'.hasApplied hash = true := by
  obtain ⟨b, q, _, _, rfl⟩ := withFill?_eq_some_iff.mp h
  simp [hasApplied]

theorem clientId_withFill? {o o' : Order} {hash : String} {base quote : Decimal}
    (h : o.withFill? hash base quote = some o') : o'.clientId = o.clientId := by
  obtain ⟨b, q, _, _, rfl⟩ := withFill?_eq_some_iff.mp h
  rfl

end Order

namespace OrderRegister

variable {r r' r'' : OrderRegister} {o o' : Order} {clientId : String} {sequence : UInt32}

/-! ## What is found -/

theorem find?_eq_some_iff : r.find? clientId = some o ↔ (clientId, o) ∈ r.orders.entries :=
  Table.find?_eq_some_iff r.orders

theorem clientId_of_find? (h : r.find? clientId = some o) : o.clientId = clientId :=
  r.keyed _ (find?_eq_some_iff.mp h)

theorem find?_track (r : OrderRegister) (o : Order) (clientId : String) :
    (r.track o).find? clientId = if clientId = o.clientId then some o else r.find? clientId :=
  Table.find?_put r.orders o.clientId clientId o

@[simp] theorem find?_track_self (r : OrderRegister) (o : Order) :
    (r.track o).find? o.clientId = some o := by
  rw [find?_track, if_pos rfl]

theorem find?_untrack (r : OrderRegister) (clientId x : String) :
    (r.untrack clientId).find? x = if x = clientId then none else r.find? x :=
  Table.find?_erase r.orders clientId x

theorem mem_values : o ∈ r.orders.values ↔ r.find? o.clientId = some o := by
  rw [find?_eq_some_iff, Table.values, List.mem_map]
  constructor
  · rintro ⟨e, he, rfl⟩
    rw [r.keyed e he]
    exact he
  · intro h
    exact ⟨_, h, rfl⟩

/-! ## The order that a sequence leads to -/

theorem mem_carrying : o ∈ r.carrying sequence ↔
    r.find? o.clientId = some o ∧ o.isLive = true ∧ o.sequence? = some sequence := by
  simp only [carrying, liveOrders, List.mem_filter, mem_values, beq_iff_eq, and_assoc]

theorem nodup_carrying (r : OrderRegister) (sequence : UInt32) :
    (r.carrying sequence).Nodup := by
  refine List.Nodup.filter _ (List.Nodup.filter _ (List.Nodup.of_map Order.clientId ?_))
  have hkeys : r.orders.values.map Order.clientId = r.orders.keys := by
    rw [Table.values, Table.keys, List.map_map]
    exact List.map_congr_left r.keyed
  rw [hkeys]
  exact r.orders.keys_nodup

/-- No two live orders carry the same sequence. -/
def OneLivePerSequence (r : OrderRegister) : Prop :=
  ∀ sequence, ∀ a ∈ r.carrying sequence, ∀ b ∈ r.carrying sequence, a = b

theorem oneLivePerSequence_of_one (o : Order) : (empty.track o).OneLivePerSequence := by
  intro sequence a ha b hb
  have hone : ∀ x ∈ (empty.track o).carrying sequence, x = o := by
    intro x hx
    have hf := (mem_carrying.mp hx).1
    rw [find?_track] at hf
    split at hf
    · exact (Option.some.inj hf).symm
    · cases hf
  rw [hone a ha, hone b hb]

theorem mem_carrying_of_resolve? (h : r.resolve? sequence = some o) : o ∈ r.carrying sequence := by
  unfold resolve? at h
  split at h
  · rename_i hx
    cases h
    rw [hx]
    exact List.mem_singleton_self o
  · cases h

/-- A sequence leads to an order where this is the only live one that carries it. -/
theorem resolve?_eq_some_iff_only :
    r.resolve? sequence = some o ↔ ∀ a, a ∈ r.carrying sequence ↔ a = o := by
  constructor
  · intro h a
    unfold resolve? at h
    split at h
    · rename_i hx
      cases h
      rw [hx, List.mem_singleton]
    · cases h
  · intro h
    have hone : r.carrying sequence = [o] :=
      List.perm_singleton.mp ((List.perm_ext_iff_of_nodup (r.nodup_carrying sequence)
        (List.nodup_singleton o)).mpr fun a => by rw [List.mem_singleton, h])
    unfold resolve?
    rw [hone]

theorem resolve?_eq_some_iff (hr : r.OneLivePerSequence) :
    r.resolve? sequence = some o ↔ o ∈ r.carrying sequence := by
  refine ⟨mem_carrying_of_resolve?, fun h => resolve?_eq_some_iff_only.mpr fun a => ?_⟩
  constructor
  · intro ha
    exact hr sequence a ha o h
  · rintro rfl
    exact h

theorem find?_of_resolve? (h : r.resolve? sequence = some o) : r.find? o.clientId = some o :=
  (mem_carrying.mp (mem_carrying_of_resolve? h)).1

theorem live_of_resolve? (h : r.resolve? sequence = some o) : o.isLive = true :=
  (mem_carrying.mp (mem_carrying_of_resolve? h)).2.1

/-! ## Moving an order -/

theorem move?_eq_some_iff {state : OrderState} : r.move? clientId state = some (r', o') ↔
    ∃ o, r.find? clientId = some o ∧ o.state ≠ state ∧ o.state.canMoveTo state = true ∧
      o' = { o with state := state } ∧ r' = r.track o' := by
  simp only [move?, Option.bind_eq_bind, Option.bind_eq_some_iff]
  constructor
  · rintro ⟨o, ho, h⟩
    split at h
    · rename_i hm
      cases h
      exact ⟨o, ho, hm.1, hm.2, rfl, rfl⟩
    · cases h
  · rintro ⟨o, ho, hne, hm, rfl, rfl⟩
    exact ⟨o, ho, by rw [if_pos ⟨hne, hm⟩]; rfl⟩

/-- A live order that is ended has ended so. -/
theorem find?_move_terminal {state : OrderState} (h : r.find? clientId = some o)
    (hl : o.isLive = true) (ht : state.isTerminal = true) :
    (r.move clientId state).find? clientId = some { o with state := state } := by
  have hlive : o.state.isTerminal = false := by simpa [Order.isLive] using hl
  have hne : o.state ≠ state := by
    rintro rfl
    rw [ht] at hlive
    cases hlive
  have hm : r.move? clientId state =
      some (r.track { o with state := state }, { o with state := state }) :=
    move?_eq_some_iff.mpr
      ⟨o, h, hne, OrderState.canMoveTo_terminal hlive ht, rfl, rfl⟩
  unfold move
  rw [hm, find?_track, if_pos (clientId_of_find? h).symm]

/-- An order that is to be ended is not live afterwards, whether it was before or not. -/
theorem not_live_of_move_terminal (state : OrderState) (h : r.find? clientId = some o)
    (ht : state.isTerminal = true) :
    ∃ o', (r.move clientId state).find? clientId = some o' ∧ o'.isLive = false := by
  by_cases hl : o.isLive = true
  · exact ⟨_, find?_move_terminal h hl ht, by simp [Order.isLive, ht]⟩
  · have hdead : o.state.isTerminal = true := by simpa [Order.isLive] using hl
    have hm : r.move? clientId state = none := by
      simp only [move?, h, Option.bind_eq_bind, Option.bind_some,
        OrderState.canMoveTo_of_terminal hdead]
      simp
    refine ⟨o, ?_, by simpa using hl⟩
    rw [move, hm]
    exact h

/-- An order carries a sequence, and is in a state in which the ledger has taken it in. -/
def Confirmed (r : OrderRegister) (clientId : String) (sequence : UInt32) : Prop :=
  ∃ o, r.find? clientId = some o ∧ o.sequence? = some sequence ∧ o.state.isConfirmed = true

theorem confirmed_track {x : String} (h : r.Confirmed x sequence)
    (ho : x = o.clientId → o.sequence? = some sequence ∧ o.state.isConfirmed = true) :
    (r.track o).Confirmed x sequence := by
  by_cases hx : x = o.clientId
  · exact ⟨o, by rw [find?_track, if_pos hx], ho hx⟩
  · obtain ⟨a, hf, ha⟩ := h
    exact ⟨a, by rw [find?_track, if_neg hx, hf], ha⟩

theorem confirmed_move {x : String} {state : OrderState} (h : r.Confirmed x sequence)
    (hs : x = clientId → state.isConfirmed = true) : (r.move clientId state).Confirmed x sequence := by
  unfold move
  split
  · rename_i r' o' hm
    obtain ⟨o, hf, _, _, rfl, rfl⟩ := move?_eq_some_iff.mp hm
    refine confirmed_track h fun hx => ?_
    obtain ⟨a, hf', hseq, _⟩ := h
    have hid : x = clientId := by rw [hx, ← clientId_of_find? hf]
    rw [hid, hf] at hf'
    cases hf'
    exact ⟨hseq, hs hid⟩
  · exact h

/-- A live order that is moved to a confirmed state is confirmed, whether it moves or is in that
state already. -/
theorem confirmed_of_move {state : OrderState} (h : r.find? clientId = some o)
    (hl : o.isLive = true) (hseq : o.sequence? = some sequence) (hs : state.isConfirmed = true)
    (hc : state ≠ .pendingCancel) : (r.move clientId state).Confirmed clientId sequence := by
  by_cases hsame : o.state = state
  · exact confirmed_move ⟨o, h, hseq, by rw [hsame]; exact hs⟩ fun _ => hs
  · have hlive : o.state.isTerminal = false := by simpa [Order.isLive] using hl
    have hm : r.move? clientId state =
        some (r.track { o with state := state }, { o with state := state }) :=
      move?_eq_some_iff.mpr
        ⟨o, h, hsame, OrderState.canMoveTo_confirmed hlive hs hc, rfl, rfl⟩
    refine ⟨{ o with state := state }, ?_, hseq, hs⟩
    rw [move, hm, find?_track, if_pos (clientId_of_find? h).symm]

/-! ## How a register goes on -/

/-- The second register may be what has become of the first: the orders of the one are those of
the other, each of them gone on. -/
def Advances (r r' : OrderRegister) : Prop :=
  ∀ clientId, Option.Rel Order.Advances (r.find? clientId) (r'.find? clientId)

/-- Each live order of the second register that has an exchange id is one of the first that has
gone on. Orders may come in without an exchange id, and orders may go. -/
def Descends (r r' : OrderRegister) : Prop :=
  ∀ clientId o', r'.find? clientId = some o' → o'.isLive = true → o'.exchangeId.isSome = true →
    ∃ o, r.find? clientId = some o ∧ o.Advances o'

namespace Advances

theorem refl (r : OrderRegister) : r.Advances r := by
  intro clientId
  cases r.find? clientId with
  | none => exact .none
  | some o => exact .some (.refl o)

theorem trans (h : r.Advances r') (h' : r'.Advances r'') : r.Advances r'' := by
  intro clientId
  have h1 := h clientId
  have h2 := h' clientId
  generalize r.find? clientId = a at h1 ⊢
  generalize r'.find? clientId = b at h1 h2
  generalize r''.find? clientId = c at h2 ⊢
  cases h1 with
  | none => cases h2; exact .none
  | some h1 =>
    cases h2 with
    | some h2 => exact .some (h1.trans h2)

theorem forward (h : r.Advances r') (ho : r.find? clientId = some o) :
    ∃ o', r'.find? clientId = some o' ∧ o.Advances o' := by
  have hc := h clientId
  rw [ho] at hc
  exact exists_of_some_rel hc

theorem backward (h : r.Advances r') (ho : r'.find? clientId = some o') :
    ∃ o, r.find? clientId = some o ∧ o.Advances o' := by
  have hc := h clientId
  rw [ho] at hc
  exact exists_of_rel_some hc

theorem descends (h : r.Advances r') : r.Descends r' := fun _ _ ho _ _ => h.backward ho

end Advances

theorem advances_track (ho : r.find? o'.clientId = some o) (ha : o.Advances o') :
    r.Advances (r.track o') := by
  intro clientId
  rw [find?_track]
  by_cases hc : clientId = o'.clientId
  · rw [if_pos hc, hc, ho]
    exact .some ha
  · rw [if_neg hc]
    exact Advances.refl r clientId

theorem advances_move (r : OrderRegister) (clientId : String) (state : OrderState) :
    r.Advances (r.move clientId state) := by
  unfold move
  split
  · rename_i r' o' h
    obtain ⟨o, ho, _, hm, rfl, rfl⟩ := move?_eq_some_iff.mp h
    exact advances_track (by rw [clientId_of_find? ho]; exact ho) (Order.advances_moved hm)
  · exact Advances.refl r

namespace Descends

theorem refl (r : OrderRegister) : r.Descends r := (Advances.refl r).descends

theorem trans (h : r.Descends r') (h' : r'.Descends r'') : r.Descends r'' := by
  intro clientId o'' ho'' hl hid
  obtain ⟨o', ho', ha'⟩ := h' clientId o'' ho'' hl hid
  obtain ⟨o, ho, ha⟩ := h clientId o' ho' (ha'.live_of_live hl) (ha'.exchangeId_eq ▸ hid)
  exact ⟨o, ho, ha.trans ha'⟩

theorem mem_carrying (h : r.Descends r') (ho : o' ∈ r'.carrying sequence) :
    ∃ o ∈ r.carrying sequence, o.Advances o' := by
  obtain ⟨hf, hl, hs⟩ := OrderRegister.mem_carrying.mp ho
  have hid : o'.exchangeId.isSome = true := by
    cases he : o'.exchangeId with
    | none => simp [Order.sequence?, he] at hs
    | some id => rfl
  obtain ⟨o, hfo, ha⟩ := h _ o' hf hl hid
  refine ⟨o, OrderRegister.mem_carrying.mpr ⟨?_, ha.live_of_live hl, ?_⟩, ha⟩
  · rw [← ha.clientId_eq]
    exact hfo
  · rw [← ha.sequence?_eq]
    exact hs

theorem oneLivePerSequence (h : r.Descends r') (hr : r.OneLivePerSequence) :
    r'.OneLivePerSequence := by
  intro sequence a' ha' b' hb'
  obtain ⟨a, ha, haa⟩ := h.mem_carrying ha'
  obtain ⟨b, hb, hbb⟩ := h.mem_carrying hb'
  have hab := hr sequence a ha b hb
  have hid : a'.clientId = b'.clientId := by rw [haa.clientId_eq, hbb.clientId_eq, hab]
  have hfa := (OrderRegister.mem_carrying.mp ha').1
  rw [hid, (OrderRegister.mem_carrying.mp hb').1] at hfa
  cases hfa
  rfl

/-- What a sequence leads to later, it led to before. -/
theorem resolve? (h : r.Descends r') (hr : r.OneLivePerSequence)
    (ho : r'.resolve? sequence = some o') :
    ∃ o, r.resolve? sequence = some o ∧ o.Advances o' := by
  obtain ⟨o, hm, ha⟩ := h.mem_carrying (mem_carrying_of_resolve? ho)
  exact ⟨o, (resolve?_eq_some_iff hr).mpr hm, ha⟩

end Descends

theorem descends_track (r : OrderRegister) {o : Order} (hid : o.exchangeId = none) :
    r.Descends (r.track o) := by
  intro clientId o' ho' hl hs
  rw [find?_track] at ho'
  split at ho'
  · cases ho'
    rw [hid] at hs
    cases hs
  · exact ⟨o', ho', .refl o'⟩

theorem descends_untrack (r : OrderRegister) (clientId : String) :
    r.Descends (r.untrack clientId) := by
  intro x o' ho' _ _
  rw [find?_untrack] at ho'
  split at ho'
  · cases ho'
  · exact ⟨o', ho', .refl o'⟩

end OrderRegister

end OfferDesk
