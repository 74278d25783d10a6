-- What a transaction finds in the register, part by part. Its parts are its own offer or cancel
-- and the resting offers it changed; each of them comes to nothing, to the end of one live order
-- or to a fill of it. So a transaction can be taken in with a list of the fills it recorded.
import OfferDesk.Fills
import OfferDesk.Proofs.Register

namespace OfferDesk

/-! ## What a part comes to -/

/-- What a part of a transaction comes to: nothing, an order that ends in a state, or a fill of an
order with the state that follows from it. -/
inductive Finding where
  | nothing
  | ends (order : Order) (state : OrderState)
  | fills (order : Order) (market : Market) (fill : Fill) (next : Order → OrderState)

namespace Finding

/-- Writes what was found into the register. -/
def enter? (ctx : Trader) (time : Stamp) (r : OrderRegister) : Finding → Option Reported
  | nothing => some (r, [])
  | ends order state => some (r.report order.clientId state false time)
  | fills order market fill next => fill.count? ctx market r order next

/-- The fill that is recorded. There is none where the order has the transaction counted. -/
def recorded : Finding → List Fill
  | fills order _ fill _ => if order.hasApplied fill.hash then [] else [fill]
  | _ => []

/-- What was found is about a live order of the register, and brought by this transaction. -/
def Fits (o : Outcome) (r : OrderRegister) : Finding → Prop
  | nothing => True
  | ends order _ => r.find? order.clientId = some order ∧ order.isLive = true
  | fills order _ fill _ =>
    r.find? order.clientId = some order ∧ order.isLive = true ∧ fill.hash = o.hash

end Finding

/-- A part of a transaction. It is told what the register holds by then. -/
abbrev Part := OrderRegister → Option Finding

namespace Part

/-- Takes in one part after another, with the events and the fills that are recorded. -/
def trace? (ctx : Trader) (time : Stamp) (r : OrderRegister) :
    List Part → Option (Reported × List Fill)
  | [] => some ((r, []), [])
  | part :: parts => do
    let found ← part r
    let (r, events) ← found.enter? ctx time r
    let ((r, rest), fills) ← trace? ctx time r parts
    return ((r, events ++ rest), found.recorded ++ fills)

end Part

namespace Trader

variable (ctx : Trader) (o : Outcome) (time : Stamp)

/-! ## The parts of a transaction -/

/-- What the own offer of an order comes to. -/
def createFinding? (r : OrderRegister) : Option Finding :=
  let sequence := o.transaction.sequence
  match r.resolve? sequence with
  | none => some .nothing
  | some order =>
    if !o.isSuccess then some (.ends order .failed)
    else if o.nodes.isEmpty then some .nothing
    else
      match ctx.markets.find? order.pair with
      | none => some .nothing
      | some market => do
        let (base, quote) ← ctx.takenFrom? market o.offerNodes
        let resting := ctx.rests sequence o.offerNodes
        return .fills order market ⟨o.hash, sequence, base, quote, time⟩
          fun _ => takerState resting base.isPositive

/-- What the own cancel of an order comes to. -/
def cancelFinding (r : OrderRegister) : Finding :=
  match o.transaction.offerSequence.bind r.resolve? with
  | none => .nothing
  | some order => if o.isSuccess then .ends order .canceled else .nothing

/-- What the account's own transaction comes to. -/
def ownFinding? (r : OrderRegister) : Option Finding :=
  if o.transaction.account = ctx.account then
    if o.transaction.kind = "OfferCreate" then ctx.createFinding? o time r
    else if o.transaction.kind = "OfferCancel" then some (cancelFinding o r)
    else some .nothing
  else some .nothing

/-- What the change of a resting offer comes to. -/
def nodeFinding? (n : AffectedNode) (r : OrderRegister) : Option Finding :=
  if n.account? ≠ some ctx.account ∨ n.kind = .created then some .nothing
  else
    match n.sequence? with
    | none => some .nothing
    | some sequence =>
      match r.resolve? sequence with
      | none => some .nothing
      | some order =>
        match n.change with
        | .error _ => some .nothing
        | .ok none => some (if n.kind = .deleted then .ends order .canceled else .nothing)
        | .ok (some c) => do
          let taken ← c.taken?
          match ctx.markets.find? order.pair with
          | none => return .nothing
          | some market =>
            match market.baseQuote? taken with
            | none => return .nothing
            | some (base, quote) =>
              return .fills order market ⟨o.hash, sequence, base, quote, time⟩ fun after =>
                if n.kind = .deleted ∨ after.isFullyExecuted then .filled else .partiallyFilled

/-- The parts of a transaction, in the order in which they are taken in. -/
def parts : List Part :=
  ctx.ownFinding? o time ::
    if o.isSuccess then o.offerNodes.map (ctx.nodeFinding? o time) else []

/-- Takes in a transaction, with the fills that it records. -/
def trace? (r : OrderRegister) : Option (Reported × List Fill) :=
  if !o.validated then some ((r, []), [])
  else do
    let time ← Stamp.ofClose? o.date
    Part.trace? ctx time r (ctx.parts o time)

/-! ## The parts make up the transaction -/

theorem ownCreate?_eq (r : OrderRegister) : ctx.ownCreate? o time r =
    (ctx.createFinding? o time r).bind (·.enter? ctx time r) := by
  unfold ownCreate? createFinding?
  dsimp only
  cases r.resolve? o.transaction.sequence with
  | none => rfl
  | some order =>
    dsimp only
    split
    · rfl
    split
    · rfl
    cases ctx.markets.find? order.pair with
    | none => rfl
    | some market =>
      dsimp only
      cases ctx.takenFrom? market o.offerNodes <;> rfl

theorem ownCancel_eq (r : OrderRegister) :
    some (ownCancel o time r) = (cancelFinding o r).enter? ctx time r := by
  unfold ownCancel cancelFinding
  cases o.transaction.offerSequence.bind r.resolve? with
  | none => rfl
  | some order =>
    dsimp only
    split <;> rfl

theorem ownTransaction?_eq (r : OrderRegister) : ctx.ownTransaction? o time r =
    (ctx.ownFinding? o time r).bind (·.enter? ctx time r) := by
  unfold ownTransaction? ownFinding?
  split
  · split
    · exact ownCreate?_eq ctx o time r
    · split
      · exact ownCancel_eq ctx o time r
      · rfl
  · rfl

theorem makerNode?_eq (r : OrderRegister) (n : AffectedNode) : ctx.makerNode? o time r n =
    (ctx.nodeFinding? o time n r).bind (·.enter? ctx time r) := by
  unfold makerNode? nodeFinding?
  split
  · rfl
  cases n.sequence? with
  | none => rfl
  | some sequence =>
    dsimp only
    cases r.resolve? sequence with
    | none => rfl
    | some order =>
      dsimp only
      cases n.change with
      | error e => rfl
      | ok c =>
        cases c with
        | none =>
          dsimp only
          split <;> rfl
        | some c =>
          dsimp only
          cases c.taken? with
          | none => rfl
          | some taken =>
            cases ctx.markets.find? order.pair with
            | none => rfl
            | some market =>
              simp only [Option.bind_eq_bind, Option.bind_some]
              cases market.baseQuote? taken <;> rfl

theorem makerNodes?_eq (r : OrderRegister) (nodes : List AffectedNode) :
    ctx.makerNodes? o time r nodes =
      (Part.trace? ctx time r (nodes.map (ctx.nodeFinding? o time))).map (·.1) := by
  induction nodes generalizing r with
  | nil => rfl
  | cons n ns ih =>
    rw [makerNodes?, makerNode?_eq, List.map_cons, Part.trace?]
    cases ctx.nodeFinding? o time n r with
    | none => rfl
    | some found =>
      simp only [Option.bind_eq_bind, Option.bind_some]
      cases found.enter? ctx time r with
      | none => rfl
      | some first =>
        simp only [Option.bind_some, ih]
        cases Part.trace? ctx time first.1 (ns.map (ctx.nodeFinding? o time)) <;> rfl

theorem makerFills?_eq (r : OrderRegister) : ctx.makerFills? o time r =
    (Part.trace? ctx time r
      (if o.isSuccess then o.offerNodes.map (ctx.nodeFinding? o time) else [])).map (·.1) := by
  unfold makerFills?
  split
  · exact makerNodes?_eq ctx o time r o.offerNodes
  · rfl

/-- A transaction does just what its parts do. -/
theorem process?_eq_trace (r : OrderRegister) :
    ctx.process? o r = (ctx.trace? o r).map (·.1) := by
  unfold process? trace?
  split
  · rfl
  cases Stamp.ofClose? o.date with
  | none => rfl
  | some time =>
    simp only [Option.bind_eq_bind, Option.bind_some, parts, Part.trace?, ownTransaction?_eq]
    cases ctx.ownFinding? o time r with
    | none => rfl
    | some found =>
      simp only [Option.bind_some]
      cases found.enter? ctx time r with
      | none => rfl
      | some own =>
        simp only [Option.bind_some, makerFills?_eq]
        cases Part.trace? ctx time own.1
          (if o.isSuccess then o.offerNodes.map (ctx.nodeFinding? o time) else []) <;> rfl

/-! ## What is found is there -/

/-- What a part of a transaction can find: nothing, or the live order that a sequence leads to,
with an end of it or a fill. The state after a fill is one that the ledger brings an order to, and
does not depend on the state before. -/
inductive Found (o : Outcome) (r : OrderRegister) : Finding → Prop where
  | nothing : Found o r .nothing
  | ends {sequence : UInt32} {order : Order} {state : OrderState}
    (found : r.resolve? sequence = some order) (terminal : state.isTerminal = true) :
    Found o r (.ends order state)
  | fills {sequence : UInt32} {order : Order} {market : Market} {fill : Fill}
    {next : Order → OrderState} (found : r.resolve? sequence = some order)
    (hash : fill.hash = o.hash)
    (confirmed : ∀ after, (next after).isConfirmed = true ∧ next after ≠ .pendingCancel)
    (blind : ∀ after state, next { after with state := state } = next after) :
    Found o r (.fills order market fill next)

variable {ctx o time} {r : OrderRegister} {found : Finding}

theorem found_createFinding (h : ctx.createFinding? o time r = some found) : Found o r found := by
  unfold createFinding? at h
  dsimp only at h
  split at h
  · cases h
    exact .nothing
  rename_i order hs
  split at h
  · cases h
    exact .ends hs rfl
  split at h
  · cases h
    exact .nothing
  split at h
  · cases h
    exact .nothing
  · simp only [Option.bind_eq_bind, Option.bind_eq_some_iff, Option.pure_def, Option.some.injEq,
      Prod.exists] at h
    obtain ⟨base, quote, _, rfl⟩ := h
    refine .fills hs rfl (fun _ => ?_) fun _ _ => rfl
    cases ctx.rests o.transaction.sequence o.offerNodes <;> cases base.isPositive <;> decide

theorem found_cancelFinding : Found o r (cancelFinding o r) := by
  unfold cancelFinding
  split
  · exact .nothing
  · rename_i order hs
    obtain ⟨sequence, _, hs⟩ := Option.bind_eq_some_iff.mp hs
    split
    · exact .ends hs rfl
    · exact .nothing

theorem found_ownFinding (h : ctx.ownFinding? o time r = some found) : Found o r found := by
  unfold ownFinding? at h
  split at h
  · split at h
    · exact found_createFinding h
    · split at h
      · cases h
        exact found_cancelFinding
      · cases h
        exact .nothing
  · cases h
    exact .nothing

theorem found_nodeFinding {n : AffectedNode} (h : ctx.nodeFinding? o time n r = some found) :
    Found o r found := by
  unfold nodeFinding? at h
  split at h
  · cases h
    exact .nothing
  split at h
  · cases h
    exact .nothing
  split at h
  · cases h
    exact .nothing
  rename_i order hs
  split at h
  · cases h
    exact .nothing
  · cases h
    split
    · exact .ends hs rfl
    · exact .nothing
  · simp only [Option.bind_eq_bind, Option.bind_eq_some_iff] at h
    obtain ⟨taken, _, h⟩ := h
    split at h
    · cases h
      exact .nothing
    split at h
    · cases h
      exact .nothing
    · cases h
      refine .fills hs rfl (fun after => ?_) fun _ _ => rfl
      split <;> decide

theorem found_parts : ∀ part ∈ ctx.parts o time, ∀ r found, part r = some found →
    Found o r found := by
  intro part hpart r found h
  rcases List.mem_cons.mp hpart with rfl | hpart
  · exact found_ownFinding h
  · split at hpart
    · obtain ⟨n, _, rfl⟩ := List.mem_map.mp hpart
      exact found_nodeFinding h
    · cases hpart

theorem Found.fits (h : Found o r found) : found.Fits o r := by
  cases h with
  | nothing => trivial
  | ends hs _ => exact ⟨OrderRegister.find?_of_resolve? hs, OrderRegister.live_of_resolve? hs⟩
  | fills hs hash _ _ =>
    exact ⟨OrderRegister.find?_of_resolve? hs, OrderRegister.live_of_resolve? hs, hash⟩

/-- Whatever a part of a transaction finds is about a live order. -/
theorem fits_parts : ∀ part ∈ ctx.parts o time, ∀ r found, part r = some found →
    found.Fits o r :=
  fun part hpart r found h => (found_parts part hpart r found h).fits

end Trader

end OfferDesk
