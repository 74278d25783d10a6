-- Messages of the streams. Each brings a transaction, which patches the books; the account's own
-- stream also fills its orders, and has its balances read anew where they may have changed.
import OfferDesk.Desk.Refreshing

namespace OfferDesk

/-! ## Whom a transaction concerns -/

/-- Whether a trust line with these fields is one of an account. -/
def ObjectFields.hasLimitOf (f : ObjectFields) (account : String) : Bool :=
  f.highLimit.map (·.issuer) = some account || f.lowLimit.map (·.issuer) = some account

/-- Whether a changed object is one of an account. -/
def AffectedNode.concerns (n : AffectedNode) (account : String) : Bool :=
  n.account? = some account ||
    (n.entryType = .trustLine && (n.after.hasLimitOf account || n.before.hasLimitOf account))

/-- Whether a transaction is one of an account, or changed an object of it. -/
def Outcome.concerns (o : Outcome) (account : String) : Bool :=
  o.transaction.account = account || o.nodes.any (·.concerns account)

/-! ## The book stream -/

namespace DeskState

/-- Takes in a message of the book stream; one that cannot be read does nothing. There is no
result where an amount leaves the range of decimals. -/
def bookEvent? (s : DeskState) (event : Json) : Option DeskState :=
  match Outcome.ofStream event with
  | .ok o => s.patchBooks? o
  | .error _ => some s

/-- Takes in messages of the book stream one after another. -/
def bookEvents? (s : DeskState) (events : List Json) : Option DeskState :=
  events.foldlM bookEvent? s

/-- What a transaction of the account stream does at once. -/
def userOutcome? (s : DeskState) (d : Desk) (o : Outcome) : Option DeskState := do
  (← s.patchBooks? o).applyFills? d o

end DeskState

/-! ## The account stream -/

/-- Messages of the account stream: one of them waits for balances, and others come after it. -/
structure UserStream where
  update : BalanceUpdate
  rest : List Json
deriving Inhabited

namespace UserStream

/-- Takes in messages one after another, up to the first that has balances read. -/
def start (d : Desk) (s : DeskState) : List Json → Turn UserStream Unit
  | [] => (s, .done ())
  | event :: rest =>
    match Outcome.ofStream event with
    | .error _ => start d s rest
    | .ok o =>
      match s.userOutcome? d o with
      | none => (s, .halted)
      | some s =>
        if o.concerns d.account then
          Turn.andThen (BalanceUpdate.start d s) (⟨·, rest⟩) fun s _ => start d s rest
        else start d s rest

/-- Goes on with a reply, whether balances come of it or not. -/
def resume (d : Desk) (s : DeskState) (u : UserStream) (reply : Reply) : Turn UserStream Unit :=
  Turn.andThen (u.update.resume s reply) (⟨·, u.rest⟩) fun s _ => start d s u.rest

end UserStream

end OfferDesk
