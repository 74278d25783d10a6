-- All that a desk can be asked to do which takes requests to the ledger, as tasks that can be held
-- back at each request, go on with its reply, or be dropped.
import OfferDesk.Desk.Cancelling
import OfferDesk.Desk.Streaming

namespace OfferDesk

inductive Job where
  | view (pair : String)
  | place (order : PlaceOrder)
  | cancel (clientId : String) (order : Order)
  | readBalances
  | surveyRules
  | refresh
  | takeIn (events : List Json)
deriving Inhabited

inductive Task where
  | viewing (w : BookView)
  | placing (w : Placing)
  | cancelling (w : Cancelling)
  | readingBalances (w : BalanceUpdate)
  | surveying (w : Survey)
  | refreshing (w : Refreshing)
  | takingIn (w : UserStream)

inductive JobResult where
  | book (r : Except Trouble OrderBook)
  | placed (r : Placing.Result)
  | canceled (done : Bool)
  | balances (r : BalanceUpdate.Result)
  | rules (r : Survey.Result)
  | terms (r : Refreshing.Result)
  | takenIn

namespace Task

/-- A turn of one kind of work as a turn of a task. -/
def lift {σ α : Type} (t : Turn σ α) (embed : σ → Task) (result : α → JobResult) :
    Turn Task JobResult :=
  t.andThen embed fun s a => (s, .done (result a))

/-- The result of a look at a book, for those who asked by pair. -/
def bookResult (r : BookView.Result) : JobResult := .book (r.mapError .ledger)

def resume (d : Desk) (s : DeskState) (t : Task) (reply : Reply) : Turn Task JobResult :=
  match t with
  | viewing w => lift (w.resume d s reply) .viewing bookResult
  | placing w => lift (w.resume d s reply) .placing .placed
  | cancelling w => lift (w.resume d s reply) .cancelling .canceled
  | readingBalances w => lift (w.resume s reply) .readingBalances .balances
  | surveying w => lift (s, w.resume reply) .surveying .rules
  | refreshing w => lift (w.resume d s reply) .refreshing .terms
  | takingIn w => lift (w.resume d s reply) .takingIn fun _ => .takenIn

/-- The desk when nobody waits for a task any more. Only a cancel leaves something to undo. -/
def drop (s : DeskState) : Task → DeskState
  | cancelling w => w.drop s
  | _ => s

end Task

def Job.start (d : Desk) (s : DeskState) : Job → Turn Task JobResult
  | view pair =>
    match d.market pair with
    | .ok market => Task.lift (BookView.start d s market) .viewing Task.bookResult
    | .error e => (s, .done (.book (.error (.failure e))))
  | place order => Task.lift (Placing.start d s order) .placing .placed
  | cancel clientId order => Task.lift (Cancelling.start d s clientId order) .cancelling .canceled
  | readBalances => Task.lift (BalanceUpdate.start d s) .readingBalances .balances
  | surveyRules => Task.lift (s, Survey.start d.activeMarkets d.config.overrides) .surveying .rules
  | refresh => Task.lift (Refreshing.start d s) .refreshing .terms
  | takeIn events => Task.lift (UserStream.start d s events) .takingIn fun _ => .takenIn

end OfferDesk
