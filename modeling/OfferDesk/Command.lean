-- The commands of the program: what its arguments ask for, and how the ledger is asked for it.
import OfferDesk.Balances
import OfferDesk.Book.Fetch
import OfferDesk.Config
import OfferDesk.Rule.Survey

namespace OfferDesk

/-! ## Arguments -/

/-- The arguments of a run: the files named by flags, and the other words in their order. -/
structure Invocation where
  configPath : Option String := none
  exportPath : Option String := none
  words : List String := []
deriving DecidableEq, Inhabited

inductive Command where
  | book (pair : Option String)
  | rules
  | balances (account : Option String)
deriving DecidableEq, Inhabited

/-- Why a command comes to nothing. -/
inductive CommandTrouble where
  | missingValue (flag : String)
  /-- The words name no command. -/
  | usage
  | missingFile (path : String)
  | badFile (path : String)
  | failed (trouble : Trouble)
deriving DecidableEq, Inhabited

namespace CommandTrouble

def message : CommandTrouble → String
  | missingValue flag => flag ++ " requires a value"
  | usage => "Usage:"
  | missingFile path => "Error: Failed to open file " ++ path
  | badFile path => "Error: Failed to parse file " ++ path
  | failed t => "Error: " ++ t.message

end CommandTrouble

namespace Invocation

/-- Reads arguments. A flag takes the argument behind it, and the last one of a kind counts. -/
def ofArgs : List String → Except CommandTrouble Invocation
  | [] => .ok {}
  | "--config" :: [] => .error (.missingValue "--config")
  | "--export" :: [] => .error (.missingValue "--export")
  | "--config" :: path :: rest => do
    let i ← ofArgs rest
    return { i with configPath := i.configPath <|> some path }
  | "--export" :: path :: rest => do
    let i ← ofArgs rest
    return { i with exportPath := i.exportPath <|> some path }
  | word :: rest => do
    let i ← ofArgs rest
    return { i with words := word :: i.words }

def command (i : Invocation) : Except CommandTrouble Command :=
  match i.words with
  | "book" :: rest => .ok (.book rest.head?)
  | "rules" :: _ => .ok .rules
  | "balances" :: rest => .ok (.balances rest.head?)
  | _ => .error .usage

end Invocation

/-! ## Asking the ledger -/

inductive CommandTask where
  | book (fetch : BookFetch)
  /-- The books that are read, and the markets that come after the one that is being read. -/
  | books (fetch : BookFetch) (read : List OrderBook) (rest : List Market)
  | rules (survey : Survey)
  | balances (reading : BalanceReading)

namespace CommandTask

abbrev Result := Except CommandTrouble Json

def bookOf (market : Market) (snapshot : OfferSnapshot) : OrderBook :=
  { (market.snapshot snapshot.offers).1 with ledgerIndex := snapshot.ledgerIndex }

def awaitBook (market : Market) (p : Progress BookFetch BookFetch.Result) :
    Progress CommandTask Result :=
  p.andThen book fun r =>
    .done ((r.mapError fun e => .failed (.ledger e)).map fun s => (bookOf market s).toJson)

/-- The books that were read, with that of another market unless it cannot be read. -/
def addBook (read : List OrderBook) (market : Market) : BookFetch.Result → List OrderBook
  | .ok s => read ++ [bookOf market s]
  | .error _ => read

/-- Reads the books of some markets one after another. -/
def nextBook (limit : UInt32) (read : List OrderBook) : List Market → Progress CommandTask Result
  | [] => .done (.ok (.array ((read.mergeSort (·.pair ≤ ·.pair)).map (·.toJson))))
  | market :: rest =>
    (BookFetch.start market limit).andThen (books · read rest) fun r =>
      nextBook limit (addBook read market r) rest

def awaitRules (p : Progress Survey Survey.Result) : Progress CommandTask Result :=
  p.andThen rules fun infos =>
    let infos := Survey.sorted infos
    .done (.ok (.object [("trading_rules", .array (infos.map (·.tradingRule.toJson))),
      ("fee_rules", .array (infos.map (·.feeRule.toJson)))]))

def awaitBalances (p : Progress BalanceReading BalanceReading.Result) :
    Progress CommandTask Result :=
  p.andThen balances fun r => .done ((r.mapError .failed).map (·.toJson))

def resume (t : CommandTask) (reply : Reply) : Progress CommandTask Result :=
  match t with
  | book f => awaitBook f.market (f.resume reply)
  | books f read rest =>
    (f.resume reply).andThen (books · read rest) fun r =>
      nextBook f.limit (addBook read f.market r) rest
  | rules s => awaitRules (s.resume reply)
  | balances r => awaitBalances (r.resume reply)

end CommandTask

namespace Command

/-- The markets in service, if all of them are in order. -/
def marketsOf (c : Config) : Except CommandTrouble (List Market) :=
  (c.activePairs.mapM c.market).mapError fun e => .failed (.failure e)

/-- Begins a command. Balances are those of the account that is named, or else of the configured
one. -/
def start (c : Config) : Command → Progress CommandTask CommandTask.Result
  | book (some pair) =>
    match c.market pair with
    | .ok market => CommandTask.awaitBook market (BookFetch.start market c.offersLimit)
    | .error e => .done (.error (.failed (.failure e)))
  | book none =>
    match marketsOf c with
    | .ok markets => CommandTask.nextBook c.offersLimit [] markets
    | .error e => .done (.error e)
  | rules =>
    match marketsOf c with
    | .ok markets => CommandTask.awaitRules (Survey.start markets c.overrides)
    | .error e => .done (.error e)
  | balances named =>
    match named <|> c.account with
    | some account => CommandTask.awaitBalances (BalanceReading.start account c.reserve)
    | none => .done (.error .usage)

end Command

end OfferDesk
