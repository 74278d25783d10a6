-- Reading the rules and balances of the markets anew. What was read is put in place as a whole,
-- and only when all of it is there.
import OfferDesk.Desk.Basic
import OfferDesk.Rule.Survey

namespace OfferDesk

/-! ## Balances alone -/

structure BalanceUpdate where
  reading : BalanceReading
deriving Inhabited

namespace BalanceUpdate

abbrev Result := Except Trouble Balances

/-- Puts new balances under the rules as they are by then. -/
def conclude (s : DeskState) : BalanceReading.Result → Turn BalanceUpdate Result
  | .ok balances => ({ s with terms := s.terms.withBalances balances }, .done (.ok balances))
  | .error e => (s, .done (.error e))

def advance (s : DeskState) (p : Progress BalanceReading BalanceReading.Result) :
    Turn BalanceUpdate Result :=
  Turn.andThen (s, p) (⟨·⟩) conclude

def start (d : Desk) (s : DeskState) : Turn BalanceUpdate Result :=
  advance s (BalanceReading.start d.account d.config.reserve)

def resume (u : BalanceUpdate) (s : DeskState) (reply : Reply) : Turn BalanceUpdate Result :=
  advance s (u.reading.resume reply)

end BalanceUpdate

/-! ## Rules and balances -/

/-- What a refresh waits for: an issuer of the survey, or the balances after it. -/
inductive Refreshing where
  | surveying (survey : Survey)
  | reading (infos : List RuleInfo) (reading : BalanceReading)

namespace Refreshing

abbrev Result := Except Trouble TradingTerms

def conclude (infos : List RuleInfo) (s : DeskState) : BalanceReading.Result →
    Turn Refreshing Result
  | .ok balances =>
    let terms := TradingTerms.ofRules infos balances
    ({ s with terms := terms }, .done (.ok terms))
  | .error e => (s, .done (.error e))

def read (infos : List RuleInfo) (s : DeskState)
    (p : Progress BalanceReading BalanceReading.Result) : Turn Refreshing Result :=
  Turn.andThen (s, p) (.reading infos) (conclude infos)

/-- Waits for the survey, and reads the balances after it. -/
def survey (d : Desk) (s : DeskState) (p : Progress Survey Survey.Result) :
    Turn Refreshing Result :=
  Turn.andThen (s, p) .surveying fun s rules =>
    read (Survey.sorted rules) s (BalanceReading.start d.account d.config.reserve)

def start (d : Desk) (s : DeskState) : Turn Refreshing Result :=
  survey d s (Survey.start d.activeMarkets d.config.overrides)

def resume (d : Desk) (s : DeskState) (r : Refreshing) (reply : Reply) :
    Turn Refreshing Result :=
  match r with
  | surveying w => survey d s (w.resume reply)
  | reading infos w => read infos s (w.resume reply)

end Refreshing

end OfferDesk
