-- Amounts on the wire and in units of their currency. On the wire an amount of the native
-- currency is a whole number of drops, a millionth of a unit each.
import OfferDesk.Currency
import OfferDesk.Json.Record
import OfferDesk.Text.Blank

namespace OfferDesk

/-! ## What can be wrong with an amount -/

inductive AmountIssue where
  | notWholeDrops
  | blank
  | unreadable
  | ratioOutOfRange
  | productOutOfRange
  | longSymbol (symbol : String)
deriving DecidableEq, Inhabited

/-- The reason in words, where there is more to say than that the text is no number in range. -/
def AmountIssue.reason? : AmountIssue → Option String
  | notWholeDrops => some "drops must be an integer string"
  | blank => some "empty value"
  | unreadable => none
  | ratioOutOfRange => some "ratio out of range"
  | productOutOfRange => some "product out of range"
  | longSymbol symbol => some ("currency symbol '" ++ symbol ++ "' longer than 20 bytes")

/-- A text that is no amount, or a calculation whose result is none. -/
structure AmountError where
  value : String
  issue : AmountIssue
deriving DecidableEq, Inhabited

def AmountError.message (e : AmountError) : String :=
  let subject := "malformed amount '" ++ e.value ++ "'"
  match e.issue.reason? with
  | some reason => subject ++ ": " ++ reason
  | none => subject

/-- The issued currency with the code that carries a symbol. -/
def Currency.issuedAs (symbol issuer : String) : Except AmountError Currency :=
  match Currency.codeOf? symbol with
  | some code => .ok (.issued code issuer)
  | none => .error ⟨symbol, .longSymbol symbol⟩

/-! ## Arithmetic that names its failures -/

namespace Decimal

/-- The quotient, or the error that names it. -/
def ratio (a b : Decimal) : Except AmountError Decimal :=
  match a.div? b with
  | some q => .ok q
  | none => .error ⟨a.text ++ "/" ++ b.text, .ratioOutOfRange⟩

/-- The product, or the error that names it. -/
def product (a b : Decimal) : Except AmountError Decimal :=
  match a.mul? b with
  | some p => .ok p
  | none => .error ⟨a.text ++ "*" ++ b.text, .productOutOfRange⟩

/-- The value of an issued amount: plain or scientific notation, with blanks around it. -/
def ofIssuedText (value : String) : Except AmountError Decimal :=
  let cs := Text.trim value.toList
  if cs.isEmpty then .error ⟨value, .blank⟩
  else
    match if cs.any isExponentMark then readScientific? cs else read? cs with
    | some a => .ok a
    | none => .error ⟨value, .unreadable⟩

/-- Drops in one unit of the native currency. -/
def dropsPerUnit : Decimal := .ofWord 1000000

/-- So many millionths. -/
def millionths (a : Decimal) : Decimal := reduce ⟨a.mantissa, 6, a.mantissa_le, by decide⟩

/-- The value of a text of drops, in units: a whole number, with blanks around it. -/
def ofDropsText (drops : String) : Except AmountError Decimal :=
  let cs := Text.trim drops.toList
  if cs.isEmpty || !(cs.dropWhile (· == '-')).all Text.isDigit then
    .error ⟨drops, .notWholeDrops⟩
  else
    match read? cs with
    | some minor => .ok minor.millionths
    | none => .error ⟨drops, .unreadable⟩

end Decimal

/-! ## Amounts -/

structure IssuedAmount where
  currency : String
  issuer : String
  value : String
deriving DecidableEq, Inhabited

/-- An amount on the wire: drops of the native currency, or an issued amount. -/
inductive WireAmount where
  | drops (text : String)
  | issued (amount : IssuedAmount)
deriving DecidableEq, Inhabited

structure Amount where
  currency : Currency
  value : Decimal
deriving DecidableEq, Inhabited

namespace WireAmount

def currency : WireAmount → Currency
  | drops _ => .native
  | issued a => .issued a.currency a.issuer

def amount (w : WireAmount) : Except AmountError Amount := do
  let value ← match w with
    | drops text => Decimal.ofDropsText text
    | issued a => Decimal.ofIssuedText a.value
  return ⟨w.currency, value⟩

/-- The digits that the ledger keeps of an issued value. -/
def issuedDigits : Nat := 15

/-- A value on the wire. A native value is rounded to whole drops, an issued one to the digits
that the ledger keeps. Rounding to so many digits never leaves the range. -/
def ofValue (currency : Currency) (value : Decimal) : Except AmountError WireAmount :=
  match currency with
  | .native => do
    let minor ← value.product Decimal.dropsPerUnit
    return .drops (minor.roundEven 0).plainText
  | .issued code issuer =>
    .ok (.issued ⟨code, issuer, ((value.roundSignificant? issuedDigits).getD value).plainText⟩)

end WireAmount

/-! ## Records -/

namespace IssuedAmount

def ofJson? (j : Json) : Option IssuedAmount := do
  let fields ← j.fieldsOf? ["currency", "issuer", "value"]
  return {
    currency := ← fields.required "currency" Json.string?
    issuer := ← fields.required "issuer" Json.string?
    value := ← fields.required "value" Json.string? }

def toJson (a : IssuedAmount) : Json :=
  .object [("currency", .string a.currency), ("issuer", .string a.issuer),
    ("value", .string a.value)]

end IssuedAmount

namespace WireAmount

/-- A string is drops, a record an issued amount. -/
def ofJson? : Json → Option WireAmount
  | .string text => some (.drops text)
  | j => (IssuedAmount.ofJson? j).map .issued

def toJson : WireAmount → Json
  | drops text => .string text
  | issued a => a.toJson

end WireAmount

def Amount.toJson (a : Amount) : Json :=
  .object [("currency", .string a.currency.text), ("value", .ofDecimal a.value)]

end OfferDesk
