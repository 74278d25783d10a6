-- What a ledger node is asked, and how it answers.
import OfferDesk.Currency
import OfferDesk.Json.Record

namespace OfferDesk

/-! ## Requests -/

inductive Request where
  | accountInfo (account : String)
  | accountObjects (account : String)
  | bookOffers (takerGets takerPays : Currency) (limit : UInt32)
  | transaction (hash : String)
  | fee
  | currentLedger
  | validatedLedger
  | submit (blob : String)
deriving DecidableEq, Inhabited

namespace Request

def method : Request → String
  | accountInfo _ => "account_info"
  | accountObjects _ => "account_objects"
  | bookOffers .. => "book_offers"
  | transaction _ => "tx"
  | fee => "fee"
  | currentLedger => "ledger_current"
  | validatedLedger => "ledger"
  | submit _ => "submit"

/-- The field by which a request asks for the newest validated ledger. -/
def validatedField : String × Json := ("ledger_index", .string "validated")

def params : Request → Json
  | accountInfo account => .object [("account", .string account), validatedField]
  | accountObjects account => .object [("account", .string account), validatedField]
  | bookOffers gets pays limit => .object [("taker_gets", gets.toRequest),
      ("taker_pays", pays.toRequest), ("limit", .ofWord32 limit), validatedField]
  | transaction hash => .object [("transaction", .string hash), ("binary", .bool false)]
  | fee => .object []
  | currentLedger => .object []
  | validatedLedger => .object [validatedField]
  | submit blob => .object [("tx_blob", .string blob)]

/-- The body of the call that carries a request. -/
def body (r : Request) : Json :=
  .object [("method", .string r.method), ("params", .array [r.params])]

end Request

/-! ## Answers -/

/-- A node's answer: whether it is a success, and its result. -/
structure Answer where
  success : Bool
  result : Json
deriving Inhabited

namespace Answer

def ofResult (result : Json) : Answer := ⟨true, result⟩

def ofError (code : String) : Answer := ⟨false, .object [("error", .string code)]⟩

/-- The code of an error, such as `txnNotFound`. -/
def errorCode? (a : Answer) : Option String := (a.result.field? "error").bind Json.string?

/-- What the node expects of a submitted transaction. -/
def engineResult? (a : Answer) : Option String :=
  (a.result.field? "engine_result").bind Json.string?

def statusOf? : String → Option Bool
  | "success" => some true
  | "error" => some false
  | _ => none

def ofJson? (j : Json) : Option Answer := do
  let fields ← j.fieldsOf? ["status", "result"]
  let success ← fields.required "status" fun s => s.caseName?.bind statusOf?
  return ⟨success, ← fields.required "result" some⟩

def toJson (a : Answer) : Json :=
  .object [("status", .string (if a.success then "success" else "error")), ("result", a.result)]

/-- The answer in the body of a call. Without a status, an error field makes it an error; any
status other than success does so as well. -/
def ofBody? (body : Json) : Option Answer := do
  let result ← body.field? "result"
  match (result.field? "status").bind Json.string? with
  | some status => return ⟨status = "success", result⟩
  | none => return ⟨(result.field? "error").isNone, result⟩

end Answer

/-- What comes of a request: an answer, or the words of why none came. -/
abbrev Reply := Except String Answer

end OfferDesk
