-- Calls: a request posted to a node over HTTP, and the reply that is read from what comes back.
import OfferDesk.Json.Reader
import OfferDesk.Ledger.Request
import OfferDesk.Text.Numeral

namespace OfferDesk

/-! ## Statuses -/

structure HttpStatus where
  code : Nat
deriving DecidableEq, Inhabited

namespace HttpStatus

/-- The registered statuses with their reasons. -/
def reasons : List (Nat × String) := [
  (100, "Continue"), (101, "Switching Protocols"), (102, "Processing"),
  (200, "OK"), (201, "Created"), (202, "Accepted"), (203, "Non Authoritative Information"),
  (204, "No Content"), (205, "Reset Content"), (206, "Partial Content"), (207, "Multi-Status"),
  (208, "Already Reported"), (226, "IM Used"),
  (300, "Multiple Choices"), (301, "Moved Permanently"), (302, "Found"), (303, "See Other"),
  (304, "Not Modified"), (305, "Use Proxy"), (307, "Temporary Redirect"),
  (308, "Permanent Redirect"),
  (400, "Bad Request"), (401, "Unauthorized"), (402, "Payment Required"), (403, "Forbidden"),
  (404, "Not Found"), (405, "Method Not Allowed"), (406, "Not Acceptable"),
  (407, "Proxy Authentication Required"), (408, "Request Timeout"), (409, "Conflict"),
  (410, "Gone"), (411, "Length Required"), (412, "Precondition Failed"),
  (413, "Payload Too Large"), (414, "URI Too Long"), (415, "Unsupported Media Type"),
  (416, "Range Not Satisfiable"), (417, "Expectation Failed"), (418, "I\x27m a teapot"),
  (421, "Misdirected Request"), (422, "Unprocessable Entity"), (423, "Locked"),
  (424, "Failed Dependency"), (425, "Too Early"), (426, "Upgrade Required"),
  (428, "Precondition Required"), (429, "Too Many Requests"),
  (431, "Request Header Fields Too Large"), (451, "Unavailable For Legal Reasons"),
  (500, "Internal Server Error"), (501, "Not Implemented"), (502, "Bad Gateway"),
  (503, "Service Unavailable"), (504, "Gateway Timeout"), (505, "HTTP Version Not Supported"),
  (506, "Variant Also Negotiates"), (507, "Insufficient Storage"), (508, "Loop Detected"),
  (510, "Not Extended"), (511, "Network Authentication Required")]

/-- The status of a node that is asked too often. -/
def tooManyRequests : HttpStatus := ⟨429⟩

def isSuccess (s : HttpStatus) : Bool := 200 ≤ s.code && s.code < 300

/-- The code with its registered reason. -/
def text (s : HttpStatus) : String :=
  let reason := (reasons.find? (·.1 == s.code)).map (·.2)
  toString s.code ++ " " ++ reason.getD "<unknown status code>"

end HttpStatus

/-! ## Calls -/

/-- Why a call brings no answer. -/
inductive CallTrouble where
  | unreachable (address : String)
  | rateLimited
  | refused (method : String) (status : HttpStatus)
  | notJson
  | noResult (method : String)
deriving DecidableEq, Inhabited

namespace CallTrouble

def message : CallTrouble → String
  | unreachable address => "error sending request for url (" ++ address ++ ")"
  | rateLimited => "rate_limited"
  | refused method status => method ++ " returned HTTP " ++ status.text
  | notJson => "error decoding response body"
  | noResult method => method ++ " response has no result"

end CallTrouble

namespace Call

/-- The address that calls go to: a configured one without a slash at its end. -/
def address (url : String) : String :=
  match url.toList.reverse with
  | '/' :: rest => String.ofList rest.reverse
  | _ => url

/-- The answer to a request in a response of HTTP. -/
def answerOf (request : Request) (status : HttpStatus) (body : String) :
    Except CallTrouble Answer :=
  if status = .tooManyRequests then .error .rateLimited
  else if !status.isSuccess then .error (.refused request.method status)
  else
    match Json.parse? body with
    | none => .error .notJson
    | some j =>
      match Answer.ofBody? j with
      | some a => .ok a
      | none => .error (.noResult request.method)

end Call

end OfferDesk
