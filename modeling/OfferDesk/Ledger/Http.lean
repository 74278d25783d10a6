-- The text of HTTP, as far as calls need it: where an address leads, what is posted there, and
-- what is read from the bytes that come back.
import OfferDesk.Ledger.Call
import OfferDesk.Text.Blank

namespace OfferDesk

open Text

/-! ## Addresses -/

/-- Where an address leads. -/
structure Endpoint where
  host : String
  /-- The number of the service at the host. -/
  service : UInt16
  path : String
deriving DecidableEq, Inhabited

namespace Endpoint

def scheme : List Char := "http://".toList

/-- The service after the host of an authority; 80 if none is named. -/
def serviceOf? : List Char → Option UInt16
  | ':' :: digits =>
    if digits.isEmpty then some 80 else (numeral? (UInt16.size - 1) digits).map Nat.toUInt16
  | [] => some 80
  | _ => none

/-- The endpoint of an address of plain HTTP. -/
def ofAddress? (address : String) : Option Endpoint := do
  let cs := address.toList
  if sameUpToCase (cs.take scheme.length) scheme then
    let rest := cs.drop scheme.length
    let authority := rest.takeWhile fun c => c != '/' && c != '?' && c != '#'
    let target := (rest.drop authority.length).takeWhile (· != '#')
    let host := authority.takeWhile (· != ':')
    if host.isEmpty then none
    else
      return {
        host := String.ofList host
        service := ← serviceOf? (authority.drop host.length)
        path := String.ofList (if target.head? = some '/' then target else '/' :: target) }
  else none

end Endpoint

namespace Http

/-! ## Posting -/

def lineEnd : String := "\r\n"

/-- What is sent to post a body of JSON. -/
def postText (e : Endpoint) (body : String) : String :=
  String.intercalate lineEnd [
    "POST " ++ e.path ++ " HTTP/1.1",
    "host: " ++ e.host ++ ":" ++ toString e.service.toNat,
    "content-type: application/json",
    "accept: */*",
    "connection: close",
    "content-length: " ++ toString body.utf8ByteSize,
    "",
    body]

/-! ## Responses -/

/-- A response: its status and the bytes of its body. -/
structure Response where
  status : HttpStatus
  body : List UInt8
deriving DecidableEq, Inhabited

/-- A line up to its end, and what follows it. -/
def line? : List UInt8 → Option (List Char × List UInt8)
  | 13 :: 10 :: rest => some ([], rest)
  | b :: rest => (line? rest).map fun l => (Char.ofNat b.toNat :: l.1, l.2)
  | [] => none

/-- The lines up to an empty one, and what follows that. -/
def lines? : (fuel : Nat) → List UInt8 → Option (List (List Char) × List UInt8)
  | 0, _ => none
  | fuel + 1, bytes => do
    let (line, rest) ← line? bytes
    if line.isEmpty then return ([], rest)
    let (lines, rest) ← lines? fuel rest
    return (line :: lines, rest)

/-- The value of a header line of this name. -/
def header? (name : String) (lines : List (List Char)) : Option (List Char) :=
  lines.findSome? fun line =>
    if sameUpToCase (line.takeWhile (· != ':')) name.toList then
      some (trim ((line.dropWhile (· != ':')).drop 1))
    else none

def statusOf? (line : List Char) : Option HttpStatus := do
  let digits := ((line.dropWhile (· != ' ')).drop 1).takeWhile isDigit
  return ⟨← numeral? 999 digits⟩

/-- The size of a chunk, in hexadecimal. -/
def chunkSize? (line : List Char) : Option Nat :=
  let digits := line.takeWhile isHexDigit
  if digits.isEmpty then none
  else digits.foldlM (fun n c => (hexDigit? c).map (n * 16 + ·)) 0

/-- A body that comes in chunks. -/
def unchunk? : (fuel : Nat) → List UInt8 → Option (List UInt8)
  | 0, _ => none
  | fuel + 1, bytes => do
    let (line, rest) ← line? bytes
    match ← chunkSize? line with
    | 0 => return []
    | size =>
      if rest.length < size + 2 then none
      else return rest.take size ++ (← unchunk? fuel (rest.drop (size + 2)))

/-- The body after some header lines; nothing as long as it is not complete. Without any measure
it ends with the connection. -/
def body? (headers : List (List Char)) (atEnd : Bool) (bytes : List UInt8) :
    Option (List UInt8) :=
  match header? "transfer-encoding" headers with
  | some coding =>
    if sameUpToCase coding "chunked".toList then unchunk? (bytes.length + 1) bytes else none
  | none =>
    match header? "content-length" headers with
    | some digits => do
      let length ← numeral? (UInt64.size - 1) digits
      if length ≤ bytes.length then some (bytes.take length) else none
    | none => if atEnd then some bytes else none

/-- The response in the bytes of a connection; nothing as long as it is not complete. -/
def response? (bytes : List UInt8) (atEnd : Bool) : Option Response := do
  match ← lines? (bytes.length + 1) bytes with
  | (first :: headers, rest) => return ⟨← statusOf? first, ← body? headers atEnd rest⟩
  | ([], _) => none

end Http

end OfferDesk
