-- The program: it reads its arguments and its configuration, asks a node over HTTP, and prints what
-- came of it.
import OfferDesk.Command
import OfferDesk.Json.Printer
import OfferDesk.Ledger.Http
import OfferDesk.Ledger.Retry
import Std.Async.DNS
import Std.Async.TCP
import Std.Async.Timer

open Std.Async Std.Net

namespace OfferDesk.Main

/-! ## Calling a node -/

def socketAddress (ip : IPAddr) (service : UInt16) : SocketAddress :=
  match ip with
  | .v4 addr => .v4 ⟨addr, service⟩
  | .v6 addr => .v6 ⟨addr, service⟩

/-- Receives until the response is complete. -/
partial def receive (client : TCP.Socket.Client) (taken : List UInt8) :
    Async (Option Http.Response) := do
  match Http.response? taken false with
  | some r => return some r
  | none =>
    match ← client.recv? 65536 with
    | some bytes => receive client (taken ++ bytes.toList)
    | none => return Http.response? taken true

/-- Posts a body and waits for the response. -/
def post (e : Endpoint) (body : String) : Async (Option Http.Response) := do
  match (← DNS.getAddrInfo e.host (toString e.service.toNat))[0]? with
  | none => return none
  | some ip =>
    let client ← TCP.Socket.Client.mk
    client.connect (socketAddress ip e.service)
    client.send (Http.postText e body).toUTF8
    receive client []

def callOnce (address : String) (request : Request) : IO (Except CallTrouble Answer) := do
  match Endpoint.ofAddress? address with
  | none => return .error (.unreachable address)
  | some e =>
    try
      match ← (post e request.body.text).block with
      | none => return .error (.unreachable address)
      | some r =>
        match String.fromUTF8? ⟨r.body.toArray⟩ with
        | some body => return Call.answerOf request r.status body
        | none => return .error .notJson
    catch _ => return .error (.unreachable address)

def pause (milliseconds : Nat) : IO Unit := IO.sleep milliseconds.toUInt32

/-- The pause before the first repeated call, in milliseconds. -/
def firstPause : UInt64 := 500

/-- Calls the node, and repeats a call that fails. -/
def call (address : String) (retries : Nat) (request : Request) : IO (Option Reply) := do
  let reply ← Retried.again? firstPause (callOnce address request) pause 0 retries
  return reply.map (·.mapError (·.message))

partial def converse (address : String) (retries : Nat) :
    Progress CommandTask CommandTask.Result → IO (Option CommandTask.Result)
  | .done r => return some r
  | .halted => return none
  | .ask milliseconds request task => do
    pause milliseconds
    match ← call address retries request with
    | none => return none
    | some reply => converse address retries (task.resume reply)

/-! ## The command line -/

/-- The configuration of a run: that of a file or the standard one, with the node's address from
the environment. -/
def configOf (i : Invocation) : IO (Except CommandTrouble Config) := do
  let url ← IO.getEnv "XRPL_RPC_URL"
  match i.configPath with
  | none => return .ok (({} : Config).withNodeUrl url)
  | some path =>
    let content ← try some <$> IO.FS.readFile path catch _ => pure none
    match content with
    | none => return .error (.missingFile path)
    | some content =>
      match Config.ofText? content with
      | none => return .error (.badFile path)
      | some c => return .ok (c.withNodeUrl url)

def usageText : String := String.intercalate "\n" [
  "Usage:",
  "  offerdesk [--config <file>] [--export <file>] <command>",
  "",
  "  book [pair]          the order book of one pair, or of every pair in service",
  "  rules                the trading and fee rules of every pair in service",
  "  balances <account>   the total and available balances of an account",
  "",
  "  --config   a configuration in JSON",
  "  --export   a file that takes the output in place of the screen",
  "  XRPL_RPC_URL in the environment is the address of the node."]

def complain (t : CommandTrouble) : IO UInt32 := do
  match t with
  | .usage => IO.eprintln usageText
  | t => IO.eprintln t.message
  return 1

/-- Prints a result, or writes it to a file. -/
def deliver (i : Invocation) (result : Json) : IO UInt32 := do
  match i.exportPath with
  | none => IO.println result.pretty
  | some path =>
    IO.FS.writeFile path result.pretty
    IO.eprintln ("Exported to " ++ path)
  return 0

def run (arguments : List String) : IO UInt32 := do
  match Invocation.ofArgs arguments with
  | .error t => complain t
  | .ok i =>
    match ← configOf i with
    | .error t => complain t
    | .ok c =>
      match i.command with
      | .error t => complain t
      | .ok command =>
        match ← converse (Call.address c.nodeUrl) c.retries.toNat (command.start c) with
        | some (.ok result) => deliver i result
        | some (.error t) => complain t
        | none => return 101

end OfferDesk.Main

def main (arguments : List String) : IO UInt32 := OfferDesk.Main.run arguments
