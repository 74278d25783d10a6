-- Currencies as the ledger names them, and the codes that carry their symbols.
import OfferDesk.Json.Basic
import OfferDesk.Text.Hex

namespace OfferDesk

open Text

/-- The native currency of the ledger, or one that an account issues under a code. -/
inductive Currency where
  | native
  | issued (code issuer : String)
deriving DecidableEq, Inhabited

namespace Currency

def nativeSymbol : String := "XRP"

/-! ## Codes -/

/-- A code of 160 bits in hexadecimal digits. -/
def isHexCode (cs : List Char) : Bool := cs.length == 40 && cs.all isHexDigit

/-- The code that carries a symbol. A hexadecimal code is taken in upper case and a symbol of
three bytes as it is; any other of up to twenty bytes is written in hexadecimal and filled up
with zeros. A longer one has no code. -/
def codeOf? (symbol : String) : Option String :=
  let cs := symbol.toList
  let bs := bytes cs
  if isHexCode cs then some (String.ofList (upper cs))
  else if bs.length = 3 then some symbol
  else if 20 < bs.length then none
  else some (String.ofList (hex (bs ++ List.replicate (20 - bs.length) 0)))

/-- The symbol that a code carries: what its bytes other than zero spell, where all of them are
visible ASCII characters. Any other code stands for itself. -/
def symbolOf (code : String) : String :=
  let cs := code.toList
  if isHexCode cs then
    match unhex? cs with
    | some bs =>
      let letters := bs.filter (· != 0)
      if !letters.isEmpty && letters.all isGraphic then
        String.ofList (letters.map fun b => Char.ofNat b.toNat)
      else code
    | none => code
  else code

/-! ## Currencies -/

def isNative : Currency → Bool
  | native => true
  | issued .. => false

def issuer? : Currency → Option String
  | native => none
  | issued _ issuer => some issuer

def symbol : Currency → String
  | native => nativeSymbol
  | issued code _ => symbolOf code

/-- The symbol, with the issuer behind a point. -/
def text : Currency → String
  | native => nativeSymbol
  | issued code issuer => symbolOf code ++ "." ++ issuer

/-- Whether two currencies count as the same: both native, or of one issuer under codes that
differ at most in the case of letters. -/
def agreesWith : Currency → Currency → Bool
  | native, native => true
  | issued a ia, issued b ib => ia == ib && sameUpToCase a.toList b.toList
  | _, _ => false

/-- How a record names the currency. -/
def toJson : Currency → Json
  | native => .string "Native"
  | issued code issuer =>
    .object [("Issued", .object [("code", .string code), ("issuer", .string issuer)])]

/-- How a request to the ledger names the currency. -/
def toRequest : Currency → Json
  | native => .object [("currency", .string nativeSymbol)]
  | issued code issuer => .object [("currency", .string code), ("issuer", .string issuer)]

end Currency

end OfferDesk
