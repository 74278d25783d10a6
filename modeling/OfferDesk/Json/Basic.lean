-- JSON values, and how one is looked into.
import OfferDesk.Json.Binary64

namespace OfferDesk

/-- A number in JSON: a whole number that fits a word of 64 bits, or a floating number. -/
inductive Json.Number where
  | whole (n : Int)
  | float (x : Json.Binary64)
deriving DecidableEq, Inhabited

/-- A JSON value. An object keeps its fields in the order they were written. -/
inductive Json where
  | null
  | bool (b : Bool)
  | number (n : Json.Number)
  | string (s : String)
  | array (items : List Json)
  | object (fields : List (String × Json))
deriving Inhabited

namespace Json

/-- The number of a word. -/
def ofNat (n : Nat) : Json := .number (.whole n)

/-- A value that may be missing; a missing one is written as null. -/
def ofOption {α : Type} (f : α → Json) : Option α → Json
  | some a => f a
  | none => .null

/-! ## Looking into a value -/

/-- The value of a field, the last one where a name is repeated. -/
def lookup? (name : String) (fields : List (String × Json)) : Option Json :=
  (fields.reverse.find? (·.1 == name)).map (·.2)

/-- A field of an object; nothing for any other value. -/
def field? (j : Json) (name : String) : Option Json :=
  match j with
  | .object fields => lookup? name fields
  | _ => none

/-- The value at the end of a path of fields. -/
def path? (j : Json) (names : List String) : Option Json := names.foldlM field? j

def string? : Json → Option String
  | .string s => some s
  | _ => none

def bool? : Json → Option Bool
  | .bool b => some b
  | _ => none

def array? : Json → Option (List Json)
  | .array items => some items
  | _ => none

/-- A whole number from zero up. -/
def natural? : Json → Option Nat
  | .number (.whole n) => if 0 ≤ n then some n.toNat else none
  | _ => none

/-- A natural number that fits 64 bits. -/
def word64? (j : Json) : Option UInt64 :=
  (j.natural?.filter (· < UInt64.size)).map Nat.toUInt64

/-- A natural number that fits 32 bits. -/
def word32? (j : Json) : Option UInt32 :=
  (j.natural?.filter (· < UInt32.size)).map Nat.toUInt32

end Json

end OfferDesk
