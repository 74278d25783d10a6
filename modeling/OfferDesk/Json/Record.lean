-- Records in JSON: reading named fields with their types, and writing records back.
import OfferDesk.Decimal.Text
import OfferDesk.Json.Reader

namespace OfferDesk.Json

abbrev Fields := List (String × Json)

/-- The fields of a record that is written as an object, or as an array of its first fields in
order. -/
def fieldsOf? (names : List String) : Json → Option Fields
  | .object fields => some fields
  | .array items => if items.length ≤ names.length then some (names.zip items) else none
  | _ => none

/-- The fields of a record that is written as an object. -/
def objectFields? : Json → Option Fields
  | .object fields => some fields
  | _ => none

namespace Fields

/-- A field that may be absent; nothing where it is there twice. -/
def single? (fields : Fields) (name : String) : Option (Option Json) :=
  match fields.filter (·.1 == name) with
  | [] => some none
  | [(_, j)] => some (some j)
  | _ => none

/-- A field that has to be there. -/
def required {α : Type} (fields : Fields) (name : String) (decode : Json → Option α) :
    Option α := do
  decode (← (← fields.single? name))

/-- A field that may be absent or null. -/
def optional {α : Type} (fields : Fields) (name : String) (decode : Json → Option α) :
    Option (Option α) := do
  match ← fields.single? name with
  | none => some none
  | some .null => some none
  | some j => some (some (← decode j))

/-- A field that stands for `default` when absent; null is not allowed in its place. -/
def defaulted {α : Type} (fields : Fields) (name : String) (decode : Json → Option α)
    (default : α) : Option α := do
  match ← fields.single? name with
  | none => some default
  | some j => decode j

end Fields

/-! ## Values of fields -/

/-- The name of a case without content: a string, or an object from the name to null. -/
def caseName? : Json → Option String
  | .string s => some s
  | .object [(name, .null)] => some name
  | _ => none

/-- A decimal: a string in plain or scientific notation, a whole number, or a floating number
through its shortest decimal text. -/
def decimal? : Json → Option Decimal
  | .string s => Decimal.read? s.toList <|> Decimal.readScientific? s.toList
  | .number (.whole n) => Decimal.ofInt? n
  | .number (.float x) => Decimal.read? x.plainChars
  | _ => none

/-- A list whose every item decodes. -/
def listOf? {α : Type} (decode : Json → Option α) : Json → Option (List α)
  | .array items => items.mapM decode
  | _ => none

/-- An object from names to values whose every value decodes; a repeated name keeps its last
value. -/
def mapOf? {α : Type} (decode : Json → Option α) : Json → Option (List (String × α))
  | .object fields => do
    let entries ← fields.mapM fun f => return (f.1, ← decode f.2)
    some (entries.foldl (fun done e =>
      if done.any (·.1 == e.1) then done.map fun d => if d.1 == e.1 then e else d
      else done ++ [e]) [])
  | _ => none

/-! ## Writing -/

/-- A decimal in its shortest form. -/
def ofDecimal (a : Decimal) : Json := .string a.plainText

def ofString (s : String) : Json := .string s

def ofWord32 (n : UInt32) : Json := .ofNat n.toNat

def ofWord64 (n : UInt64) : Json := .ofNat n.toNat

/-- A field that is left out when it has no value. -/
def fieldIfSome {α : Type} (name : String) (f : α → Json) : Option α → Fields
  | some a => [(name, f a)]
  | none => []

/-- An object from names to values. -/
def ofEntries {α : Type} (f : α → Json) (entries : List (String × α)) : Json :=
  .object (entries.map fun e => (e.1, f e.2))

end OfferDesk.Json
