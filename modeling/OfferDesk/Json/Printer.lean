-- JSON values written as text, on one line or indented.
import OfferDesk.Json.Basic
import OfferDesk.Text.Hex

namespace OfferDesk.Json

namespace Printer

/-- A character inside a string. -/
def charText (c : Char) : List Char :=
  if c = '"' then ['\\', '"']
  else if c = '\\' then ['\\', '\\']
  else if c = '\x08' then ['\\', 'b']
  else if c = '\x0c' then ['\\', 'f']
  else if c = '\n' then ['\\', 'n']
  else if c = '\r' then ['\\', 'r']
  else if c = '\t' then ['\\', 't']
  else if c.toNat < 0x20 then
    ['\\', 'u', '0', '0', Nat.digitChar (c.toNat / 16), Nat.digitChar (c.toNat % 16)]
  else [c]

def stringText (s : String) : String :=
  String.ofList ('"' :: s.toList.flatMap charText ++ ['"'])

def numberText : Number → String
  | .whole n => toString n
  | .float x => String.ofList x.jsonChars

def braced (parts : List String) : String := "\x7b" ++ String.intercalate "," parts ++ "\x7d"

def bracketed (parts : List String) : String := "[" ++ String.intercalate "," parts ++ "]"

mutual

/-- The value on one line without spaces. -/
def compact : Json → String
  | .null => "null"
  | .bool b => if b then "true" else "false"
  | .number n => numberText n
  | .string s => stringText s
  | .array items => bracketed (compactItems items)
  | .object fields => braced (compactFields fields)

def compactItems : List Json → List String
  | [] => []
  | j :: js => compact j :: compactItems js

def compactFields : List (String × Json) → List String
  | [] => []
  | (name, value) :: rest => (stringText name ++ ":" ++ compact value) :: compactFields rest

end

def newline (depth : Nat) : String := "\n" ++ String.ofList (List.replicate (2 * depth) ' ')

/-- The parts of an array or object, each on a line of its own. -/
def block (depth : Nat) (opening closing : String) (parts : List String) : String :=
  if parts.isEmpty then opening ++ closing
  else opening ++ String.intercalate "," (parts.map (newline (depth + 1) ++ ·)) ++
    newline depth ++ closing

mutual

/-- The value over several lines, two spaces deeper at each level. -/
def indented (depth : Nat) : Json → String
  | .array items => block depth "[" "]" (indentedItems (depth + 1) items)
  | .object fields => block depth "\x7b" "\x7d" (indentedFields (depth + 1) fields)
  | .null => "null"
  | .bool b => if b then "true" else "false"
  | .number n => numberText n
  | .string s => stringText s

def indentedItems (depth : Nat) : List Json → List String
  | [] => []
  | j :: js => indented depth j :: indentedItems depth js

def indentedFields (depth : Nat) : List (String × Json) → List String
  | [] => []
  | (name, value) :: rest =>
    (stringText name ++ ": " ++ indented depth value) :: indentedFields depth rest

end

end Printer

def text (j : Json) : String := Printer.compact j

def pretty (j : Json) : String := Printer.indented 0 j

end OfferDesk.Json
