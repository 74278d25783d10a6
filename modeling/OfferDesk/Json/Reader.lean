-- JSON text read into values.
import OfferDesk.Json.Basic
import OfferDesk.Text.Hex
import OfferDesk.Text.Numeral

namespace OfferDesk.Json

namespace Reader

open Text (digit? isDigit hexDigit?)

/-! ## Numbers -/

/-- A number while it is read: its digits as a whole number of at most 64 bits, and the power of
ten they count. -/
structure Scan where
  digits : Nat
  power : Int
  rest : List Char

/-- Reads digits while the number fits 64 bits. -/
def wholeDigits (digits : Nat) : List Char → Nat × List Char
  | [] => (digits, [])
  | c :: cs =>
    match digit? c with
    | some d =>
      if digits * 10 + d < UInt64.size then wholeDigits (digits * 10 + d) cs else (digits, c :: cs)
    | none => (digits, c :: cs)

/-- Reads the digits after a point. A digit that does not fit is dropped with all after it. -/
def placeDigits (scan : Scan) : Scan :=
  let (digits, rest) := wholeDigits scan.digits scan.rest
  let taken := scan.rest.length - rest.length
  ⟨digits, scan.power - taken, rest.dropWhile isDigit⟩

/-- The digits of an exponent, cut off where they are past any that matters. -/
def exponentOf (cs : List Char) : Nat :=
  cs.foldl (fun n c => min 99999999 (n * 10 + (digit? c).getD 0)) 0

/-- Reads an exponent, if one follows. -/
def withExponent? (scan : Scan) : Option Scan :=
  match scan.rest with
  | c :: cs =>
    if c = 'e' ∨ c = 'E' then
      let (negative, cs) := match cs with
        | '+' :: cs => (false, cs)
        | '-' :: cs => (true, cs)
        | cs => (false, cs)
      let ds := cs.takeWhile isDigit
      if ds.isEmpty then none
      else
        let exponent : Int := exponentOf ds
        some ⟨scan.digits, if negative then scan.power - exponent else scan.power + exponent,
          cs.dropWhile isDigit⟩
    else some scan
  | [] => some scan

/-- A power of ten as the nearest floating number. -/
def tenTo? (power : Nat) : Option Binary64 := Binary64.nearest? (pow10 power) 1

/-- Digits times a power of ten in floating arithmetic: the digits are rounded first, then
multiplied or divided by the rounded power. A power below -308 is taken in steps; one above 308
is refused unless the digits are zero. -/
def floatOf? (x : Binary64) (power : Int) : (fuel : Nat) → Option Binary64
  | 0 => some x
  | fuel + 1 =>
    if power.natAbs ≤ 308 then do
      let unit ← tenTo? power.natAbs
      if 0 ≤ power then x.mul? unit else x.div? unit
    else if x.mantissa = 0 then some x
    else if 0 ≤ power then none
    else do floatOf? (← x.div? (← tenTo? 308)) (power + 308) fuel

def float? (negative : Bool) (scan : Scan) : Option Number := do
  let x ← floatOf? (← Binary64.nearest? scan.digits 1) scan.power (scan.power.natAbs / 308 + 1)
  some (.float { x with negative := negative })

/-- A number and what follows it. A plain run of digits that fits 64 bits is whole; any other
number is a floating one, and so is a zero with a minus sign. -/
def number? (cs : List Char) : Option (Number × List Char) := do
  let (negative, cs) := match cs with
    | '-' :: cs => (true, cs)
    | cs => (false, cs)
  let (digits, rest) ← match cs with
    | '0' :: rest => if (rest.head?.map isDigit).getD false then none else some (0, rest)
    | c :: _ => if isDigit c then some (wholeDigits 0 cs) else none
    | [] => none
  let more := rest.takeWhile isDigit
  let rest := rest.dropWhile isDigit
  let scan : Scan := ⟨digits, more.length, rest⟩
  match rest with
  | '.' :: places =>
    if (places.head?.map isDigit).getD false then
      let scan ← withExponent? (placeDigits ⟨digits, more.length, places⟩)
      some (← float? negative scan, scan.rest)
    else none
  | _ =>
    let marked := match rest with
      | c :: _ => c == 'e' || c == 'E'
      | [] => false
    if marked || !more.isEmpty then
      let scan ← withExponent? scan
      some (← float? negative scan, scan.rest)
    else if !negative then some (.whole digits, rest)
    else if digits = 0 ∨ pow2 63 < digits then some (← float? true scan, rest)
    else some (.whole (-(digits : Int)), rest)

/-! ## Strings -/

/-- The code unit of four hexadecimal digits. -/
def unit? : List Char → Option (Nat × List Char)
  | a :: b :: c :: d :: rest => do
    let value := (((← hexDigit? a) * 16 + (← hexDigit? b)) * 16 + (← hexDigit? c)) * 16
    some (value + (← hexDigit? d), rest)
  | _ => none

/-- The character that an escape after the backslash stands for. A high surrogate needs its low
one right behind it. -/
def escape? : List Char → Option (Char × List Char)
  | '"' :: cs => some ('"', cs)
  | '\\' :: cs => some ('\\', cs)
  | '/' :: cs => some ('/', cs)
  | 'b' :: cs => some ('\x08', cs)
  | 'f' :: cs => some ('\x0c', cs)
  | 'n' :: cs => some ('\n', cs)
  | 'r' :: cs => some ('\r', cs)
  | 't' :: cs => some ('\t', cs)
  | 'u' :: cs => do
    let (high, cs) ← unit? cs
    if 0xDC00 ≤ high ∧ high < 0xE000 then none
    else if 0xD800 ≤ high ∧ high < 0xDC00 then
      match cs with
      | '\\' :: 'u' :: cs =>
        let (low, cs) ← unit? cs
        if 0xDC00 ≤ low ∧ low < 0xE000 then
          some (Char.ofNat (0x10000 + (high - 0xD800) * 0x400 + (low - 0xDC00)), cs)
        else none
      | _ => none
    else some (Char.ofNat high, cs)
  | _ => none

/-- The characters up to the closing quote, newest first in `taken`, and what follows it. -/
def stringBody? (taken : List Char) : (fuel : Nat) → List Char → Option (String × List Char)
  | 0, _ => none
  | _, [] => none
  | fuel + 1, c :: cs =>
    if c = '"' then some (String.ofList taken.reverse, cs)
    else if c = '\\' then do
      let (c, cs) ← escape? cs
      stringBody? (c :: taken) fuel cs
    else if c.toNat < 0x20 then none
    else stringBody? (c :: taken) fuel cs

/-! ## Values -/

def isSpace (c : Char) : Bool := c == ' ' || c == '\n' || c == '\t' || c == '\r'

def skipSpace (cs : List Char) : List Char := cs.dropWhile isSpace

/-- The rest after a literal word. -/
def word? : List Char → List Char → Option (List Char)
  | [], cs => some cs
  | w :: ws, c :: cs => if w = c then word? ws cs else none
  | _ :: _, [] => none

/-- The deepest nesting of arrays and objects, plus one. -/
def depthLimit : Nat := 128

mutual

/-- A value and what follows it. The fuel is spent by one for each value and each separator,
and the length of the text is always enough. -/
def value? (depth : Nat) : (fuel : Nat) → List Char → Option (Json × List Char)
  | 0, _ => none
  | fuel + 1, cs =>
    match skipSpace cs with
    | 'n' :: cs => do some (.null, ← word? ['u', 'l', 'l'] cs)
    | 't' :: cs => do some (.bool true, ← word? ['r', 'u', 'e'] cs)
    | 'f' :: cs => do some (.bool false, ← word? ['a', 'l', 's', 'e'] cs)
    | '"' :: cs => do
      let (s, cs) ← stringBody? [] (cs.length + 1) cs
      some (.string s, cs)
    | '[' :: cs =>
      if depth ≤ 1 then none
      else match skipSpace cs with
        | ']' :: cs => some (.array [], cs)
        | cs => do
          let (items, cs) ← items? (depth - 1) fuel cs
          some (.array items, cs)
    | '\x7b' :: cs =>
      if depth ≤ 1 then none
      else match skipSpace cs with
        | '\x7d' :: cs => some (.object [], cs)
        | cs => do
          let (fields, cs) ← fields? (depth - 1) fuel cs
          some (.object fields, cs)
    | cs => do
      let (n, cs) ← number? cs
      some (.number n, cs)

/-- The items of an array up to its closing bracket. -/
def items? (depth : Nat) : (fuel : Nat) → List Char → Option (List Json × List Char)
  | 0, _ => none
  | fuel + 1, cs => do
    let (item, cs) ← value? depth fuel cs
    match skipSpace cs with
    | ']' :: cs => some ([item], cs)
    | ',' :: cs =>
      let (items, cs) ← items? depth fuel cs
      some (item :: items, cs)
    | _ => none

/-- The fields of an object up to its closing brace. -/
def fields? (depth : Nat) : (fuel : Nat) → List Char → Option (List (String × Json) × List Char)
  | 0, _ => none
  | fuel + 1, cs =>
    match skipSpace cs with
    | '"' :: cs => do
      let (name, cs) ← stringBody? [] (cs.length + 1) cs
      match skipSpace cs with
      | ':' :: cs =>
        let (value, cs) ← value? depth fuel cs
        match skipSpace cs with
        | '\x7d' :: cs => some ([(name, value)], cs)
        | ',' :: cs =>
          let (fields, cs) ← fields? depth fuel cs
          some ((name, value) :: fields, cs)
        | _ => none
      | _ => none
    | _ => none

end

end Reader

/-- The value that a whole text denotes, with every field of an object as it is written, a
repeated one too. -/
def read? (text : String) : Option Json :=
  let cs := text.toList
  match Reader.value? Reader.depthLimit (cs.length + 1) cs with
  | some (j, rest) => if (Reader.skipSpace rest).isEmpty then some j else none
  | none => none

/-! ## Repeated fields -/

/-- Puts a field in: in place of one of the same name, else at the end. -/
def putField (fields : List (String × Json)) (name : String) (value : Json) :
    List (String × Json) :=
  if fields.any (·.1 == name) then
    fields.map fun f => if f.1 == name then (name, value) else f
  else fields ++ [(name, value)]

mutual

/-- The value with each field of an object once: where a name is repeated, its last value at its
first place. -/
def merged : Json → Json
  | .array items => .array (mergedItems items)
  | .object fields => .object (mergedFields [] fields)
  | j => j

def mergedItems : List Json → List Json
  | [] => []
  | j :: js => merged j :: mergedItems js

def mergedFields (done : List (String × Json)) : List (String × Json) → List (String × Json)
  | [] => done
  | (name, value) :: rest => mergedFields (putField done name (merged value)) rest

end

/-- The value that a text denotes, with each field of an object once. -/
def parse? (text : String) : Option Json := (read? text).map merged

end OfferDesk.Json
