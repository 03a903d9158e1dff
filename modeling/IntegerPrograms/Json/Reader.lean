import IntegerPrograms.Json.Basic

set_option autoImplicit false

namespace IntegerPrograms

def isBlank (c : Char) : Bool := c = ' ' || c = '\t' || c = '\n' || c = '\r'

def skipBlanks (cs : List Char) : List Char := cs.dropWhile isBlank

def hexValue? (c : Char) : Option Nat :=
  if '0' ≤ c ∧ c ≤ '9' then some (c.toNat - 48)
  else if 'a' ≤ c ∧ c ≤ 'f' then some (c.toNat - 87)
  else if 'A' ≤ c ∧ c ≤ 'F' then some (c.toNat - 55)
  else none

namespace Numeral

def readDigits? (cs : List Char) : Option (List Char × List Char) :=
  match cs.takeWhile Char.isDigit with
  | [] => none
  | ds => some (ds, cs.dropWhile Char.isDigit)

def readWhole? (cs : List Char) : Option (List Char × List Char) := do
  let (ds, rest) ← readDigits? cs
  if ds.head? = some '0' ∧ ds.length ≠ 1 then none else some (ds, rest)

def readFraction? : List Char → Option (List Char × List Char)
  | '.' :: cs => readDigits? cs
  | cs => some ([], cs)

def readSign : List Char → Bool × List Char
  | '-' :: cs => (true, cs)
  | '+' :: cs => (false, cs)
  | cs => (false, cs)

def readExponent? : List Char → Option (Option (Bool × List Char) × List Char)
  | c :: cs =>
    if c = 'e' ∨ c = 'E' then do
      let (negative, cs) := readSign cs
      let (ds, rest) ← readDigits? cs
      return (some (negative, ds), rest)
    else some (none, c :: cs)
  | [] => some (none, [])

def read? (cs : List Char) : Option (Numeral × List Char) := do
  let (negative, cs) := match cs with
    | '-' :: cs => (true, cs)
    | cs => (false, cs)
  let (whole, cs) ← readWhole? cs
  let (fraction, cs) ← readFraction? cs
  let (exponent, cs) ← readExponent? cs
  return (⟨negative, whole, fraction, exponent⟩, cs)

end Numeral

namespace JsonText

def escape? : Char → Option Nat
  | '"' => some 0x22
  | '\\' => some 0x5C
  | '/' => some 0x2F
  | 'b' => some 0x08
  | 'f' => some 0x0C
  | 'n' => some 0x0A
  | 'r' => some 0x0D
  | 't' => some 0x09
  | _ => none

def readUnits? : List Char → Option (List Nat × List Char)
  | [] => none
  | '"' :: cs => some ([], cs)
  | '\\' :: 'u' :: a :: b :: c :: d :: cs => do
    let u := 4096 * (← hexValue? a) + 256 * (← hexValue? b) + 16 * (← hexValue? c) + (← hexValue? d)
    let (units, rest) ← readUnits? cs
    return (u :: units, rest)
  | '\\' :: c :: cs => do
    let u ← escape? c
    let (units, rest) ← readUnits? cs
    return (u :: units, rest)
  | c :: cs =>
    if c.toNat < 0x20 ∨ c = '\\' then none
    else do
      let (units, rest) ← readUnits? cs
      return (c.toNat :: units, rest)

def read? : List Char → Option (JsonText × List Char)
  | '"' :: cs => (readUnits? cs).map fun (units, rest) => (⟨units⟩, rest)
  | _ => none

end JsonText

namespace JsonValue

mutual

/-- Reads a value; the fuel bounds the nesting and the number of elements. -/
def readFuel : Nat → List Char → Option (JsonValue × List Char)
  | 0, _ => none
  | fuel + 1, cs =>
    match skipBlanks cs with
    | 'n' :: 'u' :: 'l' :: 'l' :: rest => some (.null, rest)
    | 't' :: 'r' :: 'u' :: 'e' :: rest => some (.bool true, rest)
    | 'f' :: 'a' :: 'l' :: 's' :: 'e' :: rest => some (.bool false, rest)
    | '"' :: rest => (JsonText.read? ('"' :: rest)).map fun (s, rest) => (.string s, rest)
    | '[' :: rest =>
      match skipBlanks rest with
      | ']' :: rest => some (.array [], rest)
      | rest => (readItems fuel rest).map fun (items, rest) => (.array items, rest)
    | '\x7b' :: rest =>
      match skipBlanks rest with
      | '\x7d' :: rest => some (.object [], rest)
      | rest => (readFields fuel rest).map fun (fields, rest) => (.object fields, rest)
    | rest => (Numeral.read? rest).map fun (n, rest) => (.number n, rest)

def readItems : Nat → List Char → Option (List JsonValue × List Char)
  | 0, _ => none
  | fuel + 1, cs => do
    let (v, rest) ← readFuel fuel cs
    match skipBlanks rest with
    | ']' :: rest => return ([v], rest)
    | ',' :: rest =>
      let (vs, rest) ← readItems fuel rest
      return (v :: vs, rest)
    | _ => none

def readFields : Nat → List Char → Option (List (JsonText × JsonValue) × List Char)
  | 0, _ => none
  | fuel + 1, cs => do
    let (key, rest) ← JsonText.read? (skipBlanks cs)
    match skipBlanks rest with
    | ':' :: rest =>
      let (v, rest) ← readFuel fuel rest
      match skipBlanks rest with
      | '\x7d' :: rest => return ([(key, v)], rest)
      | ',' :: rest =>
        let (fs, rest) ← readFields fuel rest
        return ((key, v) :: fs, rest)
      | _ => none
    | _ => none

end

/-- Reads a document. Every level of nesting and every element takes a character of its own, so the
fuel suffices. -/
def ofString? (s : String) : Option JsonValue := do
  let cs := s.toList
  let (v, rest) ← readFuel (2 * cs.length + 2) cs
  if (skipBlanks rest).isEmpty then some v else none

end JsonValue

end IntegerPrograms
