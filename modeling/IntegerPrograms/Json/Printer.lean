import IntegerPrograms.Json.Basic

set_option autoImplicit false

namespace IntegerPrograms

def Numeral.print (n : Numeral) : List Char :=
  (if n.negative then ['-'] else []) ++ n.whole ++
    (if n.fraction.isEmpty then [] else '.' :: n.fraction) ++
    n.exponent.elim [] fun (negative, ds) => 'e' :: (if negative then '-' else '+') :: ds

namespace JsonText

def hex4 (u : Nat) : List Char :=
  [u / 4096 % 16, u / 256 % 16, u / 16 % 16, u % 16].map Nat.digitChar

def printUnit (u : Nat) : List Char :=
  if u = 0x22 then ['\\', '"']
  else if u = 0x5C then ['\\', '\\']
  else if u = 0x08 then ['\\', 'b']
  else if u = 0x09 then ['\\', 't']
  else if u = 0x0A then ['\\', 'n']
  else if u = 0x0C then ['\\', 'f']
  else if u = 0x0D then ['\\', 'r']
  else if u < 0x20 || isHighSurrogate u || isLowSurrogate u then '\\' :: 'u' :: hex4 u
  else [Char.ofNat u]

def print (s : JsonText) : List Char := '"' :: s.units.flatMap printUnit ++ ['"']

end JsonText

namespace JsonValue

def newline (level : Nat) : List Char := '\n' :: List.replicate (2 * level) ' '

mutual

def print (level : Nat) : JsonValue → List Char
  | .null => "null".toList
  | .bool b => (if b then "true" else "false").toList
  | .number n => n.print
  | .string s => s.print
  | .array [] => "[]".toList
  | .array (v :: vs) =>
    '[' :: newline (level + 1) ++ print (level + 1) v ++ printItems (level + 1) vs ++
      newline level ++ [']']
  | .object [] => "\x7b\x7d".toList
  | .object ((key, v) :: fs) =>
    '\x7b' :: newline (level + 1) ++ key.print ++ ": ".toList ++ print (level + 1) v ++
      printFields (level + 1) fs ++ newline level ++ ['\x7d']

def printItems (level : Nat) : List JsonValue → List Char
  | [] => []
  | v :: vs => ',' :: newline level ++ print level v ++ printItems level vs

def printFields (level : Nat) : List (JsonText × JsonValue) → List Char
  | [] => []
  | (key, v) :: fs =>
    ',' :: newline level ++ key.print ++ ": ".toList ++ print level v ++ printFields level fs

end

def lines (v : JsonValue) : List String := (String.ofList (v.print 0)).splitOn "\n"

end JsonValue

end IntegerPrograms
