import IntegerPrograms.Decimal.Shortest

set_option autoImplicit false

namespace IntegerPrograms

structure Numeral where
  negative : Bool
  whole : List Char
  fraction : List Char
  exponent : Option (Bool × List Char)
  deriving DecidableEq

/-- The code points of a JSON string. Half of a surrogate pair may stand alone, so not every JSON
string is a text. -/
structure JsonText where
  units : List Nat
  deriving DecidableEq

inductive JsonValue where
  | null
  | bool (b : Bool)
  | number (n : Numeral)
  | string (s : JsonText)
  | array (items : List JsonValue)
  | object (fields : List (JsonText × JsonValue))

namespace JsonText

def ofString (s : String) : JsonText := ⟨s.toList.map Char.toNat⟩

def isHighSurrogate (u : Nat) : Bool := 0xD800 ≤ u && u < 0xDC00

def isLowSurrogate (u : Nat) : Bool := 0xDC00 ≤ u && u < 0xE000

def decode : List Nat → Option (List Char)
  | [] => some []
  | [u] => if isHighSurrogate u || isLowSurrogate u then none else some [Char.ofNat u]
  | u :: l :: rest =>
    if isHighSurrogate u then
      if isLowSurrogate l then
        (decode rest).map (Char.ofNat (0x10000 + (u - 0xD800) * 0x400 + (l - 0xDC00)) :: ·)
      else none
    else if isLowSurrogate u then none
    else (decode (l :: rest)).map (Char.ofNat u :: ·)

def toString? (s : JsonText) : Option String := (decode s.units).map String.ofList

theorem not_surrogate (c : Char) :
    isHighSurrogate c.toNat = false ∧ isLowSurrogate c.toNat = false := by
  have h := c.valid
  simp only [UInt32.isValidChar, Nat.isValidChar] at h
  simp only [isHighSurrogate, isLowSurrogate, Char.toNat, Bool.and_eq_false_iff,
    decide_eq_false_iff_not]
  omega

theorem decode_chars (cs : List Char) : decode (cs.map Char.toNat) = some cs := by
  induction cs with
  | nil => rfl
  | cons c cs ih =>
    obtain ⟨hh, hl⟩ := not_surrogate c
    cases cs with
    | nil => simp [decode, hh, hl]
    | cons d ds =>
      rw [List.map_cons, List.map_cons, decode, if_neg (by simp [hh]), if_neg (by simp [hl]),
        ← List.map_cons, ih]
      simp

theorem toString?_ofString (s : String) : (ofString s).toString? = some s := by
  simp [toString?, ofString, decode_chars]

end JsonText

namespace JsonValue

def text (s : String) : JsonValue := .string (.ofString s)

def nat (n : Nat) : JsonValue := .number ⟨false, Decimal.digits n, [], none⟩

def record (fields : List (String × JsonValue)) : JsonValue :=
  .object (fields.map fun (key, v) => (.ofString key, v))

def ofOption {α : Type} (f : α → JsonValue) : Option α → JsonValue
  | none => .null
  | some a => f a

end JsonValue

/-- The number `d · 10 ^ e`. It is written positionally, with at least one decimal, while the
exponent of its first digit is from -5 to 15, and with a power of ten otherwise. -/
def Numeral.ofDigits (negative : Bool) (d : Nat) (e : Int) : Numeral :=
  let ds := Decimal.digits d
  let first := e + ds.length - 1
  if -5 ≤ first ∧ first < 16 then
    if 0 ≤ e then ⟨negative, Decimal.digits (d * Decimal.above e), ['0'], none⟩
    else
      let text := Decimal.pointed d (-e).toNat
      ⟨negative, text.takeWhile (· ≠ '.'), (text.dropWhile (· ≠ '.')).drop 1, none⟩
  else
    ⟨negative, ds.take 1, ds.drop 1, some (decide (first < 0), Decimal.digits first.natAbs)⟩

def Numeral.ofFloat? (v : Float) : Option Numeral :=
  match Decimal.Binary.ofFloat v with
  | .finite negative m q =>
    if m = 0 then some ⟨negative, ['0'], ['0'], none⟩
    else
      let (d, e) := Decimal.shortest .even m q
      some (ofDigits negative d e)
  | _ => none

namespace JsonValue

def float (v : Float) : JsonValue := ofOption .number (Numeral.ofFloat? v)

def floats (l : List Float) : JsonValue := .array (l.map float)

end JsonValue

end IntegerPrograms
