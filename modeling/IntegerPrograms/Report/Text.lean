import IntegerPrograms.Branching
import IntegerPrograms.Decimal.Rounded
import IntegerPrograms.Decimal.Shortest

set_option autoImplicit false

namespace IntegerPrograms.Report

open IntegerPrograms

def notAvailable : String := "N/A"

def spaces (n : Nat) : String := String.ofList (List.replicate n ' ')

def padRight (width : Nat) (text : String) : String := text ++ spaces (width - text.length)

def padLeft (width : Nat) (text : String) : String := spaces (width - text.length) ++ text

/-- A count as a word of 64 bits shows it: behind the largest word it starts again at zero. -/
def counter (n : Nat) : Nat := n % Nat.pow 2 64

def powerOfTen (e : Int) : Float :=
  let p := Float.ofScientific 1 false e.natAbs
  if e < 0 then 1 / p else p

/-- The value rounded to a number of decimals, a half away from zero. Negative zero becomes
zero. -/
def roundTo (v : Float) (decimals : Int) : Float :=
  let scale := powerOfTen decimals
  (v * scale).round / scale + 0

def objective (v : Option Float) : String :=
  v.elim notAvailable fun v => Decimal.plain (roundTo v 4)

def point (x : List Float) : String :=
  "[" ++ ", ".intercalate (x.map fun v => Decimal.plain (roundTo v 2)) ++ "]"

def bound (b : Bound Float) : String :=
  let relation := match b.side with
    | .upper => "<="
    | .lower => ">="
  s!"x{b.var} {relation} {Decimal.plain b.value}"

def bounds (bs : List (Bound Float)) : String :=
  if bs.isEmpty then "Root" else ", ".intercalate (bs.map bound)

def cut (coefs : List Float) (rhs : Float) : String :=
  let terms := coefs.zipIdx.filterMap fun (c, i) =>
    if (1e-4 : Float) ≤ c.abs then some s!"{Decimal.fixed 2 c}*x{i}" else none
  " + ".intercalate terms ++ s!" <= {Decimal.fixed 2 rhs}"

def parent (id : Option Nat) : String := id.elim "-" toString

theorem length_spaces (n : Nat) : (spaces n).length = n := by simp [spaces]

theorem length_padRight (width : Nat) (text : String) :
    (padRight width text).length = max width text.length := by
  simp only [padRight, String.length_append, length_spaces]
  omega

end IntegerPrograms.Report
