import IntegerPrograms.Json.Number
import IntegerPrograms.Json.Reader
import IntegerPrograms.Problem

/-!
Problem files: a problem as JSON, with its own sense. An object names the fields; an array gives
them in order.
-/

set_option autoImplicit false

namespace IntegerPrograms

variable {α : Type} [Scalar α]

structure ProblemFile (α : Type) where
  c : List α
  A : List (List α)
  b : List α
  integers : List Nat := []
  maximize : Bool := false

namespace ProblemFile

def list? {β : Type} (item : JsonValue → Option β) : JsonValue → Option (List β)
  | .array items => items.mapM item
  | _ => none

def float? : JsonValue → Option Float
  | .number n => n.toFloat?
  | _ => none

def index? : JsonValue → Option Nat
  | .number n => n.toIndex?
  | _ => none

def bool? : JsonValue → Option Bool
  | .bool b => some b
  | _ => none

def canonicalName (key : String) : String := if key = "a" then "A" else key

def fieldNames : List String := ["c", "A", "b", "integer_vars", "maximize"]

/-- The fields that mean something. A key has to be a text even if its field means nothing. -/
def knownFields? (fields : List (JsonText × JsonValue)) : Option (List (String × JsonValue)) := do
  let named ← fields.mapM fun (key, v) => key.toString?.map fun s => (canonicalName s, v)
  return named.filter fun (key, _) => fieldNames.contains key

def ofFields? (c A b : JsonValue) (integers maximize : Option JsonValue) :
    Option (ProblemFile Float) := do
  return {
    c := ← list? float? c
    A := ← list? (list? float?) A
    b := ← list? float? b
    integers := ← integers.elim (some []) (list? index?)
    maximize := ← maximize.elim (some false) bool? }

def ofJson? : JsonValue → Option (ProblemFile Float)
  | .array [c, A, b] => ofFields? c A b none none
  | .array [c, A, b, integers] => ofFields? c A b (some integers) none
  | .array [c, A, b, integers, maximize] => ofFields? c A b (some integers) (some maximize)
  | .object fields => do
    let fields ← knownFields? fields
    if (fields.map Prod.fst).Nodup then
      ofFields? (← fields.lookup "c") (← fields.lookup "A") (← fields.lookup "b")
        (fields.lookup "integer_vars") (fields.lookup "maximize")
    else none
  | _ => none

def ofString? (text : String) : Option (ProblemFile Float) :=
  (JsonValue.ofString? text).bind ofJson?

def costs (f : ProblemFile α) : List α := if f.maximize then f.c.map (-·) else f.c

def toProblem (f : ProblemFile α) : Except Defect (Problem α) := Problem.ofData f.costs f.A f.b

def report (f : ProblemFile α) (objective : α) : α :=
  if f.maximize then -objective else objective

end ProblemFile

end IntegerPrograms
