import IntegerPrograms.Outcome

set_option autoImplicit false

namespace IntegerPrograms.CommandLine

structure SolveOptions where
  path : String
  method : Method := .branchAndBound
  maximize : Bool := false
  trace : Bool := false
  json : Bool := false
  maxCuts : Nat := 5
  maxPivots : Nat := 1000
  maxNodes : Option Nat := none
  branching : BranchingRule := .firstFractional

inductive Command where
  | solve (options : SolveOptions)
  | demo (trace : Bool)

inductive Request where
  | version
  | usageError
  | run (verbosity : Nat) (command : Command)

structure OptionSpec where
  name : String
  short : Option Char := none
  takesValue : Bool := false

abbrev Given := String × Option String

structure Scan where
  options : List Given := []
  arguments : List String := []

def scanCluster? (specs : List OptionSpec) : List Char → Option (List Given × Option String)
  | [] => some ([], none)
  | c :: cs => do
    let spec ← specs.find? fun s => s.short == some c
    if spec.takesValue then
      match cs with
      | [] => return ([], some spec.name)
      | '=' :: value => return ([(spec.name, some (String.ofList value))], none)
      | value => return ([(spec.name, some (String.ofList value))], none)
    else
      let (given, pending) ← scanCluster? specs cs
      return ((spec.name, none) :: given, pending)

def scanLong? (specs : List OptionSpec) (body : List Char) :
    Option (List Given × Option String) := do
  let name := String.ofList (body.takeWhile (· ≠ '='))
  let spec ← specs.find? fun s => s.name == name
  match body.dropWhile (· ≠ '='), spec.takesValue with
  | [], true => return ([], some name)
  | [], false => return ([(name, none)], none)
  | _ :: value, true => return ([(name, some (String.ofList value))], none)
  | _ :: _, false => none

def isPlain (word : String) : Bool :=
  match word.toList with
  | '-' :: _ :: _ => false
  | _ => true

def scanWord? (specs : List OptionSpec) (word : String) : Option (List Given × Option String) :=
  match word.toList with
  | '-' :: '-' :: body => scanLong? specs body
  | '-' :: body => scanCluster? specs body
  | _ => none

/-- Sorts words into options and arguments; none if a word is no option or a value is missing. -/
def scan? (specs : List OptionSpec) : List String → Option Scan
  | [] => some {}
  | word :: rest =>
    if word = "--" then some { arguments := rest }
    else if isPlain word then
      (scan? specs rest).map fun s => { s with arguments := word :: s.arguments }
    else do
      let (given, pending) ← scanWord? specs word
      match pending, rest with
      | none, rest =>
        let s ← scan? specs rest
        return { s with options := given ++ s.options }
      | some _, [] => none
      | some name, value :: rest =>
        if isPlain value then
          let s ← scan? specs rest
          return { s with options := given ++ (name, some value) :: s.options }
        else none

namespace Scan

def count (s : Scan) (name : String) : Nat := (s.options.filter fun g => g.1 == name).length

def flag? (s : Scan) (name : String) : Option Bool :=
  match s.count name with
  | 0 => some false
  | 1 => some true
  | _ => none

/-- The value of an option, or what stands in for it; none if it is given twice or its value
means nothing. -/
def value? {β : Type} (s : Scan) (name : String) (ofText : String → Option β) (default : β) :
    Option β :=
  match s.options.filter fun g => g.1 == name with
  | [] => some default
  | [(_, some text)] => ofText text
  | _ => none

end Scan

def count? (text : String) : Option Nat :=
  let ds := match text.toList with
    | '+' :: ds => ds
    | ds => ds
  if ds.isEmpty || !ds.all Char.isDigit then none
  else
    let n := Numeral.digitsValue ds
    if n < Numeral.wordLimit then some n else none

def method? : String → Option Method
  | "lp" => some .lp
  | "bnb" => some .branchAndBound
  | "bnc" => some .branchAndCut
  | _ => none

def branching? : String → Option BranchingRule
  | "first" => some .firstFractional
  | "most" => some .mostFractional
  | _ => none

def verbosity : OptionSpec := { name := "verbose", short := some 'v' }

def solveSpecs : List OptionSpec :=
  [verbosity, { name := "method", short := some 'm', takesValue := true }, { name := "maximize" },
    { name := "trace" }, { name := "json" }, { name := "max-cuts", takesValue := true },
    { name := "max-iter", takesValue := true }, { name := "max-nodes", takesValue := true },
    { name := "branching", takesValue := true }]

def demoSpecs : List OptionSpec := [verbosity, { name := "trace" }]

def solveOptions? (s : Scan) : Option SolveOptions := do
  match s.arguments with
  | [path] =>
    if path.isEmpty then none
    else return {
      path
      method := ← s.value? "method" method? .branchAndBound
      maximize := ← s.flag? "maximize"
      trace := ← s.flag? "trace"
      json := ← s.flag? "json"
      maxCuts := ← s.value? "max-cuts" count? 5
      maxPivots := ← s.value? "max-iter" count? 1000
      maxNodes := ← s.value? "max-nodes" (fun t => (count? t).map some) none
      branching := ← s.value? "branching" branching? .firstFractional }
  | _ => none

/-- A command and its verbosity. The one given behind the command goes before the one given ahead
of it. -/
def command? (ahead : Nat) (name : String) (words : List String) : Option Request :=
  let level (s : Scan) := if s.count "verbose" = 0 then ahead else s.count "verbose"
  match name with
  | "solve" => do
    let s ← scan? solveSpecs words
    return .run (level s) (.solve (← solveOptions? s))
  | "demo" => do
    let s ← scan? demoSpecs words
    if s.arguments.isEmpty then return .run (level s) (.demo (← s.flag? "trace")) else none
  | _ => none

def aheadFlags : Nat → List Char → Except Request Nat
  | n, [] => .ok n
  | n, 'v' :: cs => aheadFlags (n + 1) cs
  | _, 'V' :: _ => .error .version
  | _, _ => .error .usageError

def parseFrom : Nat → List String → Request
  | _, [] => .usageError
  | ahead, word :: rest =>
    if isPlain word then (command? ahead word rest).getD .usageError
    else match word.toList with
      | '-' :: '-' :: _ =>
        if word = "--verbose" then parseFrom (ahead + 1) rest
        else if word = "--version" then .version
        else .usageError
      | _ :: flags =>
        match aheadFlags ahead flags with
        | .ok n => parseFrom n rest
        | .error request => request
      | [] => .usageError

def parse (words : List String) : Request := parseFrom 0 words

end IntegerPrograms.CommandLine
