import IntegerPrograms.CommandLine
import IntegerPrograms.Folder
import IntegerPrograms.Report.Outcome
import IntegerPrograms.Samples

/-!
The program behind the command line. A command comes to jobs, each job is solved on its own, and the
outcomes are shown. Reading files and clocks is left to the caller.
-/

set_option autoImplicit false

namespace IntegerPrograms.Program

open IntegerPrograms IntegerPrograms.CommandLine IntegerPrograms.Report

def version : String := "lp-bench 0.1.0"

inductive FileError where
  | unopened (fault : OpenFault)
  | malformed

def load : Except OpenFault Opened → Except FileError (ProblemFile Float)
  | .error fault => .error (.unopened fault)
  | .ok .directory => .error .malformed
  | .ok (.file text) => (ProblemFile.ofString? text).elim (.error .malformed) .ok

def FileError.chain (path : String) : FileError → List String
  | .unopened fault => [s!"Failed to open file {path}", fault.message]
  | .malformed => [s!"Failed to parse JSON from {path}"]

structure Job where
  subject : String
  problem : ProblemFile Float
  method : Method
  settings : SearchSettings Float

structure Finished where
  job : Job
  result : Except SolveError (Outcome Float)
  elapsed : Elapsed

def methodName : Method → String
  | .lp => "Lp"
  | .branchAndBound => "Bnb"
  | .branchAndCut => "Bnc"

namespace Job

def run (job : Job) : Except SolveError (Outcome Float) :=
  job.problem.solveBy job.method job.settings

def opening (job : Job) : Entry :=
  let p := job.problem
  ⟨.info, .program, s!"Solving {p.c.length} vars, {p.b.length} constraints, " ++
    s!"{p.integers.length} integer with {methodName job.method}"⟩

end Job

namespace Finished

def entries (f : Finished) : List Entry :=
  match f.result with
  | .error (.data _) => []
  | .error _ => [f.job.opening]
  | .ok o => f.job.opening :: o.entries

end Finished

structure Output where
  exitCode : Nat
  out : List String
  err : List String

def logLevel : Nat → Level
  | 0 => .warn
  | 1 => .info
  | 2 => .debug
  | _ => .trace

def logLine (e : Entry) : String := s!"[{padRight 5 e.level.name} {e.topic.path}] {e.text}"

def log (verbosity : Nat) (entries : List Entry) : List String :=
  (Journal.upTo (logLevel verbosity) entries).map logLine

def causeLines : List String → List String
  | [] => []
  | [cause] => ["", "Caused by:", "    " ++ cause]
  | causes => ["", "Caused by:"] ++ causes.zipIdx.map fun (cause, i) => s!"    {i}: {cause}"

/-- An error as it is shown. The outermost message may quote a path of several lines. -/
def errorLines : List String → List String
  | [] => []
  | outermost :: causes => ("Error: " ++ outermost).splitOn "\n" ++ causeLines causes

def solveSettings (verbosity : Nat) (o : SolveOptions) : SearchSettings Float :=
  let base : SearchSettings Float := {}
  { base with
    maxNodes := o.maxNodes.getD base.maxNodes
    branching := o.branching
    maxCuts := o.maxCuts
    lp := { maxPivots := o.maxPivots }
    verbose := decide (0 < verbosity) }

def demoRows : List (Sample × Method) :=
  (Sample.linear.map fun s => (s, .lp)) ++
    Sample.mixed.flatMap fun s => [(s, .branchAndBound), (s, .branchAndCut)]

def solveJob (verbosity : Nat) (o : SolveOptions) (opened : Except OpenFault Opened) :
    Except FileError Job :=
  (load opened).map fun file =>
    ⟨o.path, { file with maximize := file.maximize || o.maximize }, o.method,
      solveSettings verbosity o⟩

def demoJobs : List Job := demoRows.map fun (s, m) => ⟨s.name, s.problem, m, {}⟩

def shown (o : SolveOptions) (f : Finished) (outcome : Outcome Float) : List String :=
  if o.json then (outcome.document f.elapsed.millis).lines
  else outcome.summary f.job.problem f.elapsed o.trace

def solveFailure (f : Finished) (e : SolveError) : List String :=
  errorLines (s!"Solving {f.job.subject}" :: e.chain)

def solveOutput (verbosity : Nat) (o : SolveOptions) (f : Finished) : Output :=
  match f.result with
  | .ok outcome => ⟨0, shown o f outcome, log verbosity f.entries⟩
  | .error e => ⟨1, [], log verbosity f.entries ++ solveFailure f e⟩

def demoHeader : List String :=
  [" ".intercalate [padRight 22 "Problem", padRight 6 "Class", padRight 5 "Meth",
    padRight 12 "Status", padLeft 12 "Objective", padLeft 12 "Time"], Outcome.rule '-']

def matchesExpected : Option Float → Option Float → Bool
  | some got, some expected => decide ((got - expected).abs < 1e-6)
  | none, none => true
  | _, _ => false

def demoLine (s : Sample) (f : Finished) (o : Outcome Float) : String :=
  let got := o.reported? s.problem
  " ".intercalate [padRight 22 s.name, padRight 6 s.family,
      padRight 5 (methodName f.job.method).toLower, padRight 12 o.status,
      padLeft 12 (got.elim notAvailable (Decimal.fixed 4))] ++
    f.elapsed.column ++ if matchesExpected got s.expected then "ok" else "MISMATCH"

def failureName (s : Sample) : Method → String
  | .lp => s!"{s.name} (lp)"
  | m => s!"{s.name} ({methodName m})"

/-- The lines of the demonstration up to the first job that could not be solved, and the names of
those whose answer was not the expected one. -/
def demoLines (trace : Bool) :
    List (Sample × Finished) → List String × Except (List String) (List String)
  | [] => ([], .ok [])
  | (s, f) :: rest =>
    match f.result with
    | .error e => ([], .error (solveFailure f e))
    | .ok o =>
      let (lines, failures) := demoLines trace rest
      let details :=
        if trace then
          s!"Source:           {s.source}" :: o.summary s.problem f.elapsed true
        else []
      let missed :=
        if matchesExpected (o.reported? s.problem) s.expected then []
        else [failureName s f.job.method]
      (demoLine s f o :: details ++ lines, failures.map (missed ++ ·))

def demoOutput (verbosity : Nat) (trace : Bool) (done : List Finished) : Output :=
  let (lines, failures) := demoLines trace ((demoRows.map Prod.fst).zip done)
  let entries := log verbosity (done.flatMap Finished.entries)
  match failures with
  | .ok [] => ⟨0, demoHeader ++ lines, entries⟩
  | .ok names =>
    ⟨1, demoHeader ++ lines,
      entries ++ errorLines ["Objective mismatch: " ++ ", ".intercalate names]⟩
  | .error message => ⟨1, demoHeader ++ lines, entries ++ message⟩

def fileFailure (path : String) (e : FileError) : Output := ⟨1, [], errorLines (e.chain path)⟩

/-- The whole program for a caller that knows the files and lets no time pass. -/
def perform (folder : Folder) (elapsed : Elapsed) : Request → Output
  | .version => ⟨0, [version], []⟩
  | .usageError => ⟨2, [], []⟩
  | .run verbosity (.solve o) =>
    match solveJob verbosity o (folder.find o.path) with
    | .error e => fileFailure o.path e
    | .ok job => solveOutput verbosity o ⟨job, job.run, elapsed⟩
  | .run verbosity (.demo trace) =>
    demoOutput verbosity trace (demoJobs.map fun job => ⟨job, job.run, elapsed⟩)

end IntegerPrograms.Program
