import IntegerPrograms.Program

set_option autoImplicit false

namespace IntegerPrograms.Executable

open IntegerPrograms.CommandLine IntegerPrograms.Program IntegerPrograms.Report

def fault : IO.Error → OpenFault
  | .noFileOrDirectory _ code text | .invalidArgument _ code text
  | .permissionDenied _ code text | .resourceExhausted _ code text
  | .inappropriateType _ code text | .noSuchThing _ code text
  | .otherError code text => ⟨code.toNat, text⟩
  | e => ⟨0, toString e⟩

/-- Opens a path. What opens and cannot be read as text is no better than a directory. -/
def find (path : String) : IO (Except OpenFault Opened) := do
  match ← (IO.FS.Handle.mk path .read).toBaseIO with
  | .error e => return .error (fault e)
  | .ok handle =>
    match ← handle.readToEnd.toBaseIO with
    | .error _ => return .ok .directory
    | .ok text => return .ok (.file text)

def timed (job : Job) : IO Finished := do
  let start ← IO.monoNanosNow
  let result ← IO.lazyPure fun () => job.run
  let nanos := (← IO.monoNanosNow) - start
  let millis := nanos / 1000000
  let column := " " ++ padLeft 10 (Decimal.fixed 3 (nanos.toFloat / 1000000)) ++ "ms  "
  return ⟨job, result, ⟨millis, toString millis, column⟩⟩

def emit (o : Output) : IO UInt32 := do
  for line in o.err do IO.eprintln line
  for line in o.out do IO.println line
  return o.exitCode.toUInt32

def run (args : List String) : IO UInt32 := do
  match parse args with
  | .version => IO.println version; return 0
  | .usageError => IO.eprintln "error: unusable arguments"; return 2
  | .run verbosity (.solve o) =>
    match solveJob verbosity o (← find o.path) with
    | .error e => emit (fileFailure o.path e)
    | .ok job => emit (solveOutput verbosity o (← timed job))
  | .run verbosity (.demo trace) => emit (demoOutput verbosity trace (← demoJobs.mapM timed))

end IntegerPrograms.Executable

def main (args : List String) : IO UInt32 := IntegerPrograms.Executable.run args
