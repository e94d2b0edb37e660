import SensorQuery.CommandLine

/-!
# The program

Inspects the request URLs in its arguments. Accepted ones go to the standard output, the others and
a failure to the standard error.
-/

namespace SensorQuery.CommandLine

/-- The content of a file, if it can be read as text. -/
def readTextFile? (path : String) : IO (Option String) := do
  match ← (IO.FS.readFile path).toBaseIO with
  | .ok text => pure (some text)
  | .error _ => pure none

/-- The content of the file that a run reads its settings from. -/
def settingsText? (environment : Option String) (args : List String) : IO (Option String) :=
  match Arguments.parse? args with
  | none => pure none
  | some a =>
    match settingsSource a.settingsPath environment with
    | .ok (some path) => readTextFile? path
    | .ok none => pure none
    | .error _ => pure none

/-- Prints what a run leaves, and gives its exit code. -/
def report (o : Outcome) : IO UInt32 := do
  o.accepted.forM fun l ↦ IO.println l
  o.rejected.forM fun l ↦ IO.eprintln l
  match o.failure with
  | some f => IO.eprintln f.message
  | none => pure ()
  pure (if o.succeeded then 0 else 1)

end SensorQuery.CommandLine

/-- Runs the command on its arguments. -/
def main (args : List String) : IO UInt32 := do
  let environment ← IO.getEnv "STA_PARSE_CONFIG"
  let text ← SensorQuery.CommandLine.settingsText? environment args
  SensorQuery.CommandLine.report (SensorQuery.CommandLine.run (fun _ ↦ text) environment args)
