import SensorQuery.Inspection
import SensorQuery.LogFilter.Directive
import SensorQuery.Settings

/-!
# The command line

The command reads request URLs against a service whose settings may stand in a file, and prints the
inspection of each or says why it is no request. A run is a function of the arguments, of a
file named by the environment, and of the files there are.
-/

namespace SensorQuery.CommandLine

/-! ## Arguments -/

/-- The arguments of a run. -/
structure Arguments where
  /-- The file with the settings, the last that is named. -/
  settingsPath : Option String
  urls : List String
deriving DecidableEq

namespace Arguments

/-- The argument in front of the name of a settings file. -/
def settingsFlag : String := "--config"

/-- Reads arguments after those in `a`; none if a file's name is missing. -/
def parseAfter? (a : Arguments) : List String → Option Arguments
  | [] => some a
  | [url] =>
    if url = settingsFlag then none else some { a with urls := a.urls ++ [url] }
  | first :: second :: rest =>
    if first = settingsFlag then parseAfter? { a with settingsPath := some second } rest
    else parseAfter? { a with urls := a.urls ++ [first] } (second :: rest)

/-- Reads the arguments of a run, which name at least one URL. -/
def parse? (args : List String) : Option Arguments := do
  let a ← parseAfter? ⟨none, []⟩ args
  if a.urls.isEmpty then none else some a

end Arguments

/-! ## Runs -/

/-- Why a run ends before any URL is read. -/
inductive Failure where
  | usage
  /-- No text is read from the file; why not is left out. -/
  | unreadable (path : String)
  /-- The file does not hold settings; where it fails to is left out. -/
  | malformedSettings
  | settings (source : SettingsError)
  | logFilter (text : String)
deriving DecidableEq

/-- The wording of the failure, without the accounts that are left out. -/
def Failure.message : Failure → String
  | .usage => "usage: sta-parse [--config <path>] <url>..."
  | .unreadable path => s!"I/O error: cannot read {path}"
  | .malformedSettings => "failed to parse configuration"
  | .settings source => source.message
  | .logFilter text => s!"logger initialization failed: invalid log level '{text}'"

/-- The file to read settings from: the one in the arguments, or else the one in the environment,
unless its name is empty. -/
def settingsSource (argument environment : Option String) : Except SettingsError (Option String) :=
  match argument with
  | some path => if path.isEmpty then .error .emptyPath else .ok (some path)
  | none => .ok (environment.filter fun path ↦ !path.isEmpty)

/-- The settings in a text, checked. -/
def settingsOfText (text : String) : Except Failure Settings :=
  match Settings.parse? text with
  | none => .error .malformedSettings
  | some s =>
    match s.check with
    | .error e => .error (.settings e)
    | .ok () => .ok s

/-- The settings of a run. -/
def loadSettings (readFile : String → Option String) (argument environment : Option String) :
    Except Failure Settings :=
  match settingsSource argument environment with
  | .error e => .error (.settings e)
  | .ok none => .ok .usual
  | .ok (some path) =>
    match readFile path with
    | none => .error (.unreadable path)
    | some text => settingsOfText text

/-- What a run prints. -/
structure Outcome where
  /-- The texts for accepted URLs, each of which ends a line. -/
  accepted : List String
  /-- The texts for rejected URLs, each of which ends a line. -/
  rejected : List String
  failure : Option Failure
deriving DecidableEq

namespace Outcome

/-- The outcome of a run that reads no URL. -/
def failed (f : Failure) : Outcome := ⟨[], [], some f⟩

/-- Whether all went well. -/
def succeeded (o : Outcome) : Bool := o.rejected.isEmpty && o.failure.isNone

/-- The lines on the standard output. A text with line ends in it takes several. -/
def outputLines (o : Outcome) : List (List Char) :=
  o.accepted.flatMap fun text ↦ Text.lines text.toList

/-- The lines on the standard error that begin as a report on one of the URLs. -/
def reportLines (o : Outcome) (urls : List String) : List (List Char) :=
  (o.rejected.flatMap fun text ↦ Text.lines text.toList).filter fun line ↦
    urls.any fun url ↦ (url ++ ": ").toList.isPrefixOf line

/-- The outcome with one more URL in front. -/
def before (url : String) (result : Except RequestError Inspection) (o : Outcome) : Outcome :=
  match result with
  | .ok i => { o with accepted := i.line :: o.accepted }
  | .error e => { o with rejected := s!"{url}: {e.message}" :: o.rejected }

end Outcome

/-- Inspects the URLs in order. -/
def inspectAll (s : Settings) (model : Registry) (urls : List String) : Outcome :=
  urls.foldr
    (fun url ↦ .before url (Inspection.ofUrl (s.context model) s.limits s.serviceRoot url))
    ⟨[], [], none⟩

/-- A run: the arguments are read, then the settings, what is logged and the model are settled,
and then the URLs are inspected. -/
def run (readFile : String → Option String) (environment : Option String) (args : List String) :
    Outcome :=
  match Arguments.parse? args with
  | none => .failed .usage
  | some a =>
    match loadSettings readFile a.settingsPath environment with
    | .error e => .failed e
    | .ok s =>
      if LogFilter.isValid s.logFilter then
        match s.model with
        | .error e => .failed (.settings e)
        | .ok model => inspectAll s model a.urls
      else .failed (.logFilter s.logFilter)

end SensorQuery.CommandLine
