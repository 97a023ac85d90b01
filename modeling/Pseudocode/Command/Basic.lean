import Pseudocode.Check.Basic
import Pseudocode.Command.Request
import Pseudocode.Launch.Basic
import Pseudocode.Program.File
import Pseudocode.Text.Terminal

namespace Pseudocode

/-- What a command finds around it. Without `input`, it is given from a terminal. A run writes to
the fresh file `script`. -/
structure World where
  files : FileTree
  environment : Environment := []
  input : Option Text := some []
  machine : Machine
  script : Path

/-- What a command leaves: its exit code and outputs, what was wrong with its arguments if
anything, the files after it, and the process it started if any. -/
structure Report where
  exitCode : Int := 0
  stdout : Text := []
  stderr : Text := []
  usage : Option UsageError := none
  files : FileTree
  invocation : Option Invocation := none

namespace Report

/-- The notices that are shown: the warnings, or all of them with their origins. -/
def shownNotices (verbose : Bool) (notices : List Notice) : Text :=
  notices.flatMap fun notice =>
    if verbose then s!"{notice.origin.name}: {notice.message}\n".toList
    else if notice.level = .warning then s!"{notice.message}\n".toList
    else []

/-- Shows notices. They are logged as they are. -/
def notify (report : Report) (verbose : Bool) (notices : List Notice) : Report :=
  { report with stderr := report.stderr ++ shownNotices verbose notices }

/-- Puts a text on the standard output, which is no terminal. -/
def put (report : Report) (text : Text) : Report :=
  { report with stdout := report.stdout ++ withoutControls text }

/-- Puts a text on the error output, which is no terminal. -/
def putError (report : Report) (text : Text) : Report :=
  { report with stderr := report.stderr ++ withoutControls text }

def print (report : Report) (line : Text) : Report :=
  report.put (line ++ ['\n'])

def tell (report : Report) (line : Text) : Report :=
  report.putError (line ++ ['\n'])

def fail (report : Report) (action : Text) (failure : Failure) : Report :=
  { report.tell (failure.report action) with exitCode := failure.exitCode }

end Report

namespace Request

/-- Where the Lua program of a source goes. -/
def destination (request : Request) : Path :=
  request.output.getD (request.source.withEnding ".lua")

/-- Writes the Lua program of a source, or prints it if it goes to a dash. -/
def convert (request : Request) (world : World) : Report :=
  let source := request.source.toText
  let output := request.destination.toText
  let start : Report := { files := world.files }
  let start := if request.isVerbose then start.tell ("Transpiling ".toList ++ source ++ "...".toList)
    else start
  let layout : Layout := { emitPrelude := !request.parsed.has .noPrelude }
  let outcome := Assembly.runFile { layout } world.files source "utf-8".toList
  let report := start.notify request.isVerbose outcome.notices
  match outcome.result with
  | .error failure => report.fail "Transpile".toList failure
  | .ok lua =>
    if output = ['-'] then report.put lua
    else match world.files.write output (Encoding.encode lua) with
      | .error failure => report.fail "Transpile".toList failure
      | .ok files =>
        { report with files }.print
          ("Transpiled ".toList ++ source ++ " -> ".toList ++ output)

/-- Diagnostics that make a check fail: the errors, or all of them. -/
def failing (strict : Bool) (diagnostics : List Diagnostic) : Bool :=
  diagnostics.any fun diagnostic => strict || diagnostic.finding.severity = .error

/-- The text of a file to check. -/
def sourceToCheck (files : FileTree) (source : Text) : Except Failure Text :=
  match files.find? source with
  | none => .error (.path .missing source)
  | some .directory => .error (.path .isDirectory source)
  | some (.file content) => (readText .utf8 content).mapError .unreadable

/-- Checks a source and prints its diagnostics. -/
def check (request : Request) (world : World) : Report :=
  let file := request.source.toText
  let start : Report := { files := world.files }
  match sourceToCheck world.files file with
  | .error failure => start.fail "Lint".toList failure
  | .ok source =>
    let outcome := Pseudocode.check standardLanguage source
    let report := start.notify request.isVerbose outcome.notices
    let shown := outcome.result.map (·.format file)
    if failing (request.parsed.has .strict) outcome.result then
      report.fail "Lint".toList (.diagnosed (joinWith "\n" shown))
    else
      let report := shown.foldl Report.print report
      if request.isVerbose then
        report.tell (file ++ s!": {shown.length} diagnostic(s)".toList)
      else report

/-- The settings of a run: those of the environment, unless an option says otherwise. -/
def settings (request : Request) (environment : Settings) : Settings :=
  { environment with
    command := ((request.parsed.value? .interpreter).filter (!·.isEmpty)).getD environment.command
    timeout := (request.timeout.map .real).or environment.timeout
    keepScript := environment.keepScript || request.parsed.has .keep }

/-- Runs a source and passes on what the program prints and how it ends. -/
def run (request : Request) (world : World) : Report :=
  let environment := Settings.ofEnvironment world.environment
  let settings := request.settings environment.result
  let start : Report := { files := world.files }
  let start := start.notify request.isVerbose environment.notices
  let outcome := Assembly.runFile {} world.files request.source.toText "utf-8".toList
  let report := start.notify request.isVerbose outcome.notices
  match outcome.result with
  | .error failure => report.fail "Run".toList failure
  | .ok lua =>
    let run := settings.run world.machine world.files world.script lua world.input world.input.isSome
    let report := report.notify request.isVerbose run.notices
    let report := { report with files := run.files, invocation := run.invocation }
    match run.result with
    | .error failure => report.fail "Run".toList failure
    | .ok completed =>
      let report := { report with exitCode := completed.status }
      let report := (report.put completed.stdout).putError completed.stderr
      if settings.keepScript then
        report.tell ("Script kept at ".toList ++ world.script.toText)
      else report

end Request

namespace Tool

/-- Does what the arguments of a tool ask for. -/
def run (tool : Tool) (world : World) (arguments : List Text) : Report :=
  let start : Report := { files := world.files }
  match tool.asked world.files arguments with
  | .error error => { start with exitCode := 2, usage := some error }
  | .ok .version => start.print s!"{tool.name}, version 1.0.0".toList
  | .ok .help => start.print s!"Usage: {tool.name} [OPTIONS] INPUT_FILE".toList
  | .ok (.work request) =>
    match tool with
    | .converter => request.convert world
    | .checker => request.check world
    | .runner => request.run world

end Tool

end Pseudocode
