import Workflow.Document.Reader
import Workflow.Edit.Report
import Workflow.Edit.Request
import Workflow.Json.Printer
import Workflow.Rehearsal
import Workflow.Uuid

namespace Workflow.CommandLine

def usage : String :=
  "Usage:\n"
    ++ "  workflow [--config <config.json>] validate <flow.json>\n"
    ++ "  workflow [--config <config.json>] apply <flow.json> <operations.json>\n"
    ++ "  workflow [--config <config.json>] run <flow.json> <completions.json>\n"
    ++ "\n"
    ++ "completions.json: [\x7b\"stepId\": \"...\", \"result\": \x7b...\x7d\x7d, ...]"

/-- Goes on with a value, or ends with the text of the error. -/
def orFail {α ε : Type} (text : ε → String) : Except ε α → IO α
  | .ok a => pure a
  | .error e => throw (IO.userError (text e))

def readFile (path : String) : IO String := do
  try IO.FS.readFile path
  catch _ => throw (IO.userError ("cannot open " ++ path))

def readFlow (path : String) : IO Flow := do
  orFail Document.Refusal.message (Flow.readText (← readFile path))

def printLines (lines : List String) : IO Unit :=
  lines.forM IO.println

def validate (c : Config) (flowPath : String) : IO UInt32 := do
  let flow ← readFlow flowPath
  let limits ← orFail ConfigError.message c.constraints
  printLines (flow.reportLines limits)
  return if flow.isSound limits then 0 else 1

def apply (flowPath editsPath : String) : IO UInt32 := do
  let flow ← readFlow flowPath
  let edits ← orFail Document.Refusal.message (Edit.readText (← readFile editsPath))
  let result := flow.applyAll edits
  let report ← orFail Document.Refusal.message result.write
  IO.println report.print
  return if result.succeeded then 0 else 1

/-- Draws the identifiers of one session: random for the first, and counted on from there. -/
def drawIds : IO (String → Nat → String) := do
  let bytes ← IO.getRandomBytes 16
  let first := bytes.foldl (fun n b => 256 * n + b.toNat) 0
  return fun kind n => Uuid.identifier kind (Uuid.numbered (first + n))

/-- Rehearses a run. No line shows a time, so the clock stands still. -/
def rehearse (c : Config) (flowPath scriptPath : String) : IO UInt32 := do
  let flow ← readFlow flowPath
  let now : Instant := .ofMillis 0
  let server ← orFail ConfigError.message (Server.configure c {} (← drawIds))
  let mut rehearsal ← orFail Server.Error.message (Rehearsal.start server now flow)
  IO.println ("start " ++ flow.id)
  printLines (rehearsal.linesSince 0)
  for entry in (← orFail Document.Refusal.message (scriptEntries (← readFile scriptPath))) do
    let some completion := Completion.ofValue? entry
      | throw (IO.userError "completion entry without stepId")
    IO.println (rehearsal.announce completion)
    let (next, lines) ← orFail Server.Error.message (rehearsal.perform now completion)
    printLines lines
    rehearsal := next
  printLines rehearsal.summary
  return if rehearsal.run.isActive then 1 else 0

def readConfig (path : String) : IO Config := do
  match Config.readText? (← readFile path) with
  | some c => return c
  | none => throw (IO.userError "Invalid configuration")

def execute (c : Config) : List String → IO UInt32
  | ["validate", flow] => validate c flow
  | ["apply", flow, edits] => apply flow edits
  | ["run", flow, script] => rehearse c flow script
  | _ => do
    IO.println usage
    return 1

def dispatch : List String → IO UInt32
  | "--config" :: path :: rest => do
    if rest.isEmpty then execute {} rest
    else execute (← readConfig path) rest
  | arguments => execute {} arguments

end Workflow.CommandLine

def main (arguments : List String) : IO UInt32 := do
  try Workflow.CommandLine.dispatch arguments
  catch e =>
    IO.eprintln ("workflow: " ++ toString e)
    return 1
