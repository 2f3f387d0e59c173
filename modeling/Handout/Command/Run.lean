import Handout.Command.Basic
import Handout.Exercise.Derive
import Handout.Project.Update
import Handout.Submission.Compress

/-!
# Running commands

A command succeeds with status 0.  A failure that the program reports gives its message and status 1.
-/

namespace Handout.Command

/-- Runs a command. -/
def run : Command → Action Unit
  | prepareSolution exercises output => Exercise.prepareSolution exercises output
  | prepareStub exercise output keepHidden => Exercise.prepareStub exercise output keepHidden
  | prepareSubmission request words arrays => do
    let params ← Action.query fun _ => Params.ofArguments words arrays
    Submission.pack { request with params }
  | compressProject project output => do
    let e ← Ecosystem.get project
    let policy ← Policy.make (.ecosystem e) project
    Submission.compress policy project output
  | extractProject archive target => do
    let kind := match ← Ecosystem.find? target with
      | some e => .ecosystem e
      | none => .nothing
    let policy ← Policy.make kind target
    Project.update policy archive target

/-- What a command leaves behind besides its files: its status and what is reported about a failure. -/
structure Outcome where
  status : Nat
  report : Option Text := none

/-- Runs a command and reports a failure. -/
def execute (c : Command) : Action Outcome :=
  tryCatch
    (do
      run c
      return { status := 0 })
    fun e => if e.isReported then return { status := 1, report := some e.message } else throw e

/-- Whether a record of the log is shown. -/
def isShown (verbosity : Nat) (r : LogRecord) : Bool := r.level = .warning || 0 < verbosity

/-- The lines of the log and of the report. -/
def lines (verbosity : Nat) (log : List LogRecord) (outcome : Outcome) : List Text :=
  (log.filter (isShown verbosity)).map (fun r => Text.ofString r.line) ++ outcome.report.toList

end Handout.Command
