import Handout.Command.Arguments
import Handout.Submission.Package

/-!
# Commands

The commands of the program with their arguments.
-/

namespace Handout

/-- A command with its arguments. -/
inductive Command where
  | prepareSolution (exercises : List Path) (output : Path)
  | prepareStub (exercise output : Path) (keepHidden : Bool)
  /-- The parameters are given as they are written in the arguments. -/
  | prepareSubmission (request : Submission.Request) (words arrays : List String)
  | compressProject (project output : Path)
  | extractProject (archive target : Path)

/-- A command, and how often more messages were asked for. -/
structure Invocation where
  command : Command
  verbosity : Nat

namespace Command

/-- The paths that a command names.  It works on what is stored there and below. -/
def paths : Command → List Path
  | prepareSolution exercises output => exercises ++ [output]
  | prepareStub exercise output _ => [exercise, output]
  | prepareSubmission request _ _ => [request.submission, request.clone, request.output] ++ request.stub.toList
  | compressProject project output => [project, output]
  | extractProject archive target => [archive, target]

/-- The option that asks for help. -/
def helpOption : OptionRule := ⟨"help", ["-h", "--help"], .help, false⟩

/-- The option that names the output. -/
def outputOption : OptionRule := ⟨"output", ["-o", "--output"], .value, true⟩

/-- The arguments in front of a command. -/
def mainGrammar : Grammar := ⟨[helpOption, ⟨"verbose", ["-v", "--verbose"], .flag, false⟩], .command⟩

/-- The arguments of each command. -/
def grammars : List (String × Grammar) := [
  ("prepare-solution", ⟨[helpOption, outputOption], .many⟩),
  ("prepare-stub", ⟨[helpOption, outputOption, ⟨"no-hidden", ["--no-hidden"], .flag, false⟩], .one⟩),
  ("prepare-submission", ⟨[
    helpOption, ⟨"clone", ["--clone"], .value, true⟩, outputOption, ⟨"stub", ["--stub-archive"], .value, false⟩,
    ⟨"toplevel", ["--toplevel"], .value, false⟩, ⟨"zip", ["--zip"], .flag, false⟩,
    ⟨"param", ["--param"], .value, false⟩, ⟨"array-param", ["--array-param"], .value, false⟩], .one⟩),
  ("compress-project", ⟨[helpOption, outputOption], .one⟩),
  ("extract-project", ⟨[helpOption, ⟨"target", ["-t", "--target"], .value, true⟩], .one⟩)]

/-- The values of an option, in order. -/
def valuesOf (r : Reading) (key : String) : List String := (r.values.filter fun v => v.1 == key).map Prod.snd

/-- The last value of an option. -/
def lastOf? (r : Reading) (key : String) : Option String := (valuesOf r key).getLast?

/-- The path that an option names. -/
def pathOf (r : Reading) (key : String) : Path := Path.ofString ((lastOf? r key).getD "")

/-- The command with the given name and arguments. -/
def ofReading (name : String) (r : Reading) : Command :=
  let operands := (r.operands.getD []).map Path.ofString
  let operand := operands.headD Path.here
  let has (key : String) : Bool := (lastOf? r key).isSome
  match name with
  | "prepare-solution" => prepareSolution operands (pathOf r "output")
  | "prepare-stub" => prepareStub operand (pathOf r "output") (!has "no-hidden")
  | "prepare-submission" =>
    prepareSubmission {
      submission := operand
      output := pathOf r "output"
      toplevel := lastOf? r "toplevel"
      clone := pathOf r "clone"
      stub := (lastOf? r "stub").map Path.ofString
      asZip := has "zip" } (valuesOf r "param") (valuesOf r "array-param")
  | "compress-project" => compressProject operand (pathOf r "output")
  | _ => extractProject operand (pathOf r "target")

/-- Reads the arguments of the program. -/
def parse (args : List String) : Except Exit Invocation := do
  let outer ← readArguments mainGrammar args
  match outer.operands.getD [] with
  | [] => throw .usage
  | name :: rest =>
    match grammars.lookup name with
    | none => throw .usage
    | some g =>
      let inner ← readArguments g rest
      if outer.hasExtras || inner.hasExtras then throw .usage
      return ⟨ofReading name inner, (valuesOf outer "verbose").length⟩

end Command

end Handout
