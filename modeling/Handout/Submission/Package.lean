import Handout.Archive.Create
import Handout.Archive.Extract
import Handout.Archive.Search
import Handout.Submission.Merge
import Handout.Submission.Params

/-!
# Packaging a submission

A package for grading takes the student files from the submitted archive and everything else from the instructor's
side.  It is put together in a temporary directory and written as an archive.
-/

namespace Handout.Submission

/-- What is to be packaged, and how. -/
structure Request where
  submission : Path
  output : Path
  /-- A directory that is to hold all entries of the package. -/
  toplevel : Option String := none
  params : Params := {}
  clone : Path
  /-- An archive from which the tests are taken instead of from the clone. -/
  stub : Option Path := none
  asZip : Bool := false

/-- The name of the file of parameters. -/
def paramsFileName : String := ".tmcparams"

/-- Names of what development environments keep in a project. -/
def environmentNames : List String := ["nbproject", ".classpath", ".project", ".settings", ".idea"]

/-- Writes the parameters to a file. -/
def writeParams (params : Params) (path : Path) : Action Unit :=
  Action.during .write path (Action.writeFile path.written params.content)

/-- Copies what a development environment keeps, from the first project that has it. -/
def copyEnvironment (package : Path) (name : String) : List Path → Action Unit
  | [] => return ()
  | project :: rest => do
    if ← Action.pathExists (project.child name) then copyInto (project.child name) package
    else copyEnvironment package name rest

/-- The project that holds the tests. -/
def testsOf (request : Request) (scratch : Path) : Action Path :=
  match request.stub with
  | none => return request.clone
  | some archive => do
    let dir := scratch.child "stub"
    Archive.extract archive dir
    Archive.findProject archive dir

/-- Puts a package together. -/
def assemble (request : Request) (scratch : Path) : Action Path := do
  let dir := scratch.child "received"
  Archive.extract request.submission dir
  let received ← Archive.findProject request.submission dir
  let ecosystem ← Ecosystem.get received
  Action.note .info .submissionPackaging s!"submission is a {ecosystem.name} project"
  let tests ← testsOf request scratch
  let package := scratch.child "dest"
  Action.during .createDirectory package (Action.makeDirectory package.written)
  writeParams request.params (package.child paramsFileName)
  environmentNames.forM fun name => copyEnvironment package name [received, request.clone]
  let layout ← ecosystem.layout request.clone
  Action.note .info .submissionPackaging s!"merging files in {ecosystem.style.name} style"
  merge ecosystem.style { received, clone := request.clone, tests, package } layout
  let config ← Config.load request.clone
  overlay received package (Path.sort config.extraStudentFiles)
  return package

/-- The name of the top-level directory, if one is asked for. -/
def Request.top (request : Request) : Option Path :=
  request.toplevel.bind fun name => if name.isEmpty then none else some (Path.ofString name)

/-- Packages a submission. -/
def pack (request : Request) : Action Unit := do
  Action.note .info .submissionPackaging s!"preparing submission {request.submission.toString}"
  Action.withScratch fun scratch => do
    let package ← assemble request scratch
    let format := if request.asZip then .zip else .tar
    Archive.create format package request.output request.top none
  Action.note .info .submissionPackaging s!"wrote submission package {request.output.toString}"

end Handout.Submission
