import Handout.Config.Parse
import Handout.Files.Look

/-!
# Configurations of projects

A project without a configuration file has the empty configuration.  The entries of a configuration are resolved
against the real path of the project.
-/

namespace Handout.Config

/-- Line ends as line feeds. -/
def plainLineEnds : List Char → List Char
  | [] => []
  | '\r' :: '\n' :: r => '\n' :: plainLineEnds r
  | c :: r => (if c = '\r' then '\n' else c) :: plainLineEnds r

/-- Loads the configuration of the project at a path. -/
def load (project : Path) : Action Config := do
  let path := project.child fileName
  if ← Action.isFile path then
    let data ← Action.during .read path (Action.readFile path)
    match Bytes.toString? data with
    | none => throw .undecodable
    | some s => Action.query fun _ => parse path (String.ofList (plainLineEnds s.toList))
  else return {}

/-- The real paths of entries of a project. -/
def resolve (project : Path) (entries : List Path) : Action (List Path) := do
  let root ← Action.resolve project
  entries.mapM fun e => Action.resolve (root.join e)

end Handout.Config
