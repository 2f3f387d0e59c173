import Handout.Config.Basic
import Handout.Files.Walk

/-!
# Sessions

Operations act on a session: the stored files, the working directory, the place for temporary directories, the
directories that may not be read, the configurations that policies have loaded so far, and the log.  An operation
that fails leaves behind the session as it was when it failed.
-/

namespace Handout

/-- How important a record of the log is. -/
inductive LogLevel where
  | info
  | warning
deriving DecidableEq, Repr

/-- The name of a level. -/
def LogLevel.name : LogLevel → String
  | info => "INFO"
  | warning => "WARNING"

/-- What a record of the log is about. -/
inductive LogTopic where
  | archive
  | treeProcessor
  | submissionPackaging
deriving DecidableEq, Repr

/-- The name of a topic. -/
def LogTopic.name : LogTopic → String
  | archive => "archive"
  | treeProcessor => "tree_processor"
  | submissionPackaging => "submission_packaging"

/-- A record of the log. -/
structure LogRecord where
  level : LogLevel
  topic : LogTopic
  text : String
deriving DecidableEq, Repr

/-- The line of a record. -/
def LogRecord.line (r : LogRecord) : String := s!"{r.level.name} {r.topic.name}: {r.text}"

/-- What operations act on. -/
structure Session where
  files : Files := {}
  /-- The directory from which relative paths start. -/
  workingDir : Location
  /-- The temporary directory that operations may make. -/
  scratch : Location
  /-- Directories that may not be listed and whose entries may not be inspected, as they are written. -/
  locked : List Path := []
  /-- The number of policies that have been made. -/
  policies : Nat := 0
  /-- The configuration that each policy has loaded. -/
  loaded : List (Nat × Config) := []
  log : List LogRecord := []

/-- An operation on a session. -/
abbrev Action (α : Type) := ExceptT Failure (StateM Session) α

namespace Action

/-- Runs an operation on a session. -/
def perform {α : Type} (act : Action α) (s : Session) : Except Failure α × Session := act.run s

/-- An operation that only looks at the session. -/
def query {α : Type} (f : Session → Except Failure α) : Action α := fun s => (f s, s)

/-- Changes the stored files. -/
def edit (f : Files → Files) : Action Unit := modify fun s => { s with files := f s.files }

/-- Adds a record to the log. -/
def note (level : LogLevel) (topic : LogTopic) (text : String) : Action Unit :=
  modify fun s => { s with log := s.log ++ [⟨level, topic, text⟩] }

/-- Does something as part of an activity, to which failed file operations are then ascribed. -/
def during {α : Type} (activity : Activity) (path : Path) (act : Action α) : Action α :=
  tryCatch act fun
    | .system e => throw (.activity activity path e)
    | e => throw e

/-- Does something about a failure and fails all the same. -/
def onFailure {α : Type} (act : Action α) (repair : Action Unit) : Action α :=
  tryCatch act fun e => do
    repair
    throw e

end Action

end Handout
