import Handout.Failure

/-!
# Project configurations

A configuration names the exceptions of one exercise: paths that belong to the student, paths that belong to the
exercise, and paths that an update always overwrites.  It is read from a value of any shape; an entry has to be a
non-empty text that denotes a path inside the project.  Each list is kept sorted and without repetitions.  An odd
entry is shown when the value is refused; one that cannot be shown is a failure of its own.
-/

namespace Handout

/-- The exceptions of a project.  All paths are relative to its root. -/
structure Config where
  extraStudentFiles : List Path := []
  extraExerciseFiles : List Path := []
  forceUpdate : List Path := []
deriving DecidableEq, Repr

namespace Config

/-- The name of the configuration file at the root of a project. -/
def fileName : String := ".tmcproject.yml"

/-- The paths in one of the lists. -/
def paths (c : Config) : ConfigKey → List Path
  | .extraStudentFiles => c.extraStudentFiles
  | .extraExerciseFiles => c.extraExerciseFiles
  | .forceUpdate => c.forceUpdate

/-- Paths in order, each once. -/
def pathSet (ps : List Path) : List Path := Path.sort ps.eraseDups

/-- The collection that a value refers to, or the value itself. -/
def target (d : Document) : Value → Value
  | .shared index => d.shared.getD index .null
  | v => v

/-- Whether two keys of a mapping written in the configuration are the same text. -/
def isKey (key : ConfigKey) : Value → Bool
  | .text t => t == Text.ofString key.name
  | _ => false

/-- Why no configuration is read from a value. -/
inductive Fault where
  | refused (fault : ConfigFault)
  | scalar (fault : ScalarFault)
deriving DecidableEq, Repr

/-- The failure with a configuration file that is named. -/
def Fault.failure (path : Path) : Fault → Failure
  | refused fault => .config path fault
  | scalar fault => .scalar fault

/-- What is said about an integer that is too long to be shown. -/
def tooLong : Text := Text.ofString <| s!"Exceeds the limit ({maxDigits} digits) for integer string conversion; "
  ++ "use sys.set_int_max_str_digits() to increase the limit"

/-- Refuses an odd entry of a list, which is shown. -/
def refuse (d : Document) (entry : Value) (fault : Text → ConfigFault) : Except Fault Path :=
  match d.describe entry with
  | some shown => .error (.refused (fault shown))
  | none => .error (.scalar (.invalid tooLong))

/-- Reads an entry of a list. -/
def readEntry (d : Document) (key : ConfigKey) (entry : Value) : Except Fault Path :=
  match entry with
  | .text [] => refuse d entry (.notPath key)
  | .text t =>
    let path := Path.ofString (Text.toString t)
    if path.isAbsolute || path.parts.contains ".." then refuse d entry (.outside key)
    else .ok path
  | _ => refuse d entry (.notPath key)

/-- Reads one of the lists from the entries of the top-level mapping. -/
def readList (d : Document) (entries : List (Value × Value)) (key : ConfigKey) : Except Fault (List Path) :=
  match (entries.find? fun e => isKey key e.1).map fun e => target d e.2 with
  | none | some .null => .ok []
  | some (.list items) => (items.mapM (readEntry d key)).map pathSet
  | some _ => .error (.refused (.notList key))

/-- Reads a configuration from a value. -/
def ofDocument (d : Document) : Except Fault Config :=
  match target d d.root with
  | .null => .ok {}
  | .mapping entries => do
    let extraStudentFiles ← readList d entries .extraStudentFiles
    let extraExerciseFiles ← readList d entries .extraExerciseFiles
    let forceUpdate ← readList d entries .forceUpdate
    return { extraStudentFiles, extraExerciseFiles, forceUpdate }
  | _ => .error (.refused .notMapping)

end Config

end Handout
