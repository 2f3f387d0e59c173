import Handout.Tag.Lexer
import Handout.Text.RawName
import Handout.Text.Shell
import Handout.Value

/-!
# Failures

Every way in which an operation can fail is a cause with its circumstances.  What is said about a cause is decided
in one place, `Failure.message`.
-/

namespace Handout

/-- Why the operating system refuses a request. -/
inductive SystemCode where
  | noEntry
  | denied
  | fileExists
  | notDirectory
  | isDirectory
  | nameTooLong
  | linkLoop
  | invalidArgument
deriving DecidableEq, Repr

namespace SystemCode

/-- The number of an error. -/
def number : SystemCode → Nat
  | noEntry => 2
  | denied => 13
  | fileExists => 17
  | notDirectory => 20
  | isDirectory => 21
  | nameTooLong => 36
  | linkLoop => 40
  | invalidArgument => 22

/-- The text of an error. -/
def text : SystemCode → String
  | noEntry => "No such file or directory"
  | denied => "Permission denied"
  | fileExists => "File exists"
  | notDirectory => "Not a directory"
  | isDirectory => "Is a directory"
  | nameTooLong => "File name too long"
  | linkLoop => "Too many levels of symbolic links"
  | invalidArgument => "Invalid argument"

end SystemCode

/-- How a file was named when it was found to be the source and the target of a copy. -/
inductive FileName where
  | path (p : Path)
  | written (s : String)
  | entry (name : String)
deriving DecidableEq, Repr

/-- The name of a file in a message. -/
def FileName.text : FileName → String
  | path p => s!"PosixPath({quotedString p.toString})"
  | written s => quotedString s
  | entry name => s!"<DirEntry {quotedString name}>"

/-- An item in the report on a copied directory: a copy that failed, or a letter of a message that stands for
itself. -/
inductive CopyFault where
  | failed (source target : String) (reason : String)
  | letter (c : Char)
deriving DecidableEq, Repr

/-- The text of an item in the report on a copied directory. -/
def CopyFault.text : CopyFault → String
  | failed source target reason => s!"({quotedString source}, {quotedString target}, {quotedString reason})"
  | letter c => quotedString (String.ofList [c])

/-- A file operation that failed. -/
inductive SystemError where
  | call (code : SystemCode) (path : String)
  | rename (code : SystemCode) (source target : String)
  | sameFile (source target : FileName)
  | destinationExists (path : String)
  | copies (faults : List CopyFault)
  /-- A request that concerns no file by name. -/
  | plain (code : SystemCode)
  | stream (reason : String)
deriving DecidableEq, Repr

/-- The text of a failed file operation. -/
def SystemError.text : SystemError → String
  | call code path => s!"[Errno {code.number}] {code.text}: {quotedString path}"
  | rename code source target =>
    s!"[Errno {code.number}] {code.text}: {quotedString source} -> {quotedString target}"
  | sameFile source target => s!"{source.text} and {target.text} are the same file"
  | destinationExists path => s!"Destination path '{path}' already exists"
  | copies faults => "[" ++ ", ".intercalate (faults.map CopyFault.text) ++ "]"
  | plain code => s!"[Errno {code.number}] {code.text}"
  | stream reason => reason

/-- The bare reason of a failed file operation, without the files it concerns. -/
def SystemError.reason : SystemError → String
  | call code _ => code.text
  | rename code _ _ => code.text
  | plain code => code.text
  | _ => "None"

/-- What was being done when a file operation failed. -/
inductive Activity where
  | copy
  | createDirectory
  | list
  | move
  | read
  | write
  | writeArchive
deriving DecidableEq, Repr

/-- The words for an activity. -/
def Activity.text : Activity → String
  | copy => "copy"
  | createDirectory => "create directory"
  | list => "list"
  | move => "move"
  | read => "read"
  | write => "write"
  | writeArchive => "write archive"

/-- Why an archive is refused. -/
inductive ArchiveFault where
  | malformed
  | unknownFormat
  | unsafeMember (name : String)
  | encryptedMember (name : String)
deriving DecidableEq, Repr

/-- The reason for which an archive is refused. -/
def ArchiveFault.text : ArchiveFault → String
  | malformed => "<library error>"
  | unknownFormat => "not a zip or tar archive"
  | unsafeMember name => s!"unsafe member path {(RawName.shown name).quoted.toString}"
  | encryptedMember name => s!"encrypted member {quotedString name}"

/-- The lists of paths in a project configuration. -/
inductive ConfigKey where
  | extraStudentFiles
  | extraExerciseFiles
  | forceUpdate
deriving DecidableEq, Repr

/-- The name of a list in the configuration file. -/
def ConfigKey.name : ConfigKey → String
  | extraStudentFiles => "extra_student_files"
  | extraExerciseFiles => "extra_exercise_files"
  | forceUpdate => "force_update"

/-- Why a project configuration is refused; an odd entry is given as it is shown. -/
inductive ConfigFault where
  | malformed
  | notMapping
  | notList (key : ConfigKey)
  | notPath (key : ConfigKey) (entry : Text)
  | outside (key : ConfigKey) (entry : Text)
deriving DecidableEq, Repr

/-- The reason for which a project configuration is refused. -/
def ConfigFault.text : ConfigFault → Text
  | malformed => Text.ofString "<library error>"
  | notMapping => Text.ofString "expected a mapping at the top level"
  | notList key => Text.ofString s!"{key.name} must be a list of paths"
  | notPath key entry => Text.ofString s!"{key.name} contains a non-path entry " ++ entry
  | outside key entry =>
    Text.ofString s!"{key.name} entry " ++ entry ++ Text.ofString " must be a relative path inside the project"

/-- Why a scalar does not denote a value of the type that it is given. -/
inductive ScalarFault where
  | invalid (reason : Text)
  | unknownWord
  | empty
  | noMoment
  | tooLarge
deriving DecidableEq, Repr

/-- The text on a scalar. -/
def ScalarFault.text : ScalarFault → Text
  | invalid reason => reason
  | unknownWord => Text.ofString "the word is not a truth value"
  | empty => Text.ofString "the number has no digits"
  | noMoment => Text.ofString "the scalar is no point in time"
  | tooLarge => Text.ofString "the number is too large"

/-- What malformed tags break. -/
def TagRule.text : TagRule → String
  | balance => "unbalanced BEGIN/END tag"
  | markerFirst => "SOLUTION FILE must be the first tag in the file"

/-- What is said about malformed tags when the broken rule is not known. -/
def malformedTag : String := "malformed tag"

/-- Why an operation fails. -/
inductive Failure where
  /-- A file operation outside any of the named activities. -/
  | system (error : SystemError)
  | activity (activity : Activity) (path : Path) (cause : SystemError)
  | tags (fault : TagFault) (path : Option Path)
  | invalidParam (value : Value)
  | noProjectRoot (archive : Path)
  | noEcosystem (project : Path)
  | archive (path : Path) (fault : ArchiveFault)
  | config (path : Path) (fault : ConfigFault)
  /-- A path that was to be taken relative to a base does not lie under it. -/
  | notUnder (path base : Path)
  /-- A path with a zero character names nothing. -/
  | zeroInPath
  | scalar (fault : ScalarFault)
  | notIterable (type : String)
  /-- A file that has to be text is not valid UTF-8. -/
  | undecodable
  | truncatedStream
  | multipleDisks
  | emptyEntryName
  | tooDeep
  /-- Links that lead back to themselves. -/
  | linkLoop
deriving Repr

namespace Failure

/-- The text on a failed file operation. -/
def activityText (activity : String) (path : Path) (cause : String) : String :=
  s!"Failed to {activity} {path.display}: {cause}"

/-- The text on a line with malformed tags. -/
def lineText (description : String) (lineNumber : Int) (line : Text) (path : Option Path) : Text :=
  let place := match path with
    | some p => s!"{p.display}, line {lineNumber}"
    | none => s!"line {lineNumber}"
  Text.ofString s!"{place}: {description}: " ++ line.trim Text.isWideBlank

/-- The text on malformed tags. -/
def tagText (fault : TagFault) (path : Option Path) : Text :=
  lineText fault.rule.text fault.lineNumber fault.line path

/-- The text on an archive without a project. -/
def noProjectRootText (archive : Path) : String := s!"No project directory found in archive {archive.display}"

/-- The text on a project that belongs to no ecosystem. -/
def noEcosystemText (project : Path) : String := s!"No matching plugin found for {project.display}"

/-- The text on a refused archive. -/
def archiveText (path : Path) (reason : String) : String := s!"Unreadable archive {path.display}: {reason}"

/-- The text on a refused configuration. -/
def configText (path : Path) (reason : Text) : Text :=
  Text.ofString s!"Invalid project configuration {path.display}: " ++ reason

/-- The text on a refused parameter. -/
def invalidParamText (value : Value) : Text := Text.ofString "Invalid parameter value: " ++ value.display

/-- What is said about a failure. -/
def message : Failure → Text
  | system error => Text.ofString error.text
  | activity a path cause => Text.ofString (activityText a.text path cause.text)
  | tags fault path => tagText fault path
  | invalidParam value => invalidParamText value
  | noProjectRoot a => Text.ofString (noProjectRootText a)
  | noEcosystem project => Text.ofString (noEcosystemText project)
  | archive path fault => Text.ofString (archiveText path fault.text)
  | config path fault => configText path fault.text
  | notUnder path base => Text.ofString <|
    s!"{quotedString path.toString} is not in the subpath of {quotedString base.toString}"
      ++ " OR one path is relative and the other is absolute."
  | zeroInPath => Text.ofString "embedded null byte"
  | scalar fault => fault.text
  | notIterable type => Text.ofString s!"'{type}' object is not iterable"
  | undecodable => Text.ofString "the file is not valid UTF-8"
  | truncatedStream => Text.ofString "the compressed data ends too early"
  | multipleDisks => Text.ofString "the archive spans several disks"
  | emptyEntryName => Text.ofString "the entry of the archive has no name"
  | tooDeep => Text.ofString "the collections are nested too deeply"
  | linkLoop => Text.ofString "the links lead back to themselves"

/-- Whether a failure is one that the tools report themselves. -/
def isReported : Failure → Bool
  | activity .. | tags .. | invalidParam .. | noProjectRoot .. | noEcosystem .. | archive .. | config .. => true
  | _ => false

end Failure

end Handout
