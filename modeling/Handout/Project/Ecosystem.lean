import Handout.Project.Configuration

/-!
# Ecosystems

A project belongs to the first ecosystem whose marks it bears.  An ecosystem tells which source files are the
student's, which parts of a project make up a package, and how the parts of a package are merged.
-/

namespace Handout

/-- The build tools that are supported, in order of precedence. -/
inductive Ecosystem where
  | maven
  | ant
  | make
  | csharp
  | python
deriving DecidableEq, Repr

/-- How the parts of a package are merged. -/
inductive PackagingStyle where
  | maven
  | make
  | generic
deriving DecidableEq, Repr

/-- The name of a packaging style. -/
def PackagingStyle.name : PackagingStyle → String
  | maven => "maven"
  | make => "make"
  | generic => "generic"

/-- The student and exercise parts of a project, relative to its root. -/
structure PackagingLayout where
  studentPaths : List Path
  exercisePaths : List Path
deriving DecidableEq, Repr

namespace Ecosystem

/-- All ecosystems, in order of precedence. -/
def all : List Ecosystem := [maven, ant, make, csharp, python]

/-- The name of an ecosystem. -/
def name : Ecosystem → String
  | maven => "apache-maven"
  | ant => "apache-ant"
  | make => "make"
  | csharp => "csharp"
  | python => "python3"

/-- How packages of an ecosystem are merged. -/
def style : Ecosystem → PackagingStyle
  | maven => .maven
  | make => .make
  | ant | csharp | python => .generic

/-- Whether a path relative to the root of a project is a source file that belongs to the student. -/
def isStudentSource (e : Ecosystem) (p : Path) : Bool :=
  match e with
  | maven => p.startsWith (.ofString "src/main")
  | ant | make => p.startsWith (.ofString "src")
  | csharp => p.startsWith (.ofString "src") && !(["bin", "obj"].any fun d => p.components.contains d)
  | python => p.startsWith (.ofString "src") && p.suffix != ".pyc" && !p.components.contains "__pycache__"

/-- The parts of a project that belong to the student. -/
def defaultStudentPaths : Ecosystem → List Path
  | maven => [.ofString "src/main"]
  | ant | make | csharp | python => [.ofString "src"]

/-- The parts of a project that belong to the exercise. -/
def defaultExercisePaths : Ecosystem → List Path
  | maven => [.ofString "src/test"]
  | ant | make | csharp => [.ofString "test"]
  | python => [.ofString "test", .ofString "tmc"]

/-- The files of which an ecosystem requires at least one. -/
def marks : Ecosystem → List Path
  | maven => [.ofString "pom.xml"]
  | ant => [.ofString "build.xml"]
  | make => [.ofString "Makefile"]
  | csharp => []
  | python => ["setup.py", "requirements.txt", "test/__init__.py", "tmc/__main__.py"].map Path.ofString

/-- Whether some element of a list passes a test; the test is made in order and no longer than needed. -/
def anyOf {α : Type} (test : α → Action Bool) : List α → Action Bool
  | [] => return false
  | a :: r => do if ← test a then return true else anyOf test r

/-- Whether a name is that of a C# project file. -/
def isProjectFile (name : String) : Bool := ".csproj".toList.isSuffixOf name.toList

/-- The names in a directory, none if it may not be listed. -/
def visibleNames (dir : Path) : Action (List String) :=
  tryCatch (Action.names dir.written) fun
    | .system (.call .denied _) => return []
    | e => throw e

/-- Whether a path leads to a directory that holds a C# project file. -/
def leadsToProjectFile (path : Path) : Action Bool := do
  if ← Action.isDirectory path then return (← visibleNames path).any isProjectFile else return false

/-- Whether a directory holds a C# project file, directly or one level below. -/
def holdsProjectFile (dir : Path) : Action Bool := do
  let names ← visibleNames dir
  if names.any isProjectFile then return true else anyOf (fun n => leadsToProjectFile (dir.child n)) names

/-- Whether the project at a path bears the marks of an ecosystem. -/
def recognizes (e : Ecosystem) (project : Path) : Action Bool :=
  match e with
  | csharp => do
    let src := project.child "src"
    if ← Action.isDirectory src then holdsProjectFile src else return false
  | _ => anyOf (fun mark => Action.isFile (project.join mark)) e.marks

/-- The first of some ecosystems that recognizes a project. -/
def firstOf (project : Path) : List Ecosystem → Action (Option Ecosystem)
  | [] => return none
  | e :: r => do if ← e.recognizes project then return some e else firstOf project r

/-- The ecosystem of a project. -/
def find? (project : Path) : Action (Option Ecosystem) := firstOf project all

/-- The ecosystem of a project, which has to have one. -/
def get (project : Path) : Action Ecosystem := do
  match ← find? project with
  | some e => return e
  | none => throw (.noEcosystem project)

/-- Whether a path is the root of a project of some ecosystem. -/
def isProjectRoot (path : Path) : Action Bool := do
  if ← Action.isDirectory path then return (← find? path).isSome else return false

/-- The parts of a project with the given configuration: the defaults, then the configured paths, each once. -/
def layoutOf (e : Ecosystem) (c : Config) : PackagingLayout :=
  ⟨(e.defaultStudentPaths ++ c.extraStudentFiles).eraseDups,
   (e.defaultExercisePaths ++ c.extraExerciseFiles).eraseDups⟩

/-- The parts of the project at a path. -/
def layout (e : Ecosystem) (project : Path) : Action PackagingLayout := return e.layoutOf (← Config.load project)

end Ecosystem

end Handout
