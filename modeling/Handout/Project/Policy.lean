import Handout.Project.Ecosystem

/-!
# Student file policies

A policy decides which files of a project belong to the student.  Student files survive an update of the exercise
and are taken from the student's submission.  A policy loads the configuration of its project when it first needs it
and keeps it from then on; the degenerate policies never need it.
-/

namespace Handout

/-- What a path of a project is. -/
inductive Classification where
  | studentFile
  | forceUpdated
  | exerciseFile
deriving DecidableEq, Repr

/-- The name of a classification. -/
def Classification.name : Classification → String
  | studentFile => "student_file"
  | forceUpdated => "force_updated"
  | exerciseFile => "exercise_file"

/-- The kinds of policies: the heuristics of an ecosystem, or one answer for all files. -/
inductive PolicyKind where
  | ecosystem (e : Ecosystem)
  | nothing
  | everything
deriving DecidableEq, Repr

/-- The name of a kind of policy. -/
def PolicyKind.name : PolicyKind → String
  | ecosystem e => e.name
  | nothing => "nothing"
  | everything => "everything"

/-- All kinds of policies. -/
def PolicyKind.all : List PolicyKind := Ecosystem.all.map ecosystem ++ [nothing, everything]

/-- Whether a path relative to the root of a project is a source file that belongs to the student. -/
def PolicyKind.isStudentSource (k : PolicyKind) (p : Path) : Bool :=
  match k with
  | ecosystem e => e.isStudentSource p
  | nothing => false
  | everything => true

/-- A policy for the project whose configuration lies under `configParent`.  The number tells policies apart that
have been made separately. -/
structure Policy where
  kind : PolicyKind
  configParent : Path
  number : Nat
deriving DecidableEq, Repr

namespace Policy

/-- Makes a policy. -/
def make (kind : PolicyKind) (configParent : Path) : Action Policy := do
  let number := (← get).policies
  modify fun s => { s with policies := number + 1 }
  return { kind, configParent, number }

/-- The configuration of a policy, loaded when it is first needed. -/
def config (policy : Policy) : Action Config := do
  match (← get).loaded.lookup policy.number with
  | some c => return c
  | none =>
    let c ← Config.load policy.configParent
    modify fun s => { s with loaded := (policy.number, c) :: s.loaded }
    return c

/-- Whether a path equals or lies under one of some paths. -/
def isUnderAny (p : Path) (roots : List Path) : Bool := roots.any p.isUnder

/-- Whether a path lies under the configured entries of a project. -/
def isConfigured (project absolute : Path) (entries : List Path) : Action Bool :=
  return isUnderAny absolute (← Config.resolve project entries)

/-- Classifies an existing path of a project with the rules of an ecosystem. -/
def classifyExisting (e : Ecosystem) (c : Config) (p project : Path) (updating : Bool) : Action Classification := do
  let absolute ← Action.resolve p
  let root ← Action.resolve project
  if ← (if updating then isConfigured root absolute c.forceUpdate else return false) then return .forceUpdated
  if ← isConfigured root absolute c.extraExerciseFiles then return .exerciseFile
  if absolute = root then return .exerciseFile
  if ← isConfigured root absolute c.extraStudentFiles then return .studentFile
  let relative := (absolute.relativeTo? root).getD p
  return if e.isStudentSource relative then .studentFile else .exerciseFile

/-- Classifies a path of a project.  A configuration may be given instead of that of the policy. -/
def classify (policy : Policy) (p project : Path) (given : Option Config) (updating : Bool) :
    Action Classification := do
  match policy.kind with
  | .nothing => return .exerciseFile
  | .everything =>
    if p.name = Config.fileName then return .exerciseFile
    if (← Action.resolve p) = (← Action.resolve project) then return .exerciseFile
    return .studentFile
  | .ecosystem e =>
    let c ← match given with
      | some c => pure c
      | none => policy.config
    if !(← Action.pathExists p) then return .exerciseFile
    if p.name = Config.fileName then return .exerciseFile
    classifyExisting e c p project updating

/-- Whether a path of a project is a student file. -/
def isStudentFile (policy : Policy) (p project : Path) (given : Option Config) : Action Bool :=
  return (← policy.classify p project given false) == .studentFile

/-- Whether a path of a project is configured to be overwritten by every update. -/
def isUpdatingForced (policy : Policy) (p project : Path) (given : Option Config) : Action Bool := do
  match policy.kind with
  | .nothing | .everything => return false
  | .ecosystem _ =>
    let c ← match given with
      | some c => pure c
      | none => policy.config
    let root ← Action.resolve project
    let absolute ← Action.resolve p
    isConfigured root absolute c.forceUpdate

end Policy

end Handout
