import Handout.Exercise.Walk
import Handout.Files.Copy
import Handout.Tag.Parse

/-!
# Deriving solutions and stubs

Every file of an exercise that is not skipped is mirrored under a destination.  Binary files are copied as they are;
of other files only the spans that a filter keeps are written.  A file whose marker of a solution file is not kept is
left out altogether.
-/

namespace Handout.Exercise

/-- Extensions of files that are copied as they are. -/
def binaryExtensions : List String :=
  ["class", "jar", "exe", "jpg", "jpeg", "gif", "png", "zip", "tar", "gz", "db", "bin", "csv", "tsv"]

/-- Whether a file is copied as it is; a file without extension is, too. -/
def isBinary (p : Path) : Bool :=
  let extension := CommentStyle.lowercase p.extension
  extension.isEmpty || binaryExtensions.contains extension

/-- The spans of a file. -/
def parseFile (p : Path) : Action (List Span) := do
  let data ← Action.during .read p (Action.readFile p)
  let tagged := parseTags p.extension data
  match tagged.fault with
  | some fault => throw (.tags fault (some p))
  | none => return tagged.spans

/-- Whether a filter leaves out the file with the given spans. -/
def isLeftOut (keep : SpanFilter) (spans : List Span) : Bool :=
  spans.any fun s => s.kind == .solutionFileMarker && !keep s.kind

/-- Makes the directory that is to hold a file. -/
def makeParent (p : Path) : Action Unit := Action.during .createDirectory p.parent (Action.makeDirectories p.parent)

/-- Mirrors a file. -/
def mirrorFile (keep : SpanFilter) (source target : Path) : Action Unit := do
  if isBinary source then
    makeParent target
    Action.during .copy source
      (Action.copyContent (.path source) source.written (.path target) target.written)
  else
    let spans ← parseFile source
    if isLeftOut keep spans then return ()
    makeParent target
    Action.during .write target (Action.writeFile target.written (render keep spans))

/-- The place under a destination of a file under a source. -/
def mirrored (source target file : Path) : Path := target.join ((file.relativeTo? source).getD file)

/-- A bound on the nesting of directories while files are put under a destination. -/
def nesting (f : Files) (target : Path) : Nat := 4 * f.height + 2 * target.parts.length + 4

/-- Mirrors the files under a source. -/
def process (keep : SpanFilter) (source target : Path) : Action Unit := do
  Action.note .info .treeProcessor s!"processing project {source.toString}"
  foldFiles (fun _ file => mirrorFile keep file (mirrored source target file))
    (nesting (← get).files target) () source

/-- Derives the solution of several exercises, one after the other, into one destination. -/
def prepareSolution (sources : List Path) (target : Path) : Action Unit :=
  sources.forM fun source => process SpanFilter.solution source target

/-- Derives the stub of an exercise, with or without its hidden regions. -/
def prepareStub (source target : Path) (keepHidden : Bool) : Action Unit :=
  process (if keepHidden then SpanFilter.stub else SpanFilter.review) source target

end Handout.Exercise
