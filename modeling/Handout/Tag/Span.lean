import Handout.Bytes

/-!
# Tagged spans

A tagged file is a sequence of spans.  Each knows the bytes it covers in the source and the bytes that it
contributes to an output.  An output keeps the spans of certain kinds.
-/

namespace Handout

/-- What a span is for. -/
inductive SpanKind where
  | plain
  | stub
  | solution
  | solutionFileMarker
  | hidden
deriving DecidableEq, Repr

/-- The name of a kind of span. -/
def SpanKind.name : SpanKind → String
  | plain => "plain"
  | stub => "stub"
  | solution => "solution"
  | solutionFileMarker => "solution_file_marker"
  | hidden => "hidden"

/-- A piece of a source file: `raw` is what it covers there, `text` what an output gets in its place. -/
structure Span where
  kind : SpanKind
  text : Bytes
  raw : Bytes
deriving DecidableEq, Repr

/-- Which kinds of spans an output keeps. -/
abbrev SpanFilter := SpanKind → Bool

namespace SpanFilter

/-- A solution has everything but the replacements of stubs. -/
def solution : SpanFilter := fun k => k != .stub

/-- A stub has everything but solutions. -/
def stub : SpanFilter := fun k => k != .solution && k != .solutionFileMarker

/-- A stub for review lacks hidden regions as well. -/
def review : SpanFilter := fun k => stub k && k != .hidden

end SpanFilter

/-- The output that keeps certain spans of a file. -/
def render (keep : SpanFilter) (spans : List Span) : Bytes :=
  (spans.filter fun s => keep s.kind).flatMap Span.text

end Handout
