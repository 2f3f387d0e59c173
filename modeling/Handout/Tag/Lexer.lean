import Handout.Tag.Directive
import Handout.Tag.Line
import Handout.Tag.Span

/-!
# Tagging lines

Lines are tagged one after the other.  What has to be remembered is the open block, if any, and whether a directive
has been met.  Blocks do not nest, a block ends with the keyword of its own kind and before the end of the file, and
`SOLUTION FILE` is the first directive of its file.  The first line that breaks a rule ends the tagging; the lines
before it keep their tags.
-/

namespace Handout

/-- The regions that a pair of directives encloses. -/
inductive Block where
  | solution
  | hidden
deriving DecidableEq, Repr

/-- The kind of the lines in a block. -/
def Block.kind : Block → SpanKind
  | solution => .solution
  | hidden => .hidden

/-- How tags can be malformed. -/
inductive TagRule where
  | balance
  | markerFirst
deriving DecidableEq, Repr

/-- A broken rule, with the line that breaks it. -/
structure TagFault where
  rule : TagRule
  lineNumber : Nat
  line : Text
deriving DecidableEq, Repr

/-- A line of a file, with its kind and the text that takes its place. -/
structure TaggedLine where
  kind : SpanKind
  text : Text
  raw : Text
deriving DecidableEq, Repr

/-- The block that is open, with the number and text of its first line. -/
structure OpenBlock where
  block : Block
  lineNumber : Nat
  line : Text
deriving DecidableEq, Repr

/-- What is remembered from the lines before. -/
structure LexerState where
  block : Option OpenBlock := none
  seenDirective : Bool := false
deriving DecidableEq, Repr

namespace Lexer

/-- Opens a block, unless one is open. -/
def openBlock (b : Block) (s : LexerState) (n : Nat) (line : Text) : Except TagFault (TaggedLine × LexerState) :=
  match s.block with
  | some _ => .error ⟨.balance, n, line⟩
  | none => .ok (⟨b.kind, [], line⟩, ⟨some ⟨b, n, line⟩, true⟩)

/-- Closes the open block, which has to be the given one. -/
def closeBlock (b : Block) (s : LexerState) (n : Nat) (line : Text) : Except TagFault (TaggedLine × LexerState) :=
  if s.block.map OpenBlock.block = some b then .ok (⟨b.kind, [], line⟩, { s with block := none })
  else .error ⟨.balance, n, line⟩

/-- Tags the line with number `n`. -/
def step (styles : List CommentStyle) (s : LexerState) (n : Nat) (line : Text) :
    Except TagFault (TaggedLine × LexerState) :=
  match Directive.readAny? styles (lineBody line) with
  | none =>
    let kind := match s.block with
      | some b => b.block.kind
      | none => .plain
    .ok (⟨kind, line, line⟩, s)
  | some (.stub indent replacement) =>
    .ok (⟨.stub, indent ++ replacement ++ lineEnd line, line⟩, { s with seenDirective := true })
  | some (.keyword _ .solutionFile _) =>
    if s.seenDirective then .error ⟨.markerFirst, n, line⟩
    else .ok (⟨.solutionFileMarker, [], line⟩, { s with seenDirective := true })
  | some (.keyword _ .beginSolution _) => openBlock .solution s n line
  | some (.keyword _ .beginHidden _) => openBlock .hidden s n line
  | some (.keyword _ .endSolution _) => closeBlock .solution s n line
  | some (.keyword _ .endHidden _) => closeBlock .hidden s n line

/-- Tags the remaining lines, of which the first has number `n`. -/
def run (styles : List CommentStyle) (s : LexerState) (n : Nat) : List Text → List TaggedLine × Option TagFault
  | [] => ([], s.block.map fun b => ⟨.balance, b.lineNumber, b.line⟩)
  | line :: rest =>
    match step styles s n line with
    | .error fault => ([], some fault)
    | .ok (tagged, s) =>
      let (others, fault) := run styles s (n + 1) rest
      (tagged :: others, fault)

end Lexer

/-- Tags the lines of a file, up to the first broken rule. -/
def tagLines (styles : List CommentStyle) (lines : List Text) : List TaggedLine × Option TagFault :=
  Lexer.run styles {} 1 lines

end Handout
