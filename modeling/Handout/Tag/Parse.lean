import Handout.Tag.Lexer
import Handout.Text.Detection

/-!
# Tagging files

A file is decoded, tagged line by line, and each line is encoded again.  A byte order mark is a plain span of its
own, so every output keeps it.  Data that looks wide but does not decode is taken byte by byte, mark included.
-/

namespace Handout

/-- A decoded file: its byte order mark, its encoding and its text. -/
structure Decoded where
  mark : Bytes
  encoding : Encoding
  text : Text
deriving DecidableEq, Repr

/-- Decodes the content of a file. -/
def decode (data : Bytes) : Decoded :=
  let narrow : Decoded := ⟨[], .latin1, data.map UInt8.toNat⟩
  match Detection.wideEncoding? data with
  | none => narrow
  | some (mark, encoding) =>
    match encoding.decode? (data.drop mark.length) with
    | some text => ⟨mark, encoding, text⟩
    | none => narrow

/-- The spans of a file up to the first broken rule. -/
structure Tagged where
  spans : List Span
  fault : Option TagFault
deriving DecidableEq, Repr

/-- The span that a tagged line is in the file. -/
def TaggedLine.span (e : Encoding) (l : TaggedLine) : Span := ⟨l.kind, e.encode l.text, e.encode l.raw⟩

/-- The plain span of some bytes, left out if there are none. -/
def plainSpan (data : Bytes) : List Span := if data.isEmpty then [] else [⟨.plain, data, data⟩]

/-- The spans of the content of a file with the given extension. -/
def parseTags (extension : String) (data : Bytes) : Tagged :=
  match CommentStyle.forExtension? extension with
  | none => ⟨plainSpan data, none⟩
  | some styles =>
    let file := decode data
    let (lines, fault) := tagLines styles (splitLines file.text)
    ⟨plainSpan file.mark ++ lines.map (TaggedLine.span file.encoding), fault⟩

end Handout
