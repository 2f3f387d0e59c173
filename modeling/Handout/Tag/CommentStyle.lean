import Handout.Text.CodePoint

/-!
# Comment styles

Tags are written in comments.  Which styles of comment a file may use depends on its extension; a file with any
other extension holds no tags.
-/

namespace Handout

/-- The tokens that open and close a comment; a line comment has no closing token. -/
structure CommentStyle where
  opening : Text
  closing : Option Text
deriving DecidableEq, Repr

namespace CommentStyle

/-- A comment that runs to the end of its line. -/
def line (opening : String) : CommentStyle := ⟨Text.ofString opening, none⟩

/-- A comment with a closing token. -/
def block (opening closing : String) : CommentStyle := ⟨Text.ofString opening, some (Text.ofString closing)⟩

/-- The extensions of each family of languages, with the styles of comment that it has. -/
def families : List (List CommentStyle × List String) :=
  [([line "//", block "/*" "*/"], ["java", "c", "cpp", "h", "hpp", "js", "css", "rs", "qml", "cs"]),
   ([block "<!--" "-->"], ["xml", "http", "html", "qrc"]),
   ([line "#"], ["properties", "py", "r"])]

/-- A string in small letters.  The extensions known here are ASCII, and no capital beyond ASCII stands for one of
their letters, so ASCII letters are enough. -/
def lowercase (s : String) : String := String.ofList (s.toList.map Char.toLower)

/-- The styles of comment in files with the given extension, which is written without its dot. -/
def forExtension? (extension : String) : Option (List CommentStyle) :=
  (families.find? fun f => f.2.contains (lowercase extension)).map Prod.fst

end CommentStyle

end Handout
