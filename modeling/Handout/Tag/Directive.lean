import Handout.Tag.CommentStyle

/-!
# Directives

A directive is a comment that fills its line: blanks, the opening token, blanks, and then one of five two-word
keywords or `STUB:` with a replacement text.  After a keyword anything may follow, so long as the keyword ends at
a word boundary.  Where the style has a closing token, that token ends the line, blanks aside.

`Directive.read?` tries the ways to cut a line in a fixed order: the longest indentation first, and of a
replacement the shortest text that leaves a proper end.
-/

namespace Handout

/-- The two-word keywords. -/
inductive Keyword where
  | beginSolution
  | endSolution
  | beginHidden
  | endHidden
  | solutionFile
deriving DecidableEq, Repr

/-- The two words of a keyword. -/
def Keyword.words : Keyword → Text × Text
  | beginSolution => (Text.ofString "BEGIN", Text.ofString "SOLUTION")
  | endSolution => (Text.ofString "END", Text.ofString "SOLUTION")
  | beginHidden => (Text.ofString "BEGIN", Text.ofString "HIDDEN")
  | endHidden => (Text.ofString "END", Text.ofString "HIDDEN")
  | solutionFile => (Text.ofString "SOLUTION", Text.ofString "FILE")

/-- All keywords. -/
def Keyword.all : List Keyword := [beginSolution, endSolution, beginHidden, endHidden, solutionFile]

/-- What a directive line holds: its indentation, and the keyword as it is written or the replacement text. -/
inductive Directive where
  | keyword (indent : Text) (keyword : Keyword) (written : Text)
  | stub (indent : Text) (replacement : Text)
deriving DecidableEq, Repr

namespace Directive

/-- What follows a token at the start of a text. -/
def dropToken? : Text → Text → Option Text
  | [], t => some t
  | _ :: _, [] => none
  | k :: ks, c :: r => if k = c then dropToken? ks r else none

/-- The ways to cut a text after some of its leading blanks, the most blanks first. -/
def blankCuts : Text → List (Text × Text)
  | [] => [([], [])]
  | c :: r =>
    if Text.isBlank c then (blankCuts r).map (fun cut => (c :: cut.1, cut.2)) ++ [([], c :: r)]
    else [([], c :: r)]

/-- Whether a text is a proper end: blanks, and among them the closing token if there is one. -/
def closes (closing : Option Text) (t : Text) : Bool :=
  match closing with
  | none => t.all Text.isBlank
  | some token =>
    (blankCuts t).any fun cut =>
      match dropToken? token cut.2 with
      | some r => r.all Text.isBlank
      | none => false

/-- The shortest leading part of a text that leaves a proper end. -/
def beforeClose? (closing : Option Text) : Text → Option Text
  | [] => if closes closing [] then some [] else none
  | c :: r => if closes closing (c :: r) then some [] else (beforeClose? closing r).map (c :: ·)

/-- Reads a given keyword: how it is written, and what follows it. -/
def readKeyword? (k : Keyword) (t : Text) : Option (Text × Text) := do
  let r ← dropToken? k.words.1 t
  let blanks := r.takeWhile Text.isBlank
  if blanks.isEmpty then none
  let r ← dropToken? k.words.2 (r.dropWhile Text.isBlank)
  if r.head?.any Text.isWordChar then none
  return (k.words.1 ++ blanks ++ k.words.2, r)

/-- Reads what stands after the opening token and its blanks. -/
def readContent? (closing : Option Text) (indent t : Text) : Option Directive :=
  let keyword := Keyword.all.findSome? fun k => do
    let (written, r) ← readKeyword? k t
    if (beforeClose? closing r).isSome then some (Directive.keyword indent k written) else none
  keyword.orElse fun _ => do
    let r ← dropToken? (Text.ofString "STUB:") t
    let replacement ← (blankCuts r).findSome? fun cut => beforeClose? closing cut.2
    return .stub indent replacement

/-- Reads a line without its terminator as a directive in the given style. -/
def read? (style : CommentStyle) (body : Text) : Option Directive :=
  (blankCuts body).findSome? fun cut => do
    let r ← dropToken? style.opening cut.2
    readContent? style.closing cut.1 (r.dropWhile Text.isBlank)

/-- Reads a directive in the first style that fits. -/
def readAny? (styles : List CommentStyle) (body : Text) : Option Directive :=
  styles.findSome? fun style => read? style body

end Directive

end Handout
