import Handout.Yaml.Fault

/-!
# Tokens of YAML

A text is cut into tokens.  In block style the indentation opens and closes collections; the tokens for this are
supplied here.  A simple key shows itself only by the colon behind it: its place among the tokens is remembered, so
that the token of the key can be put there later.  A simple key stands on one line and has at most 1024 characters.
-/

namespace Handout.Yaml

/-- How a scalar is written. -/
inductive ScalarStyle where
  | plain
  | quoted
  | block
deriving DecidableEq, Repr

/-- A tag: a handle, unless the tag is written out, and a suffix. -/
structure TagName where
  handle : Option String
  suffix : String
deriving DecidableEq, Repr

/-- The tokens of a text. -/
inductive Token where
  | versionDirective (major : Nat)
  | tagDirective (handle base : String)
  | otherDirective
  | documentStart
  | documentEnd
  | streamEnd
  | blockSequenceStart
  | blockMappingStart
  | blockEnd
  | flowSequenceStart
  | flowSequenceEnd
  | flowMappingStart
  | flowMappingEnd
  | flowEntry
  | blockEntry
  | key
  | value
  | alias (name : String)
  | anchor (name : String)
  | tag (name : TagName)
  | scalar (style : ScalarStyle) (text : Text)
deriving DecidableEq, Repr, Inhabited

/-- Where a simple key may have begun. -/
structure SimpleKey where
  tokenNumber : Nat
  required : Bool
  index : Nat
  line : Nat
  column : Nat

/-- What is remembered between tokens. -/
structure Scanner where
  rest : List Char
  index : Nat := 0
  line : Nat := 0
  column : Nat := 0
  flowLevel : Nat := 0
  indent : Int := -1
  indents : List Int := []
  allowSimpleKey : Bool := true
  keys : List (Nat × SimpleKey) := []
  tokens : Array Token := #[]
  done : Bool := false

/-- A step of cutting a text into tokens. -/
abbrev Scan (α : Type) := StateT Scanner (Except Fault) α

namespace Scan

/-- The character that stands for the end of the text. -/
def endMark : Char := Char.ofNat 0

/-- The characters that end a line. -/
def lineEnds : List Char := ['\r', '\n', Char.ofNat 0x85, Char.ofNat 0x2028, Char.ofNat 0x2029]

/-- Whether a character ends a line, or the text. -/
def isEnd (c : Char) : Bool := c == endMark || lineEnds.contains c

/-- Whether a character ends a line or the text, or is a space. -/
def isEndOrSpace (c : Char) : Bool := c == ' ' || isEnd c

/-- Whether a character ends a line or the text, or is a space or tab. -/
def isGap (c : Char) : Bool := c == '\t' || isEndOrSpace c

/-- Whether a character may stand in the name of an anchor, a directive or a tag handle. -/
def isNameChar (c : Char) : Bool := c.isAlphanum || c == '-' || c == '_'

/-- Whether a character is a hexadecimal digit. -/
def isHex (c : Char) : Bool := c.isDigit || ('a' ≤ c && c ≤ 'f') || ('A' ≤ c && c ≤ 'F')

/-- The number that hexadecimal digits stand for. -/
def readHex (cs : List Char) : Nat :=
  cs.foldl (fun v c => 16 * v + (if c.isDigit then c.toNat - 48 else c.toLower.toNat - 87)) 0

/-- Gives up. -/
def fail {α : Type} : Scan α := throw .malformed

/-- The character `k` places ahead. -/
def peek (k : Nat) : Scan Char := do return ((← get).rest.drop k).headD endMark

/-- The next `n` characters. -/
def ahead (n : Nat) : Scan (List Char) := do return (← get).rest.take n

/-- Goes past one character. -/
def advance (s : Scanner) : Scanner :=
  match s.rest with
  | [] => s
  | c :: r =>
    let s := { s with rest := r, index := s.index + 1 }
    if c == '\n' || c == Char.ofNat 0x85 || c == Char.ofNat 0x2028 || c == Char.ofNat 0x2029
        || (c == '\r' && r.head? != some '\n') then
      { s with line := s.line + 1, column := 0 }
    else if c == Char.ofNat 0xFEFF then s
    else { s with column := s.column + 1 }

/-- Goes past `n` characters. -/
def forward : Nat → Scan Unit
  | 0 => return ()
  | n + 1 => do
    modify advance
    forward n

/-- Goes past the characters that satisfy a test, and gives them. -/
def takeWhile (p : Char → Bool) : Scan (List Char) := do
  let cs := (← get).rest.takeWhile p
  forward cs.length
  return cs

/-- A bound on the number of steps that a loop over the rest of the text can take. -/
def fuel : Scan Nat := do return (← get).rest.length + 2

/-- The code points of characters. -/
def code (cs : List Char) : Text := cs.map Char.toNat

/-- Goes past the end of a line, if there is one, and gives the break that it stands for. -/
def lineBreak : Scan Text := do
  let c ← peek 0
  if c == '\r' || c == '\n' || c == Char.ofNat 0x85 then
    if (← ahead 2) == ['\r', '\n'] then forward 2 else forward 1
    return [10]
  else if c == Char.ofNat 0x2028 || c == Char.ofNat 0x2029 then
    forward 1
    return [c.toNat]
  else return []

/-- Whether a line begins with the given marker of a document, set off by a gap. -/
def atMarker (marker : List Char) : Scan Bool := do
  if (← ahead 3) == marker then return isGap (← peek 3) else return false

/-- Whether a line begins with a marker of a document. -/
def atAnyMarker : Scan Bool := do
  if ← atMarker ['-', '-', '-'] then return true else atMarker ['.', '.', '.']

/-- Adds a token. -/
def add (t : Token) : Scan Unit := modify fun s => { s with tokens := s.tokens.push t }

/-- Puts a token before the token with the given number. -/
def insert (n : Nat) (t : Token) : Scan Unit :=
  modify fun s => { s with tokens := (s.tokens.extract 0 n).push t ++ s.tokens.extract n s.tokens.size }

/-! ### Indentation and simple keys -/

/-- Closes the block collections that are indented deeper than a column. -/
def unwindLoop (column : Int) : Nat → Scan Unit
  | 0 => return ()
  | n + 1 => do
    let s ← get
    if column < s.indent then
      set { s with indent := s.indents.headD (-1), indents := s.indents.drop 1 }
      add .blockEnd
      unwindLoop column n

/-- Closes the block collections that are indented deeper than a column, unless in flow style. -/
def unwind (column : Int) : Scan Unit := do
  let s ← get
  if s.flowLevel = 0 then unwindLoop column (s.indents.length + 1)

/-- Opens an indentation if the column is deeper than the current one. -/
def indentTo (column : Nat) : Scan Bool := do
  let s ← get
  if s.indent < column then
    set { s with indent := (column : Int), indents := s.indent :: s.indents }
    return true
  else return false

/-- Forgets the possible keys that are too long or began on another line. -/
def dropStaleKeys : Scan Unit := do
  let s ← get
  let stale (k : SimpleKey) : Bool := k.line != s.line || 1024 < s.index - k.index
  if s.keys.any fun k => k.2.required && stale k.2 then fail
  set { s with keys := s.keys.filter fun k => !stale k.2 }

/-- Forgets the possible key at this level. -/
def dropKey : Scan Unit := do
  let s ← get
  if (s.keys.lookup s.flowLevel).any SimpleKey.required then fail
  set { s with keys := s.keys.filter fun k => k.1 != s.flowLevel }

/-- Remembers that a simple key may begin here. -/
def saveKey : Scan Unit := do
  let s ← get
  let required := s.flowLevel == 0 && s.indent == s.column
  if s.allowSimpleKey then
    dropKey
    let key : SimpleKey := ⟨s.tokens.size, required, s.index, s.line, s.column⟩
    modify fun s => { s with keys := (s.flowLevel, key) :: s.keys }

/-- Sets whether a simple key may begin here. -/
def allowKey (allow : Bool) : Scan Unit := modify fun s => { s with allowSimpleKey := allow }

/-! ### Blanks, directives, anchors and tags -/

/-- Goes past spaces, comments and the ends of lines. -/
def skipBlanks : Nat → Scan Unit
  | 0 => return ()
  | n + 1 => do
    let _ ← takeWhile (· == ' ')
    if (← peek 0) == '#' then
      let _ ← takeWhile fun c => !isEnd c
    if (← lineBreak).isEmpty then return ()
    if (← get).flowLevel = 0 then allowKey true
    skipBlanks n

/-- Goes past what may follow on the line of a directive or of the header of a block scalar. -/
def skipLine : Scan Unit := do
  let _ ← takeWhile (· == ' ')
  if (← peek 0) == '#' then
    let _ ← takeWhile fun c => !isEnd c
  if !isEnd (← peek 0) then fail
  let _ ← lineBreak

/-- A number in a directive. -/
def directiveNumber : Scan Nat := do
  let ds ← takeWhile Char.isDigit
  if ds.isEmpty then fail
  return ds.foldl (fun v c => 10 * v + (c.toNat - 48)) 0

/-- The bytes of an escaped character in a tag. -/
def uriEscapes : Nat → Scan Bytes
  | 0 => return []
  | n + 1 => do
    if (← peek 0) != '%' then return []
    forward 1
    let digits ← ahead 2
    if digits.length != 2 || !digits.all isHex then fail
    forward 2
    return UInt8.ofNat (readHex digits) :: (← uriEscapes n)

/-- Whether a character may stand in a tag. -/
def isUriChar (c : Char) : Bool := c.isAlphanum || "-;/?:@&=+$,_.!~*'()[]".toList.contains c

/-- The characters of a tag. -/
def uriLoop : Nat → Scan (List Char)
  | 0 => return []
  | n + 1 => do
    let cs ← takeWhile isUriChar
    if (← peek 0) != '%' then return cs
    let bytes ← uriEscapes (← fuel)
    match Bytes.toString? bytes with
    | none => fail
    | some s => return cs ++ s.toList ++ (← uriLoop n)

/-- A tag without its handle. -/
def uri : Scan String := do
  let cs ← uriLoop (← fuel)
  if cs.isEmpty then fail
  return String.ofList cs

/-- The handle of a tag. -/
def tagHandle : Scan String := do
  if (← peek 0) != '!' then fail
  forward 1
  if (← peek 0) == ' ' then return "!"
  let name ← takeWhile isNameChar
  if (← peek 0) != '!' then fail
  forward 1
  return String.ofList ('!' :: name ++ ['!'])

/-- A directive. -/
def directive : Scan Token := do
  forward 1
  let name ← takeWhile isNameChar
  if name.isEmpty || !isEndOrSpace (← peek 0) then fail
  let token ← if name == "YAML".toList then do
      let _ ← takeWhile (· == ' ')
      let major ← directiveNumber
      if (← peek 0) != '.' then fail
      forward 1
      let _ ← directiveNumber
      if !isEndOrSpace (← peek 0) then fail
      pure (Token.versionDirective major)
    else if name == "TAG".toList then do
      let _ ← takeWhile (· == ' ')
      let handle ← tagHandle
      if (← peek 0) != ' ' then fail
      let _ ← takeWhile (· == ' ')
      let base ← uri
      if !isEndOrSpace (← peek 0) then fail
      pure (Token.tagDirective handle base)
    else do
      let _ ← takeWhile fun c => !isEnd c
      pure .otherDirective
  skipLine
  return token

/-- The name of an anchor or an alias. -/
def anchorName : Scan String := do
  forward 1
  let name ← takeWhile isNameChar
  let c ← peek 0
  if name.isEmpty || !(isGap c || "?:,]\x7d%@".toList.contains c || c == Char.ofNat 96) then fail
  return String.ofList name

/-- A tag. -/
def tagName : Scan TagName := do
  let c ← peek 1
  let name ← if c == '<' then do
      forward 2
      let suffix ← uri
      if (← peek 0) != '>' then fail
      forward 1
      pure ⟨none, suffix⟩
    else if isGap c then do
      forward 1
      pure ⟨none, "!"⟩
    else do
      let word := ((← get).rest.drop 1).takeWhile fun c => !isEndOrSpace c
      if word.contains '!' then
        let handle ← tagHandle
        pure ⟨some handle, ← uri⟩
      else do
        forward 1
        pure ⟨some "!", ← uri⟩
  if !isEndOrSpace (← peek 0) then fail
  return name

/-! ### Scalars -/

/-- What the header of a block scalar asks for. -/
structure BlockHeader where
  /-- Whether breaks at the end are kept, if that is said. -/
  keep : Option Bool
  increment : Option Nat

/-- The mark for the breaks at the end of a block scalar. -/
def chomping : Scan (Option Bool) := do
  let c ← peek 0
  if c == '+' then
    forward 1
    return some true
  else if c == '-' then
    forward 1
    return some false
  else return none

/-- The mark for the indentation of a block scalar. -/
def increment : Scan (Option Nat) := do
  let c ← peek 0
  if !c.isDigit then return none
  if c == '0' then fail
  forward 1
  return some (c.toNat - 48)

/-- The header of a block scalar. -/
def blockHeader : Scan BlockHeader := do
  let before ← chomping
  let inc ← increment
  let after ← if before.isNone && inc.isSome then chomping else pure none
  if !isEndOrSpace (← peek 0) then fail
  return ⟨before.orElse fun _ => after, inc⟩

/-- The breaks before the first line of a block scalar, and the deepest column of a space among them. -/
def blockIndentation : Nat → Nat → Scan (Text × Nat)
  | 0, deepest => return ([], deepest)
  | n + 1, deepest => do
    let c ← peek 0
    if c == ' ' then
      forward 1
      blockIndentation n (max deepest (← get).column)
    else if lineEnds.contains c then
      let b ← lineBreak
      let (breaks, deepest) ← blockIndentation n deepest
      return (b ++ breaks, deepest)
    else return ([], deepest)

/-- Goes past spaces up to a column. -/
def spacesTo (column : Nat) : Scan Unit := do
  let s ← get
  let spaces := (s.rest.takeWhile (· == ' ')).length
  forward (min spaces (column - s.column))

/-- The breaks between lines of a block scalar. -/
def blockBreaks (indent : Nat) : Nat → Scan Text
  | 0 => return []
  | n + 1 => do
    spacesTo indent
    if lineEnds.contains (← peek 0) then
      let b ← lineBreak
      return b ++ (← blockBreaks indent n)
    else return []

/-- The lines of a block scalar: their text, the last break and the breaks after it. -/
def blockLines (folded : Bool) (indent : Nat) : Nat → Text → Scan (Text × Text × Text)
  | 0, breaks => return ([], [], breaks)
  | n + 1, breaks => do
    if (← get).column != indent || (← peek 0) == endMark then return ([], [], breaks)
    let first ← peek 0
    let line ← takeWhile fun c => !isEnd c
    let lineEnd ← lineBreak
    let later ← blockBreaks indent (← fuel)
    let next ← peek 0
    if (← get).column == indent && next != endMark then
      let blank (c : Char) : Bool := c == ' ' || c == '\t'
      let joint : Text :=
        if folded && lineEnd == [10] && !blank first && !blank next then (if later.isEmpty then [32] else [])
        else lineEnd
      let (text, last, final) ← blockLines folded indent n later
      return (breaks ++ code line ++ joint ++ text, last, final)
    else return (breaks ++ code line, lineEnd, later)

/-- A block scalar. -/
def blockScalar (folded : Bool) : Scan Token := do
  forward 1
  let header ← blockHeader
  skipLine
  let least := (max ((← get).indent + 1) 1).toNat
  let (breaks, indent) ← match header.increment with
    | none => do
      let (breaks, deepest) ← blockIndentation (← fuel) 0
      pure (breaks, max least deepest)
    | some inc => do
      let indent := least + inc - 1
      let breaks ← blockBreaks indent (← fuel)
      pure (breaks, indent)
  let (text, last, final) ← blockLines folded indent (← fuel) breaks
  let tail : Text := match header.keep with
    | some false => []
    | none => last
    | some true => last ++ final
  return .scalar .block (text ++ tail)

/-- The characters that a letter behind a backslash stands for. -/
def escapes : List (Char × Nat) :=
  [('0', 0), ('a', 7), ('b', 8), ('t', 9), ('\t', 9), ('n', 10), ('v', 11), ('f', 12), ('r', 13), ('e', 27),
   (' ', 32), ('"', 34), ('\\', 92), ('/', 47), ('N', 0x85), ('_', 0xA0), ('L', 0x2028), ('P', 0x2029)]

/-- The breaks inside a quoted scalar. -/
def quotedBreaks : Nat → Scan Text
  | 0 => return []
  | n + 1 => do
    if ← atAnyMarker then fail
    let _ ← takeWhile fun c => c == ' ' || c == '\t'
    if lineEnds.contains (← peek 0) then
      let b ← lineBreak
      return b ++ (← quotedBreaks n)
    else return []

/-- A character given by its number in hexadecimal digits. -/
def numbered (digits : Nat) : Scan Text := do
  forward 1
  let ds ← ahead digits
  if ds.length != digits || !ds.all isHex then fail
  let c := readHex ds
  if 0x7FFFFFFF < c then throw (.scalar .tooLarge)
  if 0x10FFFF < c then throw (.scalar (.invalid (Text.ofString "chr() arg not in range(0x110000)")))
  forward digits
  return [c]

/-- What a backslash stands for together with what follows it. -/
def escaped : Scan Text := do
  forward 1
  let c ← peek 0
  match escapes.lookup c with
  | some v =>
    forward 1
    return [v]
  | none =>
    if c == 'x' then numbered 2
    else if c == 'u' then numbered 4
    else if c == 'U' then numbered 8
    else if lineEnds.contains c then
      let _ ← lineBreak
      quotedBreaks (← fuel)
    else fail

/-- The part of a quoted scalar up to the next gap or the closing quote. -/
def quotedWord (double : Bool) : Nat → Scan Text
  | 0 => return []
  | n + 1 => do
    let cs ← takeWhile fun c => !(c == '\'' || c == '"' || c == '\\' || isGap c)
    let c ← peek 0
    if !double && c == '\'' && (← peek 1) == '\'' then
      forward 2
      return code cs ++ 39 :: (← quotedWord double n)
    else if (double && c == '\'') || (!double && (c == '"' || c == '\\')) then
      forward 1
      return code cs ++ c.toNat :: (← quotedWord double n)
    else if double && c == '\\' then
      let text ← escaped
      return code cs ++ text ++ (← quotedWord double n)
    else return code cs

/-- A gap in a quoted scalar. -/
def quotedGap : Scan Text := do
  let blanks ← takeWhile fun c => c == ' ' || c == '\t'
  let c ← peek 0
  if c == endMark then fail
  if lineEnds.contains c then
    let b ← lineBreak
    let breaks ← quotedBreaks (← fuel)
    if b != [10] then return b ++ breaks
    else if breaks.isEmpty then return [32]
    else return breaks
  else return code blanks

/-- The rest of a quoted scalar. -/
def quotedLoop (double : Bool) (mark : Char) : Nat → Scan Text
  | 0 => fail
  | n + 1 => do
    if (← peek 0) == mark then return []
    let gap ← quotedGap
    let word ← quotedWord double (← fuel)
    return gap ++ word ++ (← quotedLoop double mark n)

/-- A quoted scalar. -/
def quotedScalar (double : Bool) : Scan Token := do
  let mark ← peek 0
  forward 1
  let first ← quotedWord double (← fuel)
  let others ← quotedLoop double mark (← fuel)
  forward 1
  return .scalar .quoted (first ++ others)

/-- How many of the characters ahead belong to a plain scalar. -/
def plainLength (flow : Bool) : List Char → Nat
  | [] => 0
  | c :: r =>
    let next := r.headD endMark
    if isGap c || (c == ':' && (isGap next || (flow && ",[]\x7b\x7d".toList.contains next)))
        || (flow && ",?[]\x7b\x7d".toList.contains c) then 0
    else plainLength flow r + 1

/-- The breaks between lines of a plain scalar; nothing if a marker of a document follows. -/
def plainBreaks : Nat → Scan (Option Text)
  | 0 => return some []
  | n + 1 => do
    let c ← peek 0
    if c == ' ' then
      forward 1
      plainBreaks n
    else if lineEnds.contains c then
      let b ← lineBreak
      if ← atAnyMarker then return none
      return (← plainBreaks n).map (b ++ ·)
    else return some []

/-- A gap in a plain scalar; empty at its end. -/
def plainGap : Scan Text := do
  let blanks ← takeWhile (· == ' ')
  if lineEnds.contains (← peek 0) then
    let b ← lineBreak
    allowKey true
    if ← atAnyMarker then return []
    match ← plainBreaks (← fuel) with
    | none => return []
    | some breaks =>
      if b != [10] then return b ++ breaks
      else if breaks.isEmpty then return [32]
      else return breaks
  else return code blanks

/-- The words of a plain scalar, `gap` being the gap before the next one. -/
def plainLoop (indent : Int) : Nat → Text → Scan Text
  | 0, _ => return []
  | n + 1, gap => do
    if (← peek 0) == '#' then return []
    let s ← get
    let length := plainLength (s.flowLevel != 0) s.rest
    if length = 0 then return []
    allowKey false
    let word := s.rest.take length
    forward length
    let next ← plainGap
    let s ← get
    if next.isEmpty || (← peek 0) == '#' || (s.flowLevel == 0 && s.column < indent) then
      return gap ++ code word
    return gap ++ code word ++ (← plainLoop indent n next)

/-- A plain scalar. -/
def plainScalar : Scan Token := do
  let indent := (← get).indent + 1
  return .scalar .plain (← plainLoop indent (← fuel) [])

/-! ### Tokens -/

/-- A marker of a document. -/
def marker (t : Token) : Scan Unit := do
  unwind (-1)
  dropKey
  allowKey false
  forward 3
  add t

/-- The start of a collection in flow style. -/
def flowStart (t : Token) : Scan Unit := do
  saveKey
  modify fun s => { s with flowLevel := s.flowLevel + 1 }
  allowKey true
  forward 1
  add t

/-- The end of a collection in flow style. -/
def flowEnd (t : Token) : Scan Unit := do
  dropKey
  modify fun s => { s with flowLevel := s.flowLevel - 1 }
  allowKey false
  forward 1
  add t

/-- Opens a block collection here if the indentation says so; a key has to be allowed here. -/
def openBlock (t : Token) : Scan Unit := do
  let s ← get
  if s.flowLevel = 0 then
    if !s.allowSimpleKey then fail
    if ← indentTo s.column then add t

/-- The mark of an entry in block style. -/
def blockEntry : Scan Unit := do
  openBlock .blockSequenceStart
  allowKey true
  dropKey
  forward 1
  add .blockEntry

/-- The mark of a key. -/
def keyMark : Scan Unit := do
  openBlock .blockMappingStart
  allowKey ((← get).flowLevel == 0)
  dropKey
  forward 1
  add .key

/-- The mark of a value, which may turn what stands before it into a key. -/
def valueMark : Scan Unit := do
  let s ← get
  match s.keys.lookup s.flowLevel with
  | some key =>
    set { s with keys := s.keys.filter fun k => k.1 != s.flowLevel }
    insert key.tokenNumber .key
    if s.flowLevel = 0 then
      if ← indentTo key.column then insert key.tokenNumber .blockMappingStart
    allowKey false
  | none =>
    openBlock .blockMappingStart
    allowKey (s.flowLevel == 0)
    dropKey
  forward 1
  add .value

/-- A token that may be a simple key. -/
def keyCandidate (scan : Scan Token) : Scan Unit := do
  saveKey
  allowKey false
  add (← scan)

/-- A block scalar, behind which a simple key may begin. -/
def blockToken (folded : Bool) : Scan Unit := do
  allowKey true
  dropKey
  add (← blockScalar folded)

/-- Whether a plain scalar may begin with a character. -/
def startsPlain (flow : Bool) (c next : Char) : Bool :=
  !(isGap c || "-?:,[]\x7b\x7d#&*!|>'\"%@".toList.contains c || c == Char.ofNat 96)
    || (!isGap next && (c == '-' || (!flow && (c == '?' || c == ':'))))

/-- The end of the text. -/
def streamEnd : Scan Unit := do
  unwind (-1)
  dropKey
  add .streamEnd
  modify fun s => { s with done := true }

/-- Goes past the next token and adds it. -/
def next : Scan Unit := do
  let s ← get
  if s.index = 0 && (← peek 0) == Char.ofNat 0xFEFF then forward 1
  skipBlanks (← fuel)
  dropStaleKeys
  unwind (← get).column
  let s ← get
  let flow := s.flowLevel != 0
  let c ← peek 0
  let next ← peek 1
  let gapNext := isGap next
  if c == endMark then streamEnd
  else if c == '%' && s.column = 0 then
    unwind (-1)
    dropKey
    allowKey false
    add (← directive)
  else if s.column = 0 && (← atMarker ['-', '-', '-']) then marker .documentStart
  else if s.column = 0 && (← atMarker ['.', '.', '.']) then marker .documentEnd
  else if c == '[' then flowStart .flowSequenceStart
  else if c == '\x7b' then flowStart .flowMappingStart
  else if c == ']' then flowEnd .flowSequenceEnd
  else if c == '\x7d' then flowEnd .flowMappingEnd
  else if c == ',' then
    allowKey true
    dropKey
    forward 1
    add .flowEntry
  else if c == '-' && gapNext then blockEntry
  else if c == '?' && (flow || gapNext) then keyMark
  else if c == ':' && (flow || gapNext) then valueMark
  else if c == '*' then keyCandidate (do return .alias (← anchorName))
  else if c == '&' then keyCandidate (do return .anchor (← anchorName))
  else if c == '!' then keyCandidate (do return .tag (← tagName))
  else if c == '|' && !flow then blockToken false
  else if c == '>' && !flow then blockToken true
  else if c == '\'' then keyCandidate (quotedScalar false)
  else if c == '"' then keyCandidate (quotedScalar true)
  else if startsPlain flow c next then keyCandidate plainScalar
  else fail

/-- Goes through the whole text. -/
def all : Nat → Scan Unit
  | 0 => return ()
  | n + 1 => do
    if (← get).done then return ()
    next
    all n

end Scan

/-- Whether a character may stand in a text at all. -/
def isAllowed (c : Char) : Bool :=
  let n := c.toNat
  n == 9 || n == 10 || n == 13 || (0x20 ≤ n && n ≤ 0x7E) || n == 0x85 || (0xA0 ≤ n && n ≤ 0xD7FF)
    || (0xE000 ≤ n && n ≤ 0xFFFD) || 0x10000 ≤ n

/-- The tokens of a text. -/
def tokens (text : List Char) : Except Fault (List Token) :=
  if !text.all isAllowed then .error .malformed
  else
    match (Scan.all (text.length + 2)).run { rest := text } with
    | .error e => .error e
    | .ok ((), s) => .ok s.tokens.toList

end Handout.Yaml
