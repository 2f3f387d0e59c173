import Handout.Yaml.Scalar
import Handout.Yaml.Token

/-!
# Node graphs of YAML

The tokens of a text are read as one document.  Its nodes form a graph, since an alias stands for the node that bears
the anchor, even while that node is still open.  Nodes are numbered in the order in which they begin.
-/

namespace Handout.Yaml

/-- What a node holds; other nodes are given by their numbers. -/
inductive Content where
  | scalar (text : Text)
  | sequence (items : List Nat)
  | mapping (entries : List (Nat × Nat))
deriving DecidableEq, Repr, Inhabited

/-- A node with the type that its tag or its form shows. -/
structure Node where
  type : TypeName
  content : Content
deriving DecidableEq, Repr, Inhabited

/-- The nodes of a document. -/
abbrev Graph := Array Node

/-- The greatest number of collections inside one another. -/
def maxDepth : Nat := 480

/-- What is remembered while a document is read. -/
structure Composer where
  tokens : List Token
  nodes : Graph := #[]
  anchors : List (String × Nat) := []
  handles : List (String × String) := []

/-- A step of reading a document. -/
abbrev Compose (α : Type) := StateT Composer (Except Fault) α

namespace Compose

/-- The meanings of tag handles that need no directive. -/
def defaultHandles : List (String × String) := [("!", "!"), ("!!", tagBase)]

/-- Gives up. -/
def fail {α : Type} : Compose α := throw .malformed

/-- The next token. -/
def peek : Compose Token := do return (← get).tokens.headD .streamEnd

/-- Goes past the next token. -/
def skip : Compose Unit := modify fun s => { s with tokens := s.tokens.drop 1 }

/-- Whether the next token is one of some tokens. -/
def at? (ts : List Token) : Compose Bool := do return ts.contains (← peek)

/-- Goes past a token that has to be there. -/
def expect (t : Token) : Compose Unit := do
  if (← peek) != t then fail
  skip

/-- Adds a node and gives its number. -/
def addNode (anchor : Option String) (node : Node) : Compose Nat := do
  let s ← get
  let n := s.nodes.size
  let anchors := match anchor with
    | some a => (a, n) :: s.anchors
    | none => s.anchors
  set { s with nodes := s.nodes.push node, anchors }
  return n

/-- Sets what a node holds. -/
def setContent (n : Nat) (content : Content) : Compose Unit :=
  modify fun s => { s with nodes := s.nodes.modify n fun node => { node with content } }

/-- A scalar that is not written. -/
def emptyScalar : Compose Nat := addNode none ⟨Scalar.typeOf [], .scalar []⟩

/-- What may stand in front of a node. -/
structure Properties where
  anchor : Option String := none
  tag : Option String := none

/-- The full tag. -/
def fullTag (name : TagName) : Compose String := do
  match name.handle with
  | none => return name.suffix
  | some h =>
    match (← get).handles.lookup h with
    | some base => return base ++ name.suffix
    | none => fail

/-- The anchor and the tag in front of a node, in either order. -/
def properties : Compose Properties := do
  match ← peek with
  | .anchor a =>
    skip
    match ← peek with
    | .tag t =>
      skip
      return ⟨some a, some (← fullTag t)⟩
    | _ => return ⟨some a, none⟩
  | .tag t =>
    skip
    match ← peek with
    | .anchor a =>
      skip
      return ⟨some a, some (← fullTag t)⟩
    | _ => return ⟨none, some (← fullTag t)⟩
  | _ => return {}

/-- Whether a tag leaves the type open. -/
def isOpen (tag : Option String) : Bool := tag == none || tag == some "!"

/-- The type of a collection. -/
def collectionType (tag : Option String) (type : TypeName) : TypeName :=
  match tag with
  | some t => if t == "!" then type else TypeName.ofTag t
  | none => type

/-- The type of a scalar. -/
def scalarType (tag : Option String) (plain : Bool) (text : Text) : TypeName :=
  match tag with
  | some t => if t == "!" then Scalar.typeOf text else TypeName.ofTag t
  | none => if plain then Scalar.typeOf text else .str

/-- Which collections may begin at a place. -/
inductive Place where
  | flow
  | block
  | blockOrIndentless
deriving DecidableEq

/-- A node that consists of an anchor or a tag alone. -/
def empty (p : Properties) : Compose Nat := do
  if p.anchor.isNone && p.tag.isNone then fail
  addNode p.anchor ⟨scalarType p.tag (isOpen p.tag) [], .scalar []⟩

/-- Reads a sequence with the given reader of its items. -/
def sequence (room : Nat) (p : Properties) (items : Nat → Compose (List Nat)) : Compose Nat := do
  let n ← addNode p.anchor ⟨collectionType p.tag .seq, .sequence []⟩
  match room with
  | 0 => throw .tooDeep
  | room + 1 =>
    setContent n (.sequence (← items room))
    return n

/-- Reads a mapping with the given reader of its entries. -/
def mapping (room : Nat) (p : Properties) (entries : Nat → Compose (List (Nat × Nat))) : Compose Nat := do
  let n ← addNode p.anchor ⟨collectionType p.tag .map, .mapping []⟩
  match room with
  | 0 => throw .tooDeep
  | room + 1 =>
    setContent n (.mapping (← entries room))
    return n

/-- Reads a node with the given reader, unless one of some tokens is next. -/
def nodeUnless (reader : Compose Nat) (ends : List Token) : Compose Nat := do
  if ← at? ends then emptyScalar else reader

/-- The value behind a key in flow style, where `close` ends the collection. -/
def flowValue (reader : Compose Nat) (close : Token) : Compose Nat := do
  if ← at? [.value] then
    skip
    nodeUnless reader [.flowEntry, close]
  else emptyScalar

mutual

/-- Reads a node; `room` is the number of collections that may still be opened inside one another. -/
def node : Nat → Nat → Place → Compose Nat
  | 0, _, _ => fail
  | fuel + 1, room, place => do
    match ← peek with
    | .alias name =>
      skip
      match (← get).anchors.lookup name with
      | some n => return n
      | none => fail
    | _ =>
      let p ← properties
      if let some a := p.anchor then
        if ((← get).anchors.lookup a).isSome then fail
      match ← peek with
      | .scalar style text =>
        skip
        addNode p.anchor ⟨scalarType p.tag (style == .plain) text, .scalar text⟩
      | .blockEntry =>
        if place == .blockOrIndentless then
          sequence room p (indentlessItems fuel)
        else empty p
      | .flowSequenceStart =>
        skip
        sequence room p (fun room => flowItems fuel room true)
      | .flowMappingStart =>
        skip
        mapping room p (fun room => flowEntries fuel room true)
      | .blockSequenceStart =>
        if place == .flow then empty p
        else
          skip
          sequence room p (blockItems fuel)
      | .blockMappingStart =>
        if place == .flow then empty p
        else
          skip
          mapping room p (blockEntries fuel)
      | _ => empty p

/-- The items of a sequence in block style. -/
def blockItems : Nat → Nat → Compose (List Nat)
  | 0, _ => fail
  | fuel + 1, room => do
    if ← at? [.blockEntry] then
      skip
      let n ← nodeUnless (node fuel room .block) [.blockEntry, .blockEnd]
      return n :: (← blockItems fuel room)
    else
      expect .blockEnd
      return []

/-- The items of a sequence that is not indented deeper than its key. -/
def indentlessItems : Nat → Nat → Compose (List Nat)
  | 0, _ => fail
  | fuel + 1, room => do
    if ← at? [.blockEntry] then
      skip
      let n ← nodeUnless (node fuel room .block) [.blockEntry, .key, .value, .blockEnd]
      return n :: (← indentlessItems fuel room)
    else return []

/-- The entries of a mapping in block style. -/
def blockEntries : Nat → Nat → Compose (List (Nat × Nat))
  | 0, _ => fail
  | fuel + 1, room => do
    let ends : List Token := [.key, .value, .blockEnd]
    if ← at? [.key] then
      skip
      let k ← nodeUnless (node fuel room .blockOrIndentless) ends
      let v ← if ← at? [.value] then do
          skip
          nodeUnless (node fuel room .blockOrIndentless) ends
        else emptyScalar
      return (k, v) :: (← blockEntries fuel room)
    else
      expect .blockEnd
      return []

/-- The items of a sequence in flow style. -/
def flowItems : Nat → Nat → Bool → Compose (List Nat)
  | 0, _, _ => fail
  | fuel + 1, room, first => do
    let close := Token.flowSequenceEnd
    if ← at? [close] then
      skip
      return []
    if !first then expect .flowEntry
    if ← at? [.key] then
      skip
      let n ← mapping room {} (fun room => do
        let k ← nodeUnless (node fuel room .flow) [.value, .flowEntry, close]
        let v ← flowValue (node fuel room .flow) close
        return [(k, v)])
      return n :: (← flowItems fuel room false)
    else if ← at? [close] then
      skip
      return []
    else
      let n ← node fuel room .flow
      return n :: (← flowItems fuel room false)

/-- The entries of a mapping in flow style. -/
def flowEntries : Nat → Nat → Bool → Compose (List (Nat × Nat))
  | 0, _, _ => fail
  | fuel + 1, room, first => do
    let close := Token.flowMappingEnd
    if ← at? [close] then
      skip
      return []
    if !first then expect .flowEntry
    if ← at? [.key] then
      skip
      let k ← nodeUnless (node fuel room .flow) [.value, .flowEntry, close]
      let v ← flowValue (node fuel room .flow) close
      return (k, v) :: (← flowEntries fuel room false)
    else if ← at? [close] then
      skip
      return []
    else
      let k ← node fuel room .flow
      let v ← emptyScalar
      return (k, v) :: (← flowEntries fuel room false)

end

/-- Whether a token is a directive. -/
def isDirective : Token → Bool
  | .versionDirective _ | .tagDirective _ _ | .otherDirective => true
  | _ => false

/-- Reads directives; a version may be given once, and each handle too. -/
def directives (version : Bool) : List Token → Compose Unit
  | .versionDirective major :: r => do
    if version || major != 1 then fail
    skip
    directives true r
  | .tagDirective handle base :: r => do
    if ((← get).handles.lookup handle).isSome then fail
    modify fun s => { s with handles := (handle, base) :: s.handles }
    skip
    directives version r
  | .otherDirective :: r => do
    skip
    directives version r
  | _ => modify fun s => { s with handles := s.handles ++ defaultHandles }

/-- Goes past markers of the end of a document. -/
def skipEnds : List Token → Compose Unit
  | .documentEnd :: r => do
    skip
    skipEnds r
  | _ => return ()

/-- The root node of a document with directives or a marker. -/
def explicitDocument (fuel : Nat) : Compose (Option Nat) := do
  skipEnds (← get).tokens
  if ← at? [.streamEnd] then return none
  directives false (← get).tokens
  expect .documentStart
  let t ← peek
  if isDirective t || t == .documentStart || t == .documentEnd || t == .streamEnd then
    return some (← emptyScalar)
  else return some (← node fuel maxDepth .block)

/-- Reads the only document of a text; gives its root, unless the text is empty. -/
def document (fuel : Nat) : Compose (Option Nat) := do
  let t ← peek
  let root ← if isDirective t || t == .documentStart then explicitDocument fuel
    else if t == .streamEnd then pure none
    else do
      modify fun s => { s with handles := defaultHandles }
      pure (some (← node fuel maxDepth .block))
  if root.isNone then return none
  if ← at? [.documentEnd] then skip
  skipEnds (← get).tokens
  if !(← at? [.streamEnd]) then fail
  return root

end Compose

/-- The nodes of a text, and the root among them, unless the text is empty. -/
def graph (text : List Char) : Except Fault (Graph × Option Nat) := do
  let ts ← tokens text
  let (root, s) ← (Compose.document (4 * ts.length + 16)).run { tokens := ts }
  return (s.nodes, root)

end Handout.Yaml
