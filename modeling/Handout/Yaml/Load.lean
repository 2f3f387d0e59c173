import Handout.Yaml.Graph

/-!
# Values of YAML texts

The nodes of a document are given their values from the root outwards, so that of several faults the nearest to the
root counts.  Mappings named by a merge key are put in front of the entries of their mapping; of entries with equal
keys the last value counts.  A node that contains itself becomes a shared collection of the document.
-/

namespace Handout.Yaml

namespace Load

/-- What is remembered while nodes are given their values. -/
structure Builder where
  nodes : Graph
  /-- The nodes that have been met, with the values of scalars. -/
  met : List (Nat × Option Value) := []

/-- A step of giving values to nodes. -/
abbrev Build (α : Type) := StateT Builder (Except Fault) α

/-- Gives up. -/
def fail {α : Type} : Build α := throw .malformed

/-- A node. -/
def node (n : Nat) : Build Node := do return (← get).nodes.getD n default

/-- Changes a node. -/
def change (n : Nat) (f : Node → Node) : Build Unit := modify fun s => { s with nodes := s.nodes.modify n f }

/-- Whether values of a type are collections. -/
def isCollection : TypeName → Bool
  | .seq | .map | .set | .omap | .pairs => true
  | _ => false

/-- The entries that merge keys add to a mapping, and the mapping without its merge keys. -/
def flatten : Nat → Nat → Build Unit
  | 0, _ => fail
  | fuel + 1, n => do
    match (← node n).content with
    | .mapping entries =>
      let nodes := (← get).nodes
      let typeOf (k : Nat) : TypeName := (nodes.getD k default).type
      let others := entries.filter fun e => typeOf e.1 != .merge
      change n fun x => { x with content := .mapping others }
      for e in others do
        if typeOf e.1 == .value then change e.1 fun x => { x with type := .str }
      let flat (m : Nat) : Build (List (Nat × Nat)) := do
        match (← node m).content with
        | .mapping _ =>
          flatten fuel m
          match (← node m).content with
          | .mapping es => return es
          | _ => fail
        | _ => fail
      let added ← (entries.filter fun e => typeOf e.1 == .merge).mapM fun e => do
        match (← node e.2).content with
        | .mapping _ => flat e.2
        | .sequence items =>
          let parts ← items.mapM flat
          return parts.reverse.flatten
        | .scalar _ => fail
      match (← node n).content with
      | .mapping others => change n fun x => { x with content := .mapping (added.flatten ++ others) }
      | _ => fail
    | _ => fail

/-- The text of a node that has to be a scalar; a mapping may name one by a value key. -/
def scalarText : Nat → Nat → Build Text
  | 0, _ => fail
  | fuel + 1, n => do
    match (← node n).content with
    | .scalar t => return t
    | .mapping entries =>
      let nodes := (← get).nodes
      match entries.find? fun e => (nodes.getD e.1 default).type == .value with
      | some e => scalarText fuel e.2
      | none => fail
    | .sequence _ => fail

/-- Meets a node: a scalar gets its value; a collection that is new is given back, to be opened later. -/
def meet (n : Nat) : Build (List Nat) := do
  let s ← get
  if (s.met.lookup n).isSome then return []
  let x ← node n
  if isCollection x.type then
    modify fun s => { s with met := (n, none) :: s.met }
    return [n]
  else
    let t ← match x.type with
      | .merge | .value | .unknown => fail
      | _ => scalarText (s.nodes.size + 1) n
    let v ← (Scalar.read x.type t : Except Fault Value)
    modify fun s => { s with met := (n, some v) :: s.met }
    return []

/-- Meets the nodes in a collection; gives those to be opened later. -/
def openNode (n : Nat) : Build (List Nat) := do
  let x ← node n
  match x.type, x.content with
  | .seq, .sequence items => return (← items.mapM meet).flatten
  | .map, .mapping _ | .set, .mapping _ =>
    flatten ((← get).nodes.size + 1) n
    match (← node n).content with
    | .mapping entries =>
      let found ← entries.mapM fun e => do
        let ks ← meet e.1
        if isCollection (← node e.1).type then fail
        return ks ++ (← meet e.2)
      return found.flatten
    | _ => fail
  | .omap, .sequence items | .pairs, .sequence items =>
    let found ← items.mapM fun i => do
      match (← node i).content with
      | .mapping [e] => return (← meet e.1) ++ (← meet e.2)
      | _ => fail
    return found.flatten
  | _, _ => fail

/-- Opens collections until none is left. -/
def openAll : Nat → List Nat → Build Unit
  | _, [] => return ()
  | 0, _ => return ()
  | fuel + 1, n :: queue => do
    let found ← openNode n
    openAll fuel (queue ++ found)

/-- What is remembered while values are put together. -/
structure Assembly where
  memo : List (Nat × Value) := []
  /-- The numbers of the nodes that contain themselves. -/
  recursive : List Nat := []
  shared : List (Nat × Value) := []

/-- Whether two keys are the same; numbers are compared by value. -/
def sameKey : Value → Value → Bool
  | .null, .null => true
  | .text a, .text b => a == b
  | .bytes a, .bytes b => a == b
  | .date y m d, .date y' m' d' => y == y' && m == m' && d == d'
  | .moment a, .moment b => a == b
  | a, b =>
    let number : Value → Option (Int ⊕ Float)
      | .bool b => some (.inl (if b then 1 else 0))
      | .int i => some (.inl i)
      | .float f => some (.inr f)
      | _ => none
    match number a, number b with
    | some (.inl i), some (.inl j) => i == j
    | some (.inl i), some (.inr f) => Float.ofInt i == f
    | some (.inr f), some (.inl i) => Float.ofInt i == f
    | some (.inr f), some (.inr g) => f == g || (f.isNaN && g.isNaN)
    | _, _ => false

/-- Puts an entry into a mapping; an equal key keeps its place. -/
def putEntry (key value : Value) : List (Value × Value) → List (Value × Value)
  | [] => [(key, value)]
  | e :: r => if sameKey e.1 key then (e.1, value) :: r else e :: putEntry key value r

/-- Puts together the value of a node inside the nodes that are open. -/
def assemble (nodes : Graph) (met : List (Nat × Option Value)) :
    Nat → List Nat → Nat → StateM Assembly Value
  | 0, _, _ => return .null
  | fuel + 1, opened, n => do
    let s ← get
    if let some v := s.memo.lookup n then return v
    if let some (some v) := met.lookup n then return v
    if opened.contains n then
      if !s.recursive.contains n then set { s with recursive := s.recursive ++ [n] }
      return .shared ((s.recursive.idxOf? n).getD s.recursive.length)
    let opened := n :: opened
    let x := nodes.getD n default
    let value ← match x.content with
      | .scalar t => pure (.text t)
      | .sequence items =>
        if x.type == .seq then
          pure (.list (← items.mapM (assemble nodes met fuel opened)))
        else
          let tuples ← items.mapM fun i => do
            match (nodes.getD i default).content with
            | .mapping [e] =>
              let k ← assemble nodes met fuel opened e.1
              let v ← assemble nodes met fuel opened e.2
              return Value.tuple [k, v]
            | _ => return Value.null
          pure (.list tuples)
      | .mapping entries =>
        let pairs ← entries.mapM fun e => do
          let k ← assemble nodes met fuel opened e.1
          let v ← assemble nodes met fuel opened e.2
          return (k, v)
        let entries := pairs.foldl (fun es e => putEntry e.1 e.2 es) []
        pure (if x.type == .set then .set (entries.map Prod.fst) else .mapping entries)
    let s ← get
    match s.recursive.idxOf? n with
    | some i =>
      set { s with shared := (i, value) :: s.shared, memo := (n, .shared i) :: s.memo }
      return .shared i
    | none =>
      set { s with memo := (n, value) :: s.memo }
      return value

end Load

/-- The value that a text denotes. -/
def load (text : List Char) : Except Fault Document := do
  let (nodes, root) ← graph text
  match root with
  | none => return ⟨.null, []⟩
  | some root =>
    let start : Load.Build Unit := do
      let found ← Load.meet root
      Load.openAll (nodes.size + 1) found
    let ((), s) ← start.run { nodes }
    let (value, a) := (Load.assemble s.nodes s.met (s.nodes.size + 1) [] root).run {}
    return ⟨value, (List.range a.recursive.length).map fun i => (a.shared.lookup i).getD .null⟩

end Handout.Yaml
