import Handout.Failure

/-!
# Submission parameters

Parameters are passed to the grading environment as shell variables.  A key is a word of letters and underscores, a
value may also have hyphens, and an array holds any number of such values.  Parameters keep the order in which their
keys came; a key that comes again replaces its value in place.  A refused insertion changes nothing.
-/

namespace Handout

/-- The value of a parameter. -/
inductive ParamValue where
  | word (w : String)
  | array (ws : List String)
deriving DecidableEq, Repr

/-- Parameters in the order of their keys. -/
structure Params where
  entries : List (String × ParamValue) := []
deriving DecidableEq, Repr

namespace Params

/-- Whether a character may stand in a key. -/
def isKeyChar (c : Nat) : Bool := (65 ≤ c && c ≤ 90) || (97 ≤ c && c ≤ 122) || c == 95

/-- Whether a character may stand in a value. -/
def isValueChar (c : Nat) : Bool := isKeyChar c || c == 45

/-- A word of permitted characters. -/
def checkWord (permitted : Nat → Bool) (v : Value) : Except Failure String :=
  match v with
  | .text t => if t ≠ [] ∧ t.all permitted then .ok t.toString else .error (.invalidParam v)
  | _ => .error (.invalidParam v)

/-- The items of a value that can be gone through: a list, the characters of a text, or the keys of a mapping. -/
def items : Value → Except Failure (List Value)
  | .list vs => .ok vs
  | .tuple vs => .ok vs
  | .set vs => .ok vs
  | .text t => .ok (t.map fun c => .text [c])
  | .bytes b => .ok (b.map fun c => .int c.toNat)
  | .mapping entries => .ok (entries.map Prod.fst)
  | .null => .error (.notIterable "NoneType")
  | .bool _ => .error (.notIterable "bool")
  | .int _ => .error (.notIterable "int")
  | .float _ => .error (.notIterable "float")
  | .date _ _ _ => .error (.notIterable "datetime.date")
  | .moment _ => .error (.notIterable "datetime.datetime")
  | .shared _ => .ok []

/-- Sets the value of a key. -/
def putEntry (key : String) (value : ParamValue) : List (String × ParamValue) → List (String × ParamValue)
  | [] => [(key, value)]
  | e :: r => if e.1 = key then (key, value) :: r else e :: putEntry key value r

/-- Sets a parameter. -/
def put (p : Params) (key : String) (value : ParamValue) : Params := ⟨putEntry key value p.entries⟩

/-- Sets a parameter to a word. -/
def insertString (p : Params) (key value : Value) : Except Failure Params := do
  let key ← checkWord isKeyChar key
  let value ← checkWord isValueChar value
  return p.put key (.word value)

/-- Sets a parameter to an array. -/
def insertArray (p : Params) (key values : Value) : Except Failure Params := do
  let key ← checkWord isKeyChar key
  let vs ← items values
  let words ← vs.mapM (checkWord isValueChar)
  return p.put key (.array words)

/-- A parameter as a shell assigns it. -/
def line (e : String × ParamValue) : String :=
  let value := match e.2 with
    | .word w => Shell.quote w
    | .array ws => "( " ++ " ".intercalate (ws.map Shell.quote) ++ " )"
  s!"export {e.1}={value}"

/-- The lines of the parameter file, without their ends. -/
def lines (p : Params) : List String := p.entries.map line

/-- Lines with their ends. -/
def joinLines (ls : List String) : String := String.join (ls.map fun l => l ++ "\n")

/-- The content of the parameter file. -/
def content (p : Params) : Bytes := Bytes.ofString (joinLines p.lines)

/-- A text of the form `KEY=VALUE`. -/
def splitArgument (s : String) : Except Failure (String × String) :=
  let key := s.toList.takeWhile (· != '=')
  match s.toList.dropWhile (· != '=') with
  | _ :: value => .ok (String.ofList key, String.ofList value)
  | [] => .error (.invalidParam (.ofString s))

/-- Sets the parameters of texts of the form `KEY=VALUE`, then those of texts of the form `KEY=V1,V2`. -/
def ofArguments (words arrays : List String) : Except Failure Params := do
  let p ← words.foldlM (fun p s => do
    let (key, value) ← splitArgument s
    insertString p (.ofString key) (.ofString value)) {}
  arrays.foldlM (fun p s => do
    let (key, value) ← splitArgument s
    let values := (splitAt ',' value.toList).map fun v => Value.ofString (String.ofList v)
    insertArray p (.ofString key) (.list values)) p

end Params

end Handout
