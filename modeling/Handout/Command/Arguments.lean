/-!
# Command line arguments

A grammar lists the options that may be given and what other arguments are expected.  An option may be abbreviated
as long as it is unambiguous.  Its value follows as the next argument, behind an equals sign, or directly behind a
short name; short options without values may be joined.  Behind `--` everything is an argument.
-/

namespace Handout.Command

/-- How reading arguments may end without a result. -/
inductive Exit where
  /-- Help is asked for. -/
  | help
  /-- The arguments do not follow the grammar. -/
  | usage
deriving DecidableEq, Repr

/-- The status with which a program exits. -/
def Exit.status : Exit → Nat
  | help => 0
  | usage => 2

/-- What an option does. -/
inductive OptionKind where
  | help
  | flag
  | value
deriving DecidableEq, Repr

/-- An option, with all its names and the key under which it is recorded. -/
structure OptionRule where
  key : String
  names : List String
  kind : OptionKind
  isRequired : Bool := false
deriving DecidableEq, Repr

/-- What is expected besides options. -/
inductive Operands where
  | one
  /-- At least one. -/
  | many
  /-- A command, which takes all that follows. -/
  | command
deriving DecidableEq, Repr

/-- Which arguments are accepted. -/
structure Grammar where
  options : List OptionRule
  operands : Operands

/-- An option as it was given: its full name, and the text attached to it, which may stand behind an equals sign. -/
structure Given where
  rule : OptionRule
  name : String
  attached : Option (Bool × String)

/-- An argument by what it looks like. -/
inductive Token where
  | operand (text : String)
  | dashes
  | option (text : String) (given : Option Given)

namespace Token

/-- The text of an argument. -/
def text : Token → String
  | operand t => t
  | dashes => "--"
  | option t _ => t

/-- Whether an argument looks like an option. -/
def isOption : Token → Bool
  | option _ _ => true
  | _ => false

end Token

/-- The parts of a text before and behind the first equals sign, if there is one. -/
def splitEquals (s : String) : String × Option String :=
  let head := s.toList.takeWhile (· != '=')
  match s.toList.dropWhile (· != '=') with
  | _ :: tail => (String.ofList head, some (String.ofList tail))
  | [] => (s, none)

/-- Whether a text begins with another one. -/
def beginsWith (s start : String) : Bool := start.toList.isPrefixOf s.toList

namespace Grammar

/-- All names of options. -/
def names (g : Grammar) : List (String × OptionRule) :=
  g.options.flatMap fun rule => rule.names.map fun name => (name, rule)

/-- The option with a name. -/
def named? (g : Grammar) (name : String) : Option OptionRule := g.names.lookup name

/-- The options that an argument may stand for, when it is no full name. -/
def candidates (g : Grammar) (arg : String) : List Given :=
  match arg.toList with
  | '-' :: '-' :: _ =>
    let (start, attached) := splitEquals arg
    (g.names.filter fun n => beginsWith n.1 start).map fun n => ⟨n.2, n.1, attached.map fun t => (true, t)⟩
  | '-' :: c :: rest =>
    let short := String.ofList ['-', c]
    g.names.filterMap fun n =>
      if n.1 = short then some ⟨n.2, n.1, some (false, String.ofList rest)⟩
      else if beginsWith n.1 arg then some ⟨n.2, n.1, none⟩
      else none
  | _ => []

/-- Whether a text is a negative number. -/
def isNegativeNumber (arg : String) : Bool :=
  match arg.toList with
  | '-' :: r =>
    let fraction := (r.dropWhile Char.isDigit).drop 1
    if r.all Char.isDigit then !r.isEmpty
    else (r.dropWhile Char.isDigit).head? == some '.' && !fraction.isEmpty && fraction.all Char.isDigit
  | _ => false

/-- Classifies an argument in front of `--`. -/
def classify (g : Grammar) (arg : String) : Except Exit Token :=
  if arg.toList.head? ≠ some '-' then .ok (.operand arg)
  else
    match g.named? arg with
    | some rule => .ok (.option arg (some ⟨rule, arg, none⟩))
    | none =>
      if arg = "-" then .ok (.operand arg)
      else
        let (start, attached) := splitEquals arg
        match g.named? start, attached with
        | some rule, some t => .ok (.option arg (some ⟨rule, start, some (true, t)⟩))
        | _, _ =>
          match g.candidates arg with
          | [given] => .ok (.option arg (some given))
          | _ :: _ :: _ => .error .usage
          | [] =>
            if isNegativeNumber arg || arg.toList.contains ' ' then .ok (.operand arg)
            else .ok (.option arg none)

/-- Classifies all arguments. -/
def tokens (g : Grammar) : List String → Except Exit (List Token)
  | [] => .ok []
  | arg :: rest =>
    if arg = "--" then .ok (.dashes :: rest.map .operand)
    else do return (← g.classify arg) :: (← tokens g rest)

end Grammar

/-- What has been read: the operands, the options with their values in order, and whether some arguments are left
over. -/
structure Reading where
  operands : Option (List String) := none
  values : List (String × String) := []
  hasExtras : Bool := false
deriving Repr

namespace Reading

/-- Records an option, unless it asks for help. -/
def record (r : Reading) (o : OptionRule × String) : Except Exit Reading :=
  match o.1.kind with
  | .help => .error .help
  | _ => .ok { r with values := r.values ++ [(o.1.key, o.2)] }

/-- Takes the operands from the front of the arguments, if they are still expected and can be found there. -/
def takeOperands (r : Reading) (kind : Operands) (ts : List Token) : Reading × List Token :=
  let isDashes (t : Token) : Bool := match t with
    | .dashes => true
    | _ => false
  match r.operands, ts.dropWhile isDashes with
  | none, .operand t :: rest =>
    match kind with
    | .one => ({ r with operands := some [t] }, rest.dropWhile isDashes)
    | .many =>
      let more := (rest.takeWhile fun t => !t.isOption).filter fun t => !isDashes t
      ({ r with operands := some (t :: more.map Token.text) }, rest.dropWhile fun t => !t.isOption)
    | .command => ({ r with operands := some (ts.map Token.text) }, [])
  | _, _ => (r, ts)

end Reading

/-- The options in one argument with their values, whether letters are left over, and the arguments that follow. -/
def readOption (g : Grammar) : Nat → Given → List Token → Except Exit (List (OptionRule × String) × Bool × List Token)
  | 0, _, _ => .error .usage
  | fuel + 1, given, rest =>
    match given.attached, given.rule.kind with
    | none, .value =>
      match rest with
      | .operand v :: rest => .ok ([(given.rule, v)], false, rest)
      | _ => .error .usage
    | none, _ => .ok ([(given.rule, "")], false, rest)
    | some (_, t), .value => .ok ([(given.rule, t)], false, rest)
    | some (isEquals, t), _ =>
      match t.toList with
      | [] => .error .usage
      | c :: r =>
        if beginsWith given.name "--" || isEquals || c = '-' then .error .usage
        else
          let name := String.ofList ['-', c]
          match g.named? name with
          | none => .ok ([(given.rule, "")], true, rest)
          | some rule => do
            let attached := match r with
              | [] => none
              | '=' :: r => some (true, String.ofList r)
              | r => some (false, String.ofList r)
            let (more, isExtra, rest) ← readOption g fuel ⟨rule, name, attached⟩ rest
            return ((given.rule, "") :: more, isExtra, rest)

/-- Reads one option, which has been classified already. -/
def takeOption (g : Grammar) (r : Reading) (given : Option Given) (rest : List Token) :
    Except Exit (Reading × List Token) :=
  match given with
  | none => .ok ({ r with hasExtras := true }, rest)
  | some given => do
    let fuel := (given.attached.map fun a => a.2.length).getD 0 + 1
    let (options, isExtra, rest) ← readOption g fuel given rest
    let r ← options.foldlM Reading.record r
    return ({ r with hasExtras := r.hasExtras || isExtra }, rest)

/-- Reads classified arguments from left to right. -/
def readTokens (g : Grammar) : Nat → Reading → List Token → Except Exit Reading
  | 0, r, _ => .ok r
  | fuel + 1, r, ts =>
    let (taken, left) := r.takeOperands g.operands ts
    match ts.dropWhile fun t => !t.isOption with
    | .option _ given :: rest =>
      if (ts.head?.map Token.isOption).getD false then do
        let (r, rest) ← takeOption g r given rest
        readTokens g fuel r rest
      else if left.length < ts.length then readTokens g fuel taken left
      else do
        let (r, rest) ← takeOption g { r with hasExtras := true } given rest
        readTokens g fuel r rest
    | _ => .ok { taken with hasExtras := taken.hasExtras || !left.isEmpty }

/-- Whether all that is required has been read. -/
def Reading.isComplete (g : Grammar) (r : Reading) : Bool :=
  r.operands.isSome && g.options.all fun rule => !rule.isRequired || (r.values.lookup rule.key).isSome

/-- Reads arguments. -/
def readArguments (g : Grammar) (args : List String) : Except Exit Reading := do
  let ts ← g.tokens args
  let r ← readTokens g (ts.length + 1) {} ts
  if r.isComplete g then return r else throw .usage

end Handout.Command
