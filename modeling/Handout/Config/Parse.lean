import Handout.Config.Basic
import Handout.Yaml.Load

/-!
# Configuration files

The text of a configuration file is YAML.  A text that denotes no value is malformed, except that a scalar without
a value of its type is a failure of its own.
-/

namespace Handout.Config

/-- Reads a configuration from the text of a file, which is named in failures. -/
def parse (path : Path) (content : String) : Except Failure Config :=
  match Yaml.load content.toList with
  | .error .malformed => .error (.config path .malformed)
  | .error .tooDeep => .error .tooDeep
  | .error (.scalar fault) => .error (.scalar fault)
  | .ok d => (ofDocument d).mapError (Fault.failure path)

end Handout.Config
