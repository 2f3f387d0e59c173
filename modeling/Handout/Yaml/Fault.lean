import Handout.Failure

/-!
# Faults of YAML texts

A text is malformed, or it nests collections too deeply, or one of its scalars does not denote a value of the type
that its tag names.
-/

namespace Handout.Yaml

/-- Why a text denotes no value. -/
inductive Fault where
  | malformed
  | tooDeep
  | scalar (fault : ScalarFault)
deriving DecidableEq, Repr

end Handout.Yaml
