import SchemaInference.Text.Basic

/-!
# Modes

What happens to types that do not fit together: strict inference keeps every shape
or fails, lenient inference follows the majority.
-/

namespace SchemaInference

/-- How types that differ are treated. -/
inductive Mode where
  | strict
  | lenient
  deriving DecidableEq, Repr

def Mode.ofName? (name : Text) : Option Mode :=
  if name = "strict" then some .strict
  else if name = "lenient" then some .lenient
  else none

end SchemaInference
