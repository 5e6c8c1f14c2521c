import SchemaInference.Join.Majority
import SchemaInference.Join.Strict

/-!
# Joins

How types are brought together in either mode: two types, the types of a collection,
and the candidates of a union.
-/

namespace SchemaInference

def join : Mode → Join
  | .strict => Strict.join
  | .lenient => Lenient.join

/-- The join of the types of a collection. -/
def joinAll : Mode → List Schema → Except Disagreement Schema
  | .strict, ts => Strict.joinAllWith Strict.join ts
  | .lenient, ts => Lenient.joinAll ts

end SchemaInference
