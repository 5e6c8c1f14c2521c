import SchemaInference.Json.Printer
import SchemaInference.Schema.Basic

/-!
# Schemas as JSON

The structure by which a schema is written down: a keyword for a primitive, an
object for an array or a record, and an array of its branches for a union.  The text
of a schema is the compact text of that structure.
-/

namespace SchemaInference.Schema

mutual

/-- The structure of a schema. -/
def toJson : Schema → Json
  | .primitive kind => .string kind.keyword
  | .array none items => .object [("type", .string "array"), ("items", items.toJson)]
  | .array (some name) items =>
    .object [("name", .string name), ("type", .string "array"), ("items", items.toJson)]
  | .record name fields =>
    .object [("type", .string "record"), ("name", .string name),
      ("fields", .array (fieldsToJson fields))]
  | .union branches => .array (branchesToJson branches)

def fieldsToJson : List (Text × Schema) → List Json
  | [] => []
  | (name, t) :: rest =>
    .object [("name", .string name), ("type", t.toJson)] :: fieldsToJson rest

def branchesToJson : List Schema → List Json
  | [] => []
  | t :: rest => t.toJson :: branchesToJson rest

end

def text (s : Schema) : Text := s.toJson.compact

end SchemaInference.Schema
