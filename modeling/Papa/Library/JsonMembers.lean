import Papa.Library.AssocList
import Papa.Library.Json

/-!
# Parts of a JSON value

What a consumer of a JSON text reads from its value: the member of an object with a name, and the
string, the truth value or the items that a value is.

## Main definitions

* `Json.get?`, `Json.string?`, `Json.bool?`, `Json.items?`.
-/

namespace Json

/-- The first member with a name. -/
def get? (name : List UInt8) : Json → Option Json
  | .object members => AssocList.get? name members
  | _ => none

/-- A string. -/
def string? : Json → Option (List UInt8)
  | .string s => some s
  | _ => none

/-- A truth value. -/
def bool? : Json → Option Bool
  | .bool b => some b
  | _ => none

/-- The items of an array. -/
def items? : Json → Option (List Json)
  | .array items => some items
  | _ => none

end Json
