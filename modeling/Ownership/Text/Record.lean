/-!
# Records and tuples as text

The layout in which messages quote a piece of a program: `Name(field=text, …)` for a record,
`(a, b)` for a tuple, where a single item keeps a comma behind it.
-/

namespace Ownership.Text

/-- A record: its name, then its fields in order. -/
def record (name : String) (fields : List (String × String)) : String :=
  name ++ "(" ++ ", ".intercalate (fields.map fun (k, v) => k ++ "=" ++ v) ++ ")"

/-- A tuple of texts. -/
def tuple : List String → String
  | [a] => "(" ++ a ++ ",)"
  | items => "(" ++ ", ".intercalate items ++ ")"

end Ownership.Text
