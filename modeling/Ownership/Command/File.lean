/-!
# Files by path

A path is shown without its empty segments and those that stay where they are; a segment that goes up
is kept, because it only leads somewhere if what stands before it is a folder. What is read from a
file is text, with one kind of line end.
-/

namespace Ownership.Command

/-! ## 1. Paths -/

structure PathName where
  /-- The slashes at the start of a path that does not start here: one or two. -/
  root : String
  segments : List String
  deriving DecidableEq, Repr

namespace PathName

/-- The path a text stands for. Exactly two slashes at the start are kept as they are, any other
    number counts as one. -/
def ofText (text : String) : PathName where
  root := match (text.toList.takeWhile (· == '/')).length with
    | 0 => ""
    | 2 => "//"
    | _ => "/"
  segments := (text.splitOn "/").filter fun s => s != "" && s != "."

def text (p : PathName) : String :=
  if p.root.isEmpty && p.segments.isEmpty then "." else p.root ++ "/".intercalate p.segments

end PathName

/-! ## 2. Reading -/

/-- Why a file cannot be read. -/
inductive ReadError where
  | missing
  | isFolder
  | notAFolder
  | tooLong
  | refused (reason : String)
  deriving DecidableEq, Repr

def ReadError.message : ReadError → String
  | .missing => "No such file or directory"
  | .isFolder => "Is a directory"
  | .notAFolder => "Not a directory"
  | .tooLong => "File name too long"
  | .refused r => r

/-- Every line end written as a single line feed. -/
def unifyLineEnds : List Char → List Char
  | [] => []
  | '\r' :: '\n' :: cs => '\n' :: unifyLineEnds cs
  | c :: cs => (if c == '\r' then '\n' else c) :: unifyLineEnds cs

/-- The text in a file, if its bytes are one. -/
def decode? (bytes : ByteArray) : Option String :=
  (String.fromUTF8? bytes).map fun s => String.ofList (unifyLineEnds s.toList)

end Ownership.Command
