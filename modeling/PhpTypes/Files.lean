import PhpTypes.Text.Lines
import PhpTypes.Text.Utf8

/-!
Paths, and what there is under them.
-/

namespace PhpTypes

/-- What there is under a path. -/
inductive FileContent where
  | missing
  /-- A part of the path before the last is a file. -/
  | belowFile
  | directory
  | bytes (b : List UInt8)

/-- The text of a file: bytes that are no UTF-8 are replaced, and every line ends in a line feed. -/
def textOfBytes (b : List UInt8) : List Char := Text.unifyNewlines (Text.decodeUtf8 b)

/-- A path without empty parts and parts that stay in place. -/
def normalizePath (path : String) : String :=
  let parts := (path.splitOn "/").filter fun p => !p.isEmpty && p != "."
  let slashes := (path.toList.takeWhile (· == '/')).length
  let root := if slashes == 0 then "" else if slashes == 2 then "//" else "/"
  let text := root ++ "/".intercalate parts
  if text.isEmpty then "." else text

/-- Files by their normalized paths. Their directories exist, and so does the one they are in. -/
abbrev Files := List (String × List UInt8)

namespace Files

/-- Writes a file; what was there before is lost. -/
def write (fs : Files) (path : String) (b : List UInt8) : Files := (normalizePath path, b) :: fs

/-- Whether a path leads through another one. -/
def isBelow (path directory : String) : Bool := (directory ++ "/").isPrefixOf path

/-- What there is under a normalized path. -/
def read (fs : Files) (path : String) : FileContent :=
  match fs.lookup path with
  | some b => .bytes b
  | none =>
    if path == "." || fs.any fun f => isBelow f.1 path then .directory
    else if fs.any fun f => isBelow path f.1 then .belowFile
    else .missing

end Files

end PhpTypes
