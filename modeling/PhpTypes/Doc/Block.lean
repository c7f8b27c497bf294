import PhpTypes.Text.Blank
import PhpTypes.Text.Lines
import PhpTypes.Text.Lower
import PhpTypes.Text.Word

/-!
Doc blocks: a summary and tags. A tag has a name and a description; the tags that speak of a value
also have a type expression and may name a variable.
-/

namespace PhpTypes.Doc

structure Tag where
  name : String
  typeExpr : String
  variableName : Option String
  description : String
deriving DecidableEq

/-- A line with an at sign that no tag name follows. -/
structure MalformedTag where
  line : String

def typedTags : List String :=
  ["var", "param", "return", "throws", "property", "property-read", "property-write"]

def propertyTags : List String := ["property", "property-read", "property-write"]

/-- The tag as a line. -/
def Tag.text (t : Tag) : String :=
  let variablePart := match t.variableName with
    | some v => if v.isEmpty then "" else "$" ++ v
    | none => ""
  " ".intercalate
    (["@" ++ t.name, t.typeExpr, variablePart, t.description].filter fun p => !p.isEmpty)

def opens (c : Char) : Bool := c == '<' || c == '\x7b' || c == '('

def closes (c : Char) : Bool := c == '>' || c == '\x7d' || c == ')'

/-- Whether a type expression goes on across white space next to this character. -/
def joins (c : Option Char) : Bool := c == some '|' || c == some '&'

/-- Splits a type expression off: it ends at white space outside brackets, unless an operator
stands before or after. What was taken already is in `before`, last first. -/
def splitTypeFrom (before : List Char) (depth : Int) : List Char → List Char × List Char
  | [] => (before.reverse, [])
  | c :: cs =>
    if opens c then splitTypeFrom (c :: before) (depth + 1) cs
    else if closes c then splitTypeFrom (c :: before) (depth - 1) cs
    else if Text.isBlank c && depth ≤ 0 then
      let rest := Text.trimStart (c :: cs)
      if joins rest.head? || joins (Text.trimStart before).head? then
        splitTypeFrom (c :: before) depth cs
      else (before.reverse, rest)
    else splitTypeFrom (c :: before) depth cs

def splitType (cs : List Char) : List Char × List Char := splitTypeFrom [] 0 cs

/-- A variable with its marks for reference and variable length, and what follows it. -/
def splitVariable (cs : List Char) : Option (List Char × List Char) :=
  let cs := match cs with
    | '&' :: rest => rest
    | cs => cs
  let cs := match cs with
    | '.' :: '.' :: '.' :: rest => rest
    | cs => cs
  match cs with
  | '$' :: rest =>
    let name := rest.takeWhile Text.isWord
    if name.isEmpty then none else some (name, Text.trimStart (rest.drop name.length))
  | _ => none

def isTagChar (c : Char) : Bool := Text.isWord c || c == '-' || c == '\\'

/-- The tag of a typed name and the text after that name. -/
def typedTag (name : String) (cs : List Char) : Tag :=
  let (typeExpr, rest) := splitType cs
  match splitVariable rest with
  | some (v, rest) =>
    ⟨name, String.ofList typeExpr, some (String.ofList v), String.ofList (Text.trim rest)⟩
  | none =>
    match typeExpr with
    | '$' :: v => ⟨name, "", some (String.ofList v), String.ofList (Text.trim rest)⟩
    | _ => ⟨name, String.ofList typeExpr, none, String.ofList (Text.trim rest)⟩

/-- Reads a line that starts with an at sign. -/
def Tag.parse (line : List Char) : Except MalformedTag Tag :=
  let word := (line.drop 1).takeWhile isTagChar
  if word.isEmpty then .error ⟨String.ofList line⟩
  else
    let name := Text.lower (String.ofList word)
    let rest := Text.trim (line.drop (1 + word.length))
    if typedTags.contains name then .ok (typedTag name rest)
    else .ok ⟨name, "", none, String.ofList rest⟩

structure Block where
  summary : String
  tags : List Tag

namespace Block

def empty : Block := ⟨"", []⟩

/-- A line of a comment without the star in front and the white space around. -/
def stripDecoration (line : List Char) : List Char :=
  let cs := Text.trimStart line
  let cs := match cs with
    | '*' :: c :: rest => if Text.isBlank c then rest else c :: rest
    | ['*'] => []
    | cs => cs
  Text.trimEnd cs

def removeStart (start cs : List Char) : List Char :=
  if start.isPrefixOf cs then cs.drop start.length else cs

def removeEnd (ending cs : List Char) : List Char :=
  if ending.isSuffixOf cs then cs.take (cs.length - ending.length) else cs

/-- The lines of a comment, without its marks and decoration. -/
def contentLines (comment : String) : List (List Char) :=
  let body := removeEnd ['*', '/'] (removeStart ['/', '*', '*'] (Text.trim comment.toList))
  (Text.splitLines body).map stripDecoration

def startsTag (line : List Char) : Bool := line.head? == some '@'

/-- The lines of each tag: one with an at sign, and those up to the next such line. -/
def tagLines : List (List Char) → List (List (List Char))
  | [] => []
  | line :: rest =>
    if startsTag line then
      (line :: ((rest.takeWhile fun l => !startsTag l).filter fun l => !l.isEmpty).map Text.trim)
        :: tagLines rest
    else tagLines rest

def joinLines (lines : List (List Char)) : List Char := [' '].intercalate lines

def summaryLines (lines : List (List Char)) : List (List Char) :=
  ((lines.takeWhile fun l => !startsTag l).filter fun l => !l.isEmpty).map Text.trim

/-- Reads a doc comment; no comment is an empty block. -/
def parse (comment : Option String) : Except MalformedTag Block :=
  match comment with
  | none => .ok empty
  | some text =>
    if text.isEmpty then .ok empty
    else do
      let lines := contentLines text
      let tags ← (tagLines lines).mapM fun ls => Tag.parse (joinLines ls)
      return ⟨String.ofList (joinLines (summaryLines lines)), tags⟩

def all (b : Block) (name : String) : List Tag := b.tags.filter fun t => t.name == name

def first? (b : Block) (name : String) : Option Tag := b.tags.find? fun t => t.name == name

/-- The tag that gives the type of a value, which may be asked for by the name of a variable; a tag
that names no variable fits all. -/
def varTag? (b : Block) (variableName : Option String) : Option Tag :=
  (b.all "var").find? fun t =>
    variableName.isNone || t.variableName.isNone || t.variableName == variableName

def paramTag? (b : Block) (variableName : String) : Option Tag :=
  (b.all "param").find? fun t => t.variableName == some variableName

def properties (b : Block) : List Tag := b.tags.filter fun t => propertyTags.contains t.name

def isBlank (b : Block) : Bool := b.summary.isEmpty && b.tags.isEmpty

end Block

end PhpTypes.Doc
