import PhpTypes.Doc.TypeToken
import PhpTypes.Parsing
import PhpTypes.Text.Blank
import PhpTypes.Ty.Basic

/-!
PHPDoc type expressions: names, generics, array shapes, lists, nullable types, unions and
intersections, and how they are read.
-/

namespace PhpTypes.Doc

mutual

inductive TypeExpr where
  | named (name : String)
  | generic (name : String) (args : List TypeExpr)
  | shape (name : String) (entries : List ShapeEntry)
  | nullable (t : TypeExpr)
  | listOf (t : TypeExpr)
  | union (ts : List TypeExpr)
  | intersection (ts : List TypeExpr)

inductive ShapeEntry where
  | keyed (key : Key) (isOptional : Bool) (t : TypeExpr)
  | positional (t : TypeExpr)

end

abbrev TypeParser := TokenParser TypeToken

namespace TypeParser

def tok (t : TypeToken) : TypeParser TypeToken := TokenParser.oneOf (· == t)

def acceptsTok (t : TypeToken) : TypeParser Bool := TokenParser.accepts (· == t)

/-- Several parts joined by an operator; one alone stands for itself. -/
def joined (p : TypeParser TypeExpr) (operator : TypeToken)
    (make : List TypeExpr → TypeExpr) : TypeParser TypeExpr := do
  match ← TokenParser.separated p (tok operator) with
  | [t] => return t
  | ts => return make ts

/-- `?` binds to the atom after it. -/
def primary (atom : TypeParser TypeExpr) : TypeParser TypeExpr := do
  if ← acceptsTok .qmark then return .nullable (← atom) else atom

/-- Each `[]` makes a list of what stands before it. -/
def listed (atom : TypeParser TypeExpr) : TypeParser TypeExpr := do
  let t ← primary atom
  let suffixes ← TokenParser.many (tok .lsqb *> tok .rsqb)
  return suffixes.foldl (fun t _ => .listOf t) t

/-- A whole expression, given how atoms are read. -/
def union (atom : TypeParser TypeExpr) : TypeParser TypeExpr :=
  joined (joined (listed atom) .amp .intersection) .bar .union

def keyOf? : TypeToken → Option Key
  | .name n => some (.str n)
  | .int n => some (.int n)
  | .string s => some (.str s)
  | _ => none

/-- The key of an entry with its mark and colon. A name that is followed by neither is no key. -/
def entryKey : TypeParser (Key × Bool) := fun ts =>
  match ts with
  | t :: .colon :: rest => (keyOf? t).map fun k => ((k, false), rest)
  | t :: .qmark :: .colon :: rest => (keyOf? t).map fun k => ((k, true), rest)
  | _ => none

def entry (atom : TypeParser TypeExpr) : TypeParser ShapeEntry :=
  (do
    let (key, isOptional) ← entryKey
    return .keyed key isOptional (← union atom)) <|>
  (do return .positional (← union atom))

def entries (atom : TypeParser TypeExpr) : TypeParser (List ShapeEntry) := do
  if ← acceptsTok .rbrace then return []
  let items ← TokenParser.separated (entry atom) (tok .comma)
  let _ ← acceptsTok .comma
  let _ ← tok .rbrace
  return items

def anyName : TypeParser String := fun ts =>
  match ts with
  | .name n :: rest => some (n, rest)
  | _ => none

/-- An atom with at most so many brackets inside one another. -/
def atom : Nat → TypeParser TypeExpr
  | 0 => failure
  | depth + 1 => do
    if ← acceptsTok .lpar then
      let t ← union (atom depth)
      let _ ← tok .rpar
      return t
    let name ← anyName
    if ← acceptsTok .lt then
      let args ← TokenParser.separated (union (atom depth)) (tok .comma)
      let _ ← tok .gt
      return .generic name args
    if ← acceptsTok .lbrace then return .shape name (← entries (atom depth))
    return .named name

end TypeParser

/-- The expression that a list of tokens stands for. -/
def TypeExpr.ofTokens? (ts : List TypeToken) : Option TypeExpr :=
  (TypeParser.union (TypeParser.atom (ts.length + 1))).complete ts

/-- The expression that a text stands for. -/
def TypeExpr.parse? (text : List Char) : Option TypeExpr :=
  (typeTokens text).bind TypeExpr.ofTokens?

end PhpTypes.Doc
