import PhpTypes.Doc.TypeExpr
import PhpTypes.Source.Name
import PhpTypes.Source.Tree
import PhpTypes.Ty.Union

/-!
The types that PHPDoc expressions and native type declarations stand for. A name that is no
built-in type names a class; who reads an expression says what a class name means there.
-/

namespace PhpTypes.Doc

/-- How names are read: the class that `self` stands for, and the type of a class name. -/
structure Reader (m : Type → Type) where
  selfClass : Option String
  resolve : String → m Ty

/-- The reader for which a class name is the type of its instances, with nothing known of them. -/
def plainReader (selfClass : Option String) : Reader Id := ⟨selfClass, fun n => .instanceOf n none⟩

def scalarTypes : List (String × Ty) :=
  [("int", .int none), ("integer", .int none), ("positive-int", .int none),
   ("negative-int", .int none), ("non-negative-int", .int none), ("float", .float none),
   ("double", .float none), ("string", .string none), ("non-empty-string", .string none),
   ("class-string", .string none), ("numeric-string", .string none), ("bool", .boolean),
   ("boolean", .boolean), ("true", .boolean), ("false", .boolean), ("null", .null),
   ("void", .null), ("mixed", .unknown)]

def arrayNames : List String := ["array", "iterable", "list", "non-empty-array", "non-empty-list"]

def selfNames : List String := ["self", "static", "$this"]

variable {m : Type → Type} [Monad m]

/-- The type that a single name stands for. -/
def namedType (r : Reader m) (name : String) : m Ty :=
  let key := Source.nameKey name
  match scalarTypes.lookup key with
  | some t => pure t
  | none =>
    if arrayNames.contains key then pure (.array [])
    else if selfNames.contains key then
      match r.selfClass with
      | some c => r.resolve c
      | none => pure .unknown
    else if key == "callable" then pure (.function .unknown [])
    else if key == "object" then pure (.instanceOf "object" none)
    else if key == "resource" || key == "never" then pure .unknown
    else r.resolve (Source.plainName name)

/-- A generic name with its arguments. Containers are maps; of any other generic class only the
class itself is kept. -/
def genericType (r : Reader m) (name : String) (args : List Ty) : m Ty :=
  let key := Text.lower name
  if arrayNames.contains key || key == "collection" then
    match args with
    | [value] => pure (.map none value)
    | args => pure (.map args.head? (args.getLast?.getD .unknown))
  else if key == "class-string" then pure (.string none)
  else namedType r name

def shapeType (name : String) (items : List Item) : Ty :=
  if Text.lower name == "object" then .instanceOf "object" none else .array items

mutual

/-- The type of an expression. Names are read from left to right, inner ones first. -/
def typeOf (r : Reader m) : TypeExpr → m Ty
  | .named name => namedType r name
  | .generic name args => do genericType r name (← typesOf r args)
  | .shape name entries => do return shapeType name (← itemsOf r entries)
  | .nullable t => do return Ty.unionOf [← typeOf r t, .null]
  | .listOf t => do return .map none (← typeOf r t)
  | .union ts => do return Ty.unionOf (← typesOf r ts)
  | .intersection ts => do return .intersection (← typesOf r ts)

def typesOf (r : Reader m) : List TypeExpr → m (List Ty)
  | [] => pure []
  | t :: ts => do
    let first ← typeOf r t
    let rest ← typesOf r ts
    return first :: rest

def itemsOf (r : Reader m) : List ShapeEntry → m (List Item)
  | [] => pure []
  | e :: es => do
    let first ← itemOf r e
    let rest ← itemsOf r es
    return first :: rest

def itemOf (r : Reader m) : ShapeEntry → m Item
  | .keyed key isOptional t => do return .mk (some key) (← typeOf r t) isOptional "" false
  | .positional t => do return .of none (← typeOf r t)

end

/-- The type of a text. What is empty or no expression has no known type. -/
def typeOfText (r : Reader m) (text : String) : m Ty :=
  let cs := Text.trim text.toList
  if cs.isEmpty then pure .unknown
  else
    match TypeExpr.parse? cs with
    | some t => typeOf r t
    | none => pure .unknown

/-- The type of a native declaration; without one nothing is known. -/
def typeOfHint (r : Reader m) (hint : Option Source.TypeHint) : m Ty := do
  match hint with
  | none => return .unknown
  | some h =>
    let parts ← h.names.mapM (namedType r)
    match h.kind with
    | .nullable => return Ty.unionOf (parts ++ [.null])
    | .intersection => return .intersection parts
    | .union => return Ty.unionOf parts

/-- The type of a text when nothing is known of classes. -/
def plainType (text : String) : Ty := (typeOfText (plainReader none) text).run

end PhpTypes.Doc
