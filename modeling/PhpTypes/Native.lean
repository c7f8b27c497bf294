import PhpTypes.Doc.Meaning
import PhpTypes.Text.Lines

/-!
Signatures of native functions. They are read from declarations in PHP, one a line, or given as type
expressions.
-/

namespace PhpTypes

structure Signature where
  result : Ty
  params : List Ty

def Signature.type (s : Signature) : Ty := .function s.result s.params

/-- Native functions by lower-case name. -/
abbrev Natives := Dict Signature

namespace Natives

/-- A signature as text: the name of a function, its result type and the types of its parameters. -/
structure Declared where
  name : String
  result : String
  params : List String

def Declared.signature (d : Declared) : Signature :=
  ⟨Doc.plainType d.result, d.params.map Doc.plainType⟩

def addAll (n : Natives) (ds : List Declared) : Natives :=
  n.setAll (ds.map fun d => (Text.lower d.name, d.signature))

/-! Reading declarations. -/

/-- The rest of a text after a fixed start. -/
def after? (start cs : List Char) : Option (List Char) :=
  if start.isPrefixOf cs then some (cs.drop start.length) else none

def dropOptional (start cs : List Char) : List Char := (after? start cs).getD cs

def isTypeChar (c : Char) : Bool := Text.isWord c || ['?', '\\', '|', '&'].contains c

def isNameStart (c : Char) : Bool := c.isAlpha || c == '_'

/-- A parameter at the start of a text: the type, if any, and a variable. -/
def paramAt? (cs : List Char) : Option String := do
  let type := cs.takeWhile isTypeChar
  let rest := Text.trimStart (cs.drop type.length)
  let rest := dropOptional ['.', '.', '.'] (dropOptional ['&'] rest)
  let rest ← after? ['$'] rest
  let c ← rest.head?
  if Text.isWord c then some (String.ofList type) else none

/-- The first result of a reader along a text. -/
def search {α : Type} (read : List Char → Option α) : List Char → Option α
  | [] => read []
  | c :: cs => (read (c :: cs)).orElse fun _ => search read cs

/-- The parts of a text between separators. -/
def splitAt (separator : Char) (part : List Char) : List Char → List (List Char)
  | [] => [part.reverse]
  | c :: cs =>
    if c == separator then part.reverse :: splitAt separator [] cs
    else splitAt separator (c :: part) cs

/-- The types of the parameters in a list; default values do not matter. -/
def paramTypes (cs : List Char) : List String :=
  (splitAt ',' [] cs).filterMap fun part => search paramAt? (Text.trim (part.takeWhile (· != '=')))

/-- The result type after the parameters, if there is one. -/
def resultType (cs : List Char) : String :=
  match Text.trimStart cs with
  | ':' :: rest => String.ofList ((Text.trimStart rest).takeWhile isTypeChar)
  | _ => ""

/-- A declaration at the start of a text. -/
def declaredAt? (cs : List Char) : Option Declared := do
  let rest ← after? "function".toList cs
  let c ← rest.head?
  if !Text.isBlank c then none
  let rest := dropOptional ['&'] (Text.trimStart rest)
  let c ← rest.head?
  if !isNameStart c then none
  let name := rest.takeWhile Text.isWord
  let rest ← after? ['('] (Text.trimStart (rest.drop name.length))
  let params := rest.takeWhile (· != ')')
  let rest ← after? [')'] (rest.drop params.length)
  return ⟨String.ofList name, resultType rest, paramTypes params⟩

/-- The declarations of a text, at most one a line. -/
def declared (text : List Char) : List Declared :=
  (Text.splitLines text).filterMap (search declaredAt?)

/-- Functions that are known without any declaration. -/
def common : List (String × String × List String) :=
  [("count", "int", ["array"]),
   ("array_keys", "array<int, string>", ["array"]),
   ("array_values", "array", ["array"]),
   ("array_merge", "array", ["array"]),
   ("array_map", "array", ["callable", "array"]),
   ("array_filter", "array", ["array", "callable"]),
   ("in_array", "bool", ["mixed", "array", "bool"]),
   ("array_key_exists", "bool", ["mixed", "array"]),
   ("implode", "string", ["string", "array"]),
   ("explode", "array<int, string>", ["string", "string", "int"]),
   ("strlen", "int", ["string"]),
   ("strtolower", "string", ["string"]),
   ("strtoupper", "string", ["string"]),
   ("trim", "string", ["string", "string"]),
   ("sprintf", "string", ["string"]),
   ("str_replace", "string", ["string", "string", "string"]),
   ("substr", "string", ["string", "int", "int"]),
   ("str_contains", "bool", ["string", "string"]),
   ("str_starts_with", "bool", ["string", "string"]),
   ("ucfirst", "string", ["string"]),
   ("strpos", "int|false", ["string", "string", "int"]),
   ("json_encode", "string|false", ["mixed", "int", "int"]),
   ("json_decode", "mixed", ["string", "bool", "int", "int"]),
   ("serialize", "string", ["mixed"]),
   ("is_array", "bool", ["mixed"]),
   ("is_string", "bool", ["mixed"]),
   ("is_int", "bool", ["mixed"]),
   ("is_numeric", "bool", ["mixed"]),
   ("is_null", "bool", ["mixed"]),
   ("intval", "int", ["mixed", "int"]),
   ("floatval", "float", ["mixed"]),
   ("strval", "string", ["mixed"]),
   ("boolval", "bool", ["mixed"]),
   ("gettype", "string", ["mixed"]),
   ("get_class", "string", ["object"]),
   ("abs", "int|float", ["int|float"]),
   ("round", "float", ["int|float", "int"]),
   ("floor", "float", ["int|float"]),
   ("ceil", "float", ["int|float"]),
   ("max", "mixed", ["mixed"]),
   ("min", "mixed", ["mixed"]),
   ("rand", "int", ["int", "int"]),
   ("random_int", "int", ["int", "int"]),
   ("time", "int", []),
   ("date", "string", ["string", "int"]),
   ("microtime", "string|float", ["bool"])]

def commonDeclared : List Declared :=
  common.map fun (name, result, params) => ⟨name, result, params⟩

end Natives

end PhpTypes
