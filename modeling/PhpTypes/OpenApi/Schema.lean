import PhpTypes.Json
import PhpTypes.Source.Name

/-!
OpenAPI schemas and their documents. A reference is written with the name that its schema has among
all registered ones.
-/

namespace PhpTypes.OpenApi

/-- What every schema can say besides its type. -/
structure Notes where
  nullable : Bool
  description : String
  format : String

def Notes.none : Notes := ⟨false, "", ""⟩

inductive Plain where
  | any
  | string
  | integer
  | number
  | boolean
  | null
deriving DecidableEq

def Plain.typeName : Plain → String
  | .any => ""
  | .string => "string"
  | .integer => "integer"
  | .number => "number"
  | .boolean => "boolean"
  | .null => "null"

inductive Schema where
  | plain (type : Plain) (notes : Notes)
  | array (notes : Notes) (items : Schema)
  | object (notes : Notes) (properties : List (String × Schema)) (required : List String)
      (additional : Option Schema)
  | anyOf (notes : Notes) (items : List Schema)
  | allOf (notes : Notes) (items : List Schema)
  /-- A registered schema, by the section it stands in and its full name. -/
  | reference (kind : String) (fullName : String)

namespace Schema

def ofPlain (type : Plain) : Schema := .plain type .none

/-- Changes the notes; a reference has none. -/
def mapNotes (f : Notes → Notes) : Schema → Schema
  | .plain type n => .plain type (f n)
  | .array n items => .array (f n) items
  | .object n properties required additional => .object (f n) properties required additional
  | .anyOf n items => .anyOf (f n) items
  | .allOf n items => .allOf (f n) items
  | .reference kind name => .reference kind name

def setNullable (value : Bool) (s : Schema) : Schema :=
  s.mapNotes fun n => { n with nullable := value }

def setDescription (text : String) (s : Schema) : Schema :=
  s.mapNotes fun n => { n with description := text }

def setFormat (text : String) (s : Schema) : Schema := s.mapNotes fun n => { n with format := text }

end Schema

/-- The name that a registered schema is written with: the last part of its full name, or if
another name ends in the same part, the full name with dots. -/
def uniqueName (registered : List String) (name : String) : String :=
  let short := Source.lastPart name
  if (registered.filter fun n => Source.lastPart n == short).length ≤ 1 then short
  else String.ofList (name.toList.map fun c => if c == '\\' then '.' else c)

/-- The members of a document that tell the type and the notes. -/
def headMembers (typeName : String) (n : Notes) : List (String × Json) :=
  (if typeName.isEmpty then [] else [("type", .str typeName)]) ++
    (if n.format.isEmpty then [] else [("format", .str n.format)]) ++
    (if n.description.isEmpty then [] else [("description", .str n.description)]) ++
    (if n.nullable then [("nullable", .bool true)] else [])

def requiredMember (required : List String) : List (String × Json) :=
  if required.isEmpty then [] else [("required", .arr (required.map .str))]

def referenceText (registered : List String) (kind name : String) : String :=
  "#/components/" ++ kind ++ "/" ++ uniqueName registered name

namespace Schema

mutual

/-- The document of a schema, given the names of all registered schemas. -/
def json (registered : List String) : Schema → Json
  | .plain type n => .obj (headMembers type.typeName n)
  | .array n items => .obj (headMembers "array" n ++ [("items", json registered items)])
  | .object n properties required additional =>
    .obj (headMembers "object" n ++
      (if properties.isEmpty then []
        else [("properties", .obj (propertyMembers registered properties))]) ++
      requiredMember required ++ additionalMember registered additional)
  | .anyOf n items => .obj (headMembers "" n ++ [("anyOf", .arr (jsons registered items))])
  | .allOf n items => .obj (headMembers "" n ++ [("allOf", .arr (jsons registered items))])
  | .reference kind name => .obj [("$ref", .str (referenceText registered kind name))]

def jsons (registered : List String) : List Schema → List Json
  | [] => []
  | s :: ss => json registered s :: jsons registered ss

def propertyMembers (registered : List String) : List (String × Schema) → List (String × Json)
  | [] => []
  | (name, s) :: rest => (name, json registered s) :: propertyMembers registered rest

def additionalMember (registered : List String) : Option Schema → List (String × Json)
  | none => []
  | some s => [("additionalProperties", json registered s)]

end

/-- Whether two schemas are of one form. -/
def sameForm : Schema → Schema → Bool
  | .plain a _, .plain b _ => a == b
  | .array _ _, .array _ _ => true
  | .object _ _ _ _, .object _ _ _ _ => true
  | .anyOf _ _, .anyOf _ _ => true
  | .allOf _ _, .allOf _ _ => true
  | .reference _ _, .reference _ _ => true
  | _, _ => false

/-- Schemas are equal if they are of one form and have equal documents. -/
def same (registered : List String) (a b : Schema) : Bool :=
  sameForm a b && Json.same (a.json registered) (b.json registered)

end Schema

/-- A schema that may have a title. -/
structure Titled where
  schema : Schema
  title : String

def Titled.of (s : Schema) : Titled := ⟨s, ""⟩

def Titled.json (registered : List String) (t : Titled) : Json :=
  match t.schema.json registered with
  | .obj members => .obj (if t.title.isEmpty then members else ("title", .str t.title) :: members)
  | j => j

end PhpTypes.OpenApi
