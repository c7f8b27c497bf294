import PhpTypes.OpenApi.Schema

/-!
The parts of an OpenAPI document that hold schemas: components, responses and parameters.
-/

namespace PhpTypes.OpenApi

/-- Schemas for reuse by the full name of their class. -/
structure Components where
  schemas : Dict Titled

namespace Components

def empty : Components := ⟨.empty⟩

def names (c : Components) : List String := c.schemas.keys

def has (c : Components) (name : String) : Bool := c.schemas.contains name

def get? (c : Components) (name : String) : Option Titled := c.schemas.get? name

/-- Registers a schema; `schemaReference` refers to it. -/
def add (c : Components) (name : String) (s : Titled) : Components := ⟨c.schemas.set name s⟩

def unique (c : Components) (name : String) : String := uniqueName c.names name

def json (c : Components) : Json :=
  if c.schemas.isEmpty then .obj []
  else
    let members := c.schemas.entries.map fun e => (c.unique e.1, e.2.json c.names)
    .obj [("schemas", .obj (Dict.ofList members).entries)]

end Components

def schemaReference (name : String) : Schema := .reference "schemas" name

structure Response where
  code : Int
  description : String
  /-- Schemas by media type. -/
  content : Dict Titled

namespace Response

def of (code : Int) : Response := ⟨code, "", .empty⟩

def setContent (r : Response) (mediaType : String) (s : Titled) : Response :=
  { r with content := r.content.set mediaType s }

def json (registered : List String) (r : Response) : Json :=
  let content := r.content.entries.map fun e =>
    (e.1, Json.obj [("schema", e.2.json registered)])
  .obj (("description", .str r.description) ::
    if r.content.isEmpty then [] else [("content", .obj content)])

end Response

structure Parameter where
  name : String
  location : String
  required : Bool
  description : String
  deprecated : Bool
  allowEmptyValue : Bool
  schema : Option Titled

namespace Parameter

/-- A parameter in the path is always required. -/
def of (name location : String) : Parameter :=
  ⟨name, location, location == "path", "", false, false, none⟩

def textMember (name value : String) : List (String × Json) :=
  if value.isEmpty then [] else [(name, .str value)]

def flagMember (name : String) (value : Bool) : List (String × Json) :=
  if value then [(name, .bool true)] else []

def json (registered : List String) (p : Parameter) : Json :=
  .obj (textMember "name" p.name ++ textMember "in" p.location ++
    flagMember "required" p.required ++ textMember "description" p.description ++
    flagMember "deprecated" p.deprecated ++ flagMember "allowEmptyValue" p.allowEmptyValue ++
    match p.schema with
    | some s => [("schema", s.json registered)]
    | none => [])

end Parameter

end PhpTypes.OpenApi
