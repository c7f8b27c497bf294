import PhpTypes.OpenApi.Document
import PhpTypes.Ty.Shape

/-!
Schemas of types. A list is an array, a shape is an object with the required keys named, and
`T|null` is `T` made nullable. Extensions can give types schemas of their own, and of those that
accept a type the last one counts.
-/

namespace PhpTypes.OpenApi

/-- An own rule for the schemas and responses of some types. It is given what the extensions before
it made of the type. -/
structure Extension where
  handles : Ty → Bool
  /-- The full name under which the schema is registered, if it is. -/
  reference : Ty → Option String
  /-- The section that its reference to a registered schema names. -/
  referenceKind : Ty → String := fun _ => "schemas"
  toSchema : Ty → Option Schema → Option Schema
  toResponse : Ty → Option Response → Option Response

/-- A union of nothing but nulls has no member to make nullable. -/
inductive SchemaError where
  | onlyNulls
  /-- The same, met inside a list of alternatives. -/
  | onlyNullsInside

abbrev Generation := ExceptT SchemaError (StateM Components)

/-- A way to put the question for the schema of a type to an extension, along with what the
extensions before it made of the type. -/
abbrev Asking (m : Type → Type) := Extension → Ty → Option Schema → m (Option Schema)

/-- The extension answers, and nothing else happens. -/
def askPlainly : Asking Generation := fun e t previous => return e.toSchema t previous

section

variable {m : Type → Type} [Monad m] [MonadStateOf Components m] [MonadExceptOf SchemaError m]

/-- What one extension makes of a type. -/
def applyExtension (ask : Asking m) (t : Ty) (previous : Option Schema) (e : Extension) :
    m (Option Schema) := do
  if !e.handles t then return previous
  match e.reference t with
  | none =>
    match ← ask e t previous with
    | some s => return some s
    | none => return previous
  | some name =>
    if (← get).has name then return some (.reference (e.referenceKind t) name)
    match ← ask e t previous with
    | some s =>
      modify fun c => c.add name (.of s)
      return some (schemaReference name)
    | none => return previous

def handled (ask : Asking m) (extensions : List Extension) (t : Ty) : m (Option Schema) :=
  extensions.foldlM (applyExtension ask t) none

/-- The schema that extensions give a type, or else the one that it has without them. That one is
made in any case, as it can register the schemas of its parts. -/
def extended (ask : Asking m) (extensions : List Extension) (t : Ty) (builtIn : m Schema) :
    m Schema := do
  let s ← builtIn
  return (← handled ask extensions t).getD s

/-- Marks a failure as met inside a list. -/
def inside {α : Type} (x : m α) : m α := tryCatch x fun _ => throw SchemaError.onlyNullsInside

end

def isIntKey : Option Key → Bool
  | some (.int _) => true
  | _ => false

/-- Whether a shape is written as an array: a list, or a single entry with an integer key. -/
def isArrayShape : List Item → Bool
  | [i] => i.key.isNone || isIntKey i.key
  | items => Ty.isList items

/-- The key of an entry when the next free position is `next`, and the next free position after
it. -/
def numberKey (next : Int) (key : Option Key) : Key × Int :=
  match key with
  | none => (.int next, next + 1)
  | some (.int n) => (.int n, max next (n + 1))
  | some k => (k, next)

structure NamedSchema where
  name : String
  schema : Schema
  isOptional : Bool

/-- The object with the given properties. -/
def objectOf (ps : List NamedSchema) : Schema :=
  .object .none (Dict.ofList (ps.map fun p => (p.name, p.schema))).entries
    ((ps.filter fun p => !p.isOptional).map NamedSchema.name) none

def describe (description : String) (s : Schema) : Schema :=
  if description.isEmpty then s else s.setDescription description

def mapSchema (key value : Schema) : Schema :=
  match key with
  | .plain .integer _ => .array .none value
  | _ => .object .none [] [] (some value)

/-- The member of a union of two that is made nullable, if one of them is null. -/
inductive Pairing where
  | notNull (first : Bool)
  | onlyNulls
  | other

def pairing : List Ty → Pairing
  | [a, b] =>
    if a.isNull && b.isNull then .onlyNulls
    else if a.isNull then .notNull false
    else if b.isNull then .notNull true
    else .other
  | _ => .other

section

variable {m : Type → Type} [Monad m] [MonadStateOf Components m] [MonadExceptOf SchemaError m]
  (ask : Asking m) (es : List Extension)

mutual

/-- The schema that a type itself has without extensions; its parts have theirs. -/
def builtIn : Ty → m Schema
  | .array items => do
    if isArrayShape items then return .array .none (← firstSchema items)
    else return objectOf (← itemSchemas 0 items)
  | .map none value => return .array .none (← extended ask es value (builtIn value))
  | .map (some key) value => do
    let v ← extended ask es value (builtIn value)
    let k ← extended ask es key (builtIn key)
    return mapSchema k v
  | .union types =>
    match pairing types with
    | .onlyNulls => throw SchemaError.onlyNulls
    | .notNull first => return (← eitherSchema first types).setNullable true
    | .other => return .anyOf .none (← inside (schemas types))
  | .intersection types => return .allOf .none (← inside (schemas types))
  | .string _ => return .ofPlain .string
  | .float _ => return .ofPlain .number
  | .int _ => return .ofPlain .integer
  | .boolean => return .ofPlain .boolean
  | .null => return .ofPlain .null
  | .object _ _ => return .object .none [] [] none
  | .unknown => return .ofPlain .string
  | .function _ _ => return .ofPlain .string

def schemas : List Ty → m (List Schema)
  | [] => return []
  | t :: ts => do
    let first ← extended ask es t (builtIn t)
    return first :: (← schemas ts)

/-- The schema of the first or the second of two types. -/
def eitherSchema (first : Bool) : List Ty → m Schema
  | [a, b] => if first then extended ask es a (builtIn a) else extended ask es b (builtIn b)
  | _ => return .ofPlain .string

/-- The schema of the first entry; an empty array holds strings. -/
def firstSchema : List Item → m Schema
  | .mk _ value _ _ _ :: _ => extended ask es value (builtIn value)
  | [] => return .ofPlain .string

/-- The schemas of entries, where those without a key are numbered from `next` on. -/
def itemSchemas (next : Int) : List Item → m (List NamedSchema)
  | [] => return []
  | .mk key value isOptional description _ :: rest => do
    let s ← extended ask es value (builtIn value)
    let (k, next) := numberKey next key
    return ⟨k.text, describe description s, isOptional⟩ :: (← itemSchemas next rest)

end

/-- The schema of a type, where extensions are asked in the given way. -/
def transformBy (t : Ty) : m Schema := extended ask es t (builtIn ask es t)

end

/-- The schema of a type. -/
def transform (es : List Extension) (t : Ty) : Generation Schema := transformBy askPlainly es t

/-- The response of the last extension that gives one. -/
def ownResponse (es : List Extension) (t : Ty) : Option Response :=
  es.foldl (fun previous e =>
    if e.handles t then (e.toResponse t previous).orElse fun _ => previous else previous) none

/-- The response that a type makes: its schema as JSON, unless an extension has its own. -/
def toResponse (es : List Extension) (t : Ty) : Generation Response := do
  match ownResponse es t with
  | some r => return r
  | none => return (Response.of 200).setContent "application/json" (.of (← transform es t))

end PhpTypes.OpenApi
