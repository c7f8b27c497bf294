import PhpTypes.Decimal.Shortest

/-!
Inferred types: scalars that may carry the value they are known to have, array shapes, maps, class
instances, unions, intersections and callables. What cannot be inferred is `unknown`.
-/

namespace PhpTypes

/-- The key of an entry in an array shape. -/
inductive Key where
  | int (n : Int)
  | str (s : String)
deriving DecidableEq, Inhabited

def Key.text : Key → String
  | .int n => toString n
  | .str s => s

/-- A value that is written down; of lists and tables nothing is told. -/
inductive Literal where
  | null
  | bool (b : Bool)
  | int (n : Int)
  | float (x : Float)
  | str (s : String)
  | compound

mutual

inductive Ty where
  | unknown
  | null
  | boolean
  | int (value : Option Int)
  | float (value : Option Float)
  | string (value : Option String)
  /-- An array shape: its entries in order. -/
  | array (items : List Item)
  /-- An array of which only the types of keys and values are known; a list if there is no key
  type. -/
  | map (key : Option Ty) (value : Ty)
  /-- An instance of a class. A class that is known also has the name under which it was
  declared. -/
  | object (name : String) (declared : Option String)
  | union (types : List Ty)
  | intersection (types : List Ty)
  | function (result : Ty) (params : List Ty)

/-- An entry of an array shape; without a key it takes the next position. -/
inductive Item where
  | mk (key : Option Key) (value : Ty) (isOptional : Bool) (description : String)
      (docHinted : Bool)

end

instance : Inhabited Ty := ⟨.unknown⟩

instance : Inhabited Item := ⟨.mk none .unknown false "" false⟩

namespace Item

def key : Item → Option Key
  | .mk k _ _ _ _ => k

def value : Item → Ty
  | .mk _ v _ _ _ => v

def isOptional : Item → Bool
  | .mk _ _ o _ _ => o

def description : Item → String
  | .mk _ _ _ d _ => d

def docHinted : Item → Bool
  | .mk _ _ _ _ h => h

def of (key : Option Key) (value : Ty) : Item := .mk key value false "" false

def withKey (key : Option Key) : Item → Item
  | .mk _ v o d h => .mk key v o d h

end Item

namespace Ty

/-- The type of a class instance; a leading namespace separator is no part of the name. -/
def instanceOf (name : String) (declared : Option String) : Ty :=
  .object (String.ofList (name.toList.dropWhile (· == '\\'))) declared

/-- Floats are written plainly from `1e-4` to below `1e16`. -/
def floatFormat : Decimal.Format := ⟨-4, 15, 2⟩

mutual

/-- The text of a type, such as `array{id: int(1), name?: string}`. -/
def text : Ty → String
  | .unknown => "unknown"
  | .null => "null"
  | .boolean => "boolean"
  | .int none => "int"
  | .int (some n) => "int(" ++ toString n ++ ")"
  | .float none => "float"
  | .float (some x) => "float(" ++ floatFormat.render x ++ ")"
  | .string none => "string"
  | .string (some s) => "string(" ++ s ++ ")"
  | .array items => "array\x7b" ++ ", ".intercalate (itemTexts items) ++ "\x7d"
  | .map none value => "array<" ++ text value ++ ">"
  | .map (some key) value => "array<" ++ text key ++ ", " ++ text value ++ ">"
  | .object name _ => name
  | .union types => "|".intercalate (texts types)
  | .intersection types => "&".intercalate (texts types)
  | .function result params => "(" ++ ", ".intercalate (texts params) ++ "): " ++ text result

def texts : List Ty → List String
  | [] => []
  | t :: ts => text t :: texts ts

def itemText : Item → String
  | .mk none value _ _ _ => text value
  | .mk (some key) value isOptional _ _ =>
    key.text ++ (if isOptional then "?" else "") ++ ": " ++ text value

def itemTexts : List Item → List String
  | [] => []
  | i :: is => itemText i :: itemTexts is

end

end Ty

end PhpTypes
