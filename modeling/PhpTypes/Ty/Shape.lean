import PhpTypes.Ty.Union

/-!
Reading and writing arrays by key. A shape knows its entries one by one; a key that is not known
turns it into a map.
-/

namespace PhpTypes.Ty

def isList (items : List Item) : Bool := items.all fun i => i.key.isNone

def getItem? (items : List Item) (key : Key) : Option Item :=
  items.find? fun i => i.key == some key

/-- Replaces the entry of that key, or adds one at the end. -/
def replaceItem (key : Key) (item : Item) : List Item → List Item
  | [] => [item]
  | i :: is => if i.key = some key then item :: is else i :: replaceItem key item is

/-- An entry without a key is always added. -/
def withItem (items : List Item) (item : Item) : List Item :=
  match item.key with
  | none => items ++ [item]
  | some key => replaceItem key item items

/-- The entry at a position, counting only those without a key. -/
def positional? (items : List Item) (n : Int) : Option Item :=
  if n < 0 then none else (items.filter fun i => i.key.isNone)[n.toNat]?

def readShape (items : List Item) (index : Ty) : Ty :=
  match index.literalKey? with
  | none => unionOf (items.map Item.value)
  | some key =>
    match getItem? items key with
    | some item => item.value
    | none =>
      match key with
      | .int n => ((positional? items n).map Item.value).getD .unknown
      | .str _ => .unknown

/-- The type of an element of one container. -/
def readIndex (container index : Ty) : Ty :=
  match container with
  | .array items => readShape items index
  | .map _ value => value
  | .string _ => .string none
  | _ => .unknown

/-- A shape after a write: an append, an entry of a known key, or a map if the key is not known. -/
def writeShape (items : List Item) (key : Option Ty) (value : Ty) : Ty :=
  match key with
  | none => .array (withItem items (.of none value))
  | some k =>
    match k.literalKey? with
    | some key => .array (withItem items (.of (some key) value))
    | none =>
      .map (some (unionOf ((items.map fun i => keyType i.key) ++ [k])))
        (unionOf (items.map Item.value ++ [value]))

/-- A container after a write. A missing or null container becomes an array, and what is no array
stays as it is. -/
def writeIndex (container key : Option Ty) (value : Ty) : Ty :=
  match container with
  | none => writeShape [] key value
  | some .null => writeShape [] key value
  | some (.array items) => writeShape items key value
  | some (.map k v) =>
    let k' := match key with
      | none => k
      | some t => some (unionOf [k.getD (.int none), t])
    .map k' (unionOf [v, value])
  | some t => t

/-- The types of key and value for the elements of one container. -/
def elementTypes : Ty → List (Ty × Ty)
  | .array items => items.map fun i => (keyType i.key, i.value)
  | .map key value => [(key.getD (.int none), value)]
  | _ => [(.unknown, .unknown)]

/-- The types of the keys and of the values that iterating over a type gives. -/
def iterate (t : Ty) : Ty × Ty :=
  let elements := t.members.flatMap elementTypes
  (unionOf (elements.map Prod.fst), unionOf (elements.map Prod.snd))

end PhpTypes.Ty
