import PhpTypes.Text.Lower
import PhpTypes.Ty.Basic

/-!
Equality of types, and unions as flat lists without repetition. Equality compares structure, with
rules of its own: class names are equal up to case, the members of a union or an intersection form
a set, and the notes on an entry of a shape do not count.
-/

namespace PhpTypes.Ty

mutual

def same : Ty → Ty → Bool
  | .unknown, .unknown => true
  | .null, .null => true
  | .boolean, .boolean => true
  | .int a, .int b => a == b
  | .float a, .float b => a == b
  | .string a, .string b => a == b
  | .array as, .array bs => sameItems as bs
  | .map none a, .map none b => same a b
  | .map (some k) a, .map (some l) b => same k l && same a b
  | .object a _, .object b _ => Text.lower a == Text.lower b
  | .union as, .union bs => containedIn as bs && (unmatched as bs).isEmpty
  | .intersection as, .intersection bs => containedIn as bs && (unmatched as bs).isEmpty
  | .function r ps, .function s qs => same r s && sameAll ps qs
  | _, _ => false

def sameAll : List Ty → List Ty → Bool
  | [], [] => true
  | a :: as, b :: bs => same a b && sameAll as bs
  | _, _ => false

def sameItem : Item → Item → Bool
  | .mk k a o _ _, .mk l b p _ _ => k == l && same a b && o == p

def sameItems : List Item → List Item → Bool
  | [], [] => true
  | a :: as, b :: bs => sameItem a b && sameItems as bs
  | _, _ => false

/-- Every type on the left has an equal one on the right. -/
def containedIn : List Ty → List Ty → Bool
  | [], _ => true
  | a :: as, bs => bs.any (same a) && containedIn as bs

/-- The types on the right that equal none on the left. -/
def unmatched : List Ty → List Ty → List Ty
  | [], bs => bs
  | a :: as, bs => unmatched as (bs.filter fun b => !same a b)

end

mutual

/-- The members of nested unions, in order. -/
def flatten : Ty → List Ty
  | .union types => flattenAll types
  | t => [t]

def flattenAll : List Ty → List Ty
  | [] => []
  | t :: ts => flatten t ++ flattenAll ts

end

/-- Keeps the first of equal types; `kept` holds those already seen, last first. Nothing but `same`
decides, also between a type and itself: a literal that is not a number repeats nothing. -/
def distinctFrom (kept : List Ty) : List Ty → List Ty
  | [] => []
  | t :: ts =>
    if kept.any fun k => same k t then distinctFrom kept ts else t :: distinctFrom (t :: kept) ts

def distinct (ts : List Ty) : List Ty := distinctFrom [] ts

/-- A single candidate stands for itself, and no candidate means nothing is known. -/
def ofMembers : List Ty → Ty
  | [] => .unknown
  | [t] => t
  | ts => .union ts

/-- The union of some candidates: flat, without repetition, in order of first appearance. -/
def unionOf (ts : List Ty) : Ty := ofMembers (distinct (flattenAll ts))

/-- The members of a union; any other type is its own only member. -/
def members : Ty → List Ty
  | .union types => types
  | t => [t]

def isUnknown : Ty → Bool
  | .unknown => true
  | _ => false

def isNull : Ty → Bool
  | .null => true
  | _ => false

def isNumeric : Ty → Bool
  | .int _ => true
  | .float _ => true
  | _ => false

/-- Whether the type carries the value that it is known to have. -/
def isLiteral : Ty → Bool
  | .int v => v.isSome
  | .float v => v.isSome
  | .string v => v.isSome
  | _ => false

mutual

/-- The type without the values of its scalars. -/
def widen : Ty → Ty
  | .int _ => .int none
  | .float _ => .float none
  | .string _ => .string none
  | .union types => unionOf (widenAll types)
  | t => t

def widenAll : List Ty → List Ty
  | [] => []
  | t :: ts => widen t :: widenAll ts

end

def removeNull : Ty → Ty
  | .null => .unknown
  | .union types => unionOf (types.filter fun t => !t.isNull)
  | t => t

/-- The type of a value, which has the value itself if it is a number or a text. -/
def ofLiteral : Literal → Ty
  | .null => .null
  | .bool _ => .boolean
  | .int n => .int (some n)
  | .float x => .float (some x)
  | .str s => .string (some s)
  | .compound => .unknown

def ofKey : Key → Ty
  | .int n => ofLiteral (.int n)
  | .str s => ofLiteral (.str s)

/-- The key that a type stands for when it is an integer or a string of known value. -/
def literalKey? : Ty → Option Key
  | .int (some n) => some (.int n)
  | .string (some s) => some (.str s)
  | _ => none

/-- The type of the keys that an entry of a shape contributes. -/
def keyType : Option Key → Ty
  | none => .int none
  | some k => widen (ofKey k)

end PhpTypes.Ty
