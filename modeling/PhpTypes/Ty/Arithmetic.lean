import PhpTypes.Decimal.Nearest
import PhpTypes.Source.Tree
import PhpTypes.Ty.Union

/-!
The types of operators. When both operands are numbers of known value the result is computed:
exactly on integers of 64 bits, and as a double where an integer would not fit.
-/

namespace PhpTypes.Ty

open Source (BinaryOp UnaryOp)

inductive Number where
  | int (n : Int)
  | float (x : Float)

def Number.toFloat : Number → Float
  | .int n => Decimal.ofInt n
  | .float x => x

def Number.isZero : Number → Bool
  | .int n => n == 0
  | .float x => x == 0.0

def Number.truncate? : Number → Option Int
  | .int n => some n
  | .float x => Decimal.truncate? x

/-- The number that a type is known to have as its value. -/
def number? : Ty → Option Number
  | .int v => v.map .int
  | .float v => v.map .float
  | _ => none

def minInt : Int := -0x8000000000000000

def maxInt : Int := 0x7fffffffffffffff

def ofFloat? (x : Float) : Option Ty :=
  if Decimal.isFinite x then some (ofLiteral (.float x)) else none

/-- The type of a computed number. An integer that does not fit is a double; there is none for what
is not finite. -/
def ofNumber? : Number → Option Ty
  | .int n =>
    if minInt ≤ n ∧ n ≤ maxInt then some (ofLiteral (.int n)) else ofFloat? (Decimal.ofInt n)
  | .float x => ofFloat? x

/-- Computes on integers if both operands are, and on doubles otherwise. -/
def Number.combine (f : Int → Int → Int) (g : Float → Float → Float) : Number → Number → Number
  | .int a, .int b => .int (f a b)
  | a, b => .float (g a.toFloat b.toFloat)

/-- Integers that divide evenly give an integer; nothing is divided by zero. -/
def Number.div (a b : Number) : Option Number :=
  if b.isZero then none
  else
    match a, b with
    | .int m, .int n =>
      if m % n = 0 then some (.int (m / n)) else some (.float (Decimal.ofQuotient m n))
    | a, b => some (.float (a.toFloat / b.toFloat))

/-- The remainder of the whole parts, with the sign of the dividend. -/
def Number.mod (a b : Number) : Option Number := do
  let m ← a.truncate?
  let n ← b.truncate?
  if n = 0 then none else some (.int (m.tmod n))

/-- A power of an integer of at most one in size. -/
def smallPow (a : Int) (n : Nat) : Int := if n = 0 then 1 else if n % 2 = 0 then a * a else a

def floatPow (a b : Number) : Number := .float (a.toFloat ^ b.toFloat)

/-- Beyond an exponent of 64 no integer power fits, so it is computed as a double. -/
def Number.pow (a b : Number) : Option Number :=
  match a, b with
  | .int m, .int n =>
    if n < 0 then if m = 0 then none else some (floatPow a b)
    else if m.natAbs ≤ 1 then some (.int (smallPow m n.toNat))
    else if n ≤ 64 then some (.int (Int.pow m n.toNat))
    else some (floatPow a b)
  | a, b => some (floatPow a b)

def Number.arithmetic? (op : BinaryOp) (a b : Number) : Option Number :=
  match op with
  | .add => some (combine (· + ·) (· + ·) a b)
  | .sub => some (combine (· - ·) (· - ·) a b)
  | .mul => some (combine (· * ·) (· * ·) a b)
  | .div => a.div b
  | .mod => a.mod b
  | .pow => a.pow b
  | _ => none

def isFloat : Ty → Bool
  | .float _ => true
  | _ => false

def intOrFloat : Ty := .union [.int none, .float none]

/-- The type of an arithmetic operation whose result is not computed. -/
def wideArithmetic (op : BinaryOp) (left right : Ty) : Ty :=
  if left.isFloat || right.isFloat then .float none
  else if op = .mod then .int none
  else if op = .div then intOrFloat
  else if left.isNumeric && right.isNumeric then .int none
  else intOrFloat

/-- A result that does not fit is a float of unknown value. -/
def foldedArithmetic (op : BinaryOp) (left right : Ty) (a b : Number) : Ty :=
  match a.arithmetic? op b with
  | some n => (ofNumber? n).getD (.float none)
  | none => if op = .pow then .float none else wideArithmetic op left right

def arithmetic (op : BinaryOp) (left right : Ty) : Ty :=
  match left.number?, right.number? with
  | some a, some b => foldedArithmetic op left right a b
  | _, _ => wideArithmetic op left right

/-- The integer that a type is known to have as its value. -/
def intValue? : Ty → Option Int
  | .int v => v
  | _ => none

/-- Operators on bits work on two's complement with 64 bits. -/
def bitwise? (op : BinaryOp) (a b : Int) : Option Int :=
  let x := BitVec.ofInt 64 a
  let y := BitVec.ofInt 64 b
  match op with
  | .bitAnd => some (x &&& y).toInt
  | .bitOr => some (x ||| y).toInt
  | .bitXor => some (x ^^^ y).toInt
  | .shiftLeft => if 0 ≤ b ∧ b ≤ 63 then some (x <<< b.toNat).toInt else none
  | .shiftRight => if 0 ≤ b ∧ b ≤ 63 then some (x.sshiftRight b.toNat).toInt else none
  | _ => none

def bitwise (op : BinaryOp) (left right : Ty) : Ty :=
  match left.intValue?, right.intValue? with
  | some a, some b => .int (bitwise? op a b)
  | _, _ => .int none

/-- The text that a string or an integer of known value stands for. -/
def knownText? : Ty → Option String
  | .string v => v
  | .int v => v.map toString
  | _ => none

def concat (left right : Ty) : Ty :=
  match left.knownText?, right.knownText? with
  | some a, some b => .string (some (a ++ b))
  | _, _ => .string none

/-- The left type unless it is null, or else the right one. -/
def coalesce (left right : Ty) : Ty :=
  unionOf ((left.members.filter fun t => !t.isNull) ++ [right])

/-- The type of a binary operation on two types. -/
def binary (op : BinaryOp) (left right : Ty) : Ty :=
  match op with
  | .or | .and | .identical | .notIdentical | .equal | .notEqual | .less | .greater | .lessEqual
  | .greaterEqual => .boolean
  | .spaceship => .int none
  | .concat => concat left right
  | .bitOr | .bitXor | .bitAnd | .shiftLeft | .shiftRight => bitwise op left right
  | .add | .sub | .mul | .div | .mod | .pow => arithmetic op left right
  | .coalesce => coalesce left right

def Number.negate : Number → Number
  | .int n => .int (-n)
  | .float x => .float (-x)

/-- A sign in front of an operand. -/
def signed (change : Number → Number) (t : Ty) : Ty :=
  match t.number? with
  | some n => (ofNumber? (change n)).getD t.widen
  | none => if t.isNumeric then t else intOrFloat

def unary (op : UnaryOp) (t : Ty) : Ty :=
  match op with
  | .not => .boolean
  | .bitNot => .int none
  | .print => .int (some 1)
  | .minus => signed Number.negate t
  | .plus => signed id t
  | .silence => t

end PhpTypes.Ty
