import PhpTypes.Source.Tree
import PhpTypes.Text.Blank
import PhpTypes.Text.Digit
import PhpTypes.Text.Lower
import PhpTypes.Text.Quoted

/-!
The values of literals: integers in four bases, floats, and quoted strings with their escapes.
-/

namespace PhpTypes.Source

/-- An integer literal that has a digit outside its base, or no digit. -/
structure BadInt where
  base : Nat
  digits : String

def BadInt.message (e : BadInt) : String :=
  "invalid literal for int() with base " ++ toString e.base ++ ": " ++ Text.quoted e.digits

def hexValue? (c : Char) : Option Nat :=
  if '0' ≤ c && c ≤ '9' then some (c.toNat - '0'.toNat)
  else if 'a' ≤ c && c ≤ 'f' then some (c.toNat - 'a'.toNat + 10)
  else if 'A' ≤ c && c ≤ 'F' then some (c.toNat - 'A'.toNat + 10)
  else none

def readRadix (base : Nat) (cs : List Char) : Option Nat :=
  if cs.isEmpty then none
  else cs.foldlM (fun n c => do
    let d ← hexValue? c
    if d < base then some (n * base + d) else none) 0

def withoutGaps (cs : List Char) : List Char := cs.filter (· != '_')

/-- Reads an integer literal. A letter after a leading zero gives the base; another leading zero
means octal. -/
def readInt (cs : List Char) : Except BadInt Nat :=
  let ds := withoutGaps cs
  let check (base : Nat) (n : Option Nat) : Except BadInt Nat :=
    match n with
    | some n => .ok n
    | none => .error ⟨base, String.ofList ds⟩
  match ds with
  | '0' :: letter :: rest =>
    if letter == 'x' || letter == 'X' then check 0 (readRadix 16 rest)
    else if letter == 'b' || letter == 'B' then check 0 (readRadix 2 rest)
    else check 8 (Text.readDigits 8 (letter :: rest))
  | ds => check 10 (Text.readDigits 10 ds)

def digitRun (cs : List Char) : List Char := cs.takeWhile Text.isDigit

/-- The exponent that follows the digits of a float; none is zero. -/
def readExponent : List Char → Int
  | [] => 0
  | _ :: '-' :: cs => -((Text.readDigits 10 cs).getD 0 : Nat)
  | _ :: '+' :: cs => (Text.readDigits 10 cs).getD 0
  | _ :: cs => (Text.readDigits 10 cs).getD 0

/-- Reads a float literal: digits, a point and digits, or an exponent, or both. -/
def readFloat (cs : List Char) : Decimal.Numeric :=
  let ds := withoutGaps cs
  let whole := digitRun ds
  let tail := ds.drop whole.length
  let fraction := match tail with
    | '.' :: rest => digitRun rest
    | _ => []
  let rest := match tail with
    | '.' :: rest => rest.drop fraction.length
    | rest => rest
  let digits := (Text.readDigits 10 (whole ++ fraction)).getD 0
  let exponent := readExponent rest - fraction.length
  ⟨Decimal.ofDecimal digits exponent, Decimal.isNaN_ofDecimal digits exponent⟩

/-- Single quotes know two escapes: the backslash and the quote. -/
def unescapeSingle : List Char → List Char
  | '\\' :: c :: cs =>
    if c == '\\' || c == Text.apostrophe then c :: unescapeSingle cs
    else '\\' :: unescapeSingle (c :: cs)
  | c :: cs => c :: unescapeSingle cs
  | [] => []

/-- The character that an escape in double quotes stands for. -/
def escapeValue? (c : Char) : Option Char :=
  match c with
  | 'n' => some '\n'
  | 't' => some '\t'
  | 'r' => some '\r'
  | 'v' => some (Char.ofNat 0x0b)
  | 'f' => some (Char.ofNat 0x0c)
  | 'e' => some (Char.ofNat 0x1b)
  | '0' => some (Char.ofNat 0)
  | '\\' => some '\\'
  | '$' => some '$'
  | '"' => some '"'
  | _ => none

/-- An escape that stands for nothing keeps its backslash. A backslash before a line feed escapes
nothing. -/
def unescapeDouble : List Char → List Char
  | '\\' :: '\n' :: cs => '\\' :: '\n' :: unescapeDouble cs
  | '\\' :: c :: cs =>
    match escapeValue? c with
    | some v => v :: unescapeDouble cs
    | none => '\\' :: c :: unescapeDouble cs
  | c :: cs => c :: unescapeDouble cs
  | [] => []

def isInterpolated (c next : Char) : Bool :=
  (c == '$' && (next.isAlpha || next == '_' || next == '\x7b')) || (c == '\x7b' && next == '$')

/-- Whether a variable is interpolated: a dollar before a name or a brace, or a brace before a
dollar, not directly after a backslash. -/
def interpolates (afterBackslash : Bool) : List Char → Bool
  | c :: next :: cs =>
    (!afterBackslash && isInterpolated c next) || interpolates (c == '\\') (next :: cs)
  | _ => false

/-- The value of a quoted string, and whether it interpolates a variable. -/
def unquote (cs : List Char) : String × Bool :=
  let body := (cs.drop 1).dropLast
  if cs.head? == some '"' then (String.ofList (unescapeDouble body), interpolates false body)
  else (String.ofList (unescapeSingle body), false)

def castTargets : List (String × CastTarget) :=
  [("int", .int), ("integer", .int), ("bool", .bool), ("boolean", .bool), ("float", .float),
   ("double", .float), ("real", .float), ("string", .string), ("binary", .string),
   ("array", .array), ("object", .object)]

/-- The target of a cast operator, parentheses included. -/
def readCast (cs : List Char) : CastTarget :=
  let name := String.ofList (Text.lowerChars (Text.trim (cs.drop 1).dropLast))
  (castTargets.lookup name).getD (.other name)

end PhpTypes.Source
