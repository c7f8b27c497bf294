import PhpTypes.Text.Digit
import PhpTypes.Text.Word

/-!
Tokens of PHPDoc type expressions.
-/

namespace PhpTypes.Doc

inductive TypeToken where
  | name (text : String)
  | int (value : Int)
  | string (text : String)
  | bar | amp | qmark | comma | colon
  | lsqb | rsqb | lt | gt | lbrace | rbrace | lpar | rpar
deriving DecidableEq

def punctuation? (c : Char) : Option TypeToken :=
  match c with
  | '|' => some .bar
  | '&' => some .amp
  | '?' => some .qmark
  | ',' => some .comma
  | ':' => some .colon
  | '[' => some .lsqb
  | ']' => some .rsqb
  | '<' => some .lt
  | '>' => some .gt
  | '\x7b' => some .lbrace
  | '\x7d' => some .rbrace
  | '(' => some .lpar
  | ')' => some .rpar
  | _ => none

def isGap (c : Char) : Bool := [0x20, 0x09, 0x0c, 0x0d, 0x0a].contains c.toNat

def startsPart (c : Char) : Bool := c.isAlpha || c == '_'

def goesOnPart (c : Char) : Bool := Text.isWord c || c == '-'

/-- The length of one part of a name: a letter or underscore, then word characters and hyphens. -/
def partLength : List Char → Nat
  | [] => 0
  | c :: cs => if startsPart c then 1 + (cs.takeWhile goesOnPart).length else 0

/-- The length of further parts, each after a separator. The fuel is the number of characters. -/
def partsLength : Nat → List Char → Nat
  | 0, _ => 0
  | fuel + 1, cs =>
    match cs with
    | '\\' :: rest =>
      let n := partLength rest
      if n == 0 then 0 else 1 + n + partsLength fuel (rest.drop n)
    | _ => 0

/-- The number of times that `c` stands at the start, which is at most one. -/
def leading (c : Char) : List Char → Nat
  | d :: _ => if d == c then 1 else 0
  | [] => 0

/-- The length of a name: parts joined by separators, with at most a dollar and a separator in
front. -/
def typeNameLength (cs : List Char) : Nat :=
  let dollar := leading '$' cs
  let separator := leading '\\' (cs.drop dollar)
  let rest := cs.drop (dollar + separator)
  let n := partLength rest
  if n == 0 then 0 else dollar + separator + n + partsLength cs.length (rest.drop n)

/-- The length of an integer: digits, with at most a minus in front. -/
def typeIntLength (cs : List Char) : Nat :=
  let minus := leading '-' cs
  let n := ((cs.drop minus).takeWhile Text.isDigit).length
  if n == 0 then 0 else minus + n

def typeIntValue (cs : List Char) : Int :=
  let minus := leading '-' cs
  let n : Int := ((Text.readDigits 10 (cs.drop minus)).getD 0 : Nat)
  if minus == 0 then n else -n

/-- The length of a text in quotes of one kind, quotes included. -/
def typeStringLength : List Char → Nat
  | [] => 0
  | q :: cs =>
    if q == '"' || q.toNat == 39 then
      let n := (cs.takeWhile (· != q)).length
      if n == cs.length then 0 else n + 2
    else 0

/-- The token at the start of a text, and its length, which is not zero. -/
def typeToken? (cs : List Char) : Option (TypeToken × Nat) :=
  let name := typeNameLength cs
  let int := typeIntLength cs
  let string := typeStringLength cs
  if name != 0 then some (.name (String.ofList (cs.take name)), name)
  else if int != 0 then some (.int (typeIntValue (cs.take int)), int)
  else if string != 0 then
    some (.string (String.ofList ((cs.take string).drop 1).dropLast), string)
  else (cs.head?.bind punctuation?).map fun t => (t, 1)

/-- The tokens of a text, where white space does not count; `skip` more characters belong to the
token just read. -/
def typeTokensFrom (skip : Nat) : List Char → Option (List TypeToken)
  | [] => some []
  | c :: cs =>
    match skip with
    | skip + 1 => typeTokensFrom skip cs
    | 0 =>
      if isGap c then typeTokensFrom 0 cs
      else do
        let (t, n) ← typeToken? (c :: cs)
        let ts ← typeTokensFrom (n - 1) cs
        return t :: ts

def typeTokens (cs : List Char) : Option (List TypeToken) := typeTokensFrom 0 cs

end PhpTypes.Doc
