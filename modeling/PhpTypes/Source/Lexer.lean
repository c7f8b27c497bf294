import PhpTypes.Source.Token
import PhpTypes.Text.Blank
import PhpTypes.Text.Digit

/-!
Lexing. Each terminal says how many characters of a text it takes, with zero for none; at every
place the terminals are tried in a fixed order and the first that takes something wins. So the texts
of the tokens, side by side, are the source.
-/

namespace PhpTypes.Source

/-- The letter that a character stands for when case is ignored. Four letters outside ASCII stand
for one inside. -/
def foldCase (c : Char) : Char :=
  if c.toNat == 0x17f then 's'
  else if c.toNat == 0x212a then 'k'
  else if c.toNat == 0x130 || c.toNat == 0x131 then 'i'
  else c.toLower

def foldCaseText (cs : List Char) : String := String.ofList (cs.map foldCase)

/-- The number of characters at the start that have a property. -/
def runLength (p : Char → Bool) (cs : List Char) : Nat := (cs.takeWhile p).length

def castWords : List String :=
  ["int", "integer", "bool", "boolean", "float", "double", "real", "string", "array", "object",
   "binary"]

/-- A type name in parentheses, with blanks on both sides of it. -/
def castLength : List Char → Nat
  | '(' :: cs =>
    let before := runLength Text.isBlank cs
    let rest := cs.drop before
    let word := rest.takeWhile fun c => (foldCase c).isLower
    let tail := rest.drop word.length
    let after := runLength Text.isBlank tail
    if castWords.contains (foldCaseText word) && (tail.drop after).head? == some ')' then
      before + word.length + after + 2
    else 0
  | _ => 0

def isNameStart (c : Char) : Bool :=
  c.isAlpha || c == '_' || (0x80 ≤ c.toNat && c.toNat ≤ 0xffff)

def isNameRest (c : Char) : Bool := isNameStart c || c.isDigit

/-- A word that is no number. -/
def wordLength : List Char → Nat
  | [] => 0
  | c :: cs => if isNameStart c then 1 + runLength isNameRest cs else 0

/-- Further words, each after a backslash. The fuel is the number of characters. -/
def pathLength : Nat → List Char → Nat
  | 0, _ => 0
  | fuel + 1, cs =>
    match cs with
    | '\\' :: rest =>
      let n := wordLength rest
      if n == 0 then 0 else 1 + n + pathLength fuel (rest.drop n)
    | _ => 0

def relativeNameLength (cs : List Char) : Nat :=
  let n := wordLength cs
  if n == 0 then 0 else n + pathLength cs.length (cs.drop n)

/-- Words joined by backslashes, with at most one backslash in front. -/
def nameLength : List Char → Nat
  | '\\' :: cs =>
    let n := relativeNameLength cs
    if n == 0 then 0 else 1 + n
  | cs => relativeNameLength cs

def variableLength : List Char → Nat
  | '$' :: cs =>
    let n := wordLength cs
    if n == 0 then 0 else 1 + n
  | _ => 0

def isDigitOrGap (c : Char) : Bool := Text.isDigit c || c == '_'

/-- A digit, then digits and underscores. -/
def digitsLength : List Char → Nat
  | [] => 0
  | c :: cs => if Text.isDigit c then 1 + runLength isDigitOrGap cs else 0

/-- The exponent of a float: its letter, a sign or none, and digits. -/
def exponentLength : List Char → Nat
  | e :: cs =>
    if e == 'e' || e == 'E' then
      let sign := match cs with
        | c :: _ => if c == '+' || c == '-' then 1 else 0
        | [] => 0
      let n := runLength Text.isDigit (cs.drop sign)
      if n == 0 then 0 else 1 + sign + n
    else 0
  | [] => 0

/-- A float has a point between digits, or an exponent, or both. -/
def floatLength (cs : List Char) : Nat :=
  let whole := digitsLength cs
  if whole == 0 then 0
  else
    let tail := cs.drop whole
    let part := match tail with
      | '.' :: rest => digitsLength rest
      | _ => 0
    if part == 0 then
      let e := exponentLength tail
      if e == 0 then 0 else whole + e
    else whole + 1 + part + exponentLength (tail.drop (1 + part))

def isHexOrGap (c : Char) : Bool :=
  ('0' ≤ c && c ≤ '9') || ('a' ≤ c && c ≤ 'f') || ('A' ≤ c && c ≤ 'F') || c == '_'

def isBitOrGap (c : Char) : Bool := c == '0' || c == '1' || c == '_'

/-- What follows a leading zero when its letter announces another base. -/
def radixLength : List Char → Nat
  | '0' :: letter :: cs =>
    let n :=
      if letter == 'x' || letter == 'X' then runLength isHexOrGap cs
      else if letter == 'b' || letter == 'B' then runLength isBitOrGap cs
      else 0
    if n == 0 then 0 else 2 + n
  | _ => 0

def intLength (cs : List Char) : Nat :=
  let n := radixLength cs
  if n == 0 then digitsLength cs else n

/-- The length up to and with the closing quote; a backslash takes the next character with it. -/
def stringBodyLength (quote : Char) : List Char → Option Nat
  | [] => none
  | ['\\'] => none
  | '\\' :: _ :: cs => (stringBodyLength quote cs).map (· + 2)
  | c :: cs => if c = quote then some 1 else (stringBodyLength quote cs).map (· + 1)

def isQuote (c : Char) : Bool := c == '"' || c.toNat == 39

def stringLength : List Char → Nat
  | [] => 0
  | c :: cs =>
    if isQuote c then
      match stringBodyLength c cs with
      | some n => n + 1
      | none => 0
    else 0

/-- The length up to and with the end of a block comment. -/
def commentBodyLength : List Char → Option Nat
  | [] => none
  | '*' :: '/' :: _ => some 2
  | _ :: cs => (commentBodyLength cs).map (· + 1)

def blockCommentLength : List Char → Nat
  | '/' :: '*' :: cs =>
    match commentBodyLength cs with
    | some n => n + 2
    | none => 0
  | _ => 0

def lineCommentLength : List Char → Nat
  | '#' :: cs => 1 + runLength (· != '\n') cs
  | '/' :: '/' :: cs => 2 + runLength (· != '\n') cs
  | _ => 0

def isLayout (c : Char) : Bool := [0x20, 0x09, 0x0c, 0x0d, 0x0a].contains c.toNat

/-- The length of a fixed text, if the source goes on with it. -/
def fixedLength (text : List Char) (cs : List Char) : Nat :=
  if text.isPrefixOf cs then text.length else 0

def openTagLength (cs : List Char) : Nat :=
  if foldCaseText (cs.take 5) == "<?php" then 5 else 0

def compoundTexts : List String :=
  ["**=", "??=", "<<=", ">>=", "+=", "-=", "*=", "/=", ".=", "%=", "|=", "&=", "^="]

def compoundLength (cs : List Char) : Nat :=
  ((compoundTexts.map fun t => fixedLength t.toList cs).find? (· != 0)).getD 0

/-- How many characters a terminal takes; a keyword is found as a name first. -/
def Terminal.matchLength (t : Terminal) (cs : List Char) : Nat :=
  match t with
  | .keyword _ => 0
  | .symbol s => fixedLength s.text.toList cs
  | .castOperator => castLength cs
  | .floatNumber => floatLength cs
  | .name => nameLength cs
  | .string => stringLength cs
  | .intNumber => intLength cs
  | .variableName => variableLength cs
  | .compoundAssign => compoundLength cs
  | .whitespace => runLength isLayout cs
  | .openTag => openTagLength cs
  | .closeTag => fixedLength ['?', '>'] cs
  | .lineComment => lineCommentLength cs
  | .blockComment => blockCommentLength cs

/-- The order in which terminals are tried. -/
def Terminal.order : List Terminal :=
  [.castOperator, .floatNumber, .name, .string, .intNumber, .variableName, .blockComment,
   .lineComment, .whitespace, .openTag, .compoundAssign, .closeTag] ++ Symbol.all.map .symbol

def keyword? (cs : List Char) : Option Keyword :=
  let text := foldCaseText cs
  Keyword.all.find? fun k => k.text == text

/-- A name that is a keyword when case is ignored is that keyword. -/
def Terminal.refine (t : Terminal) (lexeme : List Char) : Terminal :=
  match t with
  | .name => ((keyword? lexeme).map .keyword).getD .name
  | t => t

/-- The first terminal that takes something, and how much it takes. -/
def firstMatch (cs : List Char) : Option (Terminal × Nat) :=
  Terminal.order.findSome? fun t =>
    let n := t.matchLength cs
    if n = 0 then none else some (t.refine (cs.take n), n)

theorem firstMatch_pos {cs : List Char} {t : Terminal} {n : Nat}
    (h : firstMatch cs = some (t, n)) : 0 < n := by
  obtain ⟨s, -, hs⟩ := List.exists_of_findSome?_eq_some h
  simp only at hs
  split at hs
  · simp at hs
  · simp only [Option.some.injEq, Prod.mk.injEq] at hs
    omega

/-- The tokens of a source up to its end, or up to a character that no terminal takes. -/
structure Lexed where
  tokens : List Token
  failure : Option (Char × Mark)

def Lexed.cons (t : Token) (l : Lexed) : Lexed := ⟨t :: l.tokens, l.failure⟩

def lexFrom (mark : Mark) (cs : List Char) : Lexed :=
  match cs with
  | [] => ⟨[], none⟩
  | c :: rest =>
    match h : firstMatch (c :: rest) with
    | none => ⟨[], some (c, mark)⟩
    | some (t, n) =>
      have := firstMatch_pos h
      let lexeme := (c :: rest).take n
      (lexFrom (mark.advance lexeme) ((c :: rest).drop n)).cons
        ⟨t, String.ofList lexeme, mark⟩
termination_by cs.length
decreasing_by simp only [List.length_drop, List.length_cons]; omega

def lex (source : List Char) : Lexed := lexFrom .start source

end PhpTypes.Source
