import PhpTypes.Dict

/-!
JSON documents whose objects keep the order of their members, and their text: on one line, or with
every member on a line of its own.
-/

namespace PhpTypes

inductive Json where
  | null
  | bool (b : Bool)
  | int (n : Int)
  | str (s : String)
  | arr (elements : List Json)
  | obj (members : List (String × Json))

namespace Json

def hexDigit (n : Nat) : Char := (Nat.toDigits 16 n).headD '0'

/-- Only the quote, the backslash and control characters are escaped. -/
def escapeChar (c : Char) : String :=
  if c == '"' then "\\\""
  else if c == '\\' then "\\\\"
  else if c == '\n' then "\\n"
  else if c == '\r' then "\\r"
  else if c == '\t' then "\\t"
  else if c.toNat == 0x08 then "\\b"
  else if c.toNat == 0x0c then "\\f"
  else if c.toNat < 0x20 then
    "\\u00" ++ String.ofList [hexDigit (c.toNat / 16), hexDigit (c.toNat % 16)]
  else c.toString

def quote (s : String) : String := "\"" ++ String.join (s.toList.map escapeChar) ++ "\""

mutual

/-- The document on one line. -/
def text : Json → String
  | .null => "null"
  | .bool b => if b then "true" else "false"
  | .int n => toString n
  | .str s => quote s
  | .arr elements => "[" ++ ", ".intercalate (elementTexts elements) ++ "]"
  | .obj members => "\x7b" ++ ", ".intercalate (memberTexts members) ++ "\x7d"

def elementTexts : List Json → List String
  | [] => []
  | e :: es => text e :: elementTexts es

def memberTexts : List (String × Json) → List String
  | [] => []
  | (name, value) :: rest => (quote name ++ ": " ++ text value) :: memberTexts rest

end

def indentation (depth : Nat) : String := String.ofList (List.replicate (2 * depth) ' ')

/-- Brackets around lines that are indented one step deeper than `depth`. -/
def bracketed (depth : Nat) (left right : String) (lines : List String) : String :=
  if lines.isEmpty then left ++ right
  else
    let inner := "\n" ++ indentation (depth + 1)
    left ++ inner ++ ("," ++ inner).intercalate lines ++ "\n" ++ indentation depth ++ right

mutual

/-- The document with one element or member a line, indented by two blanks a level. -/
def pretty (depth : Nat) : Json → String
  | .arr elements => bracketed depth "[" "]" (prettyElements (depth + 1) elements)
  | .obj members => bracketed depth "\x7b" "\x7d" (prettyMembers (depth + 1) members)
  | .null => "null"
  | .bool b => if b then "true" else "false"
  | .int n => toString n
  | .str s => quote s

def prettyElements (depth : Nat) : List Json → List String
  | [] => []
  | e :: es => pretty depth e :: prettyElements depth es

def prettyMembers (depth : Nat) : List (String × Json) → List String
  | [] => []
  | (name, value) :: rest =>
    (quote name ++ ": " ++ pretty depth value) :: prettyMembers depth rest

end

mutual

/-- Equality that ignores the order of members. -/
def same : Json → Json → Bool
  | .null, .null => true
  | .bool a, .bool b => a == b
  | .int a, .int b => a == b
  | .str a, .str b => a == b
  | .arr as, .arr bs => sameElements as bs
  | .obj as, .obj bs => as.length == bs.length && membersIn as bs
  | _, _ => false

def sameElements : List Json → List Json → Bool
  | [], [] => true
  | a :: as, b :: bs => same a b && sameElements as bs
  | _, _ => false

/-- Every member on the left has an equal one of its name on the right. -/
def membersIn : List (String × Json) → List (String × Json) → Bool
  | [], _ => true
  | (name, value) :: rest, bs =>
    (match Dict.lookup name bs with
      | some b => same value b
      | none => false) && membersIn rest bs

end

end Json

end PhpTypes
