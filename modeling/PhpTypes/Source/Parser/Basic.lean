import PhpTypes.Parsing
import PhpTypes.Source.DocComment
import PhpTypes.Source.Literal
import PhpTypes.Source.Name

/-!
Parsers of PHP source. The rules for expressions and statements refer to one another, so each takes
the ones below it as an argument; a tower of them, one storey for each level of nesting, makes the
recursion plain.
-/

namespace PhpTypes.Source

abbrev Parser := TokenParser Token

/-- The rules that others refer to: expressions, operands of prefix operators, and statements. A
statement can have several readings, which end at different places. -/
structure Rules where
  docs : DocComments
  expr : Parser Expr
  unary : Parser Expr
  stmt : List Token → List (Stmt × List Token)

namespace Parser

variable {α β : Type}

/-- The terminal that comes next. -/
def look : Parser (Option Terminal) := fun ts => some (ts.head?.map Token.terminal, ts)

/-- The terminal after the next one. -/
def lookSecond : Parser (Option Terminal) := fun ts => some (ts[1]?.map Token.terminal, ts)

/-- The place of the next token. -/
def here : Parser Mark := fun ts => some ((ts.head?.map Token.mark).getD default, ts)

/-- Takes the next token if its terminal is one of those wanted. -/
def oneOf (wanted : Terminal → Bool) : Parser Token := TokenParser.oneOf fun t => wanted t.terminal

def token (wanted : Terminal) : Parser Token := oneOf (· == wanted)

def symbol (s : Symbol) : Parser Token := token (.symbol s)

def keyword (k : Keyword) : Parser Token := token (.keyword k)

/-- Takes the next token if its terminal is the one wanted, and says whether it did. -/
def accepts (wanted : Terminal) : Parser Bool := TokenParser.accepts fun t => t.terminal == wanted

def acceptsSymbol (s : Symbol) : Parser Bool := accepts (.symbol s)

def acceptsKeyword (k : Keyword) : Parser Bool := accepts (.keyword k)

def many (p : Parser α) : Parser (List α) := TokenParser.many p

/-- One or more, with a separator between two. -/
def separated (p : Parser α) (separator : Symbol) : Parser (List α) :=
  TokenParser.separated p (symbol separator)

/-- Items up to a closing symbol, separated by commas, with a comma allowed after the last. -/
def listUntil (p : Parser α) (closing : Symbol) : Parser (List α) := do
  if ← acceptsSymbol closing then return []
  let items ← separated p .comma
  let _ ← acceptsSymbol .comma
  let _ ← symbol closing
  return items

/-- Something in parentheses. -/
def parenthesized (p : Parser α) : Parser α := do
  let _ ← symbol .lpar
  let a ← p
  let _ ← symbol .rpar
  return a

/-- What follows a symbol, if the symbol is there. -/
def afterSymbol (s : Symbol) (p : Parser α) : Parser (Option α) := do
  if ← acceptsSymbol s then return some (← p) else return none

def afterKeyword (k : Keyword) (p : Parser α) : Parser (Option α) := do
  if ← acceptsKeyword k then return some (← p) else return none

end Parser

/-- The name of a variable, without its dollar. -/
def variableText (text : String) : String := String.ofList (text.toList.drop 1)

namespace Parser

def name : Parser String := do return (← token .name).text

def variableName : Parser String := do return variableText (← token .variableName).text

def nameList : Parser (List String) := separated name .comma

def isMemberName : Terminal → Bool
  | .name => true
  | .keyword k =>
    [.classKw, .defaultKw, .matchKw, .newKw, .arrayKw, .staticKw, .fnKw, .trueKw, .falseKw,
      .nullKw, .publicKw, .privateKw, .protectedKw, .varKw].contains k
  | _ => false

/-- The name of a member may be one of some keywords. -/
def memberName : Parser String := do return (← oneOf isMemberName).text

def isClassRef : Terminal → Bool
  | .name => true
  | .variableName => true
  | .keyword .staticKw => true
  | _ => false

def ClassRef.ofToken (t : Token) : ClassRef :=
  match t.terminal with
  | .variableName => .var t.pos (variableText t.text)
  | _ => .name (plainName t.text)

def classRef : Parser ClassRef := do return ClassRef.ofToken (← oneOf isClassRef)

def isTypeName : Terminal → Bool
  | .name => true
  | .keyword k => [.arrayKw, .staticKw, .nullKw, .falseKw, .trueKw].contains k
  | _ => false

def typeName : Parser String := do return plainName (← oneOf isTypeName).text

/-- `?A`, `A|B` or `A&B`; one name alone counts as a union. -/
def typeHint : Parser TypeHint := do
  let pos := (← here).pos
  if ← acceptsSymbol .qmark then return ⟨pos, .nullable, [← typeName]⟩
  let first ← typeName
  let others ← many (symbol .pipe *> typeName)
  if !others.isEmpty then return ⟨pos, .union, first :: others⟩
  let others ← many (symbol .amp *> typeName)
  return ⟨pos, if others.isEmpty then .union else .intersection, first :: others⟩

def returnHint : Parser (Option TypeHint) := afterSymbol .colon typeHint

def isModifier : Terminal → Bool
  | .keyword k =>
    [.publicKw, .protectedKw, .privateKw, .staticKw, .abstractKw, .finalKw, .readonlyKw,
      .varKw].contains k
  | _ => false

def modifierText (t : Token) : String := Text.lower t.text

def modifiers : Parser (List Token) := many (oneOf isModifier)

/-- A type hint whose first name is a token already taken. -/
def typeHintFrom (t : Token) : Parser TypeHint := fun ts => typeHint (t :: ts)

/-- Whether a type hint goes on here: with a bar, or with an ampersand before a further name. -/
def hintGoesOn : Parser Bool := do
  match ← look with
  | some (.symbol .pipe) => return true
  | some (.symbol .amp) => return ((← lookSecond).map isTypeName).getD false
  | _ => return false

/-- The type hint after some modifiers, and the modifiers that remain. The word `static` is both a
modifier and a type: the last of the modifiers is the type if a type goes on after it, or if
another modifier stands before it and no other type follows. -/
def hintAfter (mods : List Token) : Parser (List String × Option TypeHint) := do
  let texts := mods.map modifierText
  let starts := match ← look with
    | some (.symbol .qmark) => true
    | some t => isTypeName t
    | none => false
  if starts then return (texts, some (← typeHint))
  match mods.getLast? with
  | some last =>
    if last.terminal == .keyword .staticKw then
      if (← hintGoesOn) || 2 ≤ mods.length then
        return (texts.dropLast, some (← typeHintFrom last))
    return (texts, none)
  | none => return (texts, none)

end Parser

end PhpTypes.Source
