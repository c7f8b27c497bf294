import PhpTypes.Source.Parser.Basic

/-!
The rules for expressions. An assignment needs a target without operators, so an expression starts
with such an operand; if no assignment follows, the operand is extended by what binds to it, level
by level, from the tightest to the loosest.
-/

namespace PhpTypes.Source.Parser

/-! Parameters, arguments and the parts of larger operands. -/

def param (r : Rules) : Parser Param := do
  let pos := (← here).pos
  let (mods, hint) ← hintAfter (← modifiers)
  let _ ← acceptsSymbol .amp
  let variadic ← acceptsSymbol .ellipsis
  let name ← variableName
  let defaultValue ← afterSymbol .assign r.expr
  return .mk pos name hint defaultValue variadic mods

def params (r : Rules) : Parser (List Param) := do
  let _ ← symbol .lpar
  listUntil (param r) .rpar

def argument (r : Rules) : Parser Argument := do
  let pos := (← here).pos
  if ← acceptsSymbol .ellipsis then return .mk pos none true (← r.expr)
  match ← look, ← lookSecond with
  | some .name, some (.symbol .colon) =>
    let label ← name
    let _ ← symbol .colon
    return .mk pos (some label) false (← r.expr)
  | _, _ => return .mk pos none false (← r.expr)

def arguments (r : Rules) : Parser (List Argument) := do
  let _ ← symbol .lpar
  listUntil (argument r) .rpar

def argumentsIfAny (r : Rules) : Parser (Option (List Argument)) := do
  match ← look with
  | some (.symbol .lpar) => return some (← arguments r)
  | _ => return none

def element (r : Rules) : Parser Element := do
  let mark ← here
  let doc := r.docs.at? mark.offset
  if ← acceptsSymbol .ellipsis then return .spread mark.pos doc (← r.expr)
  if ← acceptsSymbol .amp then return .plain mark.pos doc (← r.expr)
  let first ← r.expr
  if ← acceptsSymbol .doubleArrow then
    let _ ← acceptsSymbol .amp
    return .keyed mark.pos doc first (← r.expr)
  return .plain mark.pos doc first

/-- Statements one after the other, each in its longest reading; lone semicolons leave no trace. -/
def statements (r : Rules) : Parser (List Stmt) := do
  return (← many fun ts => (r.stmt ts).head?).filter fun s => !s.isEmpty

def block (r : Rules) : Parser (List Stmt) := do
  let _ ← symbol .lbrace
  let body ← statements r
  let _ ← symbol .rbrace
  return body

def closureVariable : Parser String := do
  let _ ← acceptsSymbol .amp
  variableName

def closureUses : Parser (List String) := do
  let _ ← symbol .lpar
  let uses ← separated closureVariable .comma
  let _ ← acceptsSymbol .comma
  let _ ← symbol .rpar
  return uses

def closure (r : Rules) : Parser Expr := do
  let pos := (← here).pos
  let isStatic ← acceptsKeyword .staticKw
  let _ ← keyword .functionKw
  let _ ← acceptsSymbol .amp
  let ps ← params r
  let uses ← afterKeyword .useKw closureUses
  let hint ← returnHint
  let bodyPos := (← here).pos
  let body ← block r
  return .closure pos isStatic ps (uses.getD []) hint bodyPos body

def arrowFunction (r : Rules) : Parser Expr := do
  let pos := (← here).pos
  let isStatic ← acceptsKeyword .staticKw
  let _ ← keyword .fnKw
  let _ ← acceptsSymbol .amp
  let ps ← params r
  let hint ← returnHint
  let _ ← symbol .doubleArrow
  return .arrow pos isStatic ps hint (← r.expr)

def arm (r : Rules) : Parser Arm := do
  let pos := (← here).pos
  if ← acceptsKeyword .defaultKw then
    let _ ← symbol .doubleArrow
    return .fallback pos (← r.expr)
  let conditions ← separated r.expr .comma
  let _ ← symbol .doubleArrow
  return .case pos conditions (← r.expr)

def selection (r : Rules) : Parser Expr := do
  let pos := (← here).pos
  let _ ← keyword .matchKw
  let subject ← parenthesized r.expr
  let _ ← symbol .lbrace
  return .select pos subject (← listUntil (arm r) .rbrace)

def newInstance (r : Rules) : Parser Expr := do
  let pos := (← here).pos
  let _ ← keyword .newKw
  let cls ← classRef
  return .new pos cls ((← argumentsIfAny r).getD [])

/-- What follows `::` after a class. -/
def staticMember (r : Rules) : Parser Expr := do
  let pos := (← here).pos
  let cls ← classRef
  let _ ← symbol .doubleColon
  match ← look with
  | some .variableName => return .staticProperty pos cls (← variableName)
  | _ =>
    let member ← memberName
    match ← argumentsIfAny r with
    | some args => return .staticCall pos cls member args
    | none => return .classConstant pos cls member

def intLiteral : Parser Expr := do
  let t ← token .intNumber
  match readInt t.text.toList with
  | .ok n => return .int t.pos n
  | .error _ => failure

def stringLiteral : Parser Expr := do
  let t ← token .string
  let (value, interpolated) := unquote t.text.toList
  return .string t.pos value interpolated

/-- The smallest operands: what needs no operator to be complete. -/
def atom (r : Rules) : Parser Expr := do
  match ← look, ← lookSecond with
  | some .name, some (.symbol .doubleColon) => staticMember r
  | some .variableName, some (.symbol .doubleColon) => staticMember r
  | some (.keyword .staticKw), some (.symbol .doubleColon) => staticMember r
  | some (.keyword .staticKw), _ => closure r
  | some (.keyword .functionKw), _ => closure r
  | some .name, some (.symbol .lpar) =>
    let t ← token .name
    return .call t.pos (plainName t.text) (← arguments r)
  | some .name, _ =>
    let t ← token .name
    return .constant t.pos (plainName t.text)
  | some .variableName, some (.symbol .lpar) =>
    let t ← token .variableName
    return .dynamicCall t.pos (variableText t.text) (← arguments r)
  | some .variableName, _ =>
    let t ← token .variableName
    return .var t.pos (variableText t.text)
  | some .intNumber, _ => intLiteral
  | some .floatNumber, _ =>
    let t ← token .floatNumber
    return .float t.pos (readFloat t.text.toList)
  | some .string, _ => stringLiteral
  | some (.keyword .trueKw), _ => return .bool (← keyword .trueKw).pos true
  | some (.keyword .falseKw), _ => return .bool (← keyword .falseKw).pos false
  | some (.keyword .nullKw), _ => return .null (← keyword .nullKw).pos
  | some (.keyword .newKw), _ => newInstance r
  | some (.keyword .matchKw), _ => selection r
  | some (.symbol .lsqb), _ =>
    let t ← symbol .lsqb
    return .array t.pos (← listUntil (element r) .rsqb)
  | some (.keyword .arrayKw), _ =>
    let t ← keyword .arrayKw
    let _ ← symbol .lpar
    return .array t.pos (← listUntil (element r) .rpar)
  | some (.symbol .lpar), _ => parenthesized r.expr
  | _, _ => failure

/-- A member access, a method call or an index, as what it makes of the operand before it. -/
def suffix (r : Rules) (pos : Pos) : Parser (Expr → Expr) := do
  if ← acceptsSymbol .lsqb then
    if ← acceptsSymbol .rsqb then return fun e => .append pos e
    let key ← r.expr
    let _ ← symbol .rsqb
    return fun e => .index pos e key
  let nullsafe ← acceptsSymbol .nullsafe
  if !nullsafe then
    let _ ← symbol .arrow
  let member ← memberName
  match ← argumentsIfAny r with
  | some args => return fun e => .methodCall pos e member args nullsafe
  | none => return fun e => .property pos e member nullsafe

/-- An atom with its suffixes: all that can be assigned to. -/
def postfixOperand (r : Rules) : Parser Expr := do
  let pos := (← here).pos
  let first ← atom r
  let suffixes ← many (suffix r pos)
  return suffixes.foldl (fun e f => f e) first

/-! Operators. Each rule below is given the start of its first operand and that operand. -/

/-- A step after the operand, and then a power. -/
def powerRest (r : Rules) (pos : Pos) (e : Expr) : Parser Expr := do
  let e ← do
    if ← acceptsSymbol .inc then pure (Expr.step pos true false e)
    else if ← acceptsSymbol .dec then pure (Expr.step pos false false e)
    else pure e
  if ← acceptsSymbol .pow then return .binary pos .pow e (← r.unary) else return e

def prefixOp? : Terminal → Option UnaryOp
  | .symbol .bang => some .not
  | .symbol .minus => some .minus
  | .symbol .plus => some .plus
  | .symbol .tilde => some .bitNot
  | .symbol .at => some .silence
  | .keyword .printKw => some .print
  | _ => none

/-- Whether a terminal starts an operand with an operator in front. -/
def startsPrefixed (t : Terminal) : Bool :=
  (prefixOp? t).isSome ||
    [.castOperator, .keyword .cloneKw, .symbol .inc, .symbol .dec].contains t

/-- An operand with operators in front, or a power. -/
def unary (r : Rules) : Parser Expr := do
  let pos := (← here).pos
  match ← look with
  | some .castOperator =>
    let t ← token .castOperator
    return .cast pos (readCast t.text.toList) (← r.unary)
  | some (.keyword .cloneKw) =>
    let _ ← keyword .cloneKw
    return .clone pos (← r.unary)
  | some (.symbol .inc) =>
    let _ ← symbol .inc
    return .step pos true true (← postfixOperand r)
  | some (.symbol .dec) =>
    let _ ← symbol .dec
    return .step pos false true (← postfixOperand r)
  | some t =>
    match prefixOp? t with
    | some op =>
      let _ ← token t
      return .unary pos op (← r.unary)
    | none => powerRest r pos (← postfixOperand r)
  | none => failure

def instanceOfRest (pos : Pos) (e : Expr) : Parser Expr := do
  if ← acceptsKeyword .instanceofKw then return .instanceOf pos e (← classRef) else return e

/-- The operators of each level that chains to the left, loosest first. -/
def levels : List (List (Symbol × BinaryOp)) :=
  [[(.or, .or)], [(.and, .and)], [(.pipe, .bitOr)], [(.caret, .bitXor)], [(.amp, .bitAnd)],
   [(.identical, .identical), (.notIdentical, .notIdentical), (.eq, .equal), (.ne, .notEqual),
    (.spaceship, .spaceship)],
   [(.lt, .less), (.gt, .greater), (.le, .lessEqual), (.ge, .greaterEqual)],
   [(.shl, .shiftLeft), (.shr, .shiftRight)], [(.dot, .concat)],
   [(.plus, .add), (.minus, .sub)], [(.star, .mul), (.slash, .div), (.percent, .mod)]]

def operatorOf (ops : List (Symbol × BinaryOp)) : Parser BinaryOp := do
  match ← look with
  | some (.symbol s) =>
    match ops.lookup s with
    | some op =>
      let _ ← symbol s
      return op
    | none => failure
  | _ => failure

/-- An operand of the binary operators that is not yet extended by any. -/
def operand (r : Rules) : Parser (Pos × Expr) := do
  let pos := (← here).pos
  return (pos, ← instanceOfRest pos (← unary r))

/-- Extends an operand by the chains of all the given levels. All operators of one chain stand at
its start. -/
def chains (r : Rules) : List (List (Symbol × BinaryOp)) → Pos × Expr → Parser Expr
  | [], (_, e) => pure e
  | ops :: tighter, (pos, e) => do
    let first ← chains r tighter (pos, e)
    let rest ← many do
      let op ← operatorOf ops
      return (op, ← chains r tighter (← operand r))
    return rest.foldl (fun left p => .binary pos p.1 left p.2) first

/-- `??` groups to the right. -/
def coalesceChain : Pos × Expr → List (Pos × Expr) → Expr
  | (_, e), [] => e
  | (pos, e), next :: rest => .binary pos .coalesce e (coalesceChain next rest)

def coalesceRest (r : Rules) (pos : Pos) (e : Expr) : Parser Expr := do
  let first ← chains r levels (pos, e)
  let rest ← many do
    let _ ← symbol .coalesce
    let (next, e) ← operand r
    return (next, ← chains r levels (next, e))
  return coalesceChain (pos, first) rest

def ternaryRest (r : Rules) (pos : Pos) (e : Expr) : Parser Expr := do
  let condition ← coalesceRest r pos e
  if ← acceptsSymbol .qmark then
    if ← acceptsSymbol .colon then return .elvis pos condition (← r.expr)
    let yes ← r.expr
    let _ ← symbol .colon
    return .ternary pos condition yes (← r.expr)
  return condition

def compoundOp? (text : String) : Option BinaryOp :=
  [("**=", .pow), ("??=", .coalesce), ("<<=", .shiftLeft), (">>=", .shiftRight), ("+=", .add),
   ("-=", .sub), ("*=", .mul), ("/=", .div), (".=", .concat), ("%=", .mod), ("|=", .bitOr),
   ("&=", .bitAnd), ("^=", .bitXor)].lookup text

/-- An assignment to an operand, or an expression that starts with it. -/
def assignmentRest (r : Rules) (pos : Pos) (target : Expr) : Parser Expr := do
  if ← acceptsSymbol .assign then
    let _ ← acceptsSymbol .amp
    return .assign pos none target (← r.expr)
  match ← look with
  | some .compoundAssign =>
    let t ← token .compoundAssign
    match compoundOp? t.text with
    | some op => return .assign pos (some op) target (← r.expr)
    | none => failure
  | _ => ternaryRest r pos (← instanceOfRest pos (← powerRest r pos target))

def expr (r : Rules) : Parser Expr := do
  match ← look, ← lookSecond with
  | some (.keyword .fnKw), _ => arrowFunction r
  | some (.keyword .staticKw), some (.keyword .fnKw) => arrowFunction r
  | some t, _ =>
    if startsPrefixed t then
      let (pos, e) ← operand r
      ternaryRest r pos e
    else
      let pos := (← here).pos
      assignmentRest r pos (← postfixOperand r)
  | none, _ => failure

end PhpTypes.Source.Parser
