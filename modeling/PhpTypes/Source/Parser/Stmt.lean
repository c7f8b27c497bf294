import PhpTypes.Source.Parser.Expr

/-!
The rules for statements. After nested `if`s without braces a clause `elseif` or `else` can belong
to any of them, so a statement has a reading for every place where it can end. Of the readings that
end at one place only the preferred one is kept.
-/

namespace PhpTypes.Source.Parser

abbrev Readings (α : Type) := List (α × List Token)

namespace Readings

variable {α β : Type}

/-- The reading of a parser that has at most one. -/
def ofParser (p : Parser α) (ts : List Token) : Readings α := (p ts).toList

/-- Adds a reading unless one that ends at the same place is there; readings that end later come
first. -/
def insert (a : α × List Token) : Readings α → Readings α
  | [] => [a]
  | b :: rest =>
    if a.2.length < b.2.length then a :: b :: rest
    else if a.2.length = b.2.length then b :: rest
    else b :: insert a rest

/-- Of readings in order of preference, the first for each end; later ends come first. -/
def preferred (rs : Readings α) : Readings α := rs.foldl (fun kept a => insert a kept) []

def each (f : α → β) (rs : Readings α) : Readings β := List.map (fun r => (f r.1, r.2)) rs

/-- Continues every reading by those of a second part. -/
def andThen (rs : Readings α) (f : α → List Token → Readings β) : Readings β :=
  List.flatMap (fun r => f r.1 r.2) rs

end Readings

/-- A clause `elseif`. -/
def elseIfClause (r : Rules) (ts : List Token) : Readings ElseIf :=
  Readings.andThen
    (.ofParser (do
      let t ← keyword .elseifKw
      return (t.pos, ← parenthesized r.expr)) ts)
    fun (pos, condition) rest => Readings.each (ElseIf.mk pos condition) (r.stmt rest)

def elseClause (r : Rules) (ts : List Token) : Readings Stmt :=
  Readings.andThen (.ofParser (keyword .elseKw) ts) fun _ rest => r.stmt rest

/-- Adds a list of clauses that ends where `a` does, to lists in order of their ends. A single
clause that reaches as far stays; any other list there gives way. -/
def placeClauses (a : List ElseIf × List Token) : Readings (List ElseIf) → Readings (List ElseIf)
  | [] => [a]
  | b :: rest =>
    if b.2.length < a.2.length then a :: b :: rest
    else if b.2.length = a.2.length then (if b.1.length = 1 then b else a) :: rest
    else b :: placeClauses a rest

/-- Extends lists of clauses by further clauses, from the earliest end on. -/
def extendClauses (r : Rules) : Nat → Readings (List ElseIf) → Readings (List ElseIf)
  | 0, pending => pending
  | _ + 1, [] => []
  | fuel + 1, (clauses, ts) :: pending =>
    let longer := Readings.each (fun c => clauses ++ [c]) (elseIfClause r ts)
    (clauses, ts) :: extendClauses r fuel (longer.foldl (fun p a => placeClauses a p) pending)

/-- One or more clauses `elseif`, by where they end. One clause is preferred to several, and of
several the last is as short as possible. -/
def elseIfClauses (r : Rules) (ts : List Token) : Readings (List ElseIf) :=
  extendClauses r ts.length (Readings.each (fun c => [c]) (elseIfClause r ts)).reverse

/-- The readings of a conditional. It prefers to have both kinds of clauses, then `elseif` alone,
then `else` alone, then none; at equal standing, the statement before its clauses is as long as
possible. -/
def conditional (r : Rules) (ts : List Token) : Readings Stmt :=
  Readings.andThen
    (.ofParser (do
      let t ← keyword .ifKw
      return (t.mark, ← parenthesized r.expr)) ts)
    fun (mark, condition) rest =>
      let make (yes : Stmt) (elseIfs : List ElseIf) (no : Stmt) : Stmt :=
        .conditional mark.pos (r.docs.at? mark.offset) condition yes elseIfs no
      let bare := r.stmt rest
      let withElseIfs := Readings.preferred (Readings.andThen bare fun yes ts =>
        Readings.each (fun cs => (yes, cs)) (elseIfClauses r ts))
      let withBoth := Readings.andThen withElseIfs fun (yes, cs) ts =>
        Readings.each (make yes cs) (elseClause r ts)
      let withElse := Readings.andThen bare fun yes ts =>
        Readings.each (make yes []) (elseClause r ts)
      Readings.preferred (withBoth ++
        Readings.each (fun (yes, cs) => make yes cs .empty) withElseIfs ++ withElse ++
        Readings.each (fun yes => make yes [] .empty) bare)

/-- A statement that ends with another one, after a head. -/
def headed {α : Type} (r : Rules) (head : Parser α) (make : α → Stmt → Stmt) (ts : List Token) :
    Readings Stmt :=
  Readings.andThen (.ofParser head ts) fun a rest => Readings.each (make a) (r.stmt rest)

def whileHead (r : Rules) : Parser (Pos × Expr) := do
  let t ← keyword .whileKw
  return (t.pos, ← parenthesized r.expr)

def exprList (r : Rules) : Parser (List Expr) := separated r.expr .comma

/-- A list of expressions up to a symbol, which may be empty. -/
def exprListUntil (r : Rules) (closing : Symbol) : Parser (List Expr) := do
  if ← acceptsSymbol closing then return []
  let es ← exprList r
  let _ ← symbol closing
  return es

def forHead (r : Rules) : Parser (Pos × List Expr × List Expr × List Expr) := do
  let t ← keyword .forKw
  let _ ← symbol .lpar
  let start ← exprListUntil r .semicolon
  let condition ← exprListUntil r .semicolon
  let step ← exprListUntil r .rpar
  return (t.pos, start, condition, step)

/-- The target of a loop over elements: a value, or a key and a value. -/
def foreachTarget (r : Rules) : Parser (Option Expr × Expr) := do
  if ← acceptsSymbol .amp then return (none, ← r.expr)
  let first ← r.expr
  if ← acceptsSymbol .doubleArrow then
    let _ ← acceptsSymbol .amp
    return (some first, ← r.expr)
  return (none, first)

def foreachHead (r : Rules) : Parser (Pos × Expr × Option Expr × Expr) := do
  let t ← keyword .foreachKw
  let (iterable, key, value) ← parenthesized do
    let iterable ← r.expr
    let _ ← keyword .asKw
    return (iterable, ← foreachTarget r)
  return (t.pos, iterable, key, value)

def doLoop (r : Rules) : Parser Stmt := do
  let t ← keyword .doKw
  let body ← fun ts => (r.stmt ts).head?
  let _ ← keyword .whileKw
  let condition ← parenthesized r.expr
  let _ ← symbol .semicolon
  return .doLoop t.pos body condition

def caseEnd : Parser Unit := do
  if ← acceptsSymbol .colon then return ()
  let _ ← symbol .semicolon

def switchCase (r : Rules) : Parser Case := do
  let pos := (← here).pos
  if ← acceptsKeyword .caseKw then
    let value ← r.expr
    caseEnd
    return .test pos value (← statements r)
  let _ ← keyword .defaultKw
  caseEnd
  return .fallback pos (← statements r)

def switch (r : Rules) : Parser Stmt := do
  let t ← keyword .switchKw
  let subject ← parenthesized r.expr
  let _ ← symbol .lbrace
  let cases ← many (switchCase r)
  let _ ← symbol .rbrace
  return .switch t.pos subject cases

def catchClause (r : Rules) : Parser Catch := do
  let t ← keyword .catchKw
  let (classes, var) ← parenthesized do
    let classes ← separated name .pipe
    match ← look with
    | some .variableName => return (classes, some (← variableName))
    | _ => return (classes, none)
  let bodyPos := (← here).pos
  return .mk t.pos (classes.map plainName) var bodyPos (← block r)

def guarded (r : Rules) : Parser Stmt := do
  let t ← keyword .tryKw
  let bodyPos := (← here).pos
  let body ← block r
  let catches ← many (catchClause r)
  let finalizer ← afterKeyword .finallyKw do
    let pos := (← here).pos
    return Stmt.block pos (← block r)
  return .guarded t.pos bodyPos body catches (finalizer.getD .empty)

/-- An expression up to a semicolon, which may be absent. -/
def exprIfAny (r : Rules) : Parser (Option Expr) := do
  if ← acceptsSymbol .semicolon then return none
  let e ← r.expr
  let _ ← symbol .semicolon
  return some e

def returns (r : Rules) : Parser Stmt := do
  let t ← keyword .returnKw
  return .returns t.pos (r.docs.at? t.mark.offset) (← exprIfAny r)

def staticVariable (r : Rules) : Parser StaticVar := do
  let name ← variableName
  return .mk name (← afterSymbol .assign r.expr)

def statics (r : Rules) : Parser Stmt := do
  let t ← keyword .staticKw
  let vars ← separated (staticVariable r) .comma
  let _ ← symbol .semicolon
  return .statics t.pos vars

/-- A keyword, an expression and a semicolon. -/
def keywordExpr (r : Rules) (k : Keyword) (make : Pos → Expr → Stmt) : Parser Stmt := do
  let t ← keyword k
  let e ← r.expr
  let _ ← symbol .semicolon
  return make t.pos e

def exprStatement (r : Rules) : Parser Stmt := do
  let mark ← here
  let e ← r.expr
  let _ ← symbol .semicolon
  return .expr mark.pos (r.docs.at? mark.offset) e

/-- The statements that cannot be followed by a clause of their own. -/
def closedStatement (r : Rules) : Parser Stmt := do
  match ← look, ← lookSecond with
  | some (.symbol .semicolon), _ =>
    let _ ← symbol .semicolon
    return .empty
  | some (.symbol .lbrace), _ =>
    let pos := (← here).pos
    return .block pos (← block r)
  | some (.keyword .doKw), _ => doLoop r
  | some (.keyword .switchKw), _ => switch r
  | some (.keyword .tryKw), _ => guarded r
  | some (.keyword .returnKw), _ => returns r
  | some (.keyword .breakKw), _ =>
    let t ← keyword .breakKw
    let _ ← exprIfAny r
    return .breaks t.pos
  | some (.keyword .continueKw), _ =>
    let t ← keyword .continueKw
    let _ ← exprIfAny r
    return .continues t.pos
  | some (.keyword .throwKw), _ => keywordExpr r .throwKw .throws
  | some (.keyword .echoKw), _ =>
    let t ← keyword .echoKw
    let es ← exprList r
    let _ ← symbol .semicolon
    return .echo t.pos es
  | some (.keyword .globalKw), _ =>
    let t ← keyword .globalKw
    let names ← separated variableName .comma
    let _ ← symbol .semicolon
    return .globals t.pos names
  | some (.keyword .staticKw), some .variableName => statics r
  | some (.keyword .includeKw), _ => keywordExpr r .includeKw .includes
  | some (.keyword .includeOnceKw), _ => keywordExpr r .includeOnceKw .includes
  | some (.keyword .requireKw), _ => keywordExpr r .requireKw .includes
  | some (.keyword .requireOnceKw), _ => keywordExpr r .requireOnceKw .includes
  | _, _ => exprStatement r

def stmt (r : Rules) (ts : List Token) : Readings Stmt :=
  match ts.head?.map Token.terminal with
  | some (.keyword .ifKw) => conditional r ts
  | some (.keyword .whileKw) => headed r (whileHead r) (fun (p, e) => .whileLoop p e) ts
  | some (.keyword .forKw) => headed r (forHead r) (fun (p, a, b, c) => .forLoop p a b c) ts
  | some (.keyword .foreachKw) =>
    headed r (foreachHead r) (fun (p, e, k, v) => .foreachLoop p e k v) ts
  | _ => .ofParser (closedStatement r) ts

/-- The rules with at most so many storeys of nesting. -/
def rules (docs : DocComments) : Nat → Rules
  | 0 => ⟨docs, failure, failure, fun _ => []⟩
  | n + 1 =>
    let below := rules docs n
    ⟨docs, expr below, unary below, stmt below⟩

end PhpTypes.Source.Parser
