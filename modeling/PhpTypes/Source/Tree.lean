import PhpTypes.Decimal.Numeric
import PhpTypes.Dict

/-!
The tree of a PHP source: expressions, statements and declarations, each at the position of its
first token. Statements, declarations and array elements may carry the doc comment that stands
before them.
-/

namespace PhpTypes.Source

/-- A line and a column, both counted from one. -/
structure Pos where
  line : Nat
  column : Nat
deriving DecidableEq, Inhabited

inductive HintKind where
  | union
  | nullable
  | intersection
deriving DecidableEq

/-- A native type declaration such as `?A`, `A|B` or `A&B`. -/
structure TypeHint where
  pos : Pos
  kind : HintKind
  names : List String

/-- The left side of `::`, or what follows `new` and `instanceof`. -/
inductive ClassRef where
  | name (n : String)
  | var (pos : Pos) (n : String)

inductive BinaryOp where
  | or | and | bitOr | bitXor | bitAnd
  | identical | notIdentical | equal | notEqual | spaceship
  | less | greater | lessEqual | greaterEqual
  | shiftLeft | shiftRight | concat | add | sub | mul | div | mod | pow | coalesce
deriving DecidableEq

def BinaryOp.symbol : BinaryOp → String
  | .or => "||"
  | .and => "&&"
  | .bitOr => "|"
  | .bitXor => "^"
  | .bitAnd => "&"
  | .identical => "==="
  | .notIdentical => "!=="
  | .equal => "=="
  | .notEqual => "!="
  | .spaceship => "<=>"
  | .less => "<"
  | .greater => ">"
  | .lessEqual => "<="
  | .greaterEqual => ">="
  | .shiftLeft => "<<"
  | .shiftRight => ">>"
  | .concat => "."
  | .add => "+"
  | .sub => "-"
  | .mul => "*"
  | .div => "/"
  | .mod => "%"
  | .pow => "**"
  | .coalesce => "??"

inductive UnaryOp where
  | not | minus | plus | bitNot | silence | print
deriving DecidableEq

def UnaryOp.symbol : UnaryOp → String
  | .not => "!"
  | .minus => "-"
  | .plus => "+"
  | .bitNot => "~"
  | .silence => "@"
  | .print => "print"

inductive CastTarget where
  | int | float | string | bool | array | object
  | other (name : String)
deriving DecidableEq

def CastTarget.name : CastTarget → String
  | .int => "int"
  | .float => "float"
  | .string => "string"
  | .bool => "bool"
  | .array => "array"
  | .object => "object"
  | .other n => n

mutual

inductive Expr where
  | var (pos : Pos) (name : String)
  | int (pos : Pos) (value : Nat)
  | float (pos : Pos) (value : Decimal.Numeric)
  | string (pos : Pos) (value : String) (interpolated : Bool)
  | bool (pos : Pos) (value : Bool)
  | null (pos : Pos)
  | constant (pos : Pos) (name : String)
  | array (pos : Pos) (elements : List Element)
  | binary (pos : Pos) (op : BinaryOp) (left right : Expr)
  | unary (pos : Pos) (op : UnaryOp) (operand : Expr)
  | cast (pos : Pos) (target : CastTarget) (operand : Expr)
  /-- `++` or `--`, before or after its operand. -/
  | step (pos : Pos) (increment before : Bool) (operand : Expr)
  /-- A plain assignment has no operator. -/
  | assign (pos : Pos) (op : Option BinaryOp) (target value : Expr)
  | ternary (pos : Pos) (condition yes no : Expr)
  /-- The short form `a ?: b`. -/
  | elvis (pos : Pos) (condition no : Expr)
  | instanceOf (pos : Pos) (operand : Expr) (cls : ClassRef)
  | clone (pos : Pos) (operand : Expr)
  | methodCall (pos : Pos) (receiver : Expr) (name : String) (args : List Argument)
      (nullsafe : Bool)
  | property (pos : Pos) (receiver : Expr) (name : String) (nullsafe : Bool)
  | index (pos : Pos) (container key : Expr)
  /-- `a[]`, which is only of use as a target. -/
  | append (pos : Pos) (container : Expr)
  | staticCall (pos : Pos) (cls : ClassRef) (name : String) (args : List Argument)
  | staticProperty (pos : Pos) (cls : ClassRef) (name : String)
  | classConstant (pos : Pos) (cls : ClassRef) (name : String)
  | call (pos : Pos) (name : String) (args : List Argument)
  /-- A call of what a variable holds. -/
  | dynamicCall (pos : Pos) (variableName : String) (args : List Argument)
  | new (pos : Pos) (cls : ClassRef) (args : List Argument)
  | closure (pos : Pos) (isStatic : Bool) (params : List Param) (uses : List String)
      (hint : Option TypeHint) (bodyPos : Pos) (body : List Stmt)
  | arrow (pos : Pos) (isStatic : Bool) (params : List Param) (hint : Option TypeHint)
      (body : Expr)
  | select (pos : Pos) (subject : Expr) (arms : List Arm)

/-- An element of an array literal. -/
inductive Element where
  | keyed (pos : Pos) (doc : Option String) (key value : Expr)
  | plain (pos : Pos) (doc : Option String) (value : Expr)
  | spread (pos : Pos) (doc : Option String) (value : Expr)

inductive Argument where
  | mk (pos : Pos) (name : Option String) (spread : Bool) (value : Expr)

inductive Param where
  | mk (pos : Pos) (name : String) (hint : Option TypeHint) (defaultValue : Option Expr)
      (variadic : Bool) (modifiers : List String)

/-- An arm of a `match`. -/
inductive Arm where
  | case (pos : Pos) (conditions : List Expr) (body : Expr)
  | fallback (pos : Pos) (body : Expr)

inductive Stmt where
  /-- A lone semicolon, and what stands for an absent `else` or `finally`. -/
  | empty
  | block (pos : Pos) (body : List Stmt)
  | expr (pos : Pos) (doc : Option String) (e : Expr)
  | conditional (pos : Pos) (doc : Option String) (condition : Expr) (yes : Stmt)
      (elseIfs : List ElseIf) (no : Stmt)
  | whileLoop (pos : Pos) (condition : Expr) (body : Stmt)
  | doLoop (pos : Pos) (body : Stmt) (condition : Expr)
  | forLoop (pos : Pos) (start condition step : List Expr) (body : Stmt)
  | foreachLoop (pos : Pos) (iterable : Expr) (key : Option Expr) (value : Expr) (body : Stmt)
  | switch (pos : Pos) (subject : Expr) (cases : List Case)
  | guarded (pos : Pos) (bodyPos : Pos) (body : List Stmt) (catches : List Catch)
      (finalizer : Stmt)
  | returns (pos : Pos) (doc : Option String) (value : Option Expr)
  | breaks (pos : Pos)
  | continues (pos : Pos)
  | throws (pos : Pos) (value : Expr)
  | echo (pos : Pos) (values : List Expr)
  | globals (pos : Pos) (names : List String)
  | statics (pos : Pos) (vars : List StaticVar)
  | includes (pos : Pos) (path : Expr)

inductive ElseIf where
  | mk (pos : Pos) (condition : Expr) (body : Stmt)

/-- A `case` or the `default` of a `switch`. -/
inductive Case where
  | test (pos : Pos) (value : Expr) (body : List Stmt)
  | fallback (pos : Pos) (body : List Stmt)

inductive Catch where
  | mk (pos : Pos) (classes : List String) (var : Option String) (bodyPos : Pos)
      (body : List Stmt)

inductive StaticVar where
  | mk (name : String) (defaultValue : Option Expr)

end

def Expr.pos : Expr → Pos
  | .var p _ => p
  | .int p _ => p
  | .float p _ => p
  | .string p _ _ => p
  | .bool p _ => p
  | .null p => p
  | .constant p _ => p
  | .array p _ => p
  | .binary p _ _ _ => p
  | .unary p _ _ => p
  | .cast p _ _ => p
  | .step p _ _ _ => p
  | .assign p _ _ _ => p
  | .ternary p _ _ _ => p
  | .elvis p _ _ => p
  | .instanceOf p _ _ => p
  | .clone p _ => p
  | .methodCall p _ _ _ _ => p
  | .property p _ _ _ => p
  | .index p _ _ => p
  | .append p _ => p
  | .staticCall p _ _ _ => p
  | .staticProperty p _ _ => p
  | .classConstant p _ _ => p
  | .call p _ _ => p
  | .dynamicCall p _ _ => p
  | .new p _ _ => p
  | .closure p _ _ _ _ _ _ => p
  | .arrow p _ _ _ _ => p
  | .select p _ _ => p

def Stmt.isEmpty : Stmt → Bool
  | .empty => true
  | _ => false

/-- The body of a function or method. -/
structure Body where
  pos : Pos
  stmts : List Stmt

structure Method where
  pos : Pos
  doc : Option String
  name : String
  params : List Param
  hint : Option TypeHint
  /-- Abstract methods have none. -/
  body : Option Body
  modifiers : List String

structure Property where
  pos : Pos
  doc : Option String
  name : String
  hint : Option TypeHint
  defaultValue : Option Expr
  modifiers : List String

structure Constant where
  pos : Pos
  doc : Option String
  name : String
  value : Expr

/-- Where a declaration stands: its namespace, and the aliases in force there by lower-case name. -/
structure Context where
  spaceName : String
  uses : Dict String

structure Function where
  pos : Pos
  doc : Option String
  name : String
  params : List Param
  hint : Option TypeHint
  body : Body
  context : Context

inductive ClassKind where
  | ordinary
  | trait
  | interface
deriving DecidableEq

structure ClassLike where
  pos : Pos
  doc : Option String
  name : String
  kind : ClassKind
  parent : Option String
  interfaces : List String
  traits : List String
  methods : List Method
  properties : List Property
  constants : List Constant
  modifiers : List String
  context : Context

/-- What stands at the top level of a file. -/
inductive Top where
  | spaceDecl (pos : Pos) (name : String)
  | useDecl (pos : Pos) (items : List (String × String))
  | classDecl (decl : ClassLike)
  | functionDecl (decl : Function)
  | constantDecl (decl : Constant)
  | stmt (s : Stmt)

structure File where
  tops : List Top

/-- A name inside a namespace. -/
def Context.qualified (c : Context) (name : String) : String :=
  if c.spaceName.isEmpty then name else c.spaceName ++ "\\" ++ name

def Context.global : Context := ⟨"", .empty⟩

/-- A class without members that names no other class. -/
def ClassLike.bare (pos : Pos) (doc : Option String) (kind : ClassKind) (name : String) :
    ClassLike :=
  ⟨pos, doc, name, kind, none, [], [], [], [], [], [], .global⟩

def ClassLike.fullName (c : ClassLike) : String := c.context.qualified c.name

def Function.fullName (f : Function) : String := f.context.qualified f.name

def Method.isStatic (m : Method) : Bool := m.modifiers.contains "static"

end PhpTypes.Source
