import PhpTypes.Inference.Site

/-!
The evaluation of expressions and statements. An expression gives its type and may bind variables; a
statement tells whether no path goes on after it. Every branch starts from the scope before the
branching, and its scope is joined with those of the other branches that survive.
-/

namespace PhpTypes.Inference

open Source

/-- What is gathered of an array literal: its shape, and the types of its keys and values in case a
key is not known. -/
structure Gathered where
  items : List Item
  keys : List Ty
  values : List Ty
  degraded : Bool

namespace Gathered

def empty : Gathered := ⟨[], [], [], false⟩

def add (g : Gathered) (item : Item) (key : Ty) : Gathered :=
  ⟨Ty.withItem g.items item, g.keys ++ [key], g.values ++ [item.value], g.degraded⟩

/-- Adds an entry under a key, which may not be known. -/
def addKeyed (g : Gathered) (item : Item) (key : Ty) : Gathered :=
  match key.literalKey? with
  | some k => g.add (item.withKey (some k)) key.widen
  | none => { g.add item key with degraded := true }

def addPlain (g : Gathered) (item : Item) : Gathered := g.add item (.int none)

/-- Adds the elements of another array. -/
def addSpread (g : Gathered) (t : Ty) : Gathered :=
  match t with
  | .array items => items.foldl (fun g i => g.add i (Ty.keyType i.key)) g
  | t =>
    let (k, v) := Ty.iterate t
    { g with keys := g.keys ++ [k], values := g.values ++ [v], degraded := true }

def type (g : Gathered) : Ty :=
  if g.degraded then .map (some (Ty.unionOf g.keys)) (Ty.unionOf g.values) else .array g.items

end Gathered

/-- Whether an expression is a place in a variable. -/
def isPlace : Expr → Bool
  | .var _ _ => true
  | .index _ _ _ => true
  | .append _ _ => true
  | _ => false

/-- The type of a place before it is written to: a place in a variable may have none yet, any other
expression has its value. -/
def currentOf (e : Expr) (place : Eval (Option Ty)) (value : Eval Ty) : Eval (Option Ty) := do
  if isPlace e then place else return some (← value)

/-- Whether a key is known and a shape has no entry of that key. -/
def lacks (container index : Ty) : Bool :=
  match container, index.literalKey? with
  | .array items, some k => (Ty.getItem? items k).isNone
  | _, _ => false

/-- The place that an entry of a container has, if it is there. -/
def entryOf (container index : Ty) : Option Ty :=
  if lacks container index then none else some (Ty.readIndex container index)

def exprName : Expr → String
  | .var _ _ => "Variable"
  | .int _ _ => "IntLiteral"
  | .float _ _ => "FloatLiteral"
  | .string _ _ _ => "StringLiteral"
  | .bool _ _ => "BoolLiteral"
  | .null _ => "NullLiteral"
  | .constant _ _ => "ConstFetch"
  | .array _ _ => "ArrayLiteral"
  | .binary _ _ _ _ => "BinaryOp"
  | .unary _ _ _ => "UnaryOp"
  | .cast _ _ _ => "CastExpr"
  | .step _ _ _ _ => "IncDec"
  | .assign _ _ _ _ => "Assign"
  | .ternary _ _ _ _ => "TernaryOp"
  | .elvis _ _ _ => "TernaryOp"
  | .instanceOf _ _ _ => "Instanceof"
  | .clone _ _ => "CloneExpr"
  | .methodCall _ _ _ _ _ => "MethodCall"
  | .property _ _ _ _ => "PropertyFetch"
  | .index _ _ _ => "IndexFetch"
  | .append _ _ => "IndexFetch"
  | .staticCall _ _ _ _ => "StaticCall"
  | .staticProperty _ _ _ => "StaticPropertyFetch"
  | .classConstant _ _ _ => "ClassConstFetch"
  | .call _ _ _ => "FuncCall"
  | .dynamicCall _ _ _ => "DynamicCall"
  | .new _ _ _ => "NewExpr"
  | .closure _ _ _ _ _ _ _ => "Closure"
  | .arrow _ _ _ _ _ => "Closure"
  | .select _ _ _ => "MatchExpr"

/-- The type after a step up or down. A variable that holds a number forgets its value. -/
def stepped (target : Expr) (t : Ty) : Eval Ty := do
  let wide := t.widen
  match target, wide with
  | .var _ name, .int none => bindVar name wide
  | .var _ name, .float none => bindVar name wide
  | _, _ => pure ()
  return wide

/-- The variables among some arguments. -/
def variableNames (args : List Argument) : List String :=
  args.filterMap fun a => match a with
    | .mk _ _ _ (.var _ name) => some name
    | _ => none

/-- The calls that are part of the language. -/
inductive BuiltIn where
  | unset
  | test
  | compact
  | none

def builtIn (name : String) : BuiltIn :=
  match lastPart (Text.lower name) with
  | "unset" => .unset
  | "isset" => .test
  | "empty" => .test
  | "compact" => .compact
  | _ => .none

/-- How the statements of a case end. -/
inductive CaseEnd where
  | fallsThrough
  | breaks
  | terminates

/-- Goes on with the next case if the first falls through. -/
def throughCase (first : Eval CaseEnd) (rest : Eval Bool) : Eval Bool := do
  match ← first with
  | .fallsThrough => rest
  | .breaks => return false
  | .terminates => return true

def isFallback : Case → Bool
  | .fallback _ _ => true
  | .test _ _ _ => false

/-- The scope in which a `catch` starts. -/
def catchScope (s : Site) (classes : List String) (var : Option String) : Eval Scope := do
  let scope ← getScope
  match var with
  | none => return scope
  | some name =>
    let types ← (classes.mapM s.resolveClass : Analysis (List Ty))
    return scope.set name (Ty.unionOf types)

/-- Runs the body of a closure in a scope of its own, and gives the types of its parameters and of
its result. -/
def inClosure (s : Site) (scope : Scope) (params : List Param) (body : Eval Ty) :
    Eval (List Ty × Ty) :=
  inFrame scope do
    let types ← bindParams s .empty params
    return (types, ← body)

/-- The scope in which a closure starts: the variables that it takes along. -/
def closureScope (scope : Scope) (uses : List String) : Scope :=
  .ofList (uses.map fun n => (n, scope.get n))

mutual

def eval (s : Site) : Expr → Attempt Ty
  | .var _ name => variableType s name
  | .int _ n => return (Ty.ofNumber? (.int n)).getD (.float none)
  | .float _ x => return .float (some x.value)
  | .string _ value interpolated => return .string (if interpolated then none else some value)
  | .bool _ _ => return .boolean
  | .null _ => return .null
  | .constant pos name => constantFetch s pos name
  | .array _ elements => return (← gather s .empty elements).type
  | .binary _ op left right => do
    let a ← settle (eval s left)
    let b ← settle (eval s right)
    return Ty.binary op a b
  | .unary _ op operand => return Ty.unary op (← settle (eval s operand))
  | .cast pos target operand => do castType pos target (← settle (eval s operand))
  | .step _ _ _ target => do stepped target (← settle (eval s target))
  | .assign _ none target value => do
    let t ← settle (eval s value)
    assignTo s t target
    return t
  | .assign _ (some op) target value => do
    let a ← settle (eval s target)
    let b ← settle (eval s value)
    let t := Ty.binary op a b
    assignTo s t target
    return t
  | .ternary _ condition yes no => do
    let _ ← settle (eval s condition)
    let scope ← getScope
    let (a, first) ← inScope scope (settle (eval s yes))
    let (b, second) ← inScope scope (settle (eval s no))
    join [first, second]
    return Ty.unionOf [a, b]
  | .elvis _ condition no => do
    let a ← settle (eval s condition)
    let scope ← getScope
    let (b, second) ← inScope scope (settle (eval s no))
    join [scope, second]
    return Ty.unionOf [a, b]
  | .instanceOf _ operand _ => do
    let _ ← settle (eval s operand)
    return .boolean
  | .clone _ operand => settle (eval s operand)
  | .methodCall pos receiver name args nullsafe => do
    let t ← settle (eval s receiver)
    evalArgs s args
    callMethod s pos t name nullsafe
  | .property _ receiver name nullsafe => do
    fetchProperty s (← settle (eval s receiver)) name nullsafe
  | .index _ container key => do
    let t ← settle (eval s container)
    let k ← settle (eval s key)
    return Ty.unionOf (t.members.map fun m => Ty.readIndex m k)
  | .append pos container => do
    let _ ← settle (eval s container)
    unsupported pos "读取上下文中不能使用 []"
  | .staticCall pos cls name args => do
    evalArgs s args
    callStatic s pos cls name
  | .staticProperty pos cls name => fetchStaticProperty s pos cls name
  | .classConstant pos cls name => classConstant s pos cls name
  | .call pos name args => do
    match builtIn name with
    | .unset =>
      (variableNames args).forM fun n => unbindVar n
      return .null
    | .test =>
      evalArgs s args
      return .boolean
    | .compact => return .array (← compacted s [] args)
    | .none =>
      evalArgs s args
      callFunction s pos name
  | .dynamicCall _ name args => do
    let callee ← variableType s name
    evalArgs s args
    return callValue callee
  | .new pos cls args => do
    evalArgs s args
    instantiate s pos cls
  | .closure _ _ params uses hint _ body => do
    let scope := closureScope (← getScope) uses
    let (types, result) ← inClosure s scope params (do bodyType (← execAll s body))
    closureType s hint types result
  | .arrow _ _ params hint body => do
    let (types, result) ← inClosure s (← getScope) params (settle (eval s body))
    closureType s hint types result
  | .select _ subject arms => do
    let _ ← settle (eval s subject)
    let results ← evalArms s arms
    let _ ← joinLive (results.map Prod.snd)
    return Ty.unionOf (results.map Prod.fst)

def evalAll (s : Site) : List Expr → Eval Unit
  | [] => return ()
  | e :: es => do
    let _ ← settle (eval s e)
    evalAll s es

def evalArgs (s : Site) : List Argument → Eval Unit
  | [] => return ()
  | .mk _ _ _ value :: rest => do
    let _ ← settle (eval s value)
    evalArgs s rest

/-- The entries of a call of `compact`: each string names a variable. -/
def compacted (s : Site) (items : List Item) : List Argument → Eval (List Item)
  | [] => return items
  | .mk _ _ _ (.string _ name _) :: rest => do
    let t := (← getScope).get name
    compacted s (Ty.withItem items (.of (some (.str name)) t)) rest
  | .mk _ _ _ value :: rest => do
    let _ ← settle (eval s value)
    compacted s items rest

def gather (s : Site) (g : Gathered) : List Element → Eval Gathered
  | [] => return g
  | .spread _ _ value :: rest => do
    let t ← settle (eval s value)
    gather s (g.addSpread t) rest
  | .plain _ doc value :: rest => do
    let t ← settle (eval s value)
    let item ← documentedItem s doc t
    gather s (g.addPlain item) rest
  | .keyed _ doc key value :: rest => do
    let t ← settle (eval s value)
    let item ← documentedItem s doc t
    let k ← settle (eval s key)
    gather s (g.addKeyed item k) rest

/-- The results of the arms of a `match` with the scopes after them. -/
def evalArms (s : Site) : List Arm → Eval (List (Ty × Scope))
  | [] => return []
  | .case _ conditions body :: rest => do
    evalAll s conditions
    let first ← inScope (← getScope) (settle (eval s body))
    return first :: (← evalArms s rest)
  | .fallback _ body :: rest => do
    let first ← inScope (← getScope) (settle (eval s body))
    return first :: (← evalArms s rest)

/-- Assigns a type to a target. A write to a place in an array is an assignment of the whole array,
one level after the other. -/
def assignTo (s : Site) (t : Ty) : Expr → Attempt Unit
  | .var _ name => if name == "this" then return () else bindVar name t
  | .index _ container key => do
    let c ← currentOf container (current s container) (settle (eval s container))
    let k ← settle (eval s key)
    assignTo s (Ty.writeIndex c (some k) t) container
  | .append _ container => do
    let c ← currentOf container (current s container) (settle (eval s container))
    assignTo s (Ty.writeIndex c none t) container
  | .array _ elements => destructure s t 0 elements
  | .property _ receiver name nullsafe => do
    let r ← settle (eval s receiver)
    let _ ← fetchProperty s r name nullsafe
  | .staticProperty pos cls name => do
    let _ ← settle (fetchStaticProperty s pos cls name)
  | e => unsupported e.pos ("不支持的赋值目标 " ++ exprName e)

/-- Assigns the elements of a type to those of a target; `position` counts those without a key. -/
def destructure (s : Site) (t : Ty) (position : Int) : List Element → Attempt Unit
  | [] => return ()
  | .keyed _ _ key target :: rest => do
    let k ← settle (eval s key)
    assignTo s (Ty.readIndex t k) target
    destructure s t position rest
  | .plain _ _ target :: rest => do
    assignTo s (Ty.readIndex t (.int (some position))) target
    destructure s t (position + 1) rest
  | .spread _ _ target :: rest => do
    assignTo s (Ty.readIndex t (.int (some position))) target
    destructure s t (position + 1) rest

/-- The type of a place in a variable, if it has one yet. -/
def current (s : Site) : Expr → Eval (Option Ty)
  | .var _ name => return (← getScope).get? name
  | .index _ container key => do
    match ← currentOf container (current s container) (settle (eval s container)) with
    | none => return none
    | some outer => return entryOf outer (← settle (eval s key))
  | .append _ container => do
    let _ ← currentOf container (current s container) (settle (eval s container))
    return none
  | _ => return none

/-- Runs a statement and tells whether no path goes on after it. -/
def exec (s : Site) : Stmt → Eval Bool
  | .empty => return false
  | .block _ body => execAll s body
  | .expr _ doc e => do
    let _ ← settle (eval s e)
    applyDoc s doc e
    return false
  | .conditional _ _ condition yes elseIfs no => do
    let _ ← settle (eval s condition)
    evalConditions s elseIfs
    let first ← branch (exec s yes)
    let others ← elseIfBranches s elseIfs
    let last ← branch (exec s no)
    joinLive (first ++ others ++ last)
  | .whileLoop _ condition body => do
    let _ ← settle (eval s condition)
    loopOnce (exec s body)
    return false
  | .doLoop _ body condition => do
    let before ← getScope
    let (terminated, after) ← inScope before (exec s body)
    if terminated then return true
    let (_, after) ← inScope after (settle (eval s condition))
    join [before, after]
    return false
  | .forLoop _ start condition step body => do
    evalAll s start
    evalAll s condition
    loopOnce do
      let terminated ← exec s body
      evalAll s step
      return terminated
    return false
  | .foreachLoop _ iterable key value body => do
    let (k, v) := Ty.iterate (← settle (eval s iterable))
    loopOnce do
      tolerate do
        assignKey s k key
        assignTo s v value
      exec s body
    return false
  | .switch _ subject cases => do
    let _ ← settle (eval s subject)
    evalTests s cases
    let live ← enterCases s cases
    let skipped ← getScope
    joinLive (if cases.any isFallback then live else live ++ [skipped])
  | .guarded _ _ body catches finalizer => do
    let first ← branch (execAll s body)
    let others ← catchBranches s catches
    let terminated ← joinLive (first ++ others)
    if ← exec s finalizer then return true else return terminated
  | .returns _ _ value => do
    addReturn (← returned s value)
    return true
  | .breaks _ => return false
  | .continues _ => return false
  | .throws _ value => do
    let _ ← settle (eval s value)
    return true
  | .echo _ values => do
    evalAll s values
    return false
  | .globals _ names => do
    names.forM fun n => bindVar n .unknown
    return false
  | .statics _ vars => do
    bindStatics s vars
    return false
  | .includes _ path => do
    let _ ← settle (eval s path)
    return false

def execAll (s : Site) : List Stmt → Eval Bool
  | [] => return false
  | stmt :: rest => do
    if ← exec s stmt then return true else execAll s rest

def returned (s : Site) : Option Expr → Eval Ty
  | none => return .null
  | some e => settle (eval s e)

def assignKey (s : Site) (t : Ty) : Option Expr → Attempt Unit
  | none => return ()
  | some e => assignTo s t e

def evalConditions (s : Site) : List ElseIf → Eval Unit
  | [] => return ()
  | .mk _ condition _ :: rest => do
    let _ ← settle (eval s condition)
    evalConditions s rest

def elseIfBranches (s : Site) : List ElseIf → Eval (List Scope)
  | [] => return []
  | .mk _ _ body :: rest => do
    let first ← branch (exec s body)
    return first ++ (← elseIfBranches s rest)

def evalTests (s : Site) : List Case → Eval Unit
  | [] => return ()
  | .test _ value _ :: rest => do
    let _ ← settle (eval s value)
    evalTests s rest
  | .fallback _ _ :: rest => evalTests s rest

/-- Enters a `switch` at each of its cases. -/
def enterCases (s : Site) : List Case → Eval (List Scope)
  | [] => return []
  | .test _ _ body :: rest => do
    let first ← branch (throughCase (runCase s body) (runCases s rest))
    return first ++ (← enterCases s rest)
  | .fallback _ body :: rest => do
    let first ← branch (throughCase (runCase s body) (runCases s rest))
    return first ++ (← enterCases s rest)

/-- Runs cases until one of them ends with a `break` or leaves no path. -/
def runCases (s : Site) : List Case → Eval Bool
  | [] => return false
  | .test _ _ body :: rest => throughCase (runCase s body) (runCases s rest)
  | .fallback _ body :: rest => throughCase (runCase s body) (runCases s rest)

def runCase (s : Site) : List Stmt → Eval CaseEnd
  | [] => return .fallsThrough
  | .breaks _ :: _ => return .breaks
  | stmt :: rest => do
    if ← exec s stmt then return .terminates else runCase s rest

def catchBranches (s : Site) : List Catch → Eval (List Scope)
  | [] => return []
  | .mk _ classes var _ body :: rest => do
    let first ← branchFrom (← catchScope s classes var) (execAll s body)
    return first ++ (← catchBranches s rest)

def bindStatics (s : Site) : List StaticVar → Eval Unit
  | [] => return ()
  | .mk name none :: rest => do
    bindVar name .null
    bindStatics s rest
  | .mk name (some e) :: rest => do
    bindVar name (← settle (eval s e)).widen
    bindStatics s rest

end

end PhpTypes.Inference
