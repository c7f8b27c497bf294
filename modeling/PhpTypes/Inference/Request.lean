import PhpTypes.Inference.Evaluate

/-!
Requests for types. A body is evaluated when its type is first asked for and the result is kept.
While a body is being evaluated every request for it finds a cycle, so at any time the bodies and
constants under evaluation are different ones, and there are no more of them than declarations. A
fault in a body is caught where its entry is resolved, which then has no known type.
-/

namespace PhpTypes.Inference

open Source

/-- The type that a declaration gives its result: the tag of its doc comment counts most, its hint
only if nothing was inferred. -/
def declaredResult (r : Doc.Reader Analysis) (doc : Option String) (hint : Option TypeHint)
    (inferred : Ty) : Analysis Ty := do
  match (← readDoc doc).first? "return" with
  | some tag =>
    if !tag.typeExpr.isEmpty then Doc.typeOfText r tag.typeExpr
    else if inferred.isUnknown && hint.isSome then Doc.typeOfHint r hint
    else return inferred
  | none => if inferred.isUnknown && hint.isSome then Doc.typeOfHint r hint else return inferred

/-- A method or function at its place. -/
structure Routine where
  owner : Option ClassLike
  context : Context
  label : String
  pos : Pos
  doc : Option String
  params : List Param
  hint : Option TypeHint
  body : Option Body

namespace Routine

/-- A method of some class, as part of the declaration that the class is recorded with. -/
def ofMethod (recorded owner : ClassLike) (m : Method) : Routine :=
  ⟨some recorded, recorded.context, owner.fullName ++ "::" ++ m.name, m.pos, m.doc, m.params,
    m.hint, m.body⟩

def ofFunction (f : Function) : Routine :=
  ⟨none, f.context, f.fullName, f.pos, f.doc, f.params, f.hint, some f.body⟩

def site (r : Routine) (p : Program) (ask : Requests) : Site := ⟨p, ask, r.owner, r.context⟩

/-- Evaluates the body of a routine with its parameters in scope. -/
def evaluate (r : Routine) (p : Program) (ask : Requests) : Eval Ty := do
  let block ← readDoc r.doc
  let _ ← bindParams (r.site p ask) block r.params
  match r.body with
  | none => return .unknown
  | some b => bodyType (← execAll (r.site p ask) b.stmts)

/-- The type of a routine, without what its declaration says of the result. -/
def infer (r : Routine) (p : Program) (ask : Requests) : Analysis Ty :=
  (r.evaluate p ask).run' ⟨.empty, []⟩

/-- The type of a routine, given what was inferred. -/
def declare (r : Routine) (p : Program) (inferred : Ty) : Analysis Ty :=
  declaredResult (readerIn p r.context (r.owner.map ClassLike.fullName)) r.doc r.hint inferred

end Routine

/-- Where a fault can arise. -/
inductive Moment where
  /-- Something is asked for. -/
  | request (a : Activity)
  | evaluation (a : Activity)
  /-- What is declared of the result of a body is read. -/
  | declaration (slot : Slot)
  /-- A fault in a body is reported. -/
  | report (slot : Slot)

/-- On a cycle the unknown type of the inner request comes first. -/
def markCycle (cyclic : Bool) (t : Ty) : Ty :=
  if cyclic && t.members.any Ty.isUnknown then Ty.unionOf [.unknown, t] else t

section

variable (faults : Moment → Option Fault) (slot : Slot) (label : String) (pos : Pos)

/-- Reports a fault in the body of an entry. -/
def reportFault (f : Fault) : Analysis Unit := do
  raise? (faults (.report slot))
  note (.failed label f.text)
  warn (.warning .internal (label ++ " 推导失败: " ++ f.text) (.ofPos pos))
  take (.failed slot f)

/-- Finds the type of an entry that is in progress. There is none if its body has a fault; a fault
elsewhere is left to those who asked for the entry. -/
def findType (infer : Analysis Ty) (declare : Ty → Analysis Ty) : Analysis (Option Ty) := do
  match ← catchFault do raise? (faults (.evaluation (.body slot))); infer with
  | .ok inferred =>
    raise? (faults (.declaration slot))
    return some (← declare (markCycle (← getEntry slot).cyclic inferred))
  | .error f =>
    reportFault faults slot label pos f
    return none

/-- Resolves an entry with the type that was found, if there is one. -/
def finishEntry : Option Ty → Analysis Ty
  | some t => do
    setEntry slot { ← getEntry slot with state := .resolved t }
    note (.resolved label t.text)
    return t
  | none => do
    setEntry slot { ← getEntry slot with state := .resolved .unknown }
    return .unknown

/-- Asks for the type of an entry, and finds it with `infer` and `declare` if this is the first
time. -/
def resolveEntry (infer : Analysis Ty) (declare : Ty → Analysis Ty) : Analysis Ty := do
  let entry ← getEntry slot
  match entry.state with
  | .resolved t => return t
  | .inProgress =>
    note (.cycle label)
    take (.repeated (.body slot))
    setEntry slot { entry with cyclic := true }
    return .unknown
  | .unrequested =>
    note (.resolving label)
    setEntry slot { entry with state := .inProgress }
    finishEntry slot label
      (← during (.body slot) (findType faults slot label pos infer declare))

end

/-- Remembers a constant as being evaluated for the time of `x`, also if that is cut short. -/
def whileActive (key : ConstantKey) (x : Analysis Ty) : Analysis Ty := do
  modify fun m => m.activate key
  let t ← tryCatch (during (.constant key) x) fun e => do
    modify fun m => m.deactivate key
    throw e
  modify fun m => m.deactivate key
  return t

/-- A constant that needs itself has no known type. -/
def unlessActive (key : ConstantKey) (x : Analysis Ty) : Analysis Ty := do
  if (← get).active.contains key then
    take (.repeated (.constant key))
    return .unknown
  else whileActive key x

/-- How the type of a routine or of a constant is found, which may be asked for many times. -/
structure Policy where
  routine : Slot → (label : String) → (pos : Pos) → (infer : Analysis Ty) →
    (declare : Ty → Analysis Ty) → Analysis Ty
  constant : ConstantKey → Analysis Ty → Analysis Ty

/-- Types of routines are kept, and a cycle is broken where it closes. -/
def Policy.keeping (faults : Moment → Option Fault) : Policy where
  routine slot label pos infer declare := do
    raise? (faults (.request (.body slot)))
    resolveEntry faults slot label pos infer declare
  constant key x := do
    raise? (faults (.request (.constant key)))
    unlessActive key do
      raise? (faults (.evaluation (.constant key)))
      x

/-- Types of routines are kept, and there are no faults. -/
def Policy.remember : Policy := .keeping fun _ => none

/-- All is evaluated each time it is asked for. -/
def Policy.recompute : Policy := ⟨fun _ _ _ infer declare => do declare (← infer), fun _ x => x⟩

/-- The type of a method that a class has itself. -/
def ownMethodType (k : Policy) (p : Program) (ask : Requests) (owner : ClassLike) (m : Method) :
    Analysis Ty := do
  match ← classDecl p owner.fullName with
  | none => return .unknown
  | some recorded =>
    let r := Routine.ofMethod recorded owner m
    k.routine (.method (classKey recorded) (Text.lower m.name)) r.label r.pos (r.infer p ask)
      (r.declare p)

/-- The type of a method of a class; one that is not found has no known type. -/
def methodType (k : Policy) (p : Program) (ask : Requests) (className method : String) :
    Analysis Ty := do
  match ← classDecl p className with
  | none => return .unknown
  | some c =>
    match findMethod p.index c method with
    | none => return .unknown
    | some (owner, m) => ownMethodType k p ask owner m

def functionType (k : Policy) (p : Program) (ask : Requests) (name : String) : Analysis Ty := do
  match p.index.resolveFunction name with
  | none => return .unknown
  | some f =>
    let r := Routine.ofFunction f
    k.routine (.function (Text.lower f.fullName)) r.label r.pos (r.infer p ask) (r.declare p)

/-- Evaluates an expression in an empty scope. -/
def evalAlone (s : Site) (e : Expr) : Analysis Ty := (settle (eval s e)).run' ⟨.empty, []⟩

/-- The first declaration of a constant along the lineage of a class, and its owner. -/
def findConstant (index : Index) (c : ClassLike) (name : String) : Option (ClassLike × Constant) :=
  (lineage index c).findSome? fun owner =>
    (owner.constants.find? fun d => d.name == name).map fun d => (owner, d)

def constantType (k : Policy) (p : Program) (ask : Requests) (className constant : String) :
    Analysis Ty := do
  match ← classDecl p className with
  | none => return .unknown
  | some c =>
    match findConstant p.index c constant with
    | none => return .unknown
    | some (owner, d) =>
      let recorded ← classDecl p owner.fullName
      k.constant ⟨some (classKey owner), constant⟩
        (evalAlone ⟨p, ask, recorded, (recorded.map ClassLike.context).getD .global⟩ d.value)

/-- The type of a constant outside classes, if there is one of that name. -/
def globalType (k : Policy) (p : Program) (ask : Requests) (name : String) :
    Analysis (Option Ty) := do
  match p.index.resolveConstant name with
  | none => return none
  | some d => return some (← k.constant ⟨none, d.name⟩ (evalAlone ⟨p, ask, none, .global⟩ d.value))

/-- A request that is nested too deeply gets an answer that says nothing. -/
def unanswered {α : Type} (answer : α) : Analysis α := do
  take .exhausted
  return answer

/-- The answers to requests, given those to the requests that they lead to. -/
def answers (k : Policy) (p : Program) (ask : Requests) : Requests :=
  ⟨methodType k p ask, functionType k p ask, constantType k p ask, globalType k p ask⟩

/-- The requests that can be nested so many times, where how they are answered may depend on the
number of those around them. -/
def nestedRequests (k : Nat → Policy) (p : Program) : Nat → Requests
  | 0 =>
    ⟨fun _ _ => unanswered .unknown, fun _ => unanswered .unknown, fun _ _ => unanswered .unknown,
      fun _ => unanswered (some .unknown)⟩
  | depth + 1 => answers (k 0) p (nestedRequests (fun level => k (level + 1)) p depth)

def requests (k : Policy) (p : Program) (depth : Nat) : Requests :=
  nestedRequests (fun _ => k) p depth

/-- What carries out an analysis: the fault that arises at some moment, if there is one, given the
number of requests around it. -/
structure Machine where
  fault? : (level : Nat) → Moment → Option Fault

def classSize (c : ClassLike) : Nat := c.methods.length + c.constants.length

/-- One more than the bodies and constants that can be under evaluation at the same time. -/
def nestingDepth (p : Program) (m : Memory) : Nat :=
  (p.index.classes.values.map classSize).foldr (· + ·) 0 +
    (m.records.values.map fun r => classSize r.decl).foldr (· + ·) 0 +
    p.index.functions.size + p.index.constants.size + 1

/-- The names of all methods along a lineage, each once up to case. -/
def methodNames (seen : List String) : List Method → List String
  | [] => []
  | m :: rest =>
    if seen.contains (Text.lower m.name) then methodNames seen rest
    else m.name :: methodNames (Text.lower m.name :: seen) rest

/-- Asks for the types of all methods of a class and gives the type of its instances. -/
def analyzeUsing (ask : Requests) (p : Program) (name : String) : Analysis Ty := do
  match ← classDecl p name with
  | none =>
    warn (.warning .unresolvable ("找不到类 '" ++ name ++ "'") .unknown)
    return .instanceOf name none
  | some c =>
    let methods := (lineage p.index c).flatMap ClassLike.methods
    (methodNames [] methods).forM fun m => do
      let _ ← ask.methodType c.fullName m
    return instanceType c

namespace Machine

/-- Nothing goes wrong. -/
def perfect : Machine := ⟨fun _ _ => none⟩

def tooDeep : Fault := ⟨"RecursionError('maximum recursion depth exceeded')"⟩

/-- Requests can be nested so many times. The innermost one has no room left to read a declaration
or to report a fault. -/
def ofDepth (n : Nat) : Machine where
  fault? level
    | .request _ | .evaluation _ => if level ≤ n then none else some tooDeep
    | .declaration _ | .report _ => if level < n then none else some tooDeep

/-- As deep as the constants of a chain that need each other can be evaluated. -/
def standard : Machine := ofDepth 190

variable (M : Machine)

/-- The machine as it is for requests that are nested in one. -/
def inner : Machine := ⟨fun level => M.fault? (level + 1)⟩

def requests (p : Program) (depth : Nat) : Requests :=
  nestedRequests (fun level => .keeping (M.fault? level)) p depth

/-- Makes a request with enough depth for all that it can lead to. -/
def request {α : Type} (p : Program) (ask : Requests → Analysis α) : Analysis α := do
  ask (M.requests p (nestingDepth p (← get)))

/-- The type of a method of an object; nothing is known of an object whose class is not declared. -/
def callType (p : Program) (object : Ty) (method : String) : Analysis Ty :=
  match object with
  | .object _ (some declared) => M.request p fun r => r.methodType declared method
  | _ => return .unknown

/-- The requests that can be made from outside. -/
def outerRequests (p : Program) : Requests :=
  ⟨fun c method => M.request p fun r => r.methodType c method,
    fun name => M.request p fun r => r.functionType name,
    fun c constant => M.request p fun r => r.constantType c constant,
    fun constant => M.request p fun r => r.globalType constant⟩

def analyzeClass (p : Program) (name : String) : Analysis Ty :=
  analyzeUsing (M.outerRequests p) p name

end Machine

end PhpTypes.Inference
