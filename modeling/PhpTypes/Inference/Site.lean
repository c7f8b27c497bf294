import PhpTypes.Inference.Frame

/-!
What the evaluation of a body asks from outside: the types of other methods, functions and
constants, and of members that it names.
-/

namespace PhpTypes.Inference

open Source

/-- The requests that can lead to the evaluation of other bodies. -/
structure Requests where
  methodType : (className method : String) → Analysis Ty
  functionType : (name : String) → Analysis Ty
  constantType : (className constant : String) → Analysis Ty
  globalType : (constant : String) → Analysis (Option Ty)

/-- Where a body stands: its class, if it has one, and the context of its names. -/
structure Site where
  program : Program
  ask : Requests
  owner : Option ClassLike
  context : Context

namespace Site

def selfName (s : Site) : Option String := s.owner.map ClassLike.fullName

def thisType (s : Site) : Ty := (s.owner.map instanceType).getD .unknown

def resolveClass (s : Site) (name : String) : Analysis Ty := resolveName s.program s.context name

def reader (s : Site) : Doc.Reader Analysis := readerIn s.program s.context s.selfName

def typeOfText (s : Site) (text : String) : Analysis Ty := Doc.typeOfText s.reader text

def typeOfHint (s : Site) (hint : Option TypeHint) : Analysis Ty := Doc.typeOfHint s.reader hint

end Site

/-- The type of a parameter: by its tag, or else by its hint. -/
def paramType (s : Site) (doc : Doc.Block) (name : String) (hint : Option TypeHint)
    (variadic : Bool) : Analysis Ty := do
  let t ← match doc.paramTag? name with
    | some tag => if tag.typeExpr.isEmpty then s.typeOfHint hint else s.typeOfText tag.typeExpr
    | none => s.typeOfHint hint
  return if variadic then .map none t else t

/-- Binds the parameters of a body and gives their types. -/
def bindParams (s : Site) (doc : Doc.Block) : List Param → Eval (List Ty)
  | [] => return []
  | .mk _ name hint _ variadic _ :: rest => do
    let t ← paramType s doc name hint variadic
    bindVar name t
    return t :: (← bindParams s doc rest)

/-- The type of a variable, where `this` is the object at hand. -/
def variableType (s : Site) (name : String) : Eval Ty := do
  if name == "this" then return s.thisType else return (← getScope).get name

/-- Constants that are known without any declaration. -/
def knownConstants : List (String × Ty) :=
  [("php_eol", .string none), ("php_version", .string none), ("php_os", .string none),
   ("directory_separator", .string none), ("php_int_max", .int none), ("php_int_min", .int none),
   ("php_int_size", .int none), ("php_float_epsilon", .float none), ("php_float_max", .float none),
   ("m_pi", .float none), ("m_e", .float none), ("nan", .float none), ("inf", .float none),
   ("e_all", .int none), ("e_error", .int none), ("e_warning", .int none), ("e_notice", .int none),
   ("json_pretty_print", .int none), ("json_unescaped_unicode", .int none),
   ("json_unescaped_slashes", .int none), ("json_throw_on_error", .int none),
   ("sort_regular", .int none), ("count_recursive", .int none)]

def constantFetch (s : Site) (pos : Pos) (name : String) : Attempt Ty := do
  match knownConstants.lookup (Text.lower name) with
  | some t => return t
  | none =>
    match ← s.ask.globalType name with
    | some t => return t
    | none => unresolvable pos ("未定义的常量 '" ++ name ++ "'")

def castType (pos : Pos) (target : CastTarget) (t : Ty) : Attempt Ty :=
  match target with
  | .int => return .int none
  | .float => return .float none
  | .string => return .string none
  | .bool => return .boolean
  | .array =>
    let isArray (m : Ty) : Bool := match m with
      | .array _ => true
      | .map _ _ => true
      | _ => false
    return if t.members.all isArray then t else .map (some .unknown) .unknown
  | .object =>
    match t with
    | .object _ _ => return t
    | _ => return .instanceOf "stdClass" none
  | .other name => unsupported pos ("不支持的类型转换 (" ++ name ++ ")")

def missingClass (name what : String) : String := "找不到类 '" ++ name ++ "'（" ++ what ++ "）"

def missingMethod (className method : String) : String :=
  "类 '" ++ className ++ "' 中找不到方法 '" ++ method ++ "'"

/-- A method call on an object. A class that handles all calls can be called by any name. -/
def callOnObject (s : Site) (pos : Pos) (name : String) (declared : Option String)
    (method : String) : Attempt Ty := do
  match ← recordedClass? s.program declared with
  | none => unresolvable pos (missingClass name ("调用 " ++ method ++ "()"))
  | some c =>
    if (findMethod s.program.index c method).isNone then
      if (findMethod s.program.index c "__call").isSome then return .unknown
      else unresolvable pos (missingMethod c.fullName method)
    else s.ask.methodType c.fullName method

/-- A method call on one member of a union. -/
def callOnMember (s : Site) (method : String) (nullsafe : Bool) (t : Ty) : Analysis Ty :=
  match t with
  | .object _ (some declared) => s.ask.methodType declared method
  | .null => return if nullsafe then .null else .unknown
  | _ => return .unknown

def callMethod (s : Site) (pos : Pos) (receiver : Ty) (method : String) (nullsafe : Bool) :
    Attempt Ty := do
  match receiver with
  | .object name declared => callOnObject s pos name declared method
  | t =>
    let results ← (t.members.mapM (callOnMember s method nullsafe) : Analysis (List Ty))
    return Ty.unionOf results

def propertyOfMember (s : Site) (name : String) (nullsafe : Bool) (t : Ty) : Analysis Ty :=
  match t with
  | .object _ (some declared) => propertyType s.program declared name
  | .null => return if nullsafe then .null else .unknown
  | _ => return .unknown

def fetchProperty (s : Site) (receiver : Ty) (name : String) (nullsafe : Bool) : Analysis Ty := do
  return Ty.unionOf (← receiver.members.mapM fun m => propertyOfMember s name nullsafe m)

/-- The object whose class a name stands for. -/
def namedClass (s : Site) (pos : Pos) (name : String) : Attempt Ty := do
  let key := Text.lower name
  if key == "self" || key == "static" then
    match s.owner with
    | some c => return instanceType c
    | none => unresolvable pos ("类外使用 " ++ name ++ "::")
  else if key == "parent" then
    match s.owner.bind (parentOf s.program.index) with
    | some c => objectType s.program c.fullName
    | none => unresolvable pos "没有父类可供 parent:: 访问"
  else s.resolveClass name

/-- The object whose class is accessed: by name, or as what a variable holds. -/
def classOf (s : Site) (pos : Pos) (ref : ClassRef) : Attempt Ty := do
  match ref with
  | .name n => namedClass s pos n
  | .var _ n =>
    match ← variableType s n with
    | .object name declared => return .object name declared
    | .string (some className) => s.resolveClass className
    | _ => unresolvable pos ("无法确定 $" ++ n ++ " 的类")

def objectName : Ty → String
  | .object name _ => name
  | _ => ""

def declaredName : Ty → Option String
  | .object _ declared => declared
  | _ => none

def callStatic (s : Site) (pos : Pos) (ref : ClassRef) (method : String) : Attempt Ty := do
  let t ← classOf s pos ref
  let name := objectName t
  match ← recordedClass? s.program (declaredName t) with
  | none => unresolvable pos (missingClass name ("调用 " ++ method ++ "()"))
  | some c =>
    if (findMethod s.program.index c method).isNone then
      if (findMethod s.program.index c "__callStatic").isSome then return .unknown
      else unresolvable pos (missingMethod name method)
    else s.ask.methodType name method

def fetchStaticProperty (s : Site) (pos : Pos) (ref : ClassRef) (name : String) :
    Attempt Ty := do
  match declaredName (← classOf s pos ref) with
  | some declared => propertyType s.program declared name
  | none => return .unknown

def fetchClassConstant (s : Site) (pos : Pos) (ref : ClassRef) (name : String) : Attempt Ty := do
  let t ← classOf s pos ref
  match declaredName t with
  | some _ => s.ask.constantType (objectName t) name
  | none => unresolvable pos (missingClass (objectName t) ("常量 " ++ name))

/-- A constant of a class, or with `class` its name. -/
def classConstant (s : Site) (pos : Pos) (ref : ClassRef) (name : String) : Attempt Ty := do
  if Text.lower name == "class" then
    match ref with
    | .var _ _ => return .string none
    | .name n => return .string (some (objectName (← namedClass s pos n)))
  else fetchClassConstant s pos ref name

def instantiate (s : Site) (pos : Pos) (ref : ClassRef) : Attempt Ty := do
  match ref with
  | .name n => if isRelativeName n then namedClass s pos n else s.resolveClass n
  | .var _ n =>
    match ← variableType s n with
    | .string (some className) => s.resolveClass className
    | .object name declared => return .object name declared
    | _ => return .unknown

/-- A call of a function: a declared one, or else a native one. -/
def callFunction (s : Site) (pos : Pos) (name : String) : Attempt Ty := do
  if (s.program.index.resolveFunction name).isSome then s.ask.functionType name
  else
    match s.program.natives.get? (lastPart (Text.lower name)) with
    | some signature => return signature.result
    | none => unresolvable pos ("未定义的函数 '" ++ name ++ "'")

/-- The type of a call of what a variable holds. -/
def callValue (callee : Ty) : Ty :=
  Ty.unionOf (callee.members.map fun m => match m with
    | .function result _ => result
    | _ => .unknown)

/-- A closure as a value: its hint counts if its body gives no type. -/
def closureType (s : Site) (hint : Option TypeHint) (params : List Ty) (result : Ty) :
    Analysis Ty := do
  let result ← if result.isUnknown && hint.isSome then s.typeOfHint hint else pure result
  return .function result params

/-- An entry of an array literal whose doc comment may give its type and describe it. -/
def documentedItem (s : Site) (doc : Option String) (value : Ty) : Analysis Item := do
  match doc with
  | none => return .of none value
  | some _ =>
    match (← readDoc doc).varTag? none with
    | none => return .of none value
    | some tag =>
      if tag.typeExpr.isEmpty then return .mk none value false tag.description false
      else return .mk none (← s.typeOfText tag.typeExpr) false tag.description true

/-- The variable whose type a doc comment before an expression can give. -/
def documentedVariable? : Expr → Option String
  | .var _ name => some name
  | .assign _ _ (.var _ name) _ => some name
  | .step _ _ _ (.var _ name) => some name
  | _ => none

/-- Lets a doc comment before an expression give the type of its variable. -/
def applyDoc (s : Site) (doc : Option String) (e : Expr) : Eval Unit := do
  match doc, documentedVariable? e with
  | some _, some name =>
    match (← readDoc doc).varTag? (some name) with
    | some tag => if !tag.typeExpr.isEmpty then bindVar name (← s.typeOfText tag.typeExpr)
    | none => return ()
  | _, _ => return ()

end PhpTypes.Inference
