import PhpTypes.Index.Basic

/-!
# The nodes of a tree

All parts of a source that stand for themselves: expressions, statements, elements of arrays, and
declarations with their members. Some of them can carry a doc comment.
-/

namespace PhpTypes.Source

inductive Node where
  | expr (e : Expr)
  | element (e : Element)
  | stmt (s : Stmt)
  | method (m : Method)
  | property (p : Property)
  | constant (c : Constant)
  | function (f : Function)
  | classLike (c : ClassLike)

/-- The doc comment of a node, with the position of the node. -/
def Node.comment? : Node → Option (Pos × String)
  | .expr _ => none
  | .element (.keyed pos doc _ _) => doc.map fun text => (pos, text)
  | .element (.plain pos doc _) => doc.map fun text => (pos, text)
  | .element (.spread pos doc _) => doc.map fun text => (pos, text)
  | .stmt (.expr pos doc _) => doc.map fun text => (pos, text)
  | .stmt (.conditional pos doc _ _ _ _) => doc.map fun text => (pos, text)
  | .stmt (.returns pos doc _) => doc.map fun text => (pos, text)
  | .stmt _ => none
  | .method m => m.doc.map fun text => (m.pos, text)
  | .property p => p.doc.map fun text => (p.pos, text)
  | .constant c => c.doc.map fun text => (c.pos, text)
  | .function f => f.doc.map fun text => (f.pos, text)
  | .classLike c => c.doc.map fun text => (c.pos, text)

mutual

/-- The nodes of an expression, with the expression itself. -/
@[simp] def exprNodes : Expr → List Node
  | .var pos name => [.expr (.var pos name)]
  | .int pos value => [.expr (.int pos value)]
  | .float pos value => [.expr (.float pos value)]
  | .string pos value interpolated => [.expr (.string pos value interpolated)]
  | .bool pos value => [.expr (.bool pos value)]
  | .null pos => [.expr (.null pos)]
  | .constant pos name => [.expr (.constant pos name)]
  | .array pos elements => .expr (.array pos elements) :: elementNodes elements
  | .binary pos op left right =>
    .expr (.binary pos op left right) :: (exprNodes left ++ exprNodes right)
  | .unary pos op operand => .expr (.unary pos op operand) :: exprNodes operand
  | .cast pos target operand => .expr (.cast pos target operand) :: exprNodes operand
  | .step pos increment before operand =>
    .expr (.step pos increment before operand) :: exprNodes operand
  | .assign pos op target value =>
    .expr (.assign pos op target value) :: (exprNodes target ++ exprNodes value)
  | .ternary pos condition yes no =>
    .expr (.ternary pos condition yes no) :: (exprNodes condition ++ exprNodes yes ++ exprNodes no)
  | .elvis pos condition no =>
    .expr (.elvis pos condition no) :: (exprNodes condition ++ exprNodes no)
  | .instanceOf pos operand cls => .expr (.instanceOf pos operand cls) :: exprNodes operand
  | .clone pos operand => .expr (.clone pos operand) :: exprNodes operand
  | .methodCall pos receiver name args nullsafe =>
    .expr (.methodCall pos receiver name args nullsafe) :: (exprNodes receiver ++ argNodes args)
  | .property pos receiver name nullsafe =>
    .expr (.property pos receiver name nullsafe) :: exprNodes receiver
  | .index pos container key =>
    .expr (.index pos container key) :: (exprNodes container ++ exprNodes key)
  | .append pos container => .expr (.append pos container) :: exprNodes container
  | .staticCall pos cls name args => .expr (.staticCall pos cls name args) :: argNodes args
  | .staticProperty pos cls name => [.expr (.staticProperty pos cls name)]
  | .classConstant pos cls name => [.expr (.classConstant pos cls name)]
  | .call pos name args => .expr (.call pos name args) :: argNodes args
  | .dynamicCall pos name args => .expr (.dynamicCall pos name args) :: argNodes args
  | .new pos cls args => .expr (.new pos cls args) :: argNodes args
  | .closure pos isStatic params uses hint bodyPos body =>
    .expr (.closure pos isStatic params uses hint bodyPos body) ::
      (paramNodes params ++ bodyNodes body)
  | .arrow pos isStatic params hint body =>
    .expr (.arrow pos isStatic params hint body) :: (paramNodes params ++ exprNodes body)
  | .select pos subject arms =>
    .expr (.select pos subject arms) :: (exprNodes subject ++ armNodes arms)

@[simp] def exprsNodes : List Expr → List Node
  | [] => []
  | e :: es => exprNodes e ++ exprsNodes es

@[simp] def valueNodes : Option Expr → List Node
  | none => []
  | some e => exprNodes e

@[simp] def elementNodes : List Element → List Node
  | [] => []
  | .keyed pos doc key value :: rest =>
    .element (.keyed pos doc key value) :: (exprNodes key ++ exprNodes value ++ elementNodes rest)
  | .plain pos doc value :: rest =>
    .element (.plain pos doc value) :: (exprNodes value ++ elementNodes rest)
  | .spread pos doc value :: rest =>
    .element (.spread pos doc value) :: (exprNodes value ++ elementNodes rest)

@[simp] def argNodes : List Argument → List Node
  | [] => []
  | .mk _ _ _ value :: rest => exprNodes value ++ argNodes rest

@[simp] def paramNodes : List Param → List Node
  | [] => []
  | .mk _ _ _ defaultValue _ _ :: rest => valueNodes defaultValue ++ paramNodes rest

@[simp] def armNodes : List Arm → List Node
  | [] => []
  | .case _ conditions body :: rest => exprsNodes conditions ++ exprNodes body ++ armNodes rest
  | .fallback _ body :: rest => exprNodes body ++ armNodes rest

/-- The nodes of a statement, with the statement itself. -/
@[simp] def stmtNodes : Stmt → List Node
  | .empty => [.stmt .empty]
  | .block pos body => .stmt (.block pos body) :: bodyNodes body
  | .expr pos doc e => .stmt (.expr pos doc e) :: exprNodes e
  | .conditional pos doc condition yes elseIfs no =>
    .stmt (.conditional pos doc condition yes elseIfs no) ::
      (exprNodes condition ++ stmtNodes yes ++ elseIfNodes elseIfs ++ stmtNodes no)
  | .whileLoop pos condition body =>
    .stmt (.whileLoop pos condition body) :: (exprNodes condition ++ stmtNodes body)
  | .doLoop pos body condition =>
    .stmt (.doLoop pos body condition) :: (stmtNodes body ++ exprNodes condition)
  | .forLoop pos start condition step body =>
    .stmt (.forLoop pos start condition step body) ::
      (exprsNodes start ++ exprsNodes condition ++ exprsNodes step ++ stmtNodes body)
  | .foreachLoop pos iterable key value body =>
    .stmt (.foreachLoop pos iterable key value body) ::
      (exprNodes iterable ++ valueNodes key ++ exprNodes value ++ stmtNodes body)
  | .switch pos subject cases =>
    .stmt (.switch pos subject cases) :: (exprNodes subject ++ caseNodes cases)
  | .guarded pos bodyPos body catches finalizer =>
    .stmt (.guarded pos bodyPos body catches finalizer) ::
      (bodyNodes body ++ catchNodes catches ++ stmtNodes finalizer)
  | .returns pos doc value => .stmt (.returns pos doc value) :: valueNodes value
  | .breaks pos => [.stmt (.breaks pos)]
  | .continues pos => [.stmt (.continues pos)]
  | .throws pos value => .stmt (.throws pos value) :: exprNodes value
  | .echo pos values => .stmt (.echo pos values) :: exprsNodes values
  | .globals pos names => [.stmt (.globals pos names)]
  | .statics pos vars => .stmt (.statics pos vars) :: staticNodes vars
  | .includes pos path => .stmt (.includes pos path) :: exprNodes path

@[simp] def bodyNodes : List Stmt → List Node
  | [] => []
  | stmt :: rest => stmtNodes stmt ++ bodyNodes rest

@[simp] def elseIfNodes : List ElseIf → List Node
  | [] => []
  | .mk _ condition body :: rest => exprNodes condition ++ stmtNodes body ++ elseIfNodes rest

@[simp] def caseNodes : List Case → List Node
  | [] => []
  | .test _ value body :: rest => exprNodes value ++ bodyNodes body ++ caseNodes rest
  | .fallback _ body :: rest => bodyNodes body ++ caseNodes rest

@[simp] def catchNodes : List Catch → List Node
  | [] => []
  | .mk _ _ _ _ body :: rest => bodyNodes body ++ catchNodes rest

@[simp] def staticNodes : List StaticVar → List Node
  | [] => []
  | .mk _ defaultValue :: rest => valueNodes defaultValue ++ staticNodes rest

end

def methodNodes (m : Method) : List Node :=
  .method m :: (paramNodes m.params ++ bodyNodes ((m.body.map Body.stmts).getD []))

def propertyNodes (p : Property) : List Node := .property p :: valueNodes p.defaultValue

def constantNodes (c : Constant) : List Node := .constant c :: exprNodes c.value

def functionNodes (f : Function) : List Node :=
  .function f :: (paramNodes f.params ++ bodyNodes f.body.stmts)

def classNodes (c : ClassLike) : List Node :=
  .classLike c :: (c.methods.flatMap methodNodes ++ c.properties.flatMap propertyNodes ++
    c.constants.flatMap constantNodes)

def topNodes : Top → List Node
  | .spaceDecl _ _ => []
  | .useDecl _ _ => []
  | .classDecl decl => classNodes decl
  | .functionDecl decl => functionNodes decl
  | .constantDecl decl => constantNodes decl
  | .stmt s => stmtNodes s

def File.nodes (f : File) : List Node := f.tops.flatMap topNodes

end PhpTypes.Source

/-- The nodes of all declarations of an index. -/
def PhpTypes.Index.nodes (i : Index) : List Source.Node :=
  i.classes.values.flatMap Source.classNodes ++ i.functions.values.flatMap Source.functionNodes ++
    i.constants.values.flatMap Source.constantNodes
