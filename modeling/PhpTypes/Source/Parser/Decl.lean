import PhpTypes.Source.Parser.Stmt

/-!
The rules for declarations and for files. The classes that a class names are kept as they are
written. A declaration does not know yet where it stands: its context is that of no namespace until
the file is added to an index.
-/

namespace PhpTypes.Source.Parser

def constItem (r : Rules) (mark : Mark) : Parser Constant := do
  let name ← memberName
  let _ ← symbol .assign
  return ⟨mark.pos, r.docs.at? mark.offset, name, ← r.expr⟩

/-- Constants after the keyword, which all stand at the start of their declaration. -/
def constItems (r : Rules) (mark : Mark) : Parser (List Constant) := do
  let _ ← keyword .constKw
  let items ← separated (constItem r mark) .comma
  let _ ← symbol .semicolon
  return items

def method (r : Rules) (mark : Mark) (mods : List Token) : Parser Method := do
  let _ ← keyword .functionKw
  let _ ← acceptsSymbol .amp
  let name ← memberName
  let ps ← params r
  let hint ← returnHint
  let bodyPos := (← here).pos
  let body ← do
    if ← acceptsSymbol .semicolon then pure none
    else pure (some ⟨bodyPos, ← block r⟩)
  return ⟨mark.pos, r.docs.at? mark.offset, name, ps, hint, body, mods.map modifierText⟩

def properties (r : Rules) (mark : Mark) (mods : List Token) : Parser (List Property) := do
  let (texts, hint) ← hintAfter mods
  if texts.isEmpty then failure
  let items ← separated (do
    let name ← variableName
    return (name, ← afterSymbol .assign r.expr)) .comma
  let _ ← symbol .semicolon
  return items.map fun (name, value) =>
    ⟨mark.pos, r.docs.at? mark.offset, name, hint, value, texts⟩

/-- A declaration in the body of a class. -/
inductive Member where
  | methodDecl (m : Method)
  | propertyDecls (ps : List Property)
  | constantDecls (cs : List Constant)
  | traitUse (names : List String)

def member (r : Rules) : Parser Member := do
  let mark ← here
  if ← acceptsKeyword .useKw then
    let names ← nameList
    let _ ← symbol .semicolon
    return .traitUse names
  let mods ← modifiers
  match ← look with
  | some (.keyword .functionKw) => return .methodDecl (← method r mark mods)
  | some (.keyword .constKw) => return .constantDecls (← constItems r mark)
  | _ => return .propertyDecls (← properties r mark mods)

/-- Adds a member to its class. -/
def addMember (c : ClassLike) : Member → ClassLike
  | .methodDecl m => { c with methods := c.methods ++ [m] }
  | .propertyDecls ps => { c with properties := c.properties ++ ps }
  | .constantDecls cs => { c with constants := c.constants ++ cs }
  | .traitUse names => { c with traits := c.traits ++ names }

def classBody (r : Rules) (c : ClassLike) : Parser ClassLike := do
  let _ ← symbol .lbrace
  let members ← many (member r)
  let _ ← symbol .rbrace
  return members.foldl addMember c

def emptyClass (r : Rules) (mark : Mark) (kind : ClassKind) (name : String) : ClassLike :=
  .bare mark.pos (r.docs.at? mark.offset) kind name

def ordinaryClass (r : Rules) (mark : Mark) (mods : List Token) : Parser ClassLike := do
  let _ ← keyword .classKw
  let className ← name
  let parent ← afterKeyword .extendsKw name
  let interfaces ← afterKeyword .implementsKw nameList
  classBody r
    { emptyClass r mark .ordinary className with
      parent := parent
      interfaces := interfaces.getD []
      modifiers := mods.map modifierText }

def traitClass (r : Rules) : Parser ClassLike := do
  let mark ← here
  let _ ← keyword .traitKw
  let className ← name
  classBody r (emptyClass r mark .trait className)

def interfaceClass (r : Rules) : Parser ClassLike := do
  let mark ← here
  let _ ← keyword .interfaceKw
  let className ← name
  let parents ← afterKeyword .extendsKw nameList
  classBody r { emptyClass r mark .interface className with interfaces := parents.getD [] }

def function (r : Rules) : Parser Function := do
  let mark ← here
  let _ ← keyword .functionKw
  let _ ← acceptsSymbol .amp
  let functionName ← name
  let ps ← params r
  let hint ← returnHint
  let bodyPos := (← here).pos
  let body ← block r
  return ⟨mark.pos, r.docs.at? mark.offset, functionName, ps, hint, ⟨bodyPos, body⟩, .global⟩

/-- An imported name and its alias, which by default is the last part of the name. -/
def useItem : Parser (String × String) := do
  let target := plainName (← name)
  return (target, (← afterKeyword .asKw name).getD (lastPart target))

def isClassModifier : Terminal → Bool
  | .keyword k => [.abstractKw, .finalKw, .readonlyKw].contains k
  | _ => false

/-- What starts with modifiers at the top level: a class or constants. -/
def modified (r : Rules) : Parser (List Top) := do
  let mark ← here
  let mods ← modifiers
  match ← look with
  | some (.keyword .constKw) => return (← constItems r mark).map .constantDecl
  | _ =>
    if mods.all fun t => isClassModifier t.terminal then
      return [.classDecl (← ordinaryClass r mark mods)]
    else failure

def statement (r : Rules) : Parser (List Top) := fun ts =>
  (r.stmt ts).head?.map fun (s, rest) => (if s.isEmpty then [] else [.stmt s], rest)

/-- Whether the modifiers that come next belong to a class or a constant. -/
def startsModified : Parser Bool := fun ts =>
  match ts.dropWhile fun t => isModifier t.terminal with
  | t :: _ => some (t.terminal == .keyword .classKw || t.terminal == .keyword .constKw, ts)
  | [] => some (false, ts)

/-- One declaration or statement at the top level. -/
def top (r : Rules) : Parser (List Top) := do
  match ← look with
  | some (.keyword .namespaceKw) =>
    let t ← keyword .namespaceKw
    let spaceName ← name
    let _ ← symbol .semicolon
    return [.spaceDecl t.pos (plainName spaceName)]
  | some (.keyword .useKw) =>
    let t ← keyword .useKw
    let items ← separated useItem .comma
    let _ ← symbol .semicolon
    return [.useDecl t.pos items]
  | some (.keyword .traitKw) => return [.classDecl (← traitClass r)]
  | some (.keyword .interfaceKw) => return [.classDecl (← interfaceClass r)]
  | some (.keyword .functionKw) =>
    (do return [.functionDecl (← function r)]) <|> statement r
  | _ => if ← startsModified then modified r else statement r

def file (r : Rules) : Parser File := do
  return ⟨(← many (top r)).flatten⟩

/-- The tree of a file's tokens, of which none is left over. Nesting is bounded by the number of
tokens, as every second storey takes one. -/
def parseTokens (docs : DocComments) (ts : List Token) : Option File :=
  (file (rules docs (2 * ts.length + 2))).complete ts

end PhpTypes.Source.Parser
