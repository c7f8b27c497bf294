import PhpTypes.Inference.Memory

/-!
Looking up classes and their members. The members of a class come from its lineage: the class, then
the traits, the parent and the interfaces of each class met, nearest first.
-/

namespace PhpTypes.Inference

open Source

def classKey (c : ClassLike) : String := Text.lower c.fullName

/-- The classes that a class names, as far as they are declared. -/
def relatives (index : Index) (c : ClassLike) : List ClassLike :=
  (c.traits ++ c.parent.toList ++ c.interfaces).filterMap index.resolve

def without (key : String) (keys : List String) : List String := keys.filter (· ≠ key)

private theorem length_without_lt {key : String} {keys : List String} (h : key ∈ keys) :
    (without key keys).length < keys.length :=
  List.length_filter_lt_length_iff_exists.mpr ⟨key, h, by simp⟩

/-- The classes of a queue and what they lead to, breadth first, as far as their keys remain. -/
def lineageFrom (index : Index) (remaining : List String) (queue : List ClassLike) :
    List ClassLike :=
  match queue with
  | [] => []
  | c :: rest =>
    if h : classKey c ∈ remaining then
      have := length_without_lt h
      c :: lineageFrom index (without (classKey c) remaining) (rest ++ relatives index c)
    else lineageFrom index remaining rest
termination_by (remaining.length, queue.length)
decreasing_by
  · exact Prod.Lex.left _ _ this
  · exact Prod.Lex.right _ (by simp)

/-- The class and all classes that it gets members from, each once. -/
def lineage (index : Index) (c : ClassLike) : List ClassLike :=
  lineageFrom index ((c :: index.classes.values).map classKey) [c]

def findIn (c : ClassLike) (method : String) : Option Method :=
  c.methods.find? fun m => Text.lower m.name == Text.lower method

/-- The first declaration of a method along the lineage of a class, and its owner. -/
def findMethod (index : Index) (c : ClassLike) (method : String) : Option (ClassLike × Method) :=
  (lineage index c).findSome? fun owner => (findIn owner method).map fun m => (owner, m)

def parentOf (index : Index) (c : ClassLike) : Option ClassLike := c.parent.bind index.resolve

/-- Makes the record of a class when the class is first met. -/
def Memory.meet (m : Memory) (decl : ClassLike) : Memory :=
  if m.records.contains (classKey decl) then m
  else { m with records := m.records.set (classKey decl) ⟨decl, .empty⟩ }

/-- The record of a declared class. -/
def recordOf (decl : ClassLike) : Analysis Record := do
  modify fun m => m.meet decl
  return ((← get).records.get? (classKey decl)).getD ⟨decl, .empty⟩

/-- The record of the class of a name. -/
def classRecord (p : Program) (name : String) : Analysis (Option Record) := do
  match p.index.resolve name with
  | none => return none
  | some decl => return some (← recordOf decl)

/-- The declaration that a class is recorded with. -/
def classDecl (p : Program) (name : String) : Analysis (Option ClassLike) := do
  return (← classRecord p name).map Record.decl

/-- The declaration of the class of an object that is known. -/
def recordedClass? (p : Program) (declared : Option String) : Analysis (Option ClassLike) := do
  match declared with
  | none => return none
  | some name =>
    match (← get).records.get? (Text.lower name) with
    | some record => return some record.decl
    | none =>
      match p.index.classes.get? (nameKey name) with
      | none => return none
      | some decl => return some (← recordOf decl).decl

/-- The type of the instances of a class that is known. -/
def instanceType (c : ClassLike) : Ty := .instanceOf c.fullName (some c.fullName)

/-- The type of the instances of a class given by its full name. -/
def objectType (p : Program) (name : String) : Analysis Ty := do
  match ← classDecl p name with
  | some c => return instanceType c
  | none => return .instanceOf name none

/-- The type of the instances of a class named in some context. The name is taken as a full name if
it names no class in its context but does so by itself. -/
def resolveName (p : Program) (c : Context) (name : String) : Analysis Ty :=
  let qualified := c.qualify name
  if (p.index.resolve qualified).isNone && (p.index.resolve name).isSome then objectType p name
  else objectType p qualified

/-- How doc comments and type hints are read in some context. -/
def readerIn (p : Program) (c : Context) (selfClass : Option String) : Doc.Reader Analysis :=
  ⟨selfClass, resolveName p c⟩

/-- The type that a declared property has by its doc comment, or else by its hint. -/
def declaredProperty (r : Doc.Reader Analysis) (property : Property) : Analysis Ty := do
  match (← readDoc property.doc).varTag? (some property.name) with
  | some tag =>
    if tag.typeExpr.isEmpty then Doc.typeOfHint r property.hint
    else Doc.typeOfText r tag.typeExpr
  | none => Doc.typeOfHint r property.hint

/-- The type of a property that a class itself has, declared or by a tag of its doc comment. -/
def ownProperty? (p : Program) (c : Context) (owner : ClassLike) (name : String) :
    Analysis (Option Ty) := do
  let reader := readerIn p c (some owner.fullName)
  match owner.properties.find? fun d => d.name == name with
  | some property => return some (← declaredProperty reader property)
  | none =>
    match (← readDoc owner.doc).properties.find? fun t => t.variableName == some name with
    | some tag => return some (← Doc.typeOfText reader tag.typeExpr)
    | none => return none

def propertyAlong (p : Program) (c : Context) (name : String) : List ClassLike → Analysis Ty
  | [] => return .unknown
  | owner :: rest => do
    match ← ownProperty? p c owner name with
    | some t => return t
    | none => propertyAlong p c name rest

/-- The type of a property of a class. Types are read in the context of the class that is asked. -/
def propertyType (p : Program) (className property : String) : Analysis Ty := do
  match ← classDecl p className with
  | none => return .unknown
  | some c => propertyAlong p c.context property (lineage p.index c)

/-- The type of a property of an object; nothing is known of an object whose class is not
declared. -/
def objectProperty (p : Program) (object : Ty) (property : String) : Analysis Ty :=
  match object with
  | .object _ (some declared) => propertyType p declared property
  | _ => return .unknown

end PhpTypes.Inference
