import PhpTypes.Index.Classes
import PhpTypes.Log

/-!
The index of all declarations. A class or function that is declared again takes the place of the
earlier one.
-/

namespace PhpTypes

open Source

/-- The namespace and aliases in force after a declaration. -/
def contextAfter (c : Context) : Top → Context
  | .spaceDecl _ name => ⟨name, .empty⟩
  | .useDecl _ items => ⟨c.spaceName, c.uses.setAll (items.map fun i => (Text.lower i.2, i.1))⟩
  | _ => c

/-- A class at its place: the classes that it names have their full names. -/
def placeClass (c : Context) (decl : ClassLike) : ClassLike :=
  { decl with
    parent := decl.parent.map c.qualify
    interfaces := decl.interfaces.map c.qualify
    traits := decl.traits.map c.qualify
    context := c }

def placeTop (c : Context) : Top → Top
  | .classDecl decl => .classDecl (placeClass c decl)
  | .functionDecl decl => .functionDecl { decl with context := c }
  | t => t

def placeTops (c : Context) : List Top → List Top
  | [] => []
  | t :: ts => placeTop c t :: placeTops (contextAfter c t) ts

/-- The file with every declaration at its place. -/
def Source.File.placed (f : File) : File := ⟨placeTops .global f.tops⟩

structure Index where
  tables : ClassTables
  functions : Dict Function
  constants : Dict Constant
  inStep : tables.InStep

namespace Index

def empty : Index := ⟨.empty, .empty, .empty, ClassTables.inStep_empty⟩

/-- The classes by their full names. -/
def classes (i : Index) : Dict ClassLike := i.tables.byFullName

def addClass (i : Index) (decl : ClassLike) : Index :=
  { i with
    tables := i.tables.register i.inStep decl
    inStep := ClassTables.inStep_register i.inStep decl }

def addTop (i : Index) : Top → Index
  | .classDecl decl => i.addClass decl
  | .functionDecl decl => { i with functions := i.functions.set (nameKey decl.fullName) decl }
  | .constantDecl decl => { i with constants := i.constants.set decl.name decl }
  | _ => i

/-- Adds the declarations of a file that are at their places. -/
def add (i : Index) (f : File) : Index := f.tops.foldl addTop i

/-- The classes of a file that were declared before, in the file or in the index. -/
def redeclared (i : Index) : List Top → List String
  | [] => []
  | t :: ts =>
    let rest := redeclared (i.addTop t) ts
    match t with
    | .classDecl decl =>
      if i.classes.contains decl.fullKey then decl.fullName :: rest else rest
    | _ => rest

def classCount (f : File) : Nat :=
  (f.tops.filter fun t => match t with
    | .classDecl _ => true
    | _ => false).length

/-- What there is to tell about adding a file. -/
def addEvents (i : Index) (f : File) : List Event :=
  (i.redeclared f.tops).map .redeclared ++
    [.indexed (classCount f) (f.tops.foldl contextAfter .global).spaceName]

/-- The only element of a list. -/
def only? {α : Type} : List α → Option α
  | [a] => some a
  | _ => none

/-- The class of a full name, or else the only class whose own name is the last part of it. -/
def resolve (i : Index) (name : String) : Option ClassLike :=
  if name.isEmpty then none
  else
    let key := nameKey name
    match i.classes.get? key with
    | some decl => some decl
    | none => only? (listedAs i.tables.byOwnName (lastPart key))

/-- The function of a full name, or else the global function of its last part, or else the only
function with that as its own name. -/
def resolveFunction (i : Index) (name : String) : Option Function :=
  let key := nameKey name
  match i.functions.get? key with
  | some decl => some decl
  | none =>
    match i.functions.get? (lastPart key) with
    | some decl => some decl
    | none => only? (i.functions.values.filter fun f => Text.lower f.name == lastPart key)

/-- Constants are known by the last part of their name, and case counts. -/
def resolveConstant (i : Index) (name : String) : Option Constant :=
  i.constants.get? (lastPart name)

def kindName : ClassKind → String
  | .ordinary => "class"
  | .trait => "trait"
  | .interface => "interface"

def classLines (decl : ClassLike) : List String :=
  ("[" ++ kindName decl.kind ++ "] " ++ decl.fullName ++
      match decl.parent with
      | some p => " extends " ++ p
      | none => "") ::
    decl.methods.map fun m => "  " ++ m.name ++ "()"

/-- A list of all declarations. -/
def dump (i : Index) : String :=
  "\n".intercalate (i.classes.values.flatMap classLines ++
    i.functions.values.map fun f => "[function] " ++ f.fullName ++ "()")

end Index

end PhpTypes
