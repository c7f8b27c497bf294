import PhpTypes.Source.Name
import PhpTypes.Source.Tree

/-!
The full names of classes. A name in a source is read in the namespace and under the aliases that
are in force there.
-/

namespace PhpTypes

open Source (Context firstPart otherParts)

/-- Names that stand for a class without being its name. -/
def isRelativeName (name : String) : Bool :=
  ["self", "static", "parent"].contains (Text.lower name)

/-- The alias in force for the first part of a name. -/
def Source.Context.alias? (c : Context) (name : String) : Option String :=
  (c.uses.get? (Text.lower (firstPart name))).filter fun target => !target.isEmpty

/-- The full name that a name in a source stands for. Its first part may be an alias; otherwise it
belongs to the namespace, unless it starts with a separator. -/
def Source.Context.qualify (c : Context) (name : String) : String :=
  match name.toList with
  | '\\' :: rest => String.ofList rest
  | _ =>
    if isRelativeName name then name
    else
      match c.alias? name with
      | some target =>
        if (otherParts name).isEmpty then target else target ++ "\\" ++ otherParts name
      | none => c.qualified name

end PhpTypes
