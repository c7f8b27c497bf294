import PhpTypes.Dict
import PhpTypes.Ty.Union

/-!
Scopes: the types of variables at one place of a program. After a branching each variable has the
union of its types at the ends of the branches in which it is bound.
-/

namespace PhpTypes

structure Scope where
  bindings : Dict Ty

namespace Scope

def empty : Scope := ⟨.empty⟩

def get? (s : Scope) (name : String) : Option Ty := s.bindings.get? name

/-- The type of a variable; one that is not bound has no known type. -/
def get (s : Scope) (name : String) : Ty := (s.get? name).getD .unknown

def has (s : Scope) (name : String) : Bool := s.bindings.contains name

def set (s : Scope) (name : String) (t : Ty) : Scope := ⟨s.bindings.set name t⟩

def unset (s : Scope) (name : String) : Scope := ⟨s.bindings.erase name⟩

def names (s : Scope) : List String := s.bindings.keys

def ofList (bindings : List (String × Ty)) : Scope := ⟨.ofList bindings⟩

/-- The types of a variable in those branches that bind it. -/
def candidates (branches : List Scope) (name : String) : List Ty :=
  branches.filterMap fun b => b.get? name

/-- Joins branches into a scope. -/
def merge (s : Scope) (branches : List Scope) : Scope :=
  (branches.flatMap names).eraseDups.foldl
    (fun s name => s.set name (Ty.unionOf (candidates branches name))) s

def text (s : Scope) : String :=
  "Scope(" ++
    ", ".intercalate (s.bindings.entries.map fun e => "$" ++ e.1 ++ ": " ++ e.2.text) ++ ")"

end Scope

end PhpTypes
