import PhpTypes.Text.Lower

/-!
Names of classes and functions as they stand in a source: words joined by separators.
-/

namespace PhpTypes.Source

/-- A name without the separators in front. -/
def plainName (name : String) : String := String.ofList (name.toList.dropWhile (· == '\\'))

/-- The part of a name after its last separator. -/
def lastPart (name : String) : String :=
  String.ofList (name.toList.reverse.takeWhile (· != '\\')).reverse

def firstPart (name : String) : String := String.ofList (name.toList.takeWhile (· != '\\'))

/-- What follows the first separator of a name. -/
def otherParts (name : String) : String :=
  String.ofList ((name.toList.dropWhile (· != '\\')).drop 1)

/-- What names are compared by: they ignore case and the separators in front. -/
def nameKey (name : String) : String := Text.lower (plainName name)

end PhpTypes.Source
