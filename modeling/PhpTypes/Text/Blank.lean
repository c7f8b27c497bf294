import PhpTypes.Text.Ranges

/-!
White space: the characters that separate words, over all of Unicode, and trimming of it.
-/

namespace PhpTypes.Text

def blankRanges : List (Nat × Nat) :=
  [(9, 13), (28, 32), (133, 133), (160, 160), (5760, 5760), (8192, 8202), (8232, 8233),
   (8239, 8239), (8287, 8287), (12288, 12288)]

def isBlank (c : Char) : Bool := inRanges blankRanges c.toNat

def trimStart (cs : List Char) : List Char := cs.dropWhile isBlank

def trimEnd (cs : List Char) : List Char := (cs.reverse.dropWhile isBlank).reverse

def trim (cs : List Char) : List Char := trimEnd (trimStart cs)

/-- The text without white space at its two ends. -/
def trimmed (s : String) : String := String.ofList (trim s.toList)

end PhpTypes.Text
