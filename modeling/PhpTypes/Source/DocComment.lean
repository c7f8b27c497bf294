import PhpTypes.Source.Lexer

/-!
Doc comments. A doc comment belongs to the place of the first character after it that is no white
space; what starts at that place carries it.
-/

namespace PhpTypes.Source

/-- Doc comments by the offset that each belongs to. -/
structure DocComments where
  entries : List (Nat × String)

def DocComments.at? (d : DocComments) (offset : Nat) : Option String := d.entries.lookup offset

/-- The length of a doc comment at the start of a text, or zero. -/
def docLength : List Char → Nat
  | '/' :: '*' :: '*' :: cs =>
    match commentBodyLength cs with
    | some n => n + 3
    | none => 0
  | _ => 0

/-- The doc comments of the text from an offset on. The comment being read ends after `skip` more
characters. -/
def docsFrom (offset skip : Nat) : List Char → List (Nat × String)
  | [] => []
  | c :: cs =>
    match skip with
    | skip + 1 => docsFrom (offset + 1) skip cs
    | 0 =>
      let n := docLength (c :: cs)
      if n == 0 then docsFrom (offset + 1) 0 cs
      else
        let after := (c :: cs).drop n
        (offset + n + runLength Text.isBlank after, String.ofList ((c :: cs).take n)) ::
          docsFrom (offset + 1) (n - 1) cs

def docComments (source : List Char) : DocComments := ⟨docsFrom 0 0 source⟩

end PhpTypes.Source
