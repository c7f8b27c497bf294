/-!
Parsers over a list of tokens. A parser gives a result and the tokens after it, or nothing.
-/

namespace PhpTypes

abbrev TokenParser (τ : Type) := StateT (List τ) Option

namespace TokenParser

variable {τ α β : Type}

/-- Takes the next token if it is wanted. -/
def oneOf (wanted : τ → Bool) : TokenParser τ τ := fun ts =>
  match ts with
  | t :: rest => if wanted t then some (t, rest) else none
  | [] => none

/-- Takes the next token if it is wanted, and says whether it did. -/
def accepts (wanted : τ → Bool) : TokenParser τ Bool := fun ts =>
  match ts with
  | t :: rest => if wanted t then some (true, rest) else some (false, ts)
  | [] => some (false, ts)

def manyFrom (p : TokenParser τ α) : Nat → List τ → List α × List τ
  | 0, ts => ([], ts)
  | fuel + 1, ts =>
    match p ts with
    | none => ([], ts)
    | some (a, rest) =>
      let (as, rest) := manyFrom p fuel rest
      (a :: as, rest)

/-- As many as possible, up to one for each token. -/
def many (p : TokenParser τ α) : TokenParser τ (List α) := fun ts =>
  some (manyFrom p ts.length ts)

/-- One or more, with a separator between two. -/
def separated (p : TokenParser τ α) (separator : TokenParser τ β) : TokenParser τ (List α) := do
  let first ← p
  let rest ← many (separator *> p)
  return first :: rest

/-- The result of a parser that leaves no token. -/
def complete (p : TokenParser τ α) (ts : List τ) : Option α :=
  match p ts with
  | some (a, []) => some a
  | _ => none

end TokenParser

end PhpTypes
