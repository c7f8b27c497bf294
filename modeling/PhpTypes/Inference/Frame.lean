import PhpTypes.Inference.Lookup
import PhpTypes.Ty.Arithmetic
import PhpTypes.Ty.Shape

/-!
Evaluation of one body: the variables in scope and the types returned so far. An expression that
cannot be typed fails, and a failure is turned into a warning and the unknown type where the
expression is used.
-/

namespace PhpTypes.Inference

open Source

structure Frame where
  scope : Scope
  returns : List Ty

abbrev Eval := StateT Frame Analysis

/-- Why an expression has no type. -/
structure Failure where
  kind : DiagKind
  message : String
  pos : Pos

abbrev Attempt := ExceptT Failure Eval

def unresolvable {α : Type} (pos : Pos) (message : String) : Attempt α :=
  throw ⟨.unresolvable, message, pos⟩

def unsupported {α : Type} (pos : Pos) (message : String) : Attempt α :=
  throw ⟨.unsupported, message, pos⟩

def warnOf (f : Failure) : Eval Unit := warn (.warning f.kind f.message (.ofPos f.pos))

/-- The type of an attempt, which is unknown if it fails. -/
def settle (x : Attempt Ty) : Eval Ty := do
  match ← x.run with
  | .ok t => return t
  | .error f =>
    warnOf f
    note (.degraded f.message)
    return .unknown

/-- Carries out an attempt of which a failure leaves only a warning. -/
def tolerate (x : Attempt Unit) : Eval Unit := do
  match ← x.run with
  | .ok () => return ()
  | .error f => warnOf f

def getScope : Eval Scope := do return (← get).scope

def setScope (s : Scope) : Eval Unit := do
  modify fun f => { f with scope := s }
  take (.scoped s)

def bindVar (name : String) (t : Ty) : Eval Unit := do setScope ((← getScope).set name t)

def unbindVar (name : String) : Eval Unit := do setScope ((← getScope).unset name)

def addReturn (t : Ty) : Eval Unit := modify fun f => { f with returns := f.returns ++ [t] }

/-- Evaluates in another scope and gives that scope as it is afterwards. -/
def inScope {α : Type} (s : Scope) (x : Eval α) : Eval (α × Scope) := do
  let outer ← getScope
  setScope s
  let a ← x
  let inner ← getScope
  setScope outer
  return (a, inner)

/-- Evaluates the body of a closure, which has a frame of its own. -/
def inFrame {α : Type} (s : Scope) (x : Eval α) : Eval α := do
  let outer ← get
  set (⟨s, []⟩ : Frame)
  take (.scoped s)
  let a ← x
  set outer
  return a

/-- Runs a branch. Its scope survives unless no path leaves it. -/
def branchFrom (s : Scope) (x : Eval Bool) : Eval (List Scope) := do
  let (terminated, after) ← inScope s x
  return if terminated then [] else [after]

def branch (x : Eval Bool) : Eval (List Scope) := do branchFrom (← getScope) x

/-- Joins branches into the scope. -/
def join (branches : List Scope) : Eval Unit := do setScope ((← getScope).merge branches)

/-- Joins the branches that survive; if there is none, no path goes on. -/
def joinLive (live : List Scope) : Eval Bool := do
  if live.isEmpty then return true
  join live
  return false

/-- The body of a loop is run once or not at all. -/
def loopOnce (body : Eval Bool) : Eval Unit := do
  let before ← getScope
  let (_, after) ← inScope before body
  join [before, after]

/-- The type of a body: all that it returns, and null if its end can be reached. -/
def bodyType (terminated : Bool) : Eval Ty := do
  let returns := (← get).returns
  return Ty.unionOf (if terminated then returns else returns ++ [.null])

end PhpTypes.Inference
