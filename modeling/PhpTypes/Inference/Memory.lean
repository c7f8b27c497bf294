import PhpTypes.Diagnostics
import PhpTypes.Doc.Block
import PhpTypes.Index.Basic
import PhpTypes.Native
import PhpTypes.Scope

/-!
The memory of an analysis. Every method and function has an entry, which is requested, in progress
and then resolved; a request that meets an entry in progress has found a cycle. Constants have no
entry, and those being evaluated are remembered.
-/

namespace PhpTypes.Inference

open Source

/-- What is analysed: all declarations and the native functions. -/
structure Program where
  index : Index
  natives : Natives

inductive EntryState where
  | unrequested
  | inProgress
  | resolved (t : Ty)

structure Entry where
  state : EntryState
  cyclic : Bool

def Entry.fresh : Entry := ⟨.unrequested, false⟩

/-- The type of an entry; before it is resolved nothing is known. -/
def Entry.type (e : Entry) : Ty :=
  match e.state with
  | .resolved t => t
  | _ => .unknown

/-- What is remembered of a class: its declaration when it was first met, and the entries of its
methods by lower-case name. -/
structure Record where
  decl : ClassLike
  methods : Dict Entry

/-- The place of an entry: a method of a recorded class, or a function. -/
inductive Slot where
  | method (recordKey methodKey : String)
  | function (key : String)
deriving DecidableEq

/-- A constant by the key of its class, if it has one, and by its name. -/
structure ConstantKey where
  owner : Option String
  name : String
deriving DecidableEq

/-- What is evaluated: the body of an entry, or a constant. -/
inductive Activity where
  | body (slot : Slot)
  | constant (key : ConstantKey)
deriving DecidableEq

structure Memory where
  records : Dict Record
  functions : Dict Entry
  /-- The constants being evaluated. -/
  active : List ConstantKey
  diags : Diags
  log : List Event

namespace Memory

def empty : Memory := ⟨.empty, .empty, [], [], []⟩

/-- Forgets all entries; what was reported stays. -/
def reset (m : Memory) : Memory := { m with records := .empty, functions := .empty, active := [] }

def entry (m : Memory) : Slot → Entry
  | .method r k => ((m.records.get? r).bind fun r => r.methods.get? k).getD .fresh
  | .function k => (m.functions.get? k).getD .fresh

def setEntry (m : Memory) (slot : Slot) (e : Entry) : Memory :=
  match slot with
  | .method r k =>
    match m.records.get? r with
    | some record =>
      { m with records := m.records.set r { record with methods := record.methods.set k e } }
    | none => m
  | .function k => { m with functions := m.functions.set k e }

/-- Remembers a constant as being evaluated. -/
def activate (m : Memory) (key : ConstantKey) : Memory := { m with active := key :: m.active }

def deactivate (m : Memory) (key : ConstantKey) : Memory :=
  { m with active := m.active.filter fun k => k ≠ key }

def report (m : Memory) (d : Diag) : Memory := { m with diags := m.diags ++ [d] }

def write (m : Memory) (e : Event) : Memory := { m with log := m.log ++ [e] }

end Memory

/-- An error of the analysis itself: it is nested too deeply, or it needs a value that there
is not. -/
structure Fault where
  text : String
deriving DecidableEq

/-- What stops an analysis: a doc comment with a malformed tag, or a fault. -/
inductive Escape where
  | malformedTag (t : Doc.MalformedTag)
  | fault (f : Fault)

/-- What an analysis does on its way. -/
inductive Step where
  /-- An entry is written. -/
  | stored (slot : Slot) (e : Entry)
  | started (a : Activity)
  | completed (a : Activity)
  /-- An evaluation is left because something inside it stops the analysis. -/
  | escaped (a : Activity)
  /-- Something is asked for that is under evaluation. -/
  | repeated (a : Activity)
  /-- A fault arises. -/
  | faulted (f : Fault)
  /-- A fault in the body of an entry is reported, and the entry does without its type. -/
  | failed (slot : Slot) (f : Fault)
  /-- A request is not answered because it is nested too deeply. -/
  | exhausted
  /-- A body goes on with these variables. -/
  | scoped (s : Scope)

/-- How an analysis ends: its result, the memory that it leaves, and the steps that it took. -/
structure Outcome (α : Type) where
  result : Except Escape α
  memory : Memory
  steps : List Step

/-- The outcome with what was done before it. -/
def Outcome.after {α : Type} (o : Outcome α) (steps : List Step) : Outcome α :=
  { o with steps := steps ++ o.steps }

/-- A computation on the memory, which can be cut short. -/
def Analysis (α : Type) : Type := Memory → Outcome α

namespace Analysis

variable {α β : Type}

def run (x : Analysis α) (m : Memory) : Outcome α := x m

/-- Goes on with the result of a computation, or with what stopped it. -/
def andThen (x : Analysis α) (next : α → Analysis β) (stopped : Escape → Analysis β) :
    Analysis β := fun m =>
  let o := x.run m
  match o.result with
  | .ok a => ((next a).run o.memory).after o.steps
  | .error e => ((stopped e).run o.memory).after o.steps

def fail (e : Escape) : Analysis α := fun m => ⟨.error e, m, []⟩

instance : Monad Analysis where
  pure a := fun m => ⟨.ok a, m, []⟩
  bind x f := x.andThen f fail

instance : MonadStateOf Memory Analysis where
  get := fun m => ⟨.ok m, m, []⟩
  set m := fun _ => ⟨.ok (), m, []⟩
  modifyGet f := fun m =>
    let r := f m
    ⟨.ok r.1, r.2, []⟩

instance : MonadExceptOf Escape Analysis where
  throw := fail
  tryCatch x handle := x.andThen pure handle

end Analysis

def take (s : Step) : Analysis Unit := fun m => ⟨.ok (), m, [s]⟩

def warn (d : Diag) : Analysis Unit := modify fun m => m.report d

def note (e : Event) : Analysis Unit := modify fun m => m.write e

def readDoc (comment : Option String) : Analysis Doc.Block :=
  match Doc.Block.parse comment with
  | .ok b => pure b
  | .error t => throw (.malformedTag t)

def getEntry (slot : Slot) : Analysis Entry := do return (← get).entry slot

def setEntry (slot : Slot) (e : Entry) : Analysis Unit := do
  modify fun m => m.setEntry slot e
  take (.stored slot e)

/-- Raises a fault, if there is one. -/
def raise? : Option Fault → Analysis Unit
  | none => return ()
  | some f => do
    take (.faulted f)
    throw (.fault f)

/-- Goes on after a fault, and with nothing else that stops an analysis. -/
def catchFault {α : Type} (x : Analysis α) : Analysis (Except Fault α) :=
  tryCatch (do return .ok (← x)) fun
    | .fault f => return .error f
    | e => throw e

/-- Evaluates something, and tells when that starts and how it ends. -/
def during {α : Type} (a : Activity) (x : Analysis α) : Analysis α := do
  take (.started a)
  let r ← tryCatch x fun e => do
    take (.escaped a)
    throw e
  take (.completed a)
  return r

end PhpTypes.Inference
