import PhpTypes.Files
import PhpTypes.Inference.Request

/-!
The front end: sources go in, and declarations, diagnostics and a log of what happened come out.
Types are inferred over all declarations in a context of their own, which keeps what it has
resolved.
-/

namespace PhpTypes

open Source Inference

structure Frontend where
  natives : Natives
  index : Index
  diags : Diags
  log : List Event

/-- The context of an inference: the native functions at the time it was made, and its memory. -/
structure Session where
  natives : Natives
  memory : Memory

/-- What comes of one source. -/
structure Processed where
  file : Option File
  diags : Diags

def Processed.succeeded (p : Processed) : Bool := p.file.isSome && !p.diags.hasErrors

namespace Frontend

def empty : Frontend := ⟨.empty, .empty, [], []⟩

def loadCommon (f : Frontend) : Frontend :=
  { f with natives := Natives.addAll f.natives Natives.commonDeclared }

def loadDeclared (f : Frontend) (ds : List Natives.Declared) : Frontend :=
  { f with natives := Natives.addAll f.natives ds }

/-- Loads the functions that a text declares, and counts them. -/
def loadStub (f : Frontend) (path : String) (text : List Char) : Frontend × Nat :=
  let ds := Natives.declared text
  ({ f.loadDeclared ds with log := f.log ++ [.loadedNatives ds.length path] }, ds.length)

def unreadable (path reason : String) : String := "无法读取 " ++ path ++ ": " ++ reason

/-- A file of declarations that cannot be read leaves a warning. -/
def loadStubFile (f : Frontend) (path : String) (content : FileContent) : Frontend × Nat :=
  let fail (reason : String) : Frontend × Nat :=
    let message := unreadable path (reason ++ ": " ++ Text.quoted path)
    ({ f with diags := f.diags ++ [.warning .badFile message .unknown] }, 0)
  match content with
  | .missing => fail "[Errno 2] No such file or directory"
  | .belowFile => fail "[Errno 20] Not a directory"
  | .directory => fail "[Errno 21] Is a directory"
  | .bytes b => f.loadStub path (textOfBytes b)

/-- The diagnostic of a source that has no tree. -/
def rejection (name : String) (e : SyntaxError) : Diag :=
  .error .badSource (name ++ ": " ++ e.message) e.hint

/-- Parses a source and adds its declarations; a source with an error adds none. -/
def process (f : Frontend) (name source : String) : Frontend × Processed :=
  match parse source with
  | .error e =>
    let d := rejection name e
    ({ f with diags := f.diags ++ [d] }, ⟨none, [d]⟩)
  | .ok file =>
    let placed := file.placed
    let events := .parsed name file.tops.length :: f.index.addEvents placed
    ({ f with index := f.index.add placed, log := f.log ++ events }, ⟨some placed, []⟩)

/-- A file that is not there. -/
def processMissing (f : Frontend) (path : String) : Frontend × Processed :=
  let d := Diag.error .badFile ("文件不存在: " ++ path) ""
  ({ f with diags := f.diags ++ [d] }, ⟨none, [d]⟩)

/-- Processes a file, unless its path leads to a directory. -/
def processFile (f : Frontend) (path : String) : FileContent → Option (Frontend × Processed)
  | .bytes b => some (f.process path (String.ofList (textOfBytes b)))
  | .missing => some (f.processMissing path)
  | .belowFile => some (f.processMissing path)
  | .directory => none

def session (f : Frontend) : Session := ⟨f.natives, .empty⟩

/-- Carries out a request. What it reports is added to the diagnostics and the log. -/
def run {α : Type} (f : Frontend) (s : Session) (x : Program → Analysis α) :
    Except Escape α × Frontend × Session :=
  let memory := { s.memory with diags := f.diags, log := f.log }
  let o := (x ⟨f.index, s.natives⟩).run memory
  (o.result, { f with diags := o.memory.diags, log := o.memory.log }, { s with memory := o.memory })

end Frontend

end PhpTypes
