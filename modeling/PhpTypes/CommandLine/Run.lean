import PhpTypes.CommandLine.Args
import PhpTypes.Frontend
import PhpTypes.OpenApi.FromType

/-!
The command: analyses files and prints the type of every method, or the schema of its response.
Diagnostics, and with them the log if it is wanted, are printed apart.
-/

namespace PhpTypes.CommandLine

open Source Inference

/-- What cuts the command short. -/
inductive Failure where
  | stopped (e : Escape)
  | directory

inductive Outcome where
  | refused
  | helped
  | finished (code : UInt32) (output errors : String)
  | failed (cause : Failure) (output : String)

/-- Reads all native functions that were asked for. -/
def loadNatives (read : String → FileContent) (o : Options) : Frontend :=
  (o.natives.map normalizePath).foldl (fun f path => (f.loadStubFile path (read path)).1)
    Frontend.empty.loadCommon

/-- Processes files in order, and tells whether all of them have a tree. -/
def processFiles (read : String → FileContent) :
    Frontend → Bool → List String → Except Failure (Frontend × Bool)
  | f, good, [] => .ok (f, good)
  | f, good, path :: rest =>
    match f.processFile path (read path) with
    | none => .error .directory
    | some (f, p) => processFiles read f (good && p.file.isSome) rest

def wants (o : Options) (m : Method) : Bool :=
  o.method.isEmpty || Text.lower m.name == Text.lower o.method

/-- The response of a type as a document. No schema is ever registered, as there are no
extensions. -/
def responseJson (t : Ty) : Json :=
  match ((OpenApi.toResponse [] t).run .empty).1 with
  | .ok r => r.json []
  | .error _ => .null

def methodOutput (o : Options) (c : ClassLike) (m : Method) (t : Ty) : String :=
  let label := c.fullName ++ "::" ++ m.name ++ ":"
  if o.schema then label ++ "\n" ++ (responseJson t).pretty 0 ++ "\n"
  else label ++ " " ++ t.text ++ "\n"

/-- The output for some methods of a class whose type is known. -/
def methodOutputs (o : Options) (p : Program) (c : ClassLike) (object : Ty) :
    List Method → Analysis String
  | [] => return ""
  | m :: rest => do
    let t ← Machine.standard.callType p object m.name
    return methodOutput o c m t ++ (← methodOutputs o p c object rest)

def classOutput (o : Options) (p : Program) (c : ClassLike) : Analysis String := do
  let object ← Machine.standard.analyzeClass p c.fullName
  methodOutputs o p c object (c.methods.filter (wants o))

/-- The output for classes, up to one whose analysis is cut short. -/
def classOutputs (o : Options) (f : Frontend) (s : Session) :
    List ClassLike → String × Option Escape × Frontend
  | [] => ("", none, f)
  | c :: rest =>
    match f.run s fun p => classOutput o p c with
    | (.error e, f, _) => ("", some e, f)
    | (.ok text, f, s) =>
      let (more, escape, f) := classOutputs o f s rest
      (text ++ more, escape, f)

/-- The classes to report on: the one that was asked for, or all that are no trait or interface. -/
def chosenClasses (o : Options) (index : Index) : List ClassLike :=
  if o.className.isEmpty then index.classes.values.filter fun c => c.kind == .ordinary
  else (index.resolve o.className).toList

/-- The lines of all events if they are wanted, and else those of warnings. -/
def logText (o : Options) (log : List Event) : String :=
  String.join ((log.filter fun e => o.debug || e.isWarning).map fun e => e.text ++ "\n")

def missingClassText (o : Options) (found : Bool) : String :=
  if found then "" else "找不到类 '" ++ o.className ++ "'\n"

def reportText (ds : Diags) : String := if ds.isEmpty then "" else ds.report ++ "\n"

/-- Runs the command on options that were accepted. -/
def runOptions (read : String → FileContent) (o : Options) : Outcome :=
  match processFiles read (loadNatives read o) true (o.files.map normalizePath) with
  | .error e => .failed e ""
  | .ok (f, good) =>
    let found := o.className.isEmpty || (f.index.resolve o.className).isSome
    match classOutputs o f f.session (chosenClasses o f.index) with
    | (output, some e, _) => .failed (.stopped e) output
    | (output, none, f) =>
      .finished (if good && found then 0 else 1) output
        (logText o f.log ++ missingClassText o found ++ reportText f.diags)

/-- Runs the command, given what there is under each normalized path. -/
def run (read : String → FileContent) (args : List String) : Outcome :=
  match parseArgs args with
  | .error .invalid => .refused
  | .error .help => .helped
  | .ok o => runOptions read o

end PhpTypes.CommandLine
