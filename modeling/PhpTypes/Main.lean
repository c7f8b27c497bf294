import PhpTypes.CommandLine.Run

/-!
The command line program.
-/

namespace PhpTypes.CommandLine

def usage : String :=
  "usage: phptypes [--class NAME] [--method NAME] [--schema] [--natives STUB] [--debug] FILE..."

/-- What there is under a path. A directory can be opened but not read; a path through a file cannot
be opened. -/
def readPath (path : String) : IO FileContent := do
  try
    return .bytes (← IO.FS.readBinFile path).toList
  catch e =>
    match e with
    | .noFileOrDirectory .. => return .missing
    | .inappropriateType (some _) _ _ => return .belowFile
    | _ => return .directory

/-- Reads all files that the arguments name, runs the command and prints its outcome. -/
def program (args : List String) : IO UInt32 := do
  let paths := match parseArgs args with
    | .ok o => (o.natives ++ o.files).map normalizePath
    | .error _ => []
  let contents ← paths.mapM fun p => do return (p, ← readPath p)
  match run (fun p => (contents.lookup p).getD .missing) args with
  | .refused =>
    IO.eprintln usage
    return 2
  | .helped =>
    IO.println usage
    return 0
  | .finished code output errors =>
    IO.print output
    IO.eprint errors
    return code
  | .failed cause output =>
    IO.print output
    IO.eprintln (match cause with
      | .stopped (.malformedTag _) => "malformed tag in a doc comment"
      | .stopped (.fault f) => f.text
      | .directory => "not a file")
    return 1

end PhpTypes.CommandLine

def main (args : List String) : IO UInt32 := PhpTypes.CommandLine.program args
