import PhpTypes.Text.Digit

/-!
The arguments of the command line: options, which may be shortened as long as they stay unambiguous,
and the files to analyse, which stand together.
-/

namespace PhpTypes.CommandLine

inductive Flag where
  | help
  | className
  | method
  | schema
  | natives
  | debug
deriving DecidableEq

def flagNames : List (String × Flag) :=
  [("-h", .help), ("--help", .help), ("--class", .className), ("--method", .method),
   ("--schema", .schema), ("--natives", .natives), ("--debug", .debug)]

def Flag.takesValue : Flag → Bool
  | .className => true
  | .method => true
  | .natives => true
  | _ => false

/-- An argument by its form. -/
inductive Arg where
  | value (text : String)
  | separator
  | option (flag : Flag) (value : Option String)
  | unknown

/-- Why arguments are not accepted, or that help is wanted instead. -/
inductive Refusal where
  | invalid
  | help

structure Options where
  files : List String
  className : String
  method : String
  schema : Bool
  natives : List String
  debug : Bool

def Options.empty : Options := ⟨[], "", "", false, [], false⟩

/-- An option and the value written into the same argument, if there is an equals sign. -/
def splitValue (text : String) : String × Option String :=
  let cs := text.toList
  let name := cs.takeWhile (· != '=')
  match cs.drop name.length with
  | [] => (text, none)
  | _ :: value => (String.ofList name, some (String.ofList value))

/-- A negative number is no option. -/
def isNegativeNumber : List Char → Bool
  | '-' :: cs =>
    let whole := cs.takeWhile Text.isDigit
    match cs.drop whole.length with
    | [] => !whole.isEmpty
    | '.' :: fraction => !fraction.isEmpty && fraction.all Text.isDigit
    | _ => false
  | _ => false

/-- The options that an abbreviation can stand for. -/
def completions (name : String) : List Flag :=
  (flagNames.filter fun f => name.toList.isPrefixOf f.1.toList).map Prod.snd

/-- What an argument is that starts with a hyphen and is no option by its full name. -/
def classifyOther (text : String) : Except Refusal Arg :=
  let cs := text.toList
  let free : Arg := if isNegativeNumber cs || cs.contains ' ' then .value text else .unknown
  match cs with
  | '-' :: '-' :: _ =>
    let (name, value) := splitValue text
    match completions name with
    | [flag] => .ok (.option flag value)
    | [] => .ok free
    | _ => .error .invalid
  | '-' :: 'h' :: rest => .ok (.option .help (some (String.ofList rest)))
  | _ => .ok free

def classify (text : String) : Except Refusal Arg :=
  if text.toList.head? != some '-' || text == "-" then .ok (.value text)
  else
    match flagNames.lookup text with
    | some flag => .ok (.option flag none)
    | none =>
      let (name, value) := splitValue text
      match flagNames.lookup name, value with
      | some flag, some v => .ok (.option flag (some v))
      | _, _ => classifyOther text

/-- After a separator every argument is a value. -/
def classifyAll : List String → Except Refusal (List Arg)
  | [] => .ok []
  | "--" :: rest => .ok (.separator :: rest.map .value)
  | text :: rest => do
    let first ← classify text
    return first :: (← classifyAll rest)

def setValue (o : Options) (flag : Flag) (value : String) : Options :=
  match flag with
  | .className => { o with className := value }
  | .method => { o with method := value }
  | .natives => { o with natives := o.natives ++ [value] }
  | _ => o

def raise (o : Options) : Flag → Except Refusal Options
  | .help => .error .help
  | .schema => .ok { o with schema := true }
  | .debug => .ok { o with debug := true }
  | _ => .ok o

/-- Reads arguments one after the other. While `inFiles` is set, values go on the list of files.
Options that do not exist and files that do not follow one another are refused in the end, unless
help is asked for after them. -/
def readArgs (o : Options) (inFiles : Bool) : List Arg → Except Refusal Options
  | [] => .ok o
  | .unknown :: rest => do
    let _ ← readArgs o false rest
    .error .invalid
  | .option flag (some value) :: rest =>
    if flag.takesValue then readArgs (setValue o flag value) false rest else .error .invalid
  | .option flag none :: .value text :: rest =>
    if flag.takesValue then readArgs (setValue o flag text) false rest
    else do
      let o ← raise o flag
      readArgs o false (.value text :: rest)
  | .option flag none :: rest =>
    if flag.takesValue then .error .invalid
    else do
      let o ← raise o flag
      readArgs o false rest
  | .separator :: rest =>
    if inFiles || (o.files.isEmpty && !rest.isEmpty) then readArgs o true rest
    else .error .invalid
  | .value text :: rest =>
    if inFiles || o.files.isEmpty then readArgs { o with files := o.files ++ [text] } true rest
    else do
      let _ ← readArgs o false rest
      .error .invalid

/-- The options that the arguments ask for; at least one file has to be named. -/
def parseArgs (args : List String) : Except Refusal Options := do
  let o ← readArgs .empty false (← classifyAll args)
  if o.files.isEmpty then .error .invalid else .ok o

end PhpTypes.CommandLine
