import PhpTypes.Source.Parse

/-!
Diagnostics: what an analysis has to say about its input. Errors keep a source from being analysed;
a warning tells where a type could not be inferred.
-/

namespace PhpTypes

open Source (Pos)

inductive Severity where
  | warning
  | error
deriving DecidableEq

def Severity.text : Severity → String
  | .warning => "warning"
  | .error => "error"

inductive DiagKind where
  | badSource
  | unresolvable
  | unsupported
  | badFile
  | internal
deriving DecidableEq

def DiagKind.text : DiagKind → String
  | .badSource => "SYNTAX"
  | .unresolvable => "UNRESOLVABLE_SYMBOL"
  | .unsupported => "UNSUPPORTED_CONSTRUCT"
  | .badFile => "IO"
  | .internal => "INTERNAL"

/-- Where a diagnostic points to. Lines and columns count from one, and what is not known is minus
one. -/
structure Place where
  line : Int
  column : Int

namespace Place

def unknown : Place := ⟨-1, -1⟩

/-- The place of a line and a column, of which zero means that it is not known. -/
def of (line column : Int) : Place :=
  if line = 0 then unknown else ⟨line, if column = 0 then -1 else column⟩

def ofPos (p : Pos) : Place := of p.line p.column

def text (p : Place) : String :=
  if 0 < p.line then toString p.line ++ ":" ++ toString p.column else "-"

end Place

structure Diag where
  severity : Severity
  kind : DiagKind
  message : String
  place : Place
  hint : String

namespace Diag

def error (kind : DiagKind) (message hint : String) : Diag :=
  ⟨.error, kind, message, .unknown, hint⟩

def warning (kind : DiagKind) (message : String) (place : Place) : Diag :=
  ⟨.warning, kind, message, place, ""⟩

def text (d : Diag) : String :=
  d.severity.text ++ " " ++ d.kind.text ++ " @" ++ d.place.text ++ ": " ++ d.message ++
    if d.hint.isEmpty then "" else "\n    " ++ d.hint

end Diag

/-- Diagnostics in the order in which they arose. -/
abbrev Diags := List Diag

namespace Diags

def withSeverity (ds : Diags) (s : Severity) : Diags := ds.filter fun d => d.severity == s

def errors (ds : Diags) : Diags := withSeverity ds .error

def warnings (ds : Diags) : Diags := withSeverity ds .warning

def ofKind (ds : Diags) (kind : DiagKind) : Diags := ds.filter fun d => d.kind == kind

def hasErrors (ds : Diags) : Bool := !(errors ds).isEmpty

def lines (ds : Diags) : String := "\n".intercalate (ds.map Diag.text)

def rule : String := String.ofList (List.replicate 40 '─')

/-- All diagnostics and their number. -/
def report (ds : Diags) : String :=
  if ds.isEmpty then "无诊断信息"
  else
    lines ds ++ "\n" ++ rule ++ "\n错误 " ++ toString (errors ds).length ++ " 条，警告 " ++
      toString (warnings ds).length ++ " 条"

/-- What to say when errors are not to be borne, if there is one. -/
def refusal? (ds : Diags) : Option String :=
  if hasErrors ds then
    some ("共 " ++ toString (errors ds).length ++ " 条错误：\n" ++ lines (errors ds))
  else none

end Diags

end PhpTypes
