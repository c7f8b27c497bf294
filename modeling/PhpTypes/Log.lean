import PhpTypes.Text.Quoted

/-!
What happens during an analysis, for those who want to follow it.
-/

namespace PhpTypes

inductive Event where
  | parsed (source : String) (tops : Nat)
  | redeclared (className : String)
  | indexed (classes : Nat) (spaceName : String)
  | loadedNatives (count : Nat) (path : String)
  | resolving (label : String)
  | resolved (label : String) (result : String)
  | cycle (label : String)
  | failed (label : String) (fault : String)
  | degraded (message : String)

/-- The line that reports an event: a level, the part of the program that speaks, and a message. -/
def Event.text : Event → String
  | .parsed source tops =>
    "DEBUG phpinfer.pipeline: parsed " ++ source ++ ": " ++ toString tops ++
      " top-level statement(s)"
  | .redeclared className =>
    "DEBUG phpinfer.semantic.index: class " ++ className ++ " redeclared, keeping the latest"
  | .indexed classes spaceName =>
    "DEBUG phpinfer.semantic.index: indexed " ++ toString classes ++ " class(es), namespace=" ++
      Text.quoted spaceName
  | .loadedNatives count path =>
    "DEBUG phpinfer.semantic.natives: loaded " ++ toString count ++ " native functions from " ++
      path
  | .resolving label => "DEBUG phpinfer.semantic.infer: resolving " ++ label
  | .resolved label result =>
    "DEBUG phpinfer.semantic.infer: resolved " ++ label ++ ": " ++ result
  | .cycle label => "DEBUG phpinfer.semantic.infer: cycle detected at " ++ label
  | .failed label fault =>
    "WARNING phpinfer.semantic.infer: analysis of " ++ label ++ " failed: " ++ fault
  | .degraded message => "DEBUG phpinfer.semantic.analyzer: degraded to unknown: " ++ message

/-- Whether an event is told also to those who do not follow the analysis. -/
def Event.isWarning : Event → Bool
  | .failed .. => true
  | _ => false

end PhpTypes
