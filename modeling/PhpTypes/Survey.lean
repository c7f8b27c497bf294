import PhpTypes.Frontend

/-!
The types of all that is declared: every method of every class, and every function.
-/

namespace PhpTypes

open Source Inference

/-- A row of a survey: the name of what was asked for, and its type or what stopped the analysis. -/
structure SurveyRow where
  label : String
  type : Except Escape Ty

/-- A request of a survey, and the name of its row if it is cut short. -/
structure SurveyRequest where
  label : String
  rows : Program → Analysis (List (String × Ty))

namespace SurveyRequest

/-- All methods that a class itself declares, after an analysis of the class. -/
def ofClass (c : ClassLike) : SurveyRequest :=
  ⟨c.fullName, fun p => do
    let object ← Machine.standard.analyzeClass p c.fullName
    c.methods.mapM fun m => do
      return (c.fullName ++ "::" ++ m.name, ← Machine.standard.callType p object m.name)⟩

def ofFunction (f : Function) : SurveyRequest :=
  let label := f.fullName ++ "()"
  ⟨label, fun p => do
    return [(label, ← Machine.standard.request p fun r => r.functionType f.fullName)]⟩

end SurveyRequest

/-- Makes requests one after the other. -/
def surveyFrom (f : Frontend) (s : Session) : List SurveyRequest → List SurveyRow × Frontend
  | [] => ([], f)
  | r :: rest =>
    let (result, f, s) := f.run s r.rows
    let rows := match result with
      | .ok types => types.map fun e => ⟨e.1, .ok e.2⟩
      | .error e => [⟨r.label, .error e⟩]
    let (more, f) := surveyFrom f s rest
    (rows ++ more, f)

/-- The types of all declarations in the order in which they were first met, classes first. -/
def survey (f : Frontend) : List SurveyRow × Frontend :=
  surveyFrom f f.session
    (f.index.classes.values.map .ofClass ++ f.index.functions.values.map .ofFunction)

end PhpTypes
