import PhpTypes.Proofs.Joins
import PhpTypes.Proofs.Postconditions

/-!
# Targets

The variables that an expression or a statement names as targets of its own, where the bodies of
closures do not count. The operations on frames, and all that is asked from outside, leave the types
of other variables as they are.
-/

namespace PhpTypes.Inference

open Source

/-! The targets of expressions and statements. -/

mutual

/-- The variables at the root of a target of an assignment. -/
def assigned : Expr → List String
  | .var _ name => [name]
  | .index _ container _ => assigned container
  | .append _ container => assigned container
  | .array _ elements => assignedElements elements
  | _ => []

def assignedElements : List Element → List String
  | [] => []
  | .keyed _ _ _ target :: rest => assigned target ++ assignedElements rest
  | .plain _ _ target :: rest => assigned target ++ assignedElements rest
  | .spread _ _ target :: rest => assigned target ++ assignedElements rest

end

/-- A variable that is stepped up or down. -/
def steppedVariable : Expr → List String
  | .var _ name => [name]
  | _ => []

mutual

def targets : Expr → List String
  | .var _ _ => []
  | .int _ _ => []
  | .float _ _ => []
  | .string _ _ _ => []
  | .bool _ _ => []
  | .null _ => []
  | .constant _ _ => []
  | .array _ elements => elementTargets elements
  | .binary _ _ left right => targets left ++ targets right
  | .unary _ _ operand => targets operand
  | .cast _ _ operand => targets operand
  | .step _ _ _ operand => steppedVariable operand ++ targets operand
  | .assign _ _ target value => assigned target ++ targets target ++ targets value
  | .ternary _ condition yes no => targets condition ++ targets yes ++ targets no
  | .elvis _ condition no => targets condition ++ targets no
  | .instanceOf _ operand _ => targets operand
  | .clone _ operand => targets operand
  | .methodCall _ receiver _ args _ => targets receiver ++ argTargets args
  | .property _ receiver _ _ => targets receiver
  | .index _ container key => targets container ++ targets key
  | .append _ container => targets container
  | .staticCall _ _ _ args => argTargets args
  | .staticProperty _ _ _ => []
  | .classConstant _ _ _ => []
  | .call _ name args =>
    match builtIn name with
    | .unset => variableNames args
    | _ => argTargets args
  | .dynamicCall _ _ args => argTargets args
  | .new _ _ args => argTargets args
  | .closure _ _ _ _ _ _ _ => []
  | .arrow _ _ _ _ _ => []
  | .select _ subject arms => targets subject ++ armTargets arms

def targetsOfAll : List Expr → List String
  | [] => []
  | e :: es => targets e ++ targetsOfAll es

def argTargets : List Argument → List String
  | [] => []
  | .mk _ _ _ value :: rest => targets value ++ argTargets rest

def elementTargets : List Element → List String
  | [] => []
  | .keyed _ _ key value :: rest => targets key ++ targets value ++ elementTargets rest
  | .plain _ _ value :: rest => targets value ++ elementTargets rest
  | .spread _ _ value :: rest => targets value ++ elementTargets rest

def armTargets : List Arm → List String
  | [] => []
  | .case _ conditions body :: rest => targetsOfAll conditions ++ targets body ++ armTargets rest
  | .fallback _ body :: rest => targets body ++ armTargets rest

end

/-- The variable to which a doc comment before an expression can give a type. -/
def documented (doc : Option String) (e : Expr) : List String :=
  if doc.isSome then (documentedVariable? e).toList else []

def staticTargets : List StaticVar → List String
  | [] => []
  | .mk name none :: rest => name :: staticTargets rest
  | .mk name (some e) :: rest => name :: targets e ++ staticTargets rest

def optionTargets : Option Expr → List String
  | none => []
  | some e => targets e

def keyTargets : Option Expr → List String
  | none => []
  | some e => assigned e ++ targets e

mutual

def stmtTargets : Stmt → List String
  | .empty => []
  | .block _ body => bodyTargets body
  | .expr _ doc e => documented doc e ++ targets e
  | .conditional _ _ condition yes elseIfs no =>
    targets condition ++ stmtTargets yes ++ elseIfTargets elseIfs ++ stmtTargets no
  | .whileLoop _ condition body => targets condition ++ stmtTargets body
  | .doLoop _ body condition => stmtTargets body ++ targets condition
  | .forLoop _ start condition step body =>
    targetsOfAll start ++ targetsOfAll condition ++ targetsOfAll step ++ stmtTargets body
  | .foreachLoop _ iterable key value body =>
    targets iterable ++ keyTargets key ++ assigned value ++ targets value ++ stmtTargets body
  | .switch _ subject cases => targets subject ++ caseTargets cases
  | .guarded _ _ body catches finalizer =>
    bodyTargets body ++ catchTargets catches ++ stmtTargets finalizer
  | .returns _ _ value => optionTargets value
  | .breaks _ => []
  | .continues _ => []
  | .throws _ value => targets value
  | .echo _ values => targetsOfAll values
  | .globals _ names => names
  | .statics _ vars => staticTargets vars
  | .includes _ path => targets path

def bodyTargets : List Stmt → List String
  | [] => []
  | stmt :: rest => stmtTargets stmt ++ bodyTargets rest

def elseIfTargets : List ElseIf → List String
  | [] => []
  | .mk _ condition body :: rest => targets condition ++ stmtTargets body ++ elseIfTargets rest

def caseTargets : List Case → List String
  | [] => []
  | .test _ value body :: rest => targets value ++ bodyTargets body ++ caseTargets rest
  | .fallback _ body :: rest => bodyTargets body ++ caseTargets rest

def catchTargets : List Catch → List String
  | [] => []
  | .mk _ _ var _ body :: rest => var.toList ++ bodyTargets body ++ catchTargets rest

end

/-! Evaluations that leave the type of a variable as it is. -/

variable {α β : Type} {x : String} {τ : Option Ty} {s : Site}

/-- If the variable is bound in this way before, then also afterwards; besides, the value is as
described. -/
def Leaves (x : String) (τ : Option Ty) (c : Eval α) (Q : α → Prop) : Prop :=
  ∀ f : Frame, f.scope.get? x = τ → Ensures True c f fun a g => g.scope.get? x = τ ∧ Q a

/-- The same for an attempt, whether or not it fails. -/
def LeavesTry (x : String) (τ : Option Ty) (c : Attempt α) (Q : α → Prop) : Prop :=
  Leaves x τ c.run fun r => ∀ a, r = .ok a → Q a

/-- The type, if there is one, is the union of its copies. -/
def Joinable (τ : Option Ty) : Prop := ∀ t, τ = some t → t.UnionNode ∧ t.Every Ty.NumberNode

theorem joinable_of_wellFormed {t : Ty} (h : t.WellFormed) : Joinable (some t) := by
  rintro _ ⟨⟩
  constructor
  · have hself := h.self
    cases t with
    | union ts => exact hself
    | _ => trivial
  · intro u hu
    have hpart := h u hu
    cases u with
    | float value =>
      cases value with
      | none => trivial
      | some x => exact hpart
    | _ => trivial

namespace Leaves

theorem pure {a : α} {Q : α → Prop} (ha : Q a) : Leaves x τ (Pure.pure a) Q :=
  fun _ hf => .pure ⟨hf, ha⟩

theorem bind {c : Eval α} {next : α → Eval β} {P : α → Prop} {Q : β → Prop} (hc : Leaves x τ c P)
    (hnext : ∀ a, P a → Leaves x τ (next a) Q) : Leaves x τ (c >>= next) Q := fun f hf =>
  (hc f hf).andThen fun a g ha => hnext a ha.2 g ha.1

theorem lift (c : Analysis α) : Leaves x τ (liftM c) fun _ => True :=
  fun _ hf => .lift fun _ => ⟨hf, trivial⟩

theorem getScope : Leaves x τ getScope fun scope => scope.get? x = τ :=
  fun _ hf => .getScope ⟨hf, hf⟩

theorem bindVar {name : String} (h : x ≠ name) (t : Ty) :
    Leaves x τ (bindVar name t) fun _ => True :=
  fun f hf => .bindVar ⟨(f.scope.get?_set_ne h t).trans hf, trivial⟩

theorem unbindVar {name : String} (h : x ≠ name) : Leaves x τ (unbindVar name) fun _ => True :=
  fun f hf => .unbindVar ⟨(f.scope.get?_unset_ne h).trans hf, trivial⟩

theorem addReturn (t : Ty) : Leaves x τ (addReturn t) fun _ => True :=
  fun _ hf => .addReturn ⟨hf, trivial⟩

theorem inScope {scope : Scope} (hscope : scope.get? x = τ) {c : Eval α} {Q : α → Prop}
    (hc : Leaves x τ c Q) :
    Leaves x τ (inScope scope c) fun r => Q r.1 ∧ r.2.get? x = τ := by
  intro f hf
  apply Ensures.inScope
  apply (hc _ hscope).weaken
  rintro a g ⟨hg, ha⟩
  exact ⟨hf, ha, hg⟩

/-- A closure has variables of its own. -/
theorem inFrame (scope : Scope) (c : Eval α) : Leaves x τ (inFrame scope c) fun _ => True := by
  intro f hf
  apply Ensures.inFrame
  apply (Ensures.any c).weaken
  intro _ _ _
  exact ⟨hf, trivial⟩

theorem branchFrom {scope : Scope} (hscope : scope.get? x = τ) {c : Eval Bool}
    (hc : Leaves x τ c fun _ => True) :
    Leaves x τ (branchFrom scope c) fun live => ∀ b ∈ live, b.get? x = τ := by
  intro f hf
  apply Ensures.branchFrom
  apply (hc _ hscope).weaken
  rintro terminated g ⟨hg, -⟩
  refine ⟨hf, ?_⟩
  cases terminated <;> simp [hg]

theorem branch {c : Eval Bool} (hc : Leaves x τ c fun _ => True) :
    Leaves x τ (branch c) fun live => ∀ b ∈ live, b.get? x = τ :=
  getScope.bind fun _ hscope => branchFrom hscope hc

theorem join (hτ : Joinable τ) {branches : List Scope} (hb : ∀ b ∈ branches, b.get? x = τ) :
    Leaves x τ (join branches) fun _ => True := by
  intro f hf
  apply Ensures.join
  subst hf
  exact ⟨Scope.get?_merge_of_forall_eq hb hτ, trivial⟩

theorem joinLive (hτ : Joinable τ) {live : List Scope} (hb : ∀ b ∈ live, b.get? x = τ) :
    Leaves x τ (joinLive live) fun _ => True := by
  cases live with
  | nil => exact pure trivial
  | cons b bs => exact (join hτ hb).bind fun _ _ => pure trivial

theorem loopOnce (hτ : Joinable τ) {body : Eval Bool} (hc : Leaves x τ body fun _ => True) :
    Leaves x τ (loopOnce body) fun _ => True := by
  refine getScope.bind fun before hbefore => ?_
  refine (inScope hbefore hc).bind fun r hr => ?_
  apply join hτ
  simpa using ⟨hbefore, hr.2⟩

theorem settle {c : Attempt Ty} (hc : LeavesTry x τ c fun _ => True) :
    Leaves x τ (settle c) fun _ => True := by
  intro f hf
  apply Ensures.settle
  apply (hc f hf).weaken
  rintro r g ⟨hg, -⟩
  cases r <;> exact ⟨hg, trivial⟩

theorem tolerate {c : Attempt Unit} (hc : LeavesTry x τ c fun _ => True) :
    Leaves x τ (tolerate c) fun _ => True := by
  intro f hf
  apply Ensures.tolerate
  apply (hc f hf).weaken
  rintro _ g ⟨hg, -⟩
  exact ⟨hg, trivial⟩

theorem forM {g : α → Eval PUnit} (as : List α)
    (hg : ∀ a ∈ as, Leaves x τ (g a) fun _ => True) : Leaves x τ (as.forM g) fun _ => True := by
  induction as with
  | nil => exact pure trivial
  | cons a as ih =>
    rw [List.forall_mem_cons] at hg
    simp only [List.forM]
    exact hg.1.bind fun _ _ => ih hg.2

end Leaves

namespace LeavesTry

theorem pure {a : α} {Q : α → Prop} (ha : Q a) : LeavesTry x τ (Pure.pure a) Q :=
  Leaves.pure (by rintro b ⟨⟩; exact ha)

theorem throw {e : Failure} {Q : α → Prop} : LeavesTry x τ (MonadExcept.throw e) Q :=
  Leaves.pure (by rintro b ⟨⟩)

theorem bind {c : Attempt α} {next : α → Attempt β} {P : α → Prop} {Q : β → Prop}
    (hc : LeavesTry x τ c P) (hnext : ∀ a, P a → LeavesTry x τ (next a) Q) :
    LeavesTry x τ (c >>= next) Q := by
  refine Leaves.bind hc fun r hr => ?_
  cases r with
  | ok a => exact hnext a (hr a rfl)
  | error e => exact Leaves.pure (by rintro b ⟨⟩)

theorem lift {c : Eval α} {Q : α → Prop} (hc : Leaves x τ c Q) : LeavesTry x τ (liftM c) Q :=
  Leaves.bind hc fun _ ha => Leaves.pure (by rintro b ⟨⟩; exact ha)

theorem forM {g : α → Attempt PUnit} (as : List α)
    (hg : ∀ a ∈ as, LeavesTry x τ (g a) fun _ => True) :
    LeavesTry x τ (as.forM g) fun _ => True := by
  induction as with
  | nil => exact pure trivial
  | cons a as ih =>
    rw [List.forall_mem_cons] at hg
    simp only [List.forM]
    exact hg.1.bind fun _ _ => ih hg.2

theorem analysis (c : Analysis α) : LeavesTry x τ (liftM c) fun _ => True :=
  lift (Leaves.lift c)

end LeavesTry

/-! What is asked from outside. -/

theorem variableType_leaves (name : String) :
    Leaves x τ (variableType s name) fun _ => True := by
  unfold variableType
  split
  · exact .pure trivial
  · exact Leaves.getScope.bind fun _ _ => .pure trivial

theorem constantFetch_leaves (pos : Pos) (name : String) :
    LeavesTry x τ (constantFetch s pos name) fun _ => True := by
  unfold constantFetch
  split
  · exact .pure trivial
  · refine (LeavesTry.analysis _).bind fun t _ => ?_
    cases t with
    | some t => exact .pure trivial
    | none => exact .throw

theorem castType_leaves (pos : Pos) (target : CastTarget) (t : Ty) :
    LeavesTry x τ (castType pos target t) fun _ => True := by
  cases target with
  | object => cases t <;> exact .pure trivial
  | other name => exact .throw
  | _ => exact .pure trivial

private theorem callOnObject_leaves (pos : Pos) (name : String) (declared : Option String)
    (method : String) : LeavesTry x τ (callOnObject s pos name declared method) fun _ => True := by
  refine (LeavesTry.analysis _).bind fun c _ => ?_
  cases c with
  | none => exact .throw
  | some c =>
    simp only
    repeat' split
    · exact .pure trivial
    · exact .throw
    · exact .analysis _

theorem callMethod_leaves (pos : Pos) (receiver : Ty) (method : String) (nullsafe : Bool) :
    LeavesTry x τ (callMethod s pos receiver method nullsafe) fun _ => True := by
  unfold callMethod
  split
  · exact callOnObject_leaves _ _ _ _
  · exact (LeavesTry.analysis _).bind fun _ _ => .pure trivial

private theorem namedClass_leaves (pos : Pos) (name : String) :
    LeavesTry x τ (namedClass s pos name) fun _ => True := by
  unfold namedClass
  simp only
  repeat' split
  all_goals first | exact .pure trivial | exact .throw | exact .analysis _

private theorem classOf_leaves (pos : Pos) (ref : ClassRef) :
    LeavesTry x τ (classOf s pos ref) fun _ => True := by
  cases ref with
  | name n => exact namedClass_leaves pos n
  | var _ n =>
    refine (LeavesTry.lift (variableType_leaves n)).bind fun t _ => ?_
    split
    all_goals first | exact .pure trivial | exact .throw | exact .analysis _

theorem callStatic_leaves (pos : Pos) (ref : ClassRef) (method : String) :
    LeavesTry x τ (callStatic s pos ref method) fun _ => True := by
  refine (classOf_leaves pos ref).bind fun t _ => ?_
  refine (LeavesTry.analysis _).bind fun c _ => ?_
  cases c with
  | none => exact .throw
  | some c =>
    simp only
    repeat' split
    · exact .pure trivial
    · exact .throw
    · exact .analysis _

theorem fetchStaticProperty_leaves (pos : Pos) (ref : ClassRef) (name : String) :
    LeavesTry x τ (fetchStaticProperty s pos ref name) fun _ => True := by
  refine (classOf_leaves pos ref).bind fun t _ => ?_
  split
  · exact .analysis _
  · exact .pure trivial

private theorem fetchClassConstant_leaves (pos : Pos) (ref : ClassRef) (name : String) :
    LeavesTry x τ (fetchClassConstant s pos ref name) fun _ => True := by
  refine (classOf_leaves pos ref).bind fun t _ => ?_
  split
  · exact .analysis _
  · exact .throw

theorem classConstant_leaves (pos : Pos) (ref : ClassRef) (name : String) :
    LeavesTry x τ (classConstant s pos ref name) fun _ => True := by
  unfold classConstant
  split
  · cases ref with
    | var _ _ => exact .pure trivial
    | name n => exact (namedClass_leaves pos n).bind fun _ _ => .pure trivial
  · exact fetchClassConstant_leaves pos ref name

theorem instantiate_leaves (pos : Pos) (ref : ClassRef) :
    LeavesTry x τ (instantiate s pos ref) fun _ => True := by
  cases ref with
  | name n =>
    unfold instantiate
    simp only
    split
    · exact namedClass_leaves pos n
    · exact .analysis _
  | var _ n =>
    refine (LeavesTry.lift (variableType_leaves n)).bind fun t _ => ?_
    split
    all_goals first | exact .pure trivial | exact .analysis _

theorem callFunction_leaves (pos : Pos) (name : String) :
    LeavesTry x τ (callFunction s pos name) fun _ => True := by
  unfold callFunction
  repeat' split
  all_goals first | exact .pure trivial | exact .throw | exact .analysis _

theorem applyDoc_leaves {doc : Option String} {e : Expr} (hx : x ∉ documented doc e) :
    Leaves x τ (applyDoc s doc e) fun _ => True := by
  unfold applyDoc
  split
  · rename_i text name hname
    have hne : x ≠ name := by simpa [documented, hname] using hx
    refine (Leaves.lift _).bind fun block _ => ?_
    split
    · split
      · exact (Leaves.lift _).bind fun t _ => .bindVar hne t
      · exact .pure trivial
    · exact .pure trivial
  · exact .pure trivial

theorem catchScope_leaves {classes : List String} {var : Option String} (hx : x ∉ var.toList) :
    Leaves x τ (catchScope s classes var) fun scope => scope.get? x = τ := by
  refine Leaves.getScope.bind fun scope hscope => ?_
  cases var with
  | none => exact .pure hscope
  | some name =>
    have hne : x ≠ name := by simpa using hx
    refine (Leaves.lift _).bind fun types _ => .pure ?_
    rw [scope.get?_set_ne hne, hscope]

theorem stepped_leaves {target : Expr} (hx : x ∉ steppedVariable target) (t : Ty) :
    Leaves x τ (stepped target t) fun _ => True := by
  unfold stepped
  simp only
  split
  · exact (Leaves.bindVar (by simpa [steppedVariable] using hx) _).bind fun _ _ => .pure trivial
  · exact (Leaves.bindVar (by simpa [steppedVariable] using hx) _).bind fun _ _ => .pure trivial
  · exact .pure trivial

theorem currentOf_leaves {e : Expr} {place : Eval (Option Ty)} {value : Eval Ty}
    (hp : Leaves x τ place fun _ => True) (hv : Leaves x τ value fun _ => True) :
    Leaves x τ (currentOf e place value) fun _ => True := by
  unfold currentOf
  split
  · exact hp
  · exact hv.bind fun _ _ => .pure trivial

theorem throughCase_leaves {first : Eval CaseEnd} {rest : Eval Bool}
    (hf : Leaves x τ first fun _ => True) (hr : Leaves x τ rest fun _ => True) :
    Leaves x τ (throughCase first rest) fun _ => True := by
  refine hf.bind fun e _ => ?_
  cases e with
  | fallsThrough => exact hr
  | breaks => exact .pure trivial
  | terminates => exact .pure trivial

end PhpTypes.Inference
