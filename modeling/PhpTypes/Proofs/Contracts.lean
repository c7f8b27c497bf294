import PhpTypes.Inference.Evaluate
import PhpTypes.Proofs.Correspondence
import PhpTypes.Proofs.DocTypes
import PhpTypes.Proofs.Nodes

/-!
# Contracts for evaluations

A contract says which memories and scopes an evaluation may meet and leave, which nodes it may
contain, and in which ways it may be stopped. There is one rule for each operation on memories and
frames, and one for each thing that a body asks from outside.
-/

namespace PhpTypes.Inference

open Source

structure Contract where
  memory : Memory → Prop
  scope : Scope → Prop
  /-- What may stop the analysis. -/
  escapes : Escape → Prop
  /-- The nodes that may be evaluated. -/
  admits : Node → Prop

namespace Contract

variable {α β : Type} {C : Contract}

/-- From an allowed memory on, the analysis leaves an allowed one, and it has a result as described
unless it is stopped in an allowed way. -/
def Holds (C : Contract) (x : Analysis α) (Q : α → Prop) : Prop :=
  ∀ m, C.memory m → C.memory (x.run m).memory ∧
    match (x.run m).result with
    | .ok a => Q a
    | .error e => C.escapes e

/-- The same from an allowed scope on, which leaves an allowed scope. -/
def HoldsIn (C : Contract) (x : Eval α) (Q : α → Prop) : Prop :=
  ∀ f : Frame, C.scope f.scope → C.Holds (x.run f) fun r => Q r.1 ∧ C.scope r.2.scope

/-- The same for an attempt, whether or not it fails. -/
def HoldsTry (C : Contract) (x : Attempt α) (Q : α → Prop) : Prop :=
  C.HoldsIn x.run fun r => ∀ a, r = .ok a → Q a

/-- The contract without its condition on scopes. -/
def anyScope (C : Contract) : Contract := { C with scope := fun _ => True }

/-! Analyses. -/

namespace Holds

theorem pure {a : α} {Q : α → Prop} (ha : Q a) : C.Holds (Pure.pure a) Q := fun _ hm => ⟨hm, ha⟩

theorem bind {x : Analysis α} {next : α → Analysis β} {P : α → Prop} {Q : β → Prop}
    (hx : C.Holds x P) (hnext : ∀ a, P a → C.Holds (next a) Q) : C.Holds (x >>= next) Q := by
  intro m hm
  obtain ⟨hmemory, hresult⟩ := hx m hm
  cases hr : (x.run m).result with
  | ok a =>
    rw [hr] at hresult
    rw [Analysis.run_bind_ok hr]
    exact hnext a hresult _ hmemory
  | error e =>
    rw [hr] at hresult
    rw [Analysis.run_bind_error hr]
    exact ⟨hmemory, hresult⟩

theorem weaken {x : Analysis α} {P Q : α → Prop} (hx : C.Holds x P) (h : ∀ a, P a → Q a) :
    C.Holds x Q := by
  intro m hm
  obtain ⟨hmemory, hresult⟩ := hx m hm
  refine ⟨hmemory, ?_⟩
  cases hr : (x.run m).result with
  | ok a =>
    rw [hr] at hresult
    exact h a hresult
  | error e =>
    rw [hr] at hresult
    exact hresult

theorem any {x : Analysis α} {Q : α → Prop} (hx : C.Holds x Q) : C.Holds x fun _ => True :=
  hx.weaken fun _ _ => trivial

/-- A contract that allows all memories and escapes asks nothing of an analysis. -/
theorem free (hmemory : ∀ m, C.memory m) (hescapes : ∀ e, C.escapes e) (x : Analysis α) :
    C.Holds x fun _ => True := by
  intro m _
  refine ⟨hmemory _, ?_⟩
  split
  · trivial
  · exact hescapes _

theorem map {x : Analysis (α × β)} {Q : α × β → Prop} (hx : C.Holds x Q) :
    C.Holds (Prod.fst <$> x) fun _ => True := by
  rw [map_eq_pure_bind]
  exact hx.bind fun _ _ => pure trivial

theorem throw {e : Escape} {Q : α → Prop} (he : C.escapes e) :
    C.Holds (MonadExcept.throw e : Analysis α) Q :=
  fun _ hm => ⟨hm, he⟩

theorem tryCatch {x : Analysis α} {handle : Escape → Analysis α} {Q : α → Prop}
    (hx : C.Holds x Q) (hhandle : ∀ e, C.escapes e → C.Holds (handle e) Q) :
    C.Holds (MonadExcept.tryCatch x handle) Q := by
  intro m hm
  obtain ⟨hmemory, hresult⟩ := hx m hm
  cases hr : (x.run m).result with
  | ok a =>
    rw [hr] at hresult
    have hrun : (MonadExcept.tryCatch x handle : Analysis α).run m = x.run m :=
      Analysis.run_tryCatch_ok hr
    rw [hrun, hr]
    exact ⟨hmemory, hresult⟩
  | error e =>
    rw [hr] at hresult
    have hrun : (MonadExcept.tryCatch x handle : Analysis α).run m =
        ((handle e).run (x.run m).memory).after (x.run m).steps := Analysis.run_tryCatch_error hr
    rw [hrun]
    exact hhandle e hresult _ hmemory

theorem get : C.Holds (MonadState.get : Analysis Memory) C.memory := fun _ hm => ⟨hm, hm⟩

theorem modifies {f : Memory → Memory} (hf : ∀ m, C.memory m → C.memory (f m)) :
    C.Holds (modify f : Analysis PUnit) fun _ => True :=
  fun m hm => ⟨hf m hm, trivial⟩

theorem take (step : Step) : C.Holds (take step) fun _ => True := fun _ hm => ⟨hm, trivial⟩

theorem forM {g : α → Analysis PUnit} (as : List α)
    (hg : ∀ a ∈ as, C.Holds (g a) fun _ => True) : C.Holds (as.forM g) fun _ => True := by
  induction as with
  | nil => exact pure trivial
  | cons a as ih =>
    rw [List.forall_mem_cons] at hg
    exact hg.1.bind fun _ _ => ih hg.2

theorem mapM {g : α → Analysis β} (as : List α) (hg : ∀ a ∈ as, C.Holds (g a) fun _ => True) :
    C.Holds (as.mapM g) fun _ => True := by
  induction as with
  | nil => exact pure trivial
  | cons a as ih =>
    rw [List.forall_mem_cons] at hg
    rw [List.mapM_cons]
    exact hg.1.bind fun _ _ => (ih hg.2).bind fun _ _ => pure trivial

end Holds

/-! Evaluations in a frame. -/

namespace HoldsIn

theorem pure {a : α} {Q : α → Prop} (ha : Q a) : C.HoldsIn (Pure.pure a) Q :=
  fun _ hf => Holds.pure ⟨ha, hf⟩

theorem bind {x : Eval α} {next : α → Eval β} {P : α → Prop} {Q : β → Prop} (hx : C.HoldsIn x P)
    (hnext : ∀ a, P a → C.HoldsIn (next a) Q) : C.HoldsIn (x >>= next) Q :=
  fun f hf => (hx f hf).bind fun r hr => hnext r.1 hr.1 r.2 hr.2

theorem lift {x : Analysis α} {Q : α → Prop} (hx : C.Holds x Q) : C.HoldsIn (liftM x) Q :=
  fun _ hf => hx.bind fun _ ha => Holds.pure ⟨ha, hf⟩

theorem getScope : C.HoldsIn getScope C.scope := fun _ hf _ hm => ⟨hm, hf, hf⟩

theorem setScope {s : Scope} (hs : C.scope s) : C.HoldsIn (setScope s) fun _ => True :=
  fun _ _ _ hm => ⟨hm, trivial, hs⟩

theorem addReturn (t : Ty) : C.HoldsIn (addReturn t) fun _ => True :=
  fun _ hf _ hm => ⟨hm, trivial, hf⟩

theorem bodyType (terminated : Bool) : C.HoldsIn (bodyType terminated) fun _ => True :=
  fun _ hf _ hm => ⟨hm, trivial, hf⟩

theorem inScope {s : Scope} (hs : C.scope s) {x : Eval α} {Q : α → Prop} (hx : C.HoldsIn x Q) :
    C.HoldsIn (inScope s x) fun r => Q r.1 ∧ C.scope r.2 := by
  refine getScope.bind fun outer houter => ?_
  refine (setScope hs).bind fun _ _ => ?_
  refine hx.bind fun a ha => ?_
  refine getScope.bind fun inner hinner => ?_
  exact (setScope houter).bind fun _ _ => pure ⟨ha, hinner⟩

/-- A closure has variables of its own. -/
theorem inFrame (s : Scope) {x : Eval α} {Q : α → Prop} (hx : C.anyScope.HoldsIn x Q) :
    C.HoldsIn (inFrame s x) Q := by
  intro f hf
  have hinner : C.Holds (x.run ⟨s, []⟩) fun r => Q r.1 ∧ True := hx ⟨s, []⟩ trivial
  have hall : C.Holds (do Inference.take (.scoped s); let r ← x.run ⟨s, []⟩; return (r.1, f))
      fun r => Q r.1 ∧ C.scope r.2.scope :=
    (Holds.take _).bind fun _ _ => hinner.bind fun r hr => Holds.pure ⟨hr.1, hf⟩
  exact hall

theorem branchFrom {s : Scope} (hs : C.scope s) {x : Eval Bool}
    (hx : C.HoldsIn x fun _ => True) :
    C.HoldsIn (branchFrom s x) fun live => ∀ b ∈ live, C.scope b := by
  refine (inScope hs hx).bind fun r hr => pure ?_
  cases r.1 <;> simp [hr.2]

theorem branch {x : Eval Bool} (hx : C.HoldsIn x fun _ => True) :
    C.HoldsIn (branch x) fun live => ∀ b ∈ live, C.scope b :=
  getScope.bind fun _ hscope => branchFrom hscope hx

theorem forM {g : α → Eval PUnit} (as : List α)
    (hg : ∀ a ∈ as, C.HoldsIn (g a) fun _ => True) : C.HoldsIn (as.forM g) fun _ => True := by
  induction as with
  | nil => exact pure trivial
  | cons a as ih =>
    rw [List.forall_mem_cons] at hg
    exact hg.1.bind fun _ _ => ih hg.2

end HoldsIn

/-! Attempts. -/

namespace HoldsTry

theorem pure {a : α} {Q : α → Prop} (ha : Q a) : C.HoldsTry (Pure.pure a) Q :=
  HoldsIn.pure (by rintro b ⟨⟩; exact ha)

theorem throw {e : Failure} {Q : α → Prop} : C.HoldsTry (MonadExcept.throw e) Q :=
  HoldsIn.pure (by rintro b ⟨⟩)

theorem bind {x : Attempt α} {next : α → Attempt β} {P : α → Prop} {Q : β → Prop}
    (hx : C.HoldsTry x P) (hnext : ∀ a, P a → C.HoldsTry (next a) Q) :
    C.HoldsTry (x >>= next) Q := by
  refine HoldsIn.bind hx fun r hr => ?_
  cases r with
  | ok a => exact hnext a (hr a rfl)
  | error e => exact HoldsIn.pure (by rintro b ⟨⟩)

theorem lift {x : Eval α} {Q : α → Prop} (hx : C.HoldsIn x Q) : C.HoldsTry (liftM x) Q :=
  HoldsIn.bind hx fun _ ha => HoldsIn.pure (by rintro b ⟨⟩; exact ha)

theorem analysis {x : Analysis α} {Q : α → Prop} (hx : C.Holds x Q) : C.HoldsTry (liftM x) Q :=
  lift (HoldsIn.lift hx)

theorem forM {g : α → Attempt PUnit} (as : List α)
    (hg : ∀ a ∈ as, C.HoldsTry (g a) fun _ => True) : C.HoldsTry (as.forM g) fun _ => True := by
  induction as with
  | nil => exact pure trivial
  | cons a as ih =>
    rw [List.forall_mem_cons] at hg
    exact hg.1.bind fun _ _ => ih hg.2

end HoldsTry

/-! Types by name. -/

/-- Contracts can be promised of the types that are read. -/
def guarantee (C : Contract) : Doc.Guarantee Analysis where
  sat x Q := C.Holds x Q
  pure ha := Holds.pure ha
  bind hx hnext := Holds.bind hx hnext

section

variable {p : Program} (hclass : ∀ name, C.Holds (classDecl p name) fun _ => True)

include hclass

theorem namedObject (name : String) : C.Holds (objectType p name) fun _ => True := by
  refine (hclass name).bind fun c _ => ?_
  cases c <;> exact Holds.pure trivial

theorem resolvedName (context : Context) (name : String) :
    C.Holds (resolveName p context name) fun _ => True := by
  unfold resolveName
  simp only
  split <;> exact namedObject hclass _

theorem resolves (context : Context) (self : Option String) (name : String) :
    (guarantee C).sat ((readerIn p context self).resolve name) (Ty.Every fun _ => True) :=
  (resolvedName hclass context name).weaken fun _ _ _ _ => trivial

theorem textType (context : Context) (self : Option String) (text : String) :
    C.Holds (Doc.typeOfText (readerIn p context self) text) fun _ => True :=
  (Doc.Guarantee.typeOfText (G := guarantee C) .trivial (resolves hclass context self) text).any

theorem hintType (context : Context) (self : Option String) (hint : Option TypeHint) :
    C.Holds (Doc.typeOfHint (readerIn p context self) hint) fun _ => True :=
  (Doc.Guarantee.typeOfHint (G := guarantee C) .trivial (resolves hclass context self) hint).any

end

/-- The comment of an admitted node can be read, if it has one. -/
theorem readComment (hread : ∀ {node pos text}, C.admits node → node.comment? = some (pos, text) →
      C.Holds (readDoc (some text)) fun _ => True) {node : Node} {pos : Pos} {doc : Option String}
    (hnode : C.admits node) (hdoc : node.comment? = doc.map fun text => (pos, text)) :
    C.Holds (readDoc doc) fun _ => True := by
  cases doc with
  | none => exact Holds.pure trivial
  | some text => exact hread hnode hdoc

/-- The requests that a body can make. -/
structure HoldsRequests (C : Contract) (ask : Requests) : Prop where
  method : ∀ c name, C.Holds (ask.methodType c name) fun _ => True
  function : ∀ name, C.Holds (ask.functionType name) fun _ => True
  constant : ∀ c name, C.Holds (ask.constantType c name) fun _ => True
  global : ∀ name, C.Holds (ask.globalType name) fun _ => True

/-- What a contract has to allow, so that the bodies at a site can be evaluated. -/
structure Fits (C : Contract) (s : Site) : Prop where
  report : ∀ {m} d, C.memory m → C.memory (m.report d)
  write : ∀ {m} e, C.memory m → C.memory (m.write e)
  bound : ∀ {scope} name t, C.scope scope → C.scope (scope.set name t)
  unbound : ∀ {scope pos call args} name, C.admits (.expr (.call pos call args)) →
    builtIn call = .unset → C.scope scope → C.scope (scope.unset name)
  read : ∀ {node pos text}, C.admits node → node.comment? = some (pos, text) →
    C.Holds (readDoc (some text)) fun _ => True
  classDecl : ∀ name, C.Holds (classDecl s.program name) fun _ => True
  recorded : ∀ declared, C.Holds (recordedClass? s.program declared) fun _ => True
  property : ∀ c name, C.Holds (propertyType s.program c name) fun _ => True
  requests : C.HoldsRequests s.ask

namespace Fits

variable {s : Site}

theorem anyScope (hs : C.Fits s) : C.anyScope.Fits s where
  report := hs.report
  write := hs.write
  bound _ _ _ := trivial
  unbound _ _ _ _ := trivial
  read := hs.read
  classDecl := hs.classDecl
  recorded := hs.recorded
  property := hs.property
  requests := ⟨hs.requests.method, hs.requests.function, hs.requests.constant, hs.requests.global⟩

theorem warnOf (hs : C.Fits s) (failure : Failure) : C.HoldsIn (warnOf failure) fun _ => True :=
  HoldsIn.lift (Holds.modifies fun _ => hs.report _)

theorem settle (hs : C.Fits s) {x : Attempt Ty} (hx : C.HoldsTry x fun _ => True) :
    C.HoldsIn (settle x) fun _ => True := by
  refine HoldsIn.bind hx fun r _ => ?_
  cases r with
  | ok t => exact HoldsIn.pure trivial
  | error e =>
    refine (hs.warnOf e).bind fun _ _ => ?_
    refine (HoldsIn.lift (Holds.modifies fun _ => hs.write _)).bind fun _ _ => ?_
    exact HoldsIn.pure trivial

theorem settling (hs : C.Fits s) {x : Attempt Ty} (hx : C.HoldsTry x fun _ => True) :
    C.HoldsTry (liftM (Inference.settle x)) fun _ => True :=
  .lift (hs.settle hx)

theorem tolerate (hs : C.Fits s) {x : Attempt Unit} (hx : C.HoldsTry x fun _ => True) :
    C.HoldsIn (tolerate x) fun _ => True := by
  refine HoldsIn.bind hx fun r _ => ?_
  cases r with
  | ok u => exact HoldsIn.pure trivial
  | error e => exact hs.warnOf e

theorem bindVar (hs : C.Fits s) (name : String) (t : Ty) :
    C.HoldsIn (bindVar name t) fun _ => True :=
  HoldsIn.getScope.bind fun _ hscope => HoldsIn.setScope (hs.bound name t hscope)

theorem merged (hs : C.Fits s) {scope : Scope} (hscope : C.scope scope) (branches : List Scope) :
    C.scope (scope.merge branches) := by
  unfold Scope.merge
  generalize (branches.flatMap Scope.names).eraseDups = names
  induction names generalizing scope with
  | nil => exact hscope
  | cons name names ih => exact ih (hs.bound name _ hscope)

theorem join (hs : C.Fits s) (branches : List Scope) : C.HoldsIn (join branches) fun _ => True :=
  HoldsIn.getScope.bind fun _ hscope => HoldsIn.setScope (hs.merged hscope branches)

theorem joinLive (hs : C.Fits s) (live : List Scope) : C.HoldsIn (joinLive live) fun _ => True := by
  cases live with
  | nil => exact HoldsIn.pure trivial
  | cons b bs => exact (hs.join (b :: bs)).bind fun _ _ => HoldsIn.pure trivial

theorem loopOnce (hs : C.Fits s) {body : Eval Bool} (hbody : C.HoldsIn body fun _ => True) :
    C.HoldsIn (loopOnce body) fun _ => True := by
  refine HoldsIn.getScope.bind fun before hbefore => ?_
  exact (HoldsIn.inScope hbefore hbody).bind fun r _ => hs.join _

theorem typeOfText (hs : C.Fits s) (text : String) : C.Holds (s.typeOfText text) fun _ => True :=
  textType hs.classDecl s.context s.selfName text

theorem typeOfHint (hs : C.Fits s) (hint : Option TypeHint) :
    C.Holds (s.typeOfHint hint) fun _ => True :=
  hintType hs.classDecl s.context s.selfName hint

theorem resolveClass (hs : C.Fits s) (name : String) :
    C.Holds (s.resolveClass name) fun _ => True :=
  resolvedName hs.classDecl s.context name

/-! What a body asks from outside. -/

theorem paramType (hs : C.Fits s) (doc : Doc.Block) (name : String) (hint : Option TypeHint)
    (variadic : Bool) : C.Holds (paramType s doc name hint variadic) fun _ => True := by
  unfold Inference.paramType
  cases doc.paramTag? name with
  | none => exact (hs.typeOfHint hint).bind fun _ _ => Holds.pure trivial
  | some tag =>
    simp only
    split
    · exact (hs.typeOfHint hint).bind fun _ _ => Holds.pure trivial
    · exact (hs.typeOfText _).bind fun _ _ => Holds.pure trivial

theorem bindParams (hs : C.Fits s) (doc : Doc.Block) (params : List Param) :
    C.HoldsIn (bindParams s doc params) fun _ => True := by
  induction params with
  | nil => exact HoldsIn.pure trivial
  | cons p rest ih =>
    obtain ⟨pos, name, hint, value, variadic, modifiers⟩ := p
    refine (HoldsIn.lift (hs.paramType doc name hint variadic)).bind fun t _ => ?_
    refine (hs.bindVar name t).bind fun _ _ => ?_
    exact ih.bind fun _ _ => HoldsIn.pure trivial

theorem variableType (C : Contract) (name : String) :
    C.HoldsIn (variableType s name) fun _ => True := by
  unfold Inference.variableType
  split
  · exact HoldsIn.pure trivial
  · exact HoldsIn.getScope.bind fun _ _ => HoldsIn.pure trivial

theorem constantFetch (hs : C.Fits s) (pos : Pos) (name : String) :
    C.HoldsTry (constantFetch s pos name) fun _ => True := by
  unfold Inference.constantFetch
  split
  · exact .pure trivial
  · refine (HoldsTry.analysis (hs.requests.global name)).bind fun t _ => ?_
    cases t with
    | some t => exact .pure trivial
    | none => exact .throw

theorem castType (C : Contract) (pos : Pos) (target : CastTarget) (t : Ty) :
    C.HoldsTry (castType pos target t) fun _ => True := by
  cases target with
  | object => cases t <;> exact .pure trivial
  | other name => exact .throw
  | _ => exact .pure trivial

theorem callOnObject (hs : C.Fits s) (pos : Pos) (name : String) (declared : Option String)
    (method : String) : C.HoldsTry (callOnObject s pos name declared method) fun _ => True := by
  refine (HoldsTry.analysis (hs.recorded declared)).bind fun c _ => ?_
  cases c with
  | none => exact .throw
  | some c =>
    simp only
    repeat' split
    · exact .pure trivial
    · exact .throw
    · exact .analysis (hs.requests.method _ _)

theorem callOnMember (hs : C.Fits s) (method : String) (nullsafe : Bool) (t : Ty) :
    C.Holds (callOnMember s method nullsafe t) fun _ => True := by
  unfold Inference.callOnMember
  split
  · exact hs.requests.method _ _
  · exact Holds.pure trivial
  · exact Holds.pure trivial

theorem callMethod (hs : C.Fits s) (pos : Pos) (receiver : Ty) (method : String)
    (nullsafe : Bool) : C.HoldsTry (callMethod s pos receiver method nullsafe) fun _ => True := by
  unfold Inference.callMethod
  split
  · exact hs.callOnObject _ _ _ _
  · refine (HoldsTry.analysis (Holds.mapM _ fun m _ => ?_)).bind fun _ _ => .pure trivial
    exact hs.callOnMember method nullsafe m

theorem fetchProperty (hs : C.Fits s) (receiver : Ty) (name : String) (nullsafe : Bool) :
    C.Holds (fetchProperty s receiver name nullsafe) fun _ => True := by
  refine (Holds.mapM _ fun m _ => ?_).bind fun _ _ => Holds.pure trivial
  unfold propertyOfMember
  split
  · exact hs.property _ _
  · exact Holds.pure trivial
  · exact Holds.pure trivial

theorem namedClass (hs : C.Fits s) (pos : Pos) (name : String) :
    C.HoldsTry (namedClass s pos name) fun _ => True := by
  unfold Inference.namedClass
  simp only
  repeat' split
  · exact .pure trivial
  · exact .throw
  · exact .analysis (namedObject hs.classDecl _)
  · exact .throw
  · exact .analysis (hs.resolveClass name)

theorem classOf (hs : C.Fits s) (pos : Pos) (ref : ClassRef) :
    C.HoldsTry (classOf s pos ref) fun _ => True := by
  cases ref with
  | name n => exact hs.namedClass pos n
  | var _ n =>
    refine (HoldsTry.lift (variableType C n)).bind fun t _ => ?_
    split
    · exact .pure trivial
    · exact .analysis (hs.resolveClass _)
    · exact .throw

theorem callStatic (hs : C.Fits s) (pos : Pos) (ref : ClassRef) (method : String) :
    C.HoldsTry (callStatic s pos ref method) fun _ => True := by
  refine (hs.classOf pos ref).bind fun t _ => ?_
  refine (HoldsTry.analysis (hs.recorded _)).bind fun c _ => ?_
  cases c with
  | none => exact .throw
  | some c =>
    simp only
    repeat' split
    · exact .pure trivial
    · exact .throw
    · exact .analysis (hs.requests.method _ _)

theorem fetchStaticProperty (hs : C.Fits s) (pos : Pos) (ref : ClassRef) (name : String) :
    C.HoldsTry (fetchStaticProperty s pos ref name) fun _ => True := by
  refine (hs.classOf pos ref).bind fun t _ => ?_
  split
  · exact .analysis (hs.property _ _)
  · exact .pure trivial

theorem fetchClassConstant (hs : C.Fits s) (pos : Pos) (ref : ClassRef) (name : String) :
    C.HoldsTry (fetchClassConstant s pos ref name) fun _ => True := by
  refine (hs.classOf pos ref).bind fun t _ => ?_
  split
  · exact .analysis (hs.requests.constant _ _)
  · exact .throw

theorem classConstant (hs : C.Fits s) (pos : Pos) (ref : ClassRef) (name : String) :
    C.HoldsTry (classConstant s pos ref name) fun _ => True := by
  unfold Inference.classConstant
  split
  · cases ref with
    | var _ _ => exact .pure trivial
    | name n => exact (hs.namedClass pos n).bind fun _ _ => .pure trivial
  · exact hs.fetchClassConstant pos ref name

theorem instantiate (hs : C.Fits s) (pos : Pos) (ref : ClassRef) :
    C.HoldsTry (instantiate s pos ref) fun _ => True := by
  cases ref with
  | name n =>
    unfold Inference.instantiate
    simp only
    split
    · exact hs.namedClass pos n
    · exact .analysis (hs.resolveClass n)
  | var _ n =>
    refine (HoldsTry.lift (variableType C n)).bind fun t _ => ?_
    split
    · exact .analysis (hs.resolveClass _)
    · exact .pure trivial
    · exact .pure trivial

theorem callFunction (hs : C.Fits s) (pos : Pos) (name : String) :
    C.HoldsTry (callFunction s pos name) fun _ => True := by
  unfold Inference.callFunction
  repeat' split
  · exact .analysis (hs.requests.function name)
  · exact .pure trivial
  · exact .throw

theorem closureType (hs : C.Fits s) (hint : Option TypeHint) (params : List Ty) (result : Ty) :
    C.Holds (closureType s hint params result) fun _ => True := by
  unfold Inference.closureType
  split
  · exact (hs.typeOfHint hint).bind fun _ _ => Holds.pure trivial
  · exact Holds.pure trivial

theorem documentedItem (hs : C.Fits s) {doc : Option String}
    (hdoc : C.Holds (readDoc doc) fun _ => True) (value : Ty) :
    C.Holds (documentedItem s doc value) fun _ => True := by
  cases doc with
  | none => exact Holds.pure trivial
  | some text =>
    refine hdoc.bind fun block _ => ?_
    split
    · exact Holds.pure trivial
    · split
      · exact Holds.pure trivial
      · exact (hs.typeOfText _).bind fun _ _ => Holds.pure trivial

theorem applyDoc (hs : C.Fits s) {doc : Option String}
    (hdoc : C.Holds (readDoc doc) fun _ => True) (e : Expr) :
    C.HoldsIn (applyDoc s doc e) fun _ => True := by
  unfold Inference.applyDoc
  split
  · rename_i text name hname
    refine (HoldsIn.lift hdoc).bind fun block _ => ?_
    split
    · split
      · exact (HoldsIn.lift (hs.typeOfText _)).bind fun t _ => hs.bindVar name t
      · exact HoldsIn.pure trivial
    · exact HoldsIn.pure trivial
  · exact HoldsIn.pure trivial

theorem catchScope (hs : C.Fits s) (classes : List String) (var : Option String) :
    C.HoldsIn (catchScope s classes var) C.scope := by
  refine HoldsIn.getScope.bind fun scope hscope => ?_
  cases var with
  | none => exact HoldsIn.pure hscope
  | some name =>
    refine (HoldsIn.lift (Holds.mapM _ fun c _ => hs.resolveClass c)).bind fun types _ => ?_
    exact HoldsIn.pure (hs.bound name _ hscope)

theorem stepped (hs : C.Fits s) (target : Expr) (t : Ty) :
    C.HoldsIn (stepped target t) fun _ => True := by
  unfold Inference.stepped
  simp only
  split
  · exact (hs.bindVar _ _).bind fun _ _ => HoldsIn.pure trivial
  · exact (hs.bindVar _ _).bind fun _ _ => HoldsIn.pure trivial
  · exact HoldsIn.pure trivial

theorem currentOf {e : Expr} {place : Eval (Option Ty)} {value : Eval Ty}
    (hplace : C.HoldsIn place fun _ => True) (hvalue : C.HoldsIn value fun _ => True) :
    C.HoldsIn (currentOf e place value) fun _ => True := by
  unfold Inference.currentOf
  split
  · exact hplace
  · exact hvalue.bind fun _ _ => HoldsIn.pure trivial

theorem throughCase {first : Eval CaseEnd} {rest : Eval Bool}
    (hfirst : C.HoldsIn first fun _ => True) (hrest : C.HoldsIn rest fun _ => True) :
    C.HoldsIn (throughCase first rest) fun _ => True := by
  refine hfirst.bind fun e _ => ?_
  cases e with
  | fallsThrough => exact hrest
  | breaks => exact HoldsIn.pure trivial
  | terminates => exact HoldsIn.pure trivial

theorem inClosure (hs : C.Fits s) (scope : Scope) (params : List Param) {body : Eval Ty}
    (hbody : C.anyScope.HoldsIn body fun _ => True) :
    C.HoldsIn (inClosure s scope params body) fun _ => True := by
  refine HoldsIn.inFrame scope ?_
  refine (hs.anyScope.bindParams _ params).bind fun _ _ => ?_
  exact hbody.bind fun _ _ => HoldsIn.pure trivial

end Fits

end Contract

end PhpTypes.Inference
