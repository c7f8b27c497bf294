import PhpTypes.Inference.Site
import PhpTypes.Proofs.Correspondence
import PhpTypes.Proofs.DocTypes

/-!
# What bodies do and ask for

The laws that a correspondence needs so that the evaluation of bodies keeps it: they speak of
warnings and notes, of scopes, and of looking up classes. From them follows that reading names, doc
comments and members keeps it, and so does what a body asks for, given that the requests correspond.
-/

namespace PhpTypes.Inference

open Source

/-- The same place with other requests. -/
def Site.asking (s : Site) (ask : Requests) : Site := { s with ask := ask }

/-- What a class of some name may be recorded with. -/
structure RecordedAs (p : Program) (name : String) (c : ClassLike) : Prop where
  mem : c ∈ p.index.classes.values
  key : ∃ d, p.index.resolve name = some d ∧ classKey c = classKey d

namespace Correspondence

structure Lawful (K : Correspondence) (p : Program) : Prop where
  node : Ty.NodeProperty K.node
  cut_of_holds : ∀ {h m n t}, K.holds h m n → K.cut (.malformedTag t) h m n
  warn : ∀ d, K.Keeps (warn d) fun _ => True
  note : ∀ e, K.Keeps (note e) fun _ => True
  enter : ∀ {s}, K.GoodScope s → K.Keeps (take (.scoped s)) fun _ => True
  classDecl : ∀ name, K.Keeps (classDecl p name) fun c => ∀ d ∈ c, RecordedAs p name d
  recorded : ∀ {name declared}, K.node (.object name (some declared)) →
    K.Keeps (recordedClass? p (some declared)) fun _ => True
  instance_good : ∀ {c}, c ∈ p.index.classes.values → K.Good (instanceType c)
  native_good : ∀ {name s}, p.natives.get? name = some s → K.Good s.result

/-- Requests whose answers correspond and are good. -/
structure RelatesRequests (K : Correspondence) (ask : Requests) (ask' : Nat → Requests) : Prop where
  method : ∀ c name,
    K.Relates (ask.methodType c name) (fun D => (ask' D).methodType c name) K.Good
  function : ∀ name, K.Relates (ask.functionType name) (fun D => (ask' D).functionType name) K.Good
  constant : ∀ c name,
    K.Relates (ask.constantType c name) (fun D => (ask' D).constantType c name) K.Good
  global : ∀ name, K.Relates (ask.globalType name) (fun D => (ask' D).globalType name)
    fun t => ∀ u ∈ t, K.Good u

/-- Only large depths count. -/
theorem RelatesRequests.of_succ {K : Correspondence} {ask : Requests} {ask' : Nat → Requests}
    (h : K.RelatesRequests ask fun D => ask' (D + 1)) : K.RelatesRequests ask ask' :=
  ⟨fun c name => (h.method c name).of_succ, fun name => (h.function name).of_succ,
    fun c name => (h.constant c name).of_succ, fun name => (h.global name).of_succ⟩

variable {α : Type} {K : Correspondence} {p : Program}

/-! Scopes. -/

theorem goodScope_empty : K.GoodScope .empty := by
  intro t ht
  cases ht

theorem GoodScope.set {s : Scope} (hs : K.GoodScope s) {t : Ty} (ht : K.Good t) (name : String) :
    K.GoodScope (s.set name t) := by
  intro u hu
  rcases Dict.mem_values_set hu with rfl | hu
  · exact ht
  · exact hs u hu

theorem GoodScope.unset {s : Scope} (hs : K.GoodScope s) (name : String) :
    K.GoodScope (s.unset name) := fun u hu => hs u (Dict.mem_values_erase hu)

theorem GoodScope.get? {s : Scope} (hs : K.GoodScope s) {name : String} {t : Ty}
    (h : s.get? name = some t) : K.Good t := hs t (Dict.mem_values_of_get? h)

theorem GoodScope.get (hK : K.Lawful p) {s : Scope} (hs : K.GoodScope s) (name : String) :
    K.Good (s.get name) := by
  unfold Scope.get
  cases h : s.get? name with
  | none => exact Ty.every_unknown hK.node
  | some t => exact hs.get? h

theorem GoodScope.merge (hK : K.Lawful p) {s : Scope} (hs : K.GoodScope s) {branches : List Scope}
    (hb : ∀ b ∈ branches, K.GoodScope b) : K.GoodScope (s.merge branches) := by
  have hname : ∀ name, K.Good (Ty.unionOf (Scope.candidates branches name)) := by
    intro name
    apply Ty.every_unionOf hK.node
    intro t ht
    obtain ⟨b, hbmem, hbt⟩ := List.mem_filterMap.mp ht
    exact (hb b hbmem).get? hbt
  have hfold : ∀ (names : List String) (s : Scope), K.GoodScope s → K.GoodScope
      (names.foldl (fun s n => s.set n (Ty.unionOf (Scope.candidates branches n))) s) := by
    intro names
    induction names with
    | nil => exact fun _ h => h
    | cons n names ih => exact fun s h => ih _ (h.set (hname n) n)
  exact hfold _ s hs

/-! Frames. -/

theorem Lawful.warnOf (hK : K.Lawful p) (f : Failure) :
    K.RelatesIn (warnOf f) (fun _ => warnOf f) fun _ => True :=
  RelatesIn.lift (hK.warn _)

theorem Lawful.settle (hK : K.Lawful p) {x : Attempt Ty} {y : Nat → Attempt Ty}
    (hx : K.RelatesTry x y K.Good) : K.RelatesIn (settle x) (fun D => settle (y D)) K.Good := by
  refine RelatesIn.bind hx fun r hr => ?_
  cases r with
  | ok t => exact RelatesIn.pure (hr t rfl)
  | error f =>
    refine RelatesIn.bind (hK.warnOf f) fun _ _ => ?_
    refine RelatesIn.bind (RelatesIn.lift (hK.note _)) fun _ _ => ?_
    exact RelatesIn.pure (Ty.every_unknown hK.node)

theorem Lawful.tolerate (hK : K.Lawful p) {x : Attempt Unit} {y : Nat → Attempt Unit}
    (hx : K.RelatesTry x y fun _ => True) :
    K.RelatesIn (tolerate x) (fun D => tolerate (y D)) fun _ => True := by
  refine RelatesIn.bind hx fun r _ => ?_
  cases r with
  | ok u => exact RelatesIn.pure trivial
  | error f => exact hK.warnOf f

theorem getScope_good : K.RelatesIn getScope (fun _ => getScope) K.GoodScope :=
  RelatesIn.bind RelatesIn.get fun _ hf => RelatesIn.pure hf.scope

theorem Lawful.setScope (hK : K.Lawful p) {s : Scope} (hs : K.GoodScope s) :
    K.RelatesIn (setScope s) (fun _ => setScope s) fun _ => True :=
  RelatesIn.bind (RelatesIn.modify fun _ hf => ⟨hs, hf.returns⟩) fun _ _ =>
    RelatesIn.lift (hK.enter hs)

theorem Lawful.bindVar (hK : K.Lawful p) {t : Ty} (ht : K.Good t) (name : String) :
    K.RelatesIn (bindVar name t) (fun _ => bindVar name t) fun _ => True :=
  RelatesIn.bind getScope_good fun _ hs => hK.setScope (hs.set ht name)

theorem Lawful.unbindVar (hK : K.Lawful p) (name : String) :
    K.RelatesIn (unbindVar name) (fun _ => unbindVar name) fun _ => True :=
  RelatesIn.bind getScope_good fun _ hs => hK.setScope (hs.unset name)

theorem addReturn_good {t : Ty} (ht : K.Good t) :
    K.RelatesIn (addReturn t) (fun _ => addReturn t) fun _ => True := by
  refine RelatesIn.modify fun f hf => ⟨hf.scope, ?_⟩
  rw [List.forall_mem_append]
  exact ⟨hf.returns, by simpa using ht⟩

theorem Lawful.inScope (hK : K.Lawful p) {s : Scope} (hs : K.GoodScope s) {x : Eval α}
    {y : Nat → Eval α} {Q : α → Prop} (hx : K.RelatesIn x y Q) :
    K.RelatesIn (inScope s x) (fun D => inScope s (y D)) fun r => Q r.1 ∧ K.GoodScope r.2 := by
  refine RelatesIn.bind getScope_good fun outer houter => ?_
  refine RelatesIn.bind (hK.setScope hs) fun _ _ => ?_
  refine RelatesIn.bind hx fun a ha => ?_
  refine RelatesIn.bind getScope_good fun inner hinner => ?_
  exact RelatesIn.bind (hK.setScope houter) fun _ _ => RelatesIn.pure ⟨ha, hinner⟩

theorem Lawful.inFrame (hK : K.Lawful p) {s : Scope} (hs : K.GoodScope s) {x : Eval α}
    {y : Nat → Eval α} {Q : α → Prop} (hx : K.RelatesIn x y Q) :
    K.RelatesIn (inFrame s x) (fun D => inFrame s (y D)) Q := by
  refine RelatesIn.bind RelatesIn.get fun outer houter => ?_
  refine RelatesIn.bind (RelatesIn.set ⟨hs, by simp⟩) fun _ _ => ?_
  refine RelatesIn.bind (RelatesIn.lift (hK.enter hs)) fun _ _ => ?_
  refine RelatesIn.bind hx fun a ha => ?_
  exact RelatesIn.bind (RelatesIn.set houter) fun _ _ => RelatesIn.pure ha

theorem Lawful.branchFrom (hK : K.Lawful p) {s : Scope} (hs : K.GoodScope s) {x : Eval Bool}
    {y : Nat → Eval Bool} (hx : K.RelatesIn x y fun _ => True) :
    K.RelatesIn (branchFrom s x) (fun D => branchFrom s (y D)) fun live =>
      ∀ b ∈ live, K.GoodScope b := by
  refine RelatesIn.bind (hK.inScope hs hx) fun r hr => RelatesIn.pure ?_
  obtain ⟨terminated, after⟩ := r
  cases terminated with
  | true => simp
  | false => simpa using hr.2

theorem Lawful.branch (hK : K.Lawful p) {x : Eval Bool} {y : Nat → Eval Bool}
    (hx : K.RelatesIn x y fun _ => True) :
    K.RelatesIn (branch x) (fun D => branch (y D)) fun live => ∀ b ∈ live, K.GoodScope b :=
  RelatesIn.bind getScope_good fun _ hs => hK.branchFrom hs hx

theorem Lawful.join (hK : K.Lawful p) {branches : List Scope}
    (hb : ∀ b ∈ branches, K.GoodScope b) :
    K.RelatesIn (join branches) (fun _ => join branches) fun _ => True :=
  RelatesIn.bind getScope_good fun _ hs => hK.setScope (hs.merge hK hb)

theorem Lawful.joinLive (hK : K.Lawful p) {live : List Scope} (hl : ∀ b ∈ live, K.GoodScope b) :
    K.RelatesIn (joinLive live) (fun _ => joinLive live) fun _ => True := by
  unfold Inference.joinLive
  split
  · exact RelatesIn.pure trivial
  · exact RelatesIn.bind (hK.join hl) fun _ _ => RelatesIn.pure trivial

theorem Lawful.loopOnce (hK : K.Lawful p) {x : Eval Bool} {y : Nat → Eval Bool}
    (hx : K.RelatesIn x y fun _ => True) :
    K.RelatesIn (loopOnce x) (fun D => loopOnce (y D)) fun _ => True := by
  refine RelatesIn.bind getScope_good fun before hbefore => ?_
  refine RelatesIn.bind (hK.inScope hbefore hx) fun r hr => hK.join ?_
  simpa using ⟨hbefore, hr.2⟩

theorem Lawful.bodyType (hK : K.Lawful p) (terminated : Bool) :
    K.RelatesIn (bodyType terminated) (fun _ => bodyType terminated) K.Good := by
  refine RelatesIn.bind RelatesIn.get fun f hf => RelatesIn.pure (Ty.every_unionOf hK.node ?_)
  cases terminated with
  | true => exact hf.returns
  | false =>
    simp only [Bool.false_eq_true, if_false, List.forall_mem_append]
    exact ⟨hf.returns, by simpa using Ty.every_leaf hK.node rfl rfl⟩

/-! Names and doc comments. -/

theorem Lawful.readDoc (hK : K.Lawful p) (comment : Option String) :
    K.Keeps (readDoc comment) fun _ => True := by
  unfold Inference.readDoc
  cases Doc.Block.parse comment with
  | ok b => exact Relates.pure trivial
  | error t => exact Relates.fail hK.cut_of_holds

theorem Lawful.objectType (hK : K.Lawful p) (name : String) :
    K.Keeps (objectType p name) K.Good := by
  refine Relates.bind (hK.classDecl name) fun c hc => ?_
  cases c with
  | some c => exact Relates.pure (hK.instance_good (hc c rfl).mem)
  | none => exact Relates.pure (Ty.every_leaf hK.node rfl rfl)

theorem Lawful.resolveName (hK : K.Lawful p) (c : Context) (name : String) :
    K.Keeps (resolveName p c name) K.Good := by
  unfold Inference.resolveName
  simp only
  split <;> exact hK.objectType _

/-- What is kept can be promised of the types that a doc comment gives. -/
def guarantee (K : Correspondence) : Doc.Guarantee Analysis where
  sat x Q := K.Keeps x Q
  pure ha := Relates.pure ha
  bind hx hf := Relates.bind hx hf

theorem Lawful.typeOfText (hK : K.Lawful p) (c : Context) (self : Option String) (text : String) :
    K.Keeps (Doc.typeOfText (readerIn p c self) text) K.Good :=
  Doc.Guarantee.typeOfText (G := K.guarantee) (r := readerIn p c self) hK.node
    (hK.resolveName c) text

theorem Lawful.typeOfHint (hK : K.Lawful p) (c : Context) (self : Option String)
    (hint : Option TypeHint) : K.Keeps (Doc.typeOfHint (readerIn p c self) hint) K.Good :=
  Doc.Guarantee.typeOfHint (G := K.guarantee) (r := readerIn p c self) hK.node
    (hK.resolveName c) hint

theorem Lawful.declaredProperty (hK : K.Lawful p) (c : Context) (self : Option String)
    (property : Property) : K.Keeps (declaredProperty (readerIn p c self) property) K.Good := by
  refine Relates.bind (hK.readDoc _) fun b _ => ?_
  split
  · split
    · exact hK.typeOfHint c self _
    · exact hK.typeOfText c self _
  · exact hK.typeOfHint c self _

theorem Lawful.ownProperty? (hK : K.Lawful p) (c : Context) (owner : ClassLike) (name : String) :
    K.Keeps (ownProperty? p c owner name) fun t => ∀ u ∈ t, K.Good u := by
  unfold Inference.ownProperty?
  split
  · exact Relates.bind (hK.declaredProperty c _ _) fun t ht => Relates.pure (by simpa using ht)
  · refine Relates.bind (hK.readDoc _) fun b _ => ?_
    split
    · exact Relates.bind (hK.typeOfText c _ _) fun t ht => Relates.pure (by simpa using ht)
    · exact Relates.pure (by simp)

theorem Lawful.propertyAlong (hK : K.Lawful p) (c : Context) (name : String)
    (owners : List ClassLike) : K.Keeps (propertyAlong p c name owners) K.Good := by
  induction owners with
  | nil => exact Relates.pure (Ty.every_unknown hK.node)
  | cons owner rest ih =>
    refine Relates.bind (hK.ownProperty? c owner name) fun t ht => ?_
    cases t with
    | some t => exact Relates.pure (ht t rfl)
    | none => exact ih

theorem Lawful.propertyType (hK : K.Lawful p) (className property : String) :
    K.Keeps (propertyType p className property) K.Good := by
  refine Relates.bind (hK.classDecl className) fun c _ => ?_
  cases c with
  | none => exact Relates.pure (Ty.every_unknown hK.node)
  | some c => exact hK.propertyAlong _ _ _

theorem Lawful.recordedOf (hK : K.Lawful p) {t : Ty} (ht : K.Good t) :
    K.Keeps (recordedClass? p (declaredName t)) fun _ => True := by
  have hnone : K.Keeps (recordedClass? p none) fun _ => True := Relates.pure trivial
  cases t with
  | object name declared =>
    cases declared with
    | none => exact hnone
    | some d => exact hK.recorded ht.self
  | _ => exact hnone

/-! What a body asks for. -/

/-- A place in a program whose requests correspond to others. -/
structure AtSite (K : Correspondence) (s : Site) (ask : Nat → Requests) : Prop where
  lawful : K.Lawful s.program
  owner : ∀ c ∈ s.owner, c ∈ s.program.index.classes.values
  requests : K.RelatesRequests s.ask ask

variable {s : Site} {ask : Nat → Requests}

theorem AtSite.unknown (hs : K.AtSite s ask) : K.Good .unknown := Ty.every_unknown hs.lawful.node

theorem AtSite.thisType (hs : K.AtSite s ask) : K.Good s.thisType := by
  unfold Site.thisType
  cases howner : s.owner with
  | none => exact hs.unknown
  | some c => exact hs.lawful.instance_good (hs.owner c howner)

theorem AtSite.paramType (hs : K.AtSite s ask) (doc : Doc.Block) (name : String)
    (hint : Option TypeHint) (variadic : Bool) :
    K.Relates (paramType s doc name hint variadic)
      (fun D => paramType (s.asking (ask D)) doc name hint variadic) K.Good := by
  have hend : ∀ t, K.Good t →
      K.Keeps (pure (if variadic = true then Ty.map none t else t)) K.Good := by
    intro t ht
    apply Relates.pure
    split
    · exact Ty.every_mapOf hs.lawful.node (by simp) ht
    · exact ht
  have hhint := Relates.bind (hs.lawful.typeOfHint s.context s.selfName hint) hend
  unfold Inference.paramType
  cases doc.paramTag? name with
  | none => exact hhint
  | some tag =>
    by_cases hempty : tag.typeExpr.isEmpty
    · simp only [hempty, if_true]
      exact hhint
    · simp only [hempty]
      exact Relates.bind (hs.lawful.typeOfText s.context s.selfName tag.typeExpr) hend

theorem AtSite.bindParams (hs : K.AtSite s ask) (doc : Doc.Block) (params : List Param) :
    K.RelatesIn (bindParams s doc params) (fun D => bindParams (s.asking (ask D)) doc params)
      fun ts => ∀ t ∈ ts, K.Good t := by
  induction params with
  | nil => exact RelatesIn.pure (by simp)
  | cons param rest ih =>
    obtain ⟨_, name, hint, _, variadic, _⟩ := param
    refine RelatesIn.bind (RelatesIn.lift (hs.paramType doc name hint variadic)) fun t ht => ?_
    refine RelatesIn.bind (hs.lawful.bindVar ht name) fun _ _ => ?_
    exact RelatesIn.bind ih fun ts hts => RelatesIn.pure (List.forall_mem_cons.mpr ⟨ht, hts⟩)

theorem AtSite.variableType (hs : K.AtSite s ask) (name : String) :
    K.RelatesIn (variableType s name) (fun D => variableType (s.asking (ask D)) name) K.Good := by
  unfold Inference.variableType
  split
  · exact RelatesIn.pure hs.thisType
  · exact RelatesIn.bind getScope_good fun _ hscope => RelatesIn.pure (hscope.get hs.lawful name)

theorem AtSite.constantFetch (hs : K.AtSite s ask) (pos : Pos) (name : String) :
    K.RelatesTry (constantFetch s pos name) (fun D => constantFetch (s.asking (ask D)) pos name)
      K.Good := by
  unfold Inference.constantFetch
  cases hknown : knownConstants.lookup (Text.lower name) with
  | some t =>
    exact RelatesTry.pure (Ty.every_of_lookup hs.lawful.node
      (by simp [knownConstants, Ty.isPlain, Ty.parts]) hknown)
  | none =>
    refine RelatesTry.bind (RelatesTry.liftAnalysis (hs.requests.global name)) fun t ht => ?_
    cases t with
    | some t => exact RelatesTry.pure (ht t rfl)
    | none => exact RelatesTry.throw

theorem AtSite.castType (hs : K.AtSite s ask) (pos : Pos) (target : CastTarget) {t : Ty}
    (ht : K.Good t) :
    K.RelatesTry (castType pos target t) (fun _ => castType pos target t) K.Good := by
  have hleaf : ∀ {u : Ty}, u.isPlain = true → u.parts = [u] → K.Good u :=
    fun hp hl => Ty.every_leaf hs.lawful.node hp hl
  cases target with
  | int => exact RelatesTry.pure (hleaf rfl rfl)
  | float => exact RelatesTry.pure (hleaf rfl rfl)
  | string => exact RelatesTry.pure (hleaf rfl rfl)
  | bool => exact RelatesTry.pure (hleaf rfl rfl)
  | array =>
    refine RelatesTry.pure ?_
    split
    · exact ht
    · refine Ty.every_mapOf hs.lawful.node ?_ hs.unknown
      rintro k ⟨⟩
      exact hs.unknown
  | object =>
    cases t with
    | object name declared => exact RelatesTry.pure ht
    | _ => exact RelatesTry.pure (hleaf rfl rfl)
  | other name => exact RelatesTry.throw

theorem AtSite.callOnObject (hs : K.AtSite s ask) (pos : Pos) {name : String}
    {declared : Option String} (ht : K.Good (.object name declared)) (method : String) :
    K.RelatesTry (callOnObject s pos name declared method)
      (fun D => callOnObject (s.asking (ask D)) pos name declared method) K.Good := by
  refine RelatesTry.bind (RelatesTry.liftAnalysis (hs.lawful.recordedOf ht)) fun c _ => ?_
  cases c with
  | none => exact RelatesTry.throw
  | some c =>
    refine RelatesTry.ite (fun _ => RelatesTry.ite (fun _ => ?_) fun _ => ?_) fun _ => ?_
    · exact RelatesTry.pure hs.unknown
    · exact RelatesTry.throw
    · exact RelatesTry.liftAnalysis (hs.requests.method _ _)

theorem AtSite.callOnMember (hs : K.AtSite s ask) (method : String) (nullsafe : Bool) (t : Ty) :
    K.Relates (callOnMember s method nullsafe t)
      (fun D => callOnMember (s.asking (ask D)) method nullsafe t) K.Good := by
  unfold Inference.callOnMember
  split
  · exact hs.requests.method _ _
  · apply Relates.pure
    split
    · exact Ty.every_leaf hs.lawful.node rfl rfl
    · exact hs.unknown
  · exact Relates.pure hs.unknown

theorem AtSite.callMethod (hs : K.AtSite s ask) (pos : Pos) {receiver : Ty}
    (hr : K.Good receiver) (method : String) (nullsafe : Bool) :
    K.RelatesTry (callMethod s pos receiver method nullsafe)
      (fun D => callMethod (s.asking (ask D)) pos receiver method nullsafe) K.Good := by
  unfold Inference.callMethod
  split
  · exact hs.callOnObject pos hr method
  · refine RelatesTry.bind (RelatesTry.liftAnalysis (Relates.mapM _ fun m _ =>
      hs.callOnMember method nullsafe m)) fun ts hts => ?_
    exact RelatesTry.pure (Ty.every_unionOf hs.lawful.node hts)

theorem AtSite.fetchProperty (hs : K.AtSite s ask) (receiver : Ty) (name : String)
    (nullsafe : Bool) :
    K.Relates (fetchProperty s receiver name nullsafe)
      (fun D => fetchProperty (s.asking (ask D)) receiver name nullsafe) K.Good := by
  refine Relates.bind (Relates.mapM (Q := K.Good) _ fun m _ => ?_) fun ts hts =>
    Relates.pure (Ty.every_unionOf hs.lawful.node hts)
  unfold Inference.propertyOfMember
  split
  · exact hs.lawful.propertyType _ _
  · apply Relates.pure
    split
    · exact Ty.every_leaf hs.lawful.node rfl rfl
    · exact hs.unknown
  · exact Relates.pure hs.unknown

theorem AtSite.namedClass (hs : K.AtSite s ask) (pos : Pos) (name : String) :
    K.RelatesTry (namedClass s pos name) (fun D => namedClass (s.asking (ask D)) pos name)
      K.Good := by
  unfold Inference.namedClass
  simp only [Site.asking]
  repeat' split
  · rename_i c howner
    exact RelatesTry.pure (hs.lawful.instance_good (hs.owner c howner))
  · exact RelatesTry.throw
  · exact RelatesTry.liftAnalysis (hs.lawful.objectType _)
  · exact RelatesTry.throw
  · exact RelatesTry.liftAnalysis (hs.lawful.resolveName _ _)

theorem AtSite.classOf (hs : K.AtSite s ask) (pos : Pos) (ref : ClassRef) :
    K.RelatesTry (classOf s pos ref) (fun D => classOf (s.asking (ask D)) pos ref) K.Good := by
  cases ref with
  | name n => exact hs.namedClass pos n
  | var _ n =>
    refine RelatesTry.bind (RelatesTry.lift (hs.variableType n)) fun t ht => ?_
    split
    · exact RelatesTry.pure ht
    · exact RelatesTry.liftAnalysis (hs.lawful.resolveName _ _)
    · exact RelatesTry.throw

theorem AtSite.callStatic (hs : K.AtSite s ask) (pos : Pos) (ref : ClassRef) (method : String) :
    K.RelatesTry (callStatic s pos ref method)
      (fun D => callStatic (s.asking (ask D)) pos ref method) K.Good := by
  refine RelatesTry.bind (hs.classOf pos ref) fun t ht => ?_
  refine RelatesTry.bind (RelatesTry.liftAnalysis (hs.lawful.recordedOf ht)) fun c _ => ?_
  cases c with
  | none => exact RelatesTry.throw
  | some c =>
    refine RelatesTry.ite (fun _ => RelatesTry.ite (fun _ => ?_) fun _ => ?_) fun _ => ?_
    · exact RelatesTry.pure hs.unknown
    · exact RelatesTry.throw
    · exact RelatesTry.liftAnalysis (hs.requests.method _ _)

theorem AtSite.fetchStaticProperty (hs : K.AtSite s ask) (pos : Pos) (ref : ClassRef)
    (name : String) :
    K.RelatesTry (fetchStaticProperty s pos ref name)
      (fun D => fetchStaticProperty (s.asking (ask D)) pos ref name) K.Good := by
  refine RelatesTry.bind (hs.classOf pos ref) fun t _ => ?_
  split
  · exact RelatesTry.liftAnalysis (hs.lawful.propertyType _ _)
  · exact RelatesTry.pure hs.unknown

theorem AtSite.classConstant (hs : K.AtSite s ask) (pos : Pos) (ref : ClassRef) (name : String) :
    K.RelatesTry (classConstant s pos ref name)
      (fun D => classConstant (s.asking (ask D)) pos ref name) K.Good := by
  unfold Inference.classConstant
  split
  · split
    · exact RelatesTry.pure (Ty.every_leaf hs.lawful.node rfl rfl)
    · exact RelatesTry.bind (hs.namedClass pos _) fun _ _ =>
        RelatesTry.pure (Ty.every_leaf hs.lawful.node rfl rfl)
  · refine RelatesTry.bind (hs.classOf pos ref) fun t _ => ?_
    split
    · exact RelatesTry.liftAnalysis (hs.requests.constant _ _)
    · exact RelatesTry.throw

theorem AtSite.instantiate (hs : K.AtSite s ask) (pos : Pos) (ref : ClassRef) :
    K.RelatesTry (instantiate s pos ref) (fun D => instantiate (s.asking (ask D)) pos ref)
      K.Good := by
  cases ref with
  | name n =>
    unfold Inference.instantiate
    simp only
    split
    · exact hs.namedClass pos n
    · exact RelatesTry.liftAnalysis (hs.lawful.resolveName _ _)
  | var _ n =>
    refine RelatesTry.bind (RelatesTry.lift (hs.variableType n)) fun t ht => ?_
    split
    · exact RelatesTry.liftAnalysis (hs.lawful.resolveName _ _)
    · exact RelatesTry.pure ht
    · exact RelatesTry.pure hs.unknown

theorem AtSite.callFunction (hs : K.AtSite s ask) (pos : Pos) (name : String) :
    K.RelatesTry (callFunction s pos name) (fun D => callFunction (s.asking (ask D)) pos name)
      K.Good := by
  unfold Inference.callFunction
  refine RelatesTry.ite (fun _ => RelatesTry.liftAnalysis (hs.requests.function _)) fun _ => ?_
  simp only [Site.asking]
  split
  · rename_i hnative
    exact RelatesTry.pure (hs.lawful.native_good hnative)
  · exact RelatesTry.throw

theorem AtSite.callValue (hs : K.AtSite s ask) {callee : Ty} (hc : K.Good callee) :
    K.Good (callValue callee) := by
  apply Ty.every_unionOf hs.lawful.node
  intro t ht
  obtain ⟨m, hm, rfl⟩ := List.mem_map.mp ht
  have hmgood := Ty.Every.member hc hm
  cases m with
  | function result params => exact (Ty.every_function.mp hmgood).2.1
  | _ => exact hs.unknown

theorem AtSite.closureType (hs : K.AtSite s ask) (hint : Option TypeHint) {params : List Ty}
    (hp : ∀ t ∈ params, K.Good t) {result : Ty} (hr : K.Good result) :
    K.Relates (closureType s hint params result)
      (fun D => closureType (s.asking (ask D)) hint params result) K.Good := by
  have hend : ∀ t, K.Good t → K.Keeps (pure (Ty.function t params)) K.Good :=
    fun t ht => Relates.pure (Ty.every_functionOf hs.lawful.node ht hp)
  unfold Inference.closureType
  by_cases hcond : result.isUnknown && hint.isSome
  · simp only [hcond, if_true]
    exact Relates.bind (hs.lawful.typeOfHint s.context s.selfName hint) hend
  · simp only [hcond]
    exact hend result hr

theorem AtSite.documentedItem (hs : K.AtSite s ask) (doc : Option String) {value : Ty}
    (hv : K.Good value) :
    K.Relates (documentedItem s doc value)
      (fun D => documentedItem (s.asking (ask D)) doc value) fun i => K.Good i.value := by
  cases doc with
  | none => exact Relates.pure hv
  | some d =>
    refine Relates.bind (hs.lawful.readDoc _) fun b _ => ?_
    split
    · exact Relates.pure hv
    · split
      · exact Relates.pure hv
      · exact Relates.bind (hs.lawful.typeOfText s.context s.selfName _) fun t ht =>
          Relates.pure ht

theorem AtSite.applyDoc (hs : K.AtSite s ask) (doc : Option String) (e : Expr) :
    K.RelatesIn (applyDoc s doc e) (fun D => applyDoc (s.asking (ask D)) doc e)
      fun _ => True := by
  unfold Inference.applyDoc
  split
  · refine RelatesIn.bind (RelatesIn.lift (hs.lawful.readDoc _)) fun b _ => ?_
    split
    · split
      · exact RelatesIn.bind (RelatesIn.lift (hs.lawful.typeOfText s.context s.selfName _))
          fun t ht => hs.lawful.bindVar ht _
      · exact RelatesIn.pure trivial
    · exact RelatesIn.pure trivial
  · exact RelatesIn.pure trivial

end Correspondence

end PhpTypes.Inference
