import PhpTypes.Proofs.Compliance
import PhpTypes.Proofs.Runs

/-!
# What stops an analysis

A doc comment cannot be read just if one of its lines starts with an at sign that no tag name
follows. Nothing but such a comment in the index stops a request.
-/

namespace PhpTypes

namespace Doc

/-- A line with an at sign that no tag name follows. -/
def isMalformed (line : List Char) : Bool :=
  Block.startsTag line && !(line.drop 1).head?.any isTagChar

private theorem Tag.parse_isError {line : List Char} :
    (∃ t, Tag.parse line = .error t) ↔ (line.drop 1).head?.any isTagChar = false := by
  unfold Tag.parse
  simp only
  cases hrest : line.drop 1 with
  | nil => simp
  | cons c cs =>
    cases hc : isTagChar c with
    | false => simp [hc]
    | true =>
      simp only [List.takeWhile_cons, hc, if_true, List.isEmpty_cons, Bool.false_eq_true, if_false,
        List.head?_cons, Option.any_some]
      constructor
      · rintro ⟨t, ht⟩
        split at ht <;> cases ht
      · rintro ⟨⟩

namespace Block

/-- Lines that are joined to a line with an at sign do not give it a tag name. -/
theorem joined_head {line : List Char} (hline : startsTag line = true) (others : List (List Char)) :
    ((joinLines (line :: others)).drop 1).head?.any isTagChar =
      (line.drop 1).head?.any isTagChar := by
  obtain ⟨rest, rfl⟩ : ∃ rest, line = '@' :: rest := by
    cases line with
    | nil => simp [startsTag] at hline
    | cons c rest =>
      simp only [startsTag, List.head?_cons, beq_iff_eq, Option.some.injEq] at hline
      exact ⟨rest, by rw [hline]⟩
  cases others with
  | nil => simp [joinLines, List.intercalate]
  | cons next others =>
    cases rest with
    | nil =>
      have hblank : isTagChar ' ' = false := by decide
      simp [joinLines, List.intercalate, hblank]
    | cons c cs => simp [joinLines, List.intercalate]

/-- The lines of a tag start with a line that has an at sign, and every such line starts those of a
tag. -/
theorem exists_mem_tagLines {P : List Char → Prop} {lines : List (List Char)}
    (hP : ∀ line others, startsTag line = true → (P (joinLines (line :: others)) ↔ P line)) :
    (∃ ls ∈ tagLines lines, P (joinLines ls)) ↔ ∃ line ∈ lines, startsTag line = true ∧ P line := by
  induction lines with
  | nil => simp [tagLines]
  | cons line rest ih =>
    rw [tagLines]
    cases hline : startsTag line with
    | false => simp [hline, ih]
    | true => simp [hline, ih, hP line _ hline]

private theorem mapM_isError {α β ε : Type} {f : α → Except ε β} {as : List α} :
    (∃ e, as.mapM f = .error e) ↔ ∃ a ∈ as, ∃ e, f a = .error e := by
  induction as with
  | nil => simp [pure, Except.pure]
  | cons a as ih =>
    simp only [List.mapM_cons, List.mem_cons, exists_eq_or_imp, ← ih]
    cases f a with
    | error e => simp [bind, Except.bind]
    | ok b =>
      cases as.mapM f with
      | error e => simp [bind, Except.bind]
      | ok bs => simp [bind, Except.bind, pure, Except.pure]

/-- A comment cannot be read just if one of its lines is malformed. -/
theorem parse_isError {text : String} : (∃ t, parse (some text) = .error t) ↔
    ∃ line ∈ contentLines text, isMalformed line = true := by
  have htags : (∃ ls ∈ tagLines (contentLines text), ∃ t, Tag.parse (joinLines ls) = .error t) ↔
      ∃ line ∈ contentLines text, startsTag line = true ∧ ∃ t, Tag.parse line = .error t := by
    refine exists_mem_tagLines (P := fun line => ∃ t, Tag.parse line = .error t) ?_
    intro line others hline
    rw [Tag.parse_isError, Tag.parse_isError, joined_head hline]
  simp only [isMalformed, Bool.and_eq_true, Bool.not_eq_true', ← Tag.parse_isError, ← htags,
    ← mapM_isError]
  simp only [parse]
  cases htext : text.isEmpty with
  | true =>
    obtain rfl : text = "" := String.isEmpty_iff.mp htext
    have hlines : tagLines (contentLines "") = [] := rfl
    simp [hlines, pure, Except.pure]
  | false =>
    cases (tagLines (contentLines text)).mapM fun ls => Tag.parse (joinLines ls) with
    | error e => simp [bind, Except.bind]
    | ok tags => simp [bind, Except.bind, pure, Except.pure]

end Block

end Doc

namespace Index

open Source

variable {i : Index} {n : Node}

private theorem mem_nodes_of_class {c : ClassLike} (hc : c ∈ i.classes.values)
    (hn : n ∈ classNodes c) : n ∈ i.nodes := by
  simp only [nodes, List.mem_append, List.mem_flatMap]
  exact .inl (.inl ⟨c, hc, hn⟩)

private theorem mem_nodes_of_method {c : ClassLike} {m : Method} (hc : c ∈ i.classes.values)
    (hm : m ∈ c.methods) (hn : n ∈ methodNodes m) : n ∈ i.nodes := by
  apply mem_nodes_of_class hc
  simp only [classNodes, List.mem_cons, List.mem_append, List.mem_flatMap]
  exact .inr (.inl (.inl ⟨m, hm, hn⟩))

private theorem mem_nodes_of_property {c : ClassLike} {p : Property} (hc : c ∈ i.classes.values)
    (hp : p ∈ c.properties) : .property p ∈ i.nodes := by
  apply mem_nodes_of_class hc
  simp only [classNodes, List.mem_cons, List.mem_append, List.mem_flatMap]
  exact .inr (.inl (.inr ⟨p, hp, List.mem_cons_self⟩))

private theorem mem_nodes_of_constant {c : ClassLike} {d : Constant} (hc : c ∈ i.classes.values)
    (hd : d ∈ c.constants) (hn : n ∈ exprNodes d.value) : n ∈ i.nodes := by
  apply mem_nodes_of_class hc
  simp only [classNodes, List.mem_cons, List.mem_append, List.mem_flatMap]
  exact .inr (.inr ⟨d, hd, List.mem_cons_of_mem _ hn⟩)

private theorem mem_nodes_of_function {f : Function} (hf : f ∈ i.functions.values)
    (hn : n ∈ functionNodes f) : n ∈ i.nodes := by
  simp only [nodes, List.mem_append, List.mem_flatMap]
  exact .inl (.inr ⟨f, hf, hn⟩)

private theorem mem_nodes_of_global {d : Constant} (hd : d ∈ i.constants.values)
    (hn : n ∈ exprNodes d.value) : n ∈ i.nodes := by
  simp only [nodes, List.mem_append, List.mem_flatMap]
  exact .inr ⟨d, hd, List.mem_cons_of_mem _ hn⟩

end Index

namespace Inference

open Source Contract

/-- The comment of a node of the index that cannot be read. -/
def Unreadable (index : Index) (e : Escape) : Prop :=
  ∃ node ∈ index.nodes, ∃ pos text t, node.comment? = some (pos, text) ∧
    Doc.Block.parse (some text) = .error t ∧ e = .malformedTag t

/-- Bodies of the index are evaluated, and only its comments can stop that. -/
def Contract.declared (p : Program) : Contract where
  memory m := m.RecordsFrom p
  scope _ := True
  escapes := Unreadable p.index
  admits node := node ∈ p.index.nodes

namespace Contract

variable {p : Program}

theorem declared_read {node : Node} {pos : Pos} {text : String} (hnode : node ∈ p.index.nodes)
    (hcomment : node.comment? = some (pos, text)) :
    (declared p).Holds (readDoc (some text)) fun _ => True := by
  unfold readDoc
  cases hparse : Doc.Block.parse (some text) with
  | ok block => exact Holds.pure trivial
  | error t => exact Holds.throw ⟨node, hnode, pos, text, t, hcomment, hparse, rfl⟩

theorem declared_recordedAs (name : String) :
    (declared p).Holds (classDecl p name) fun c => ∀ d ∈ c, RecordedAs p name d := by
  intro m hm
  cases hres : p.index.resolve name with
  | none =>
    rw [classDecl_run_none hres]
    exact ⟨hm, by simp⟩
  | some c =>
    obtain ⟨r, hr, hrun⟩ := classDecl_run_some hres m
    have hmeet : (m.meet c).RecordsFrom p := Memory.RecordsFrom.meet hm (Index.resolve_mem hres)
    obtain ⟨hdecl, hkey⟩ := hmeet _ r hr
    rw [hrun]
    refine ⟨hmeet, ?_⟩
    rintro d ⟨⟩
    exact ⟨hdecl, c, hres, hkey⟩

theorem declared_classDecl (name : String) :
    (declared p).Holds (classDecl p name) fun c => ∀ d ∈ c, d ∈ p.index.classes.values :=
  (declared_recordedAs name).weaken fun _ hc d hd => (hc d hd).mem

theorem declared_recorded (declaredName : Option String) :
    (declared p).Holds (recordedClass? p declaredName) fun _ => True := by
  cases declaredName with
  | none => exact Holds.pure trivial
  | some name =>
    intro m hm
    cases hrec : m.records.get? (Text.lower name) with
    | some r =>
      rw [recordedClass?_run_recorded hrec]
      exact ⟨hm, trivial⟩
    | none =>
      cases hget : p.index.classes.get? (nameKey name) with
      | none =>
        rw [recordedClass?_run_undeclared hrec hget]
        exact ⟨hm, trivial⟩
      | some c =>
        obtain ⟨r, -, hrun⟩ := recordedClass?_run_declared hrec hget
        rw [hrun]
        exact ⟨Memory.RecordsFrom.meet hm (Dict.mem_values_of_get? hget), trivial⟩

theorem declared_ownProperty? (context : Context) {owner : ClassLike}
    (howner : owner ∈ p.index.classes.values) (name : String) :
    (declared p).Holds (ownProperty? p context owner name) fun _ => True := by
  have hclass : ∀ name, (declared p).Holds (classDecl p name) fun _ => True :=
    fun name => (declared_classDecl name).any
  unfold ownProperty?
  simp only
  cases hfind : owner.properties.find? fun d => d.name == name with
  | some property =>
    have hmem : property ∈ owner.properties := List.mem_of_find?_eq_some hfind
    have hnode : .property property ∈ p.index.nodes := Index.mem_nodes_of_property howner hmem
    refine Holds.bind (P := fun _ => True) ?_ fun _ _ => Holds.pure trivial
    refine (readComment declared_read hnode rfl).bind fun block _ => ?_
    split
    · split
      · exact hintType hclass _ _ _
      · exact textType hclass _ _ _
    · exact hintType hclass _ _ _
  | none =>
    have hnode : .classLike owner ∈ p.index.nodes :=
      Index.mem_nodes_of_class howner List.mem_cons_self
    refine (readComment declared_read hnode rfl).bind fun block _ => ?_
    split
    · exact (textType hclass _ _ _).bind fun _ _ => Holds.pure trivial
    · exact Holds.pure trivial

theorem declared_propertyAlong (context : Context) (name : String) {owners : List ClassLike}
    (howners : ∀ c ∈ owners, c ∈ p.index.classes.values) :
    (declared p).Holds (propertyAlong p context name owners) fun _ => True := by
  induction owners with
  | nil => exact Holds.pure trivial
  | cons owner rest ih =>
    rw [List.forall_mem_cons] at howners
    refine (declared_ownProperty? context howners.1 name).bind fun t _ => ?_
    cases t with
    | some t => exact Holds.pure trivial
    | none => exact ih howners.2

theorem declared_propertyType (className name : String) :
    (declared p).Holds (propertyType p className name) fun _ => True := by
  refine (declared_classDecl className).bind fun c hc => ?_
  cases c with
  | none => exact Holds.pure trivial
  | some c => exact declared_propertyAlong _ _ fun d hd => lineage_subset (hc c rfl) hd

theorem declared_fits {ask : Requests} (hask : (declared p).HoldsRequests ask)
    (owner : Option ClassLike) (context : Context) :
    (declared p).Fits ⟨p, ask, owner, context⟩ where
  report _ hm := hm
  write _ hm := hm
  bound _ _ _ := trivial
  unbound _ _ _ _ := trivial
  read := declared_read
  classDecl name := (declared_classDecl name).any
  recorded := declared_recorded
  property := declared_propertyType
  requests := hask

/-! Routines and constants. -/

theorem declared_setEntry (slot : Slot) (e : Entry) :
    (declared p).Holds (setEntry slot e) fun _ => True :=
  (Holds.modifies fun _ hm => Memory.RecordsFrom.setEntry hm slot e).bind fun _ _ => Holds.take _

theorem declared_note (e : Event) : (declared p).Holds (note e) fun _ => True :=
  Holds.modifies fun _ hm => hm

theorem Holds.getEntry {C : Contract} (slot : Slot) : C.Holds (getEntry slot) fun _ => True :=
  fun _ hm => ⟨hm, trivial⟩

/-- What is evaluated may be stopped as before. -/
theorem Holds.during {C : Contract} {α : Type} (a : Activity) {x : Analysis α}
    (hx : C.Holds x fun _ => True) : C.Holds (during a x) fun _ => True := by
  refine (Holds.take _).bind fun _ _ => ?_
  refine (Holds.tryCatch hx fun e he => ?_).bind fun _ _ => ?_
  · exact (Holds.take _).bind fun _ _ => Holds.throw he
  · exact (Holds.take _).bind fun _ _ => Holds.pure trivial

/-- Comments give no faults that could be caught. -/
theorem declared_catchFault {x : Analysis Ty} (hx : (declared p).Holds x fun _ => True) :
    (declared p).Holds (catchFault x) fun r => ∃ t, r = .ok t := by
  unfold catchFault
  refine Holds.tryCatch (hx.bind fun t _ => Holds.pure ⟨t, rfl⟩) fun e he => ?_
  obtain ⟨_, _, _, _, t, _, _, rfl⟩ := id he
  exact Holds.throw he

theorem declared_findType (slot : Slot) (label : String) (pos : Pos) {infer : Analysis Ty}
    {declare : Ty → Analysis Ty} (hinfer : (declared p).Holds infer fun _ => True)
    (hdeclare : ∀ t, (declared p).Holds (declare t) fun _ => True) :
    (declared p).Holds (findType (fun _ => none) slot label pos infer declare) fun _ => True := by
  unfold findType
  rw [raise?_none_bind]
  refine (declared_catchFault hinfer).bind ?_
  rintro _ ⟨t, rfl⟩
  simp only [raise?_none_bind]
  refine (Holds.getEntry slot).bind fun _ _ => ?_
  exact (hdeclare _).bind fun _ _ => Holds.pure trivial

theorem declared_finishEntry (slot : Slot) (label : String) (t : Option Ty) :
    (declared p).Holds (finishEntry slot label t) fun _ => True := by
  cases t with
  | none =>
    refine (Holds.getEntry slot).bind fun _ _ => ?_
    exact (declared_setEntry _ _).bind fun _ _ => Holds.pure trivial
  | some t =>
    refine (Holds.getEntry slot).bind fun _ _ => ?_
    refine (declared_setEntry _ _).bind fun _ _ => ?_
    exact (declared_note _).bind fun _ _ => Holds.pure trivial

theorem declared_resolveEntry (slot : Slot) (label : String) (pos : Pos) {infer : Analysis Ty}
    {declare : Ty → Analysis Ty} (hinfer : (declared p).Holds infer fun _ => True)
    (hdeclare : ∀ t, (declared p).Holds (declare t) fun _ => True) :
    (declared p).Holds (resolveEntry (fun _ => none) slot label pos infer declare)
      fun _ => True := by
  refine (Holds.getEntry slot).bind fun entry _ => ?_
  cases entry.state with
  | resolved t => exact Holds.pure trivial
  | inProgress =>
    refine (declared_note _).bind fun _ _ => ?_
    refine (Holds.take _).bind fun _ _ => ?_
    exact (declared_setEntry _ _).bind fun _ _ => Holds.pure trivial
  | unrequested =>
    refine (declared_note _).bind fun _ _ => ?_
    refine (declared_setEntry _ _).bind fun _ _ => ?_
    refine (Holds.during _ (declared_findType slot label pos hinfer hdeclare)).bind fun t _ => ?_
    exact declared_finishEntry slot label t

theorem declared_unlessActive (key : ConstantKey) {x : Analysis Ty}
    (hx : (declared p).Holds x fun _ => True) :
    (declared p).Holds (unlessActive key x) fun _ => True := by
  have henter : (declared p).Holds (modify fun m => m.activate key : Analysis PUnit)
      fun _ => True := Holds.modifies fun _ hm => hm
  have hleave : (declared p).Holds (modify fun m => m.deactivate key : Analysis PUnit)
      fun _ => True := Holds.modifies fun _ hm => hm
  refine Holds.get.bind fun m _ => ?_
  split
  · exact (Holds.take _).bind fun _ _ => Holds.pure trivial
  · refine henter.bind fun _ _ => ?_
    refine (Holds.tryCatch (Holds.during _ hx) fun e he => ?_).bind fun t _ => ?_
    · exact hleave.bind fun _ _ => Holds.throw he
    · exact hleave.bind fun _ _ => Holds.pure trivial

/-- A routine whose comment and body stand in the index. -/
structure Declares (p : Program) (r : Routine) : Prop where
  doc : (declared p).Holds (readDoc r.doc) fun _ => True
  body : ∀ b ∈ r.body, ∀ n ∈ bodyNodes b.stmts, n ∈ p.index.nodes

theorem declares_of_routineAt {slot : Slot} {r : Routine} (hr : RoutineAt p slot r) :
    Declares p r := by
  cases hr with
  | @method owner recorded name m howner hm _ =>
    have hmem : m ∈ owner.methods := List.mem_of_find?_eq_some hm
    have hnodes : ∀ n ∈ methodNodes m, n ∈ p.index.nodes :=
      fun _ => Index.mem_nodes_of_method howner hmem
    refine ⟨readComment declared_read (hnodes _ List.mem_cons_self) rfl, fun b hb n hn => ?_⟩
    apply hnodes
    have hbody : m.body = some b := hb
    simp only [methodNodes, hbody, Option.map_some, Option.getD_some, List.mem_cons,
      List.mem_append]
    exact .inr (.inr hn)
  | @function f hf =>
    have hnodes : ∀ n ∈ functionNodes f, n ∈ p.index.nodes :=
      fun _ => Index.mem_nodes_of_function hf
    refine ⟨readComment declared_read (hnodes _ List.mem_cons_self) rfl, ?_⟩
    rintro b ⟨⟩ n hn
    apply hnodes
    simp only [functionNodes, List.mem_cons, List.mem_append]
    exact .inr (.inr hn)

theorem Declares.infer {r : Routine} (hr : Declares p r) {ask : Requests}
    (hask : (declared p).HoldsRequests ask) : (declared p).Holds (r.infer p ask) fun _ => True := by
  have hs : (declared p).Fits (r.site p ask) := declared_fits hask r.owner r.context
  have hevaluate : (declared p).HoldsIn (r.evaluate p ask) fun _ => True := by
    refine (HoldsIn.lift hr.doc).bind fun block _ => ?_
    refine (hs.bindParams block r.params).bind fun _ _ => ?_
    cases hbody : r.body with
    | none => exact HoldsIn.pure trivial
    | some b =>
      exact (execAll_complies b.stmts _ hs (hr.body b hbody)).bind fun ended _ =>
        HoldsIn.bodyType ended
  exact Holds.map (hevaluate ⟨.empty, []⟩ trivial)

theorem Declares.declare {r : Routine} (hr : Declares p r) (inferred : Ty) :
    (declared p).Holds (r.declare p inferred) fun _ => True := by
  have hclass : ∀ name, (declared p).Holds (classDecl p name) fun _ => True :=
    fun name => (declared_classDecl name).any
  refine hr.doc.bind fun block _ => ?_
  repeat' split
  · exact textType hclass _ _ _
  · exact hintType hclass _ _ _
  · exact Holds.pure trivial
  · exact hintType hclass _ _ _
  · exact Holds.pure trivial

theorem declared_routine {ask : Requests} (hask : (declared p).HoldsRequests ask) {slot : Slot}
    {r : Routine} (hr : RoutineAt p slot r) :
    (declared p).Holds (Policy.remember.routine slot r.label r.pos (r.infer p ask) (r.declare p))
      fun _ => True := by
  have hdeclares := declares_of_routineAt hr
  simp only [Policy.remember, Policy.keeping, raise?_none_bind]
  exact declared_resolveEntry slot r.label r.pos (hdeclares.infer hask) hdeclares.declare

theorem declared_constant {ask : Requests} (hask : (declared p).HoldsRequests ask)
    (key : ConstantKey) (owner : Option ClassLike) (context : Context) {e : Expr}
    (he : ∀ n ∈ exprNodes e, n ∈ p.index.nodes) :
    (declared p).Holds (Policy.remember.constant key (evalAlone ⟨p, ask, owner, context⟩ e))
      fun _ => True := by
  have hs : (declared p).Fits ⟨p, ask, owner, context⟩ := declared_fits hask owner context
  simp only [Policy.remember, Policy.keeping, raise?_none_bind]
  apply declared_unlessActive
  exact Holds.map (hs.settle (eval_complies e _ hs he) ⟨.empty, []⟩ trivial)

/-! Requests. -/

theorem declared_answers {ask : Requests} (hask : (declared p).HoldsRequests ask) :
    (declared p).HoldsRequests (answers .remember p ask) where
  method := by
    intro className name
    refine (declared_classDecl className).bind fun c hc => ?_
    cases c with
    | none => exact Holds.pure trivial
    | some c =>
      simp only
      split
      · exact Holds.pure trivial
      · rename_i owner m hfind
        obtain ⟨howner, hm⟩ := findMethod_owner (hc c rfl) hfind
        refine (declared_recordedAs owner.fullName).bind fun recorded hrecorded => ?_
        cases recorded with
        | none => exact Holds.pure trivial
        | some recorded => exact declared_routine hask (.method howner hm (hrecorded recorded rfl))
  function := by
    intro name
    simp only [answers, functionType]
    split
    · exact Holds.pure trivial
    · rename_i f hf
      exact declared_routine hask (.function (Index.resolveFunction_mem hf))
  constant := by
    intro className name
    refine (declared_classDecl className).bind fun c hc => ?_
    cases c with
    | none => exact Holds.pure trivial
    | some c =>
      simp only
      split
      · exact Holds.pure trivial
      · rename_i owner d hfind
        obtain ⟨howner, hd, rfl⟩ := findConstant_owner (hc c rfl) hfind
        refine (declared_classDecl owner.fullName).bind fun recorded _ => ?_
        exact declared_constant hask _ recorded _ fun _ => Index.mem_nodes_of_constant howner hd
  global := by
    intro name
    simp only [answers, globalType]
    split
    · exact Holds.pure trivial
    · rename_i d hd
      have hmem : d ∈ p.index.constants.values := Dict.mem_values_of_get? hd
      refine Holds.bind (declared_constant hask _ none _ fun _ => Index.mem_nodes_of_global hmem)
        fun t _ => Holds.pure trivial

theorem declared_requests (d : Nat) :
    (declared p).HoldsRequests (Machine.perfect.requests p d) := by
  induction d with
  | zero =>
    have hunanswered : ∀ {α : Type} (answer : α),
        (declared p).Holds (unanswered answer) fun _ => True :=
      fun _ => (Holds.take _).bind fun _ _ => Holds.pure trivial
    exact ⟨fun _ _ => hunanswered _, fun _ => hunanswered _, fun _ _ => hunanswered _,
      fun _ => hunanswered _⟩
  | succ d ih => exact declared_answers ih

theorem Holds.request {C : Contract} {M : Machine} {α : Type} {ask : Requests → Analysis α}
    {Q : α → Prop} (h : ∀ d, C.Holds (ask (M.requests p d)) Q) :
    C.Holds (M.request p ask) Q := by
  intro m hm
  rw [Correspondence.request_run]
  exact h _ m hm

theorem declared_outerRequests : (declared p).HoldsRequests (Machine.perfect.outerRequests p) :=
  ⟨fun c name => Holds.request fun d => (declared_requests d).method c name,
    fun name => Holds.request fun d => (declared_requests d).function name,
    fun c name => Holds.request fun d => (declared_requests d).constant c name,
    fun name => Holds.request fun d => (declared_requests d).global name⟩

theorem declared_perform (q : Query) : (declared p).Holds (q.perform p) fun _ => True := by
  have hsome : ∀ {x : Analysis Ty}, ((declared p).Holds x fun _ => True) →
      (declared p).Holds (do return some (← x)) fun _ => True :=
    fun hx => hx.bind fun _ _ => Holds.pure trivial
  cases q with
  | analyze c =>
    refine hsome ((declared_classDecl c).bind fun decl _ => ?_)
    cases decl with
    | none =>
      have hwarn : ∀ d, (declared p).Holds (warn d) fun _ => True :=
        fun _ => Holds.modifies fun _ hm => hm
      exact (hwarn _).bind fun _ _ => Holds.pure trivial
    | some decl =>
      refine (Holds.forM _ fun m _ => ?_).bind fun _ _ => Holds.pure trivial
      exact (declared_outerRequests.method _ m).bind fun _ _ => Holds.pure trivial
  | method c name => exact hsome (declared_outerRequests.method c name)
  | function name => exact hsome (declared_outerRequests.function name)
  | property c name => exact hsome (declared_propertyType c name)
  | constant c name => exact hsome (declared_outerRequests.constant c name)
  | global name => exact declared_outerRequests.global name

/-- Any analysis keeps the contract that asks for nothing. -/
def anything : Contract := ⟨fun _ => True, fun _ => True, fun _ => True, fun _ => True⟩

private theorem Holds.anything {α : Type} (x : Analysis α) : anything.Holds x fun _ => True :=
  Holds.free (fun _ => trivial) (fun _ => trivial) x

/-- Only a constant that is not declared has no answer. -/
theorem perform_answers (q : Query) : anything.Holds (q.perform p) fun t =>
    t = none → ∃ name, q = .global name ∧ p.index.resolveConstant name = none := by
  have hsome : ∀ {x : Analysis Ty} {P : Prop},
      anything.Holds (do return some (← x)) fun t => t = none → P :=
    fun {x} _ => (Holds.anything x).bind fun _ _ => Holds.pure (by rintro ⟨⟩)
  cases q with
  | global name =>
    change anything.Holds (Machine.perfect.request p fun r => r.globalType name) _
    refine Holds.request fun d => ?_
    cases d with
    | zero => exact (Holds.anything _).bind fun _ _ => Holds.pure (by rintro ⟨⟩)
    | succ d =>
      simp only [Machine.requests, nestedRequests, answers, globalType]
      split
      · rename_i hnone
        exact Holds.pure fun _ => ⟨name, rfl, hnone⟩
      · exact (Holds.anything _).bind fun _ _ => Holds.pure (by rintro ⟨⟩)
  | _ => exact hsome

end Contract

theorem run_recordsFrom (p : Program) (cs : List Command) : (run p cs).memory.RecordsFrom p :=
  runOn_keeps (I := fun _ m => m.RecordsFrom p) (Memory.recordsFrom_reset p)
    (fun _ m q hm => (Contract.declared_perform q m hm).1) cs

/-- After every run, what stops a request is a malformed tag in a comment of the index. If no line
of a comment of the index is malformed, every request has an answer, which is a type unless a
constant is asked for that is not declared. -/
theorem perform_stopped_by_comment (p : Program) (cs : List Command) (q : Query) :
    (∀ e, ((q.perform p).run (run p cs).memory).result = .error e →
      ∃ t node pos text, e = .malformedTag t ∧ node ∈ p.index.nodes ∧
        node.comment? = some (pos, text) ∧ Doc.Block.parse (some text) = .error t ∧
        ∃ line ∈ Doc.Block.contentLines text, Doc.isMalformed line = true) ∧
    ((∀ node ∈ p.index.nodes, ∀ pos text, node.comment? = some (pos, text) →
        ∀ line ∈ Doc.Block.contentLines text, Doc.isMalformed line = false) →
      ∃ answer, ((q.perform p).run (run p cs).memory).result = .ok answer ∧
        (answer = none → ∃ name, q = .global name ∧ p.index.resolveConstant name = none)) := by
  have hholds := (Contract.declared_perform q _ (run_recordsFrom p cs)).2
  have hanswers := (Contract.perform_answers (p := p) q (run p cs).memory trivial).2
  cases hr : ((q.perform p).run (run p cs).memory).result with
  | ok answer =>
    rw [hr] at hanswers
    exact ⟨by rintro e ⟨⟩, fun _ => ⟨answer, rfl, hanswers⟩⟩
  | error e =>
    rw [hr] at hholds
    obtain ⟨node, hnode, pos, text, t, hcomment, hparse, rfl⟩ := hholds
    obtain ⟨line, hline, hbad⟩ := Doc.Block.parse_isError.mp ⟨t, hparse⟩
    constructor
    · rintro _ ⟨⟩
      exact ⟨t, node, pos, text, rfl, hnode, hcomment, hparse, line, hline, hbad⟩
    · intro hgood
      rw [hgood node hnode pos text hcomment line hline] at hbad
      cases hbad

/-- A function that returns a number, with a comment. -/
def commentedProgram (comment : String) : Program :=
  ⟨Index.empty.addTop (.functionDecl ⟨⟨1, 1⟩, some comment, "f", [], none,
    ⟨⟨1, 1⟩, [.returns ⟨1, 1⟩ none (some (.int ⟨1, 1⟩ 1))]⟩, .global⟩), .empty⟩

/-- A comment that stops a request is found in the index, and another one stops no request. -/
theorem commentedProgram_stopped :
    (∃ t node pos text,
      (((Query.function "f").perform (commentedProgram "/** @ */")).run
        (run (commentedProgram "/** @ */") []).memory).result = .error (.malformedTag t) ∧
      node ∈ (commentedProgram "/** @ */").index.nodes ∧ node.comment? = some (pos, text) ∧
      ∃ line ∈ Doc.Block.contentLines text, Doc.isMalformed line = true) ∧
    ∃ answer, (((Query.function "f").perform (commentedProgram "/** @return string */")).run
      (run (commentedProgram "/** @return string */") [.ask (.global "g")]).memory).result =
        .ok answer := by
  constructor
  · have hstopped : (((Query.function "f").perform (commentedProgram "/** @ */")).run
        (run (commentedProgram "/** @ */") []).memory).result = .error (.malformedTag ⟨"@"⟩) := rfl
    obtain ⟨t, node, pos, text, he, hnode, hcomment, -, hline⟩ :=
      (perform_stopped_by_comment _ _ _).1 _ hstopped
    exact ⟨t, node, pos, text, he ▸ hstopped, hnode, hcomment, hline⟩
  · have hgood : ∀ node ∈ (commentedProgram "/** @return string */").index.nodes, ∀ pos text,
        node.comment? = some (pos, text) →
        ∀ line ∈ Doc.Block.contentLines text, Doc.isMalformed line = false := by
      intro node hnode pos text hcomment
      have hnodes : (commentedProgram "/** @return string */").index.nodes.filterMap Node.comment? =
          [(⟨1, 1⟩, "/** @return string */")] := rfl
      have hmem := List.mem_filterMap.mpr ⟨node, hnode, hcomment⟩
      rw [hnodes, List.mem_singleton] at hmem
      cases hmem
      decide
    obtain ⟨answer, hanswer, -⟩ := (perform_stopped_by_comment _ [.ask (.global "g")] _).2 hgood
    exact ⟨answer, hanswer⟩

end Inference

end PhpTypes
