import PhpTypes.Inference.Request
import PhpTypes.Proofs.Evaluation
import PhpTypes.Proofs.Lineage

/-!
# Answers to requests

How a request is answered depends on what is done when a routine or a constant is met. If two ways
to do that correspond, then so do the answers to all requests.
-/

namespace PhpTypes

namespace Inference

open Source

theorem findMethod_owner {index : Index} {c owner : ClassLike} {name : String} {m : Method}
    (hc : c ∈ index.classes.values) (h : findMethod index c name = some (owner, m)) :
    owner ∈ index.classes.values ∧ findIn owner name = some m := by
  obtain ⟨o, ho, hm⟩ := List.exists_of_findSome?_eq_some h
  obtain ⟨m', hm', heq⟩ := Option.map_eq_some_iff.mp hm
  cases heq
  exact ⟨lineage_subset hc ho, hm'⟩

theorem findConstant_owner {index : Index} {c owner : ClassLike} {name : String} {d : Constant}
    (hc : c ∈ index.classes.values) (h : findConstant index c name = some (owner, d)) :
    owner ∈ index.classes.values ∧ d ∈ owner.constants ∧ d.name = name := by
  obtain ⟨o, ho, hd⟩ := List.exists_of_findSome?_eq_some h
  obtain ⟨d', hd', heq⟩ := Option.map_eq_some_iff.mp hd
  cases heq
  have hname : (d.name == name) = true :=
    List.find?_some (p := fun d : Constant => d.name == name) hd'
  exact ⟨lineage_subset hc ho, List.mem_of_find?_eq_some hd', by simpa using hname⟩

/-- The routine of an entry. -/
inductive RoutineAt (p : Program) : Slot → Routine → Prop where
  | method {owner recorded : ClassLike} {name : String} {m : Method}
      (howner : owner ∈ p.index.classes.values) (hm : findIn owner name = some m)
      (hrecorded : RecordedAs p owner.fullName recorded) :
      RoutineAt p (.method (classKey recorded) (Text.lower m.name)) (.ofMethod recorded owner m)
  | function {f : Function} (hf : f ∈ p.index.functions.values) :
      RoutineAt p (.function (Text.lower f.fullName)) (.ofFunction f)

theorem RoutineAt.owner {p : Program} {slot : Slot} {r : Routine} (h : RoutineAt p slot r) :
    ∀ c ∈ r.owner, c ∈ p.index.classes.values := by
  cases h with
  | method _ _ hrecorded =>
    rintro c ⟨⟩
    exact hrecorded.mem
  | function _ => rintro c ⟨⟩

namespace Correspondence

variable {K : Correspondence} {p : Program} {ask : Requests} {ask' : Nat → Requests}

theorem Lawful.evaluate (hK : K.Lawful p) (hask : K.RelatesRequests ask ask') {r : Routine}
    (hr : ∀ c ∈ r.owner, c ∈ p.index.classes.values) :
    K.RelatesIn (r.evaluate p ask) (fun D => r.evaluate p (ask' D)) K.Good := by
  have hs : K.AtSite (r.site p ask) ask' := ⟨hK, hr, hask⟩
  refine RelatesIn.bind (RelatesIn.lift (hK.readDoc r.doc)) fun block _ => ?_
  refine RelatesIn.bind (hs.bindParams block r.params) fun _ _ => ?_
  cases r.body with
  | none => exact RelatesIn.pure hs.unknown
  | some b => exact RelatesIn.bind (hs.execAll b.stmts) fun _ _ => hK.bodyType _

theorem Lawful.infer (hK : K.Lawful p) (hask : K.RelatesRequests ask ask') {r : Routine}
    (hr : ∀ c ∈ r.owner, c ∈ p.index.classes.values) :
    K.Relates (r.infer p ask) (fun D => r.infer p (ask' D)) K.Good :=
  Relates.map ((hK.evaluate hask hr ⟨.empty, []⟩ ⟨goodScope_empty, by simp⟩).weaken
    fun _ hr => hr.1)

theorem Lawful.declare (hK : K.Lawful p) (r : Routine) {inferred : Ty} (hi : K.Good inferred) :
    K.Keeps (r.declare p inferred) K.Good := by
  refine Relates.bind (hK.readDoc r.doc) fun block _ => ?_
  repeat' split
  · exact hK.typeOfText _ _ _
  · exact hK.typeOfHint _ _ _
  · exact Relates.pure hi
  · exact hK.typeOfHint _ _ _
  · exact Relates.pure hi

theorem AtSite.evalAlone {s : Site} (hs : K.AtSite s ask') (e : Expr) :
    K.Relates (evalAlone s e) (fun D => evalAlone (s.asking (ask' D)) e) K.Good :=
  Relates.map ((hs.lawful.settle (hs.eval e) ⟨.empty, []⟩ ⟨goodScope_empty, by simp⟩).weaken
    fun _ hr => hr.1)

/-- Two ways to answer correspond where a routine or a constant is met. -/
structure Answering (K : Correspondence) (p : Program) (k : Policy) (ask : Requests) (k' : Policy)
    (ask' : Nat → Requests) : Prop where
  method : ∀ {owner name m}, owner ∈ p.index.classes.values → findIn owner name = some m →
    K.Relates (ownMethodType k p ask owner m) (fun D => ownMethodType k' p (ask' D) owner m) K.Good
  function : ∀ {f}, f ∈ p.index.functions.values →
    K.Relates
      (k.routine (.function (Text.lower f.fullName)) f.fullName f.pos
        ((Routine.ofFunction f).infer p ask) ((Routine.ofFunction f).declare p))
      (fun D => k'.routine (.function (Text.lower f.fullName)) f.fullName f.pos
        ((Routine.ofFunction f).infer p (ask' D)) ((Routine.ofFunction f).declare p)) K.Good
  constant : ∀ {owner d} {recorded : Option ClassLike}, owner ∈ p.index.classes.values →
    d ∈ owner.constants → (∀ c ∈ recorded, c ∈ p.index.classes.values) →
    ∀ context, K.Relates
      (k.constant ⟨some (classKey owner), d.name⟩ (evalAlone ⟨p, ask, recorded, context⟩ d.value))
      (fun D => k'.constant ⟨some (classKey owner), d.name⟩
        (evalAlone ⟨p, ask' D, recorded, context⟩ d.value)) K.Good
  global : ∀ {d}, d ∈ p.index.constants.values →
    K.Relates (k.constant ⟨none, d.name⟩ (evalAlone ⟨p, ask, none, .global⟩ d.value))
      (fun D => k'.constant ⟨none, d.name⟩ (evalAlone ⟨p, ask' D, none, .global⟩ d.value)) K.Good

/-- If the correspondence stays the same inside routines and constants, it is enough that both ways
correspond given that what is evaluated does. -/
theorem Lawful.answering {k k' : Policy} (hK : K.Lawful p) (hask : K.RelatesRequests ask ask')
    (hroutine : ∀ {slot r}, RoutineAt p slot r →
      K.Relates (k.routine slot r.label r.pos (r.infer p ask) (r.declare p))
        (fun D => k'.routine slot r.label r.pos (r.infer p (ask' D)) (r.declare p)) K.Good)
    (hconstant : ∀ {key owner context e},
      K.Relates (evalAlone ⟨p, ask, owner, context⟩ e)
        (fun D => evalAlone ⟨p, ask' D, owner, context⟩ e) K.Good →
      K.Relates (k.constant key (evalAlone ⟨p, ask, owner, context⟩ e))
        (fun D => k'.constant key (evalAlone ⟨p, ask' D, owner, context⟩ e)) K.Good) :
    K.Answering p k ask k' ask' where
  method := by
    intro owner name m howner hm
    refine Relates.bind (hK.classDecl owner.fullName) fun c hc => ?_
    cases c with
    | none => exact Relates.pure (Ty.every_unknown hK.node)
    | some recorded => exact hroutine (.method howner hm (hc recorded rfl))
  function hf := hroutine (.function hf)
  constant := by
    intro owner d recorded _ _ hrec context
    have hs : K.AtSite ⟨p, ask, recorded, context⟩ ask' := ⟨hK, hrec, hask⟩
    exact hconstant (hs.evalAlone d.value)
  global := by
    intro d _
    have hs : K.AtSite ⟨p, ask, none, .global⟩ ask' := ⟨hK, by simp, hask⟩
    exact hconstant (hs.evalAlone d.value)

theorem Answering.requests {k k' : Policy} (hK : K.Lawful p)
    (h : K.Answering p k ask k' ask') :
    K.RelatesRequests (answers k p ask) fun D => answers k' p (ask' D) where
  method := by
    intro className name
    refine Relates.bind (hK.classDecl className) fun c hc => ?_
    cases c with
    | none => exact Relates.pure (Ty.every_unknown hK.node)
    | some c =>
      simp only
      split
      · exact Relates.pure (Ty.every_unknown hK.node)
      · rename_i owner m hfind
        obtain ⟨howner, hm⟩ := findMethod_owner (hc c rfl).mem hfind
        exact h.method howner hm
  function := by
    intro name
    simp only [answers, functionType]
    split
    · exact Relates.pure (Ty.every_unknown hK.node)
    · rename_i f hf
      exact h.function (Index.resolveFunction_mem hf)
  constant := by
    intro className name
    refine Relates.bind (hK.classDecl className) fun c hc => ?_
    cases c with
    | none => exact Relates.pure (Ty.every_unknown hK.node)
    | some c =>
      simp only
      split
      · exact Relates.pure (Ty.every_unknown hK.node)
      · rename_i owner d hfind
        obtain ⟨howner, hd, rfl⟩ := findConstant_owner (hc c rfl).mem hfind
        exact Relates.bind (hK.classDecl owner.fullName) fun recorded hr =>
          h.constant howner hd (fun c hc => (hr c hc).mem) _
  global := by
    intro name
    simp only [answers, globalType]
    split
    · exact Relates.pure (by simp)
    · rename_i d hd
      refine Relates.bind (h.global (Dict.mem_values_of_get? hd)) fun t ht => Relates.pure ?_
      rintro u ⟨⟩
      exact ht

end Correspondence

end Inference

end PhpTypes
