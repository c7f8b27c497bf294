import Mathlib.Data.List.Induction
import PhpTypes.Proofs.Answers
import PhpTypes.Proofs.Resolution

/-!
# Runs

A run is a sequence of requests from outside, with resets between them, that starts with an empty
memory. What is kept while bodies are evaluated and requests are answered, is kept by every run.
This goes for every machine: an invariant also says what may hold when a fault arises, and how it is
restored where the fault is caught.
-/

namespace PhpTypes.Inference

open Source

namespace Machine

variable {M : Machine} {f : Fault}

/-- A fault that arises at some moment. -/
def Raises (M : Machine) (f : Fault) : Prop := ∃ level moment, M.fault? level moment = some f

theorem Raises.of_inner (h : M.inner.Raises f) : M.Raises f := by
  obtain ⟨level, moment, hf⟩ := h
  exact ⟨level + 1, moment, hf⟩

theorem raises_outer {moment : Moment} (h : M.fault? 0 moment = some f) : M.Raises f :=
  ⟨0, moment, h⟩

theorem not_raises_perfect (f : Fault) : ¬perfect.Raises f := by
  rintro ⟨_, _, ⟨⟩⟩

theorem perfect_requests (p : Program) (depth : Nat) :
    perfect.requests p depth = Inference.requests .remember p depth := rfl

end Machine

/-- A request from outside. -/
inductive Query where
  | analyze (className : String)
  | method (className method : String)
  | function (name : String)
  | property (className property : String)
  | constant (className constant : String)
  | global (constant : String)

/-- Answers a request from outside by requests of the given ones. -/
def Query.performUsing (ask : Requests) (p : Program) : Query → Analysis (Option Ty)
  | .analyze c => return some (← analyzeUsing ask p c)
  | .method c name => return some (← ask.methodType c name)
  | .function name => return some (← ask.functionType name)
  | .property c name => return some (← propertyType p c name)
  | .constant c name => return some (← ask.constantType c name)
  | .global name => ask.globalType name

def Query.performOn (M : Machine) (p : Program) (q : Query) : Analysis (Option Ty) :=
  q.performUsing (M.outerRequests p) p

/-- Answers a request from outside without faults. -/
abbrev Query.perform (p : Program) (q : Query) : Analysis (Option Ty) := q.performOn .perfect p

inductive Command where
  | ask (q : Query)
  | reset

/-- The memory that a run leaves, and its steps since the last reset. -/
structure Run where
  memory : Memory
  steps : List Step

def Run.next (M : Machine) (p : Program) (r : Run) : Command → Run
  | .ask q =>
    let o := (q.performOn M p).run r.memory
    ⟨o.memory, r.steps ++ o.steps⟩
  | .reset => ⟨r.memory.reset, []⟩

def runOn (M : Machine) (p : Program) (cs : List Command) : Run :=
  cs.foldl (Run.next M p) ⟨.empty, []⟩

/-- A run without faults. -/
abbrev run (p : Program) (cs : List Command) : Run := runOn .perfect p cs

theorem runOn_append (M : Machine) (p : Program) (cs : List Command) (c : Command) :
    runOn M p (cs ++ [c]) = (runOn M p cs).next M p c := by
  simp [runOn]

/-- What holds after a reset and is kept by requests, holds after every run. -/
theorem runOn_keeps {M : Machine} {p : Program} {I : List Step → Memory → Prop}
    (hreset : ∀ m : Memory, I [] m.reset)
    (hask : ∀ h m (q : Query), I h m →
      I (h ++ ((q.performOn M p).run m).steps) ((q.performOn M p).run m).memory)
    (cs : List Command) : I (runOn M p cs).steps (runOn M p cs).memory := by
  induction cs using List.reverseRecOn with
  | nil => exact hreset .empty
  | append_singleton cs c ih =>
    rw [runOn_append]
    cases c with
    | ask q => exact hask _ _ q ih
    | reset => exact hreset _

namespace Correspondence

variable {α : Type} {K : Correspondence} {p : Program}

/-- A correspondence of analyses with themselves, where one memory is looked at. -/
def invariant (I : List Step → Memory → Prop) (C : Escape → List Step → Memory → Prop)
    (P : Ty → Prop) (left : Step → Prop) : Correspondence where
  holds h m n := n = m ∧ I h m
  cut e h m n := n = m ∧ C e h m
  node := P
  left := left
  right _ := True

/-- How an outcome that started after some steps meets an invariant. -/
structure Ends (I : List Step → Memory → Prop) (C : Escape → List Step → Memory → Prop)
    (Q : α → Prop) (h : List Step) (o : Outcome α) : Prop where
  ok : ∀ a, o.result = .ok a → I (h ++ o.steps) o.memory ∧ Q a
  error : ∀ e, o.result = .error e → C e (h ++ o.steps) o.memory

theorem Ends.kept {I : List Step → Memory → Prop} {Q : α → Prop} {h : List Step} {o : Outcome α}
    (ho : Ends I (fun _ => I) Q h o) : I (h ++ o.steps) o.memory := by
  cases hr : o.result with
  | ok a => exact (ho.ok a hr).1
  | error e => exact ho.error e hr

theorem keeps_invariant {I : List Step → Memory → Prop} {C : Escape → List Step → Memory → Prop}
    {P : Ty → Prop} {left : Step → Prop} {x : Analysis α} {Q : α → Prop} :
    (invariant I C P left).Keeps x Q ↔
      ∀ h m, I h m → (∀ s ∈ (x.run m).steps, left s) → Ends I C Q h (x.run m) := by
  constructor
  · intro hx h m hm hleft
    obtain ⟨o, ⟨d, hd⟩, ho⟩ := hx h m m ⟨rfl, hm⟩ hleft
    have hrun := hd d (Nat.le_refl d)
    subst hrun
    exact ⟨fun a ha => ⟨(ho.ok a ha).1.2, (ho.ok a ha).2⟩, fun e he => (ho.error e he).2⟩
  · rintro hx h m n ⟨rfl, hm⟩ hleft
    obtain ⟨hok, herror⟩ := hx h n hm hleft
    exact ⟨x.run n, ⟨0, fun _ _ => rfl⟩, rfl, fun _ _ => trivial,
      fun a ha => ⟨⟨rfl, (hok a ha).1⟩, (hok a ha).2⟩, fun e he => ⟨rfl, herror e he⟩⟩

section

variable {I I' : List Step → Memory → Prop} {C C' : Escape → List Step → Memory → Prop}
  {Q : Ty → Prop} {h : List Step} {m : Memory}

/-- While an entry is being resolved another invariant may hold than before and after. -/
theorem Ends.resolveEntry {faults : Moment → Option Fault} {slot : Slot} {label : String}
    {pos : Pos} {infer : Analysis Ty} {declare : Ty → Analysis Ty} (hm : I h m)
    (hresolved : ∀ t, (m.entry slot).state = .resolved t → Q t)
    (hrepeated : (m.entry slot).state = .inProgress → Q .unknown ∧
      I (h ++ [.repeated (.body slot)] ++ [.stored slot ⟨.inProgress, true⟩])
        ((m.write (.cycle label)).setEntry slot ⟨.inProgress, true⟩))
    (hstart : (m.entry slot).state = .unrequested →
      I' (h ++ [.stored slot ⟨.inProgress, (m.entry slot).cyclic⟩] ++ [.started (.body slot)])
        (m.takeUp slot label))
    (hinner : ∀ h m, I' h m → Ends I' C' (fun t => Q (t.getD .unknown)) h
      ((findType faults slot label pos infer declare).run m))
    (hend : ∀ h m t c, I' h m → Q t →
      I (h ++ [.completed (.body slot)] ++ [.stored slot ⟨.resolved t, c⟩])
        (m.setEntry slot ⟨.resolved t, c⟩))
    (hwrite : ∀ h m e, I h m → I h (m.write e))
    (hescape : ∀ e h m, C' e h m → C e (h ++ [.escaped (.body slot)]) m) :
    Ends I C Q h ((resolveEntry faults slot label pos infer declare).run m) := by
  cases hs : (m.entry slot).state with
  | resolved t =>
    rw [resolveEntry_run_resolved hs]
    refine ⟨?_, by rintro _ ⟨⟩⟩
    rintro _ ⟨⟩
    exact ⟨by simpa using hm, hresolved t hs⟩
  | inProgress =>
    obtain ⟨hunknown, hlast⟩ := hrepeated hs
    rw [resolveEntry_run_inProgress hs]
    refine ⟨?_, by rintro _ ⟨⟩⟩
    rintro _ ⟨⟩
    exact ⟨by simpa using hlast, hunknown⟩
  | unrequested =>
    have hends := hinner _ _ (hstart hs)
    generalize ho : (findType faults slot label pos infer declare).run (m.takeUp slot label) = o
      at hends
    cases hr : o.result with
    | ok t =>
      obtain ⟨hinside, ht⟩ := hends.ok t hr
      have hstored := hend _ _ (t.getD .unknown) (o.memory.entry slot).cyclic hinside ht
      rw [resolveEntry_run_ok hs ho hr]
      refine ⟨?_, by rintro _ ⟨⟩⟩
      rintro _ ⟨⟩
      refine ⟨?_, ht⟩
      cases t with
      | some t => simpa [Memory.finish] using hwrite _ _ (.resolved label t.text) hstored
      | none => simpa [Memory.finish] using hstored
    | error e =>
      rw [resolveEntry_run_error hs ho hr]
      refine ⟨by rintro _ ⟨⟩, ?_⟩
      rintro _ ⟨⟩
      simpa using hescape _ _ _ (hends.error e hr)

/-- While a constant is being evaluated another invariant may hold than before and after. -/
theorem Ends.unlessActive {key : ConstantKey} {x : Analysis Ty}
    (hrepeated : key ∈ m.active → Q .unknown ∧ I (h ++ [.repeated (.constant key)]) m)
    (hstart : key ∉ m.active → I' (h ++ [.started (.constant key)]) (m.activate key))
    (hinner : ∀ h m, I' h m → Ends I' C' Q h (x.run m))
    (hend : ∀ h m, I' h m → I (h ++ [.completed (.constant key)]) (m.deactivate key))
    (hescape : ∀ e h m, C' e h m → C e (h ++ [.escaped (.constant key)]) (m.deactivate key)) :
    Ends I C Q h ((unlessActive key x).run m) := by
  by_cases hk : key ∈ m.active
  · obtain ⟨hunknown, hlast⟩ := hrepeated hk
    rw [unlessActive_run_active hk]
    refine ⟨?_, by rintro _ ⟨⟩⟩
    rintro _ ⟨⟩
    exact ⟨hlast, hunknown⟩
  · have hends := hinner _ _ (hstart hk)
    rw [unlessActive_run_new hk]
    generalize ho : x.run (m.activate key) = o at hends
    cases hr : o.result with
    | ok t =>
      obtain ⟨hinside, ht⟩ := hends.ok t hr
      rw [whileActive_run_ok ho hr]
      refine ⟨?_, by rintro _ ⟨⟩⟩
      rintro _ ⟨⟩
      exact ⟨by simpa using hend _ _ hinside, ht⟩
    | error e =>
      rw [whileActive_run_error ho hr]
      refine ⟨by rintro _ ⟨⟩, ?_⟩
      rintro _ ⟨⟩
      simpa using hescape _ _ _ (hends.error e hr)

end

/-- What an invariant has to allow, so that bodies can be evaluated. -/
structure Stable (I : List Step → Memory → Prop) (C : Escape → List Step → Memory → Prop)
    (P : Ty → Prop) (p : Program) : Prop where
  cut : ∀ {h m t}, I h m → C (.malformedTag t) h m
  report : ∀ {h m} d, I h m → I h (m.report d)
  write : ∀ {h m} e, I h m → I h (m.write e)
  enter : ∀ {h m s}, I h m → (∀ t ∈ s.bindings.values, Ty.Every P t) → I (h ++ [.scoped s]) m
  records : ∀ {h m}, I h m → m.RecordsFrom p
  meet : ∀ {h m c}, I h m → c ∈ p.index.classes.values → I h (m.meet c)

section

variable {I : List Step → Memory → Prop} {C : Escape → List Step → Memory → Prop} {P : Ty → Prop}
  {left : Step → Prop}

private theorem keeps_modify {f : Memory → Memory} (hI : ∀ {h m}, I h m → I h (f m)) :
    (invariant I C P left).Keeps (modify f : Analysis PUnit) fun _ => True := by
  rw [keeps_invariant]
  intro h m hm _
  refine ⟨fun a _ => ⟨?_, trivial⟩, fun e he => by cases he⟩
  rw [show ((modify f : Analysis PUnit).run m).steps = [] from rfl, List.append_nil]
  exact hI hm

theorem Stable.classDecl (hS : Stable I C P p) (name : String) :
    (invariant I C P left).Keeps (classDecl p name) fun c => ∀ d ∈ c, RecordedAs p name d := by
  rw [keeps_invariant]
  intro h m hm _
  cases hres : p.index.resolve name with
  | none =>
    rw [classDecl_run_none hres]
    refine ⟨?_, fun e he => by cases he⟩
    rintro a ⟨⟩
    exact ⟨by simpa using hm, by simp⟩
  | some c =>
    obtain ⟨r, hr, hrun⟩ := classDecl_run_some hres m
    have hmeet := hS.meet hm (Index.resolve_mem hres)
    obtain ⟨hdecl, hkey⟩ := hS.records hmeet _ r hr
    rw [hrun]
    refine ⟨?_, fun e he => by cases he⟩
    rintro a ⟨⟩
    refine ⟨by simpa using hmeet, ?_⟩
    rintro d ⟨⟩
    exact ⟨hdecl, c, hres, hkey⟩

theorem Stable.recorded (hS : Stable I C P p) (name : String) :
    (invariant I C P left).Keeps (recordedClass? p (some name)) fun _ => True := by
  rw [keeps_invariant]
  intro h m hm _
  have hsame : ∀ c : Option ClassLike, Ends I C (fun _ => True) h ⟨.ok c, m, []⟩ := fun c =>
    ⟨fun _ _ => ⟨by simpa using hm, trivial⟩, fun e he => by cases he⟩
  cases hrec : m.records.get? (Text.lower name) with
  | some r =>
    rw [recordedClass?_run_recorded hrec]
    exact hsame _
  | none =>
    cases hget : p.index.classes.get? (nameKey name) with
    | none =>
      rw [recordedClass?_run_undeclared hrec hget]
      exact hsame _
    | some c =>
      obtain ⟨r, -, hrun⟩ := recordedClass?_run_declared hrec hget
      have hmeet := hS.meet hm (Dict.mem_values_of_get? hget)
      rw [hrun]
      exact ⟨fun _ _ => ⟨by simpa using hmeet, trivial⟩, fun e he => by cases he⟩

/-- A stable invariant can be carried through the evaluation of bodies. -/
theorem Stable.lawful (hS : Stable I C P p) (hP : Ty.NodeProperty P)
    (hobject : ∀ {c}, c ∈ p.index.classes.values → Ty.Every P (instanceType c))
    (hnative : ∀ {name s}, p.natives.get? name = some s → Ty.Every P s.result) :
    (invariant I C P left).Lawful p where
  node := hP
  cut_of_holds h := ⟨h.1, hS.cut h.2⟩
  warn d := keeps_modify (hS.report d)
  note e := keeps_modify (hS.write e)
  enter := by
    intro s hs
    rw [keeps_invariant]
    intro h m hm _
    exact ⟨fun _ _ => ⟨hS.enter hm hs, trivial⟩, fun e he => by cases he⟩
  classDecl := hS.classDecl
  recorded _ := hS.recorded _
  instance_good := hobject
  native_good := hnative

end

private theorem good_markCycle (hK : K.Lawful p) (cyclic : Bool) {t : Ty} (ht : K.Good t) :
    K.Good (markCycle cyclic t) := by
  unfold markCycle
  split
  · exact Ty.every_unionOf hK.node (by simpa using ⟨Ty.every_unknown hK.node, ht⟩)
  · exact ht

/-! Faults. -/

/-- What an invariant has to allow, so that some faults can arise and be caught. -/
structure Tolerates (I : List Step → Memory → Prop) (C : Escape → List Step → Memory → Prop)
    (left : Step → Prop) (R : Fault → Prop) : Prop where
  raise : ∀ {h m f}, I h m → R f → C (.fault f) (h ++ [.faulted f]) m
  /-- A fault arises while another one is reported. -/
  replace : ∀ {h m f g}, C (.fault f) h m → R g → C (.fault g) (h ++ [.faulted g]) m
  recover : ∀ {h m f slot}, C (.fault f) h m → left (.failed slot f) →
    ∀ e d, I (h ++ [.failed slot f]) ((m.write e).report d)

namespace Tolerates

variable {I : List Step → Memory → Prop} {C : Escape → List Step → Memory → Prop} {P : Ty → Prop}
  {left : Step → Prop} {R : Fault → Prop} (hT : Tolerates I C left R)
  {faults : Moment → Option Fault} (hfaults : ∀ moment f, faults moment = some f → R f)

include hT hfaults

theorem raises (moment : Moment) :
    (invariant I C P left).Keeps (raise? (faults moment)) fun _ => True := by
  cases hf : faults moment with
  | none => exact Relates.pure trivial
  | some f =>
    refine keeps_invariant.mpr fun h m hm _ => ⟨by rintro _ ⟨⟩, ?_⟩
    rintro _ ⟨⟩
    exact hT.raise hm (hfaults moment f hf)

/-- After a report all is as it was before the fault. -/
theorem reports (slot : Slot) (label : String) (pos : Pos) (f : Fault) {Q : Option Ty → Prop}
    (hQ : Q none) : (invariant I C P left).Resumes (.fault f)
      (do reportFault faults slot label pos f; return none)
      (fun _ => do reportFault faults slot label pos f; return none) Q := by
  rintro h m n ⟨rfl, hm⟩ hleft
  refine ⟨_, ⟨0, fun _ _ => rfl⟩, ?_⟩
  unfold reportFault at hleft ⊢
  cases hf : faults (.report slot) with
  | some g =>
    refine ⟨rfl, fun _ _ => trivial, by rintro _ ⟨⟩, ?_⟩
    rintro _ ⟨⟩
    exact ⟨rfl, hT.replace hm (hfaults _ g hf)⟩
  | none =>
    rw [hf] at hleft
    refine ⟨rfl, fun _ _ => trivial, ?_, by rintro _ ⟨⟩⟩
    rintro _ ⟨⟩
    exact ⟨⟨rfl, hT.recover hm (hleft (.failed slot f) List.mem_cons_self) _ _⟩, hQ⟩

/-- The type of an entry in progress is found from its body and what its declaration says, if no
fault arises in the body. -/
theorem findType (hK : (invariant I C P left).Lawful p) {ask : Requests} {ask' : Nat → Requests}
    (hask : (invariant I C P left).RelatesRequests ask ask') (slot : Slot) {r : Routine}
    (hr : ∀ c ∈ r.owner, c ∈ p.index.classes.values) :
    (invariant I C P left).Relates
      (findType faults slot r.label r.pos (r.infer p ask) (r.declare p))
      (fun D => findType faults slot r.label r.pos (r.infer p (ask' D)) (r.declare p))
      fun t => (invariant I C P left).Good (t.getD .unknown) := by
  have hbody := Relates.bind (hT.raises hfaults (P := P) (.evaluation (.body slot))) fun _ _ =>
    hK.infer hask hr
  refine hbody.bindCaught (fun t ht => ?_) fun f => hT.reports hfaults _ _ _ f ?_
  · have hentry : (invariant I C P left).Keeps (getEntry slot) fun _ => True := by
      refine keeps_invariant.mpr fun h m hm _ => ⟨fun _ _ => ⟨?_, trivial⟩, by rintro _ ⟨⟩⟩
      change I (h ++ []) m
      simpa using hm
    refine Relates.bind (hT.raises hfaults _) fun _ _ => ?_
    refine Relates.bind hentry fun e _ => ?_
    exact Relates.bind (hK.declare r (good_markCycle hK e.cyclic ht)) fun u hu => Relates.pure hu
  · exact Ty.every_unknown hK.node

/-- If the invariant stays the same inside routines and constants, it is enough that entries and
marks of constants keep it. -/
theorem answering (hK : (invariant I C P left).Lawful p) {ask : Requests} {ask' : Nat → Requests}
    (hask : (invariant I C P left).RelatesRequests ask ask')
    (hentry : ∀ {slot} {r : Routine},
      (invariant I C P left).Relates
        (Inference.findType faults slot r.label r.pos (r.infer p ask) (r.declare p))
        (fun D => Inference.findType faults slot r.label r.pos (r.infer p (ask' D)) (r.declare p))
        (fun t => (invariant I C P left).Good (t.getD .unknown)) →
      (invariant I C P left).Relates
        (resolveEntry faults slot r.label r.pos (r.infer p ask) (r.declare p))
        (fun D => resolveEntry faults slot r.label r.pos (r.infer p (ask' D)) (r.declare p))
        (invariant I C P left).Good)
    (hmark : ∀ {key owner context e},
      (invariant I C P left).Relates
        (do raise? (faults (.evaluation (.constant key))); evalAlone ⟨p, ask, owner, context⟩ e)
        (fun D => do
          raise? (faults (.evaluation (.constant key))); evalAlone ⟨p, ask' D, owner, context⟩ e)
        (invariant I C P left).Good →
      (invariant I C P left).Relates
        (unlessActive key do
          raise? (faults (.evaluation (.constant key))); evalAlone ⟨p, ask, owner, context⟩ e)
        (fun D => unlessActive key do
          raise? (faults (.evaluation (.constant key))); evalAlone ⟨p, ask' D, owner, context⟩ e)
        (invariant I C P left).Good) :
    (invariant I C P left).Answering p (.keeping faults) ask (.keeping faults) ask' := by
  refine hK.answering hask (fun hr => ?_) fun hx => ?_
  · refine Relates.bind (hT.raises hfaults _) fun _ _ => hentry ?_
    exact hT.findType hfaults hK hask _ hr.owner
  · refine Relates.bind (hT.raises hfaults _) fun _ _ => hmark ?_
    exact Relates.bind (hT.raises hfaults _) fun _ _ => hx

end Tolerates

/-! Requests from outside. -/

theorem Lawful.analyzeUsing {ask : Requests} {ask' : Nat → Requests} (hK : K.Lawful p)
    (hask : K.RelatesRequests ask ask') (name : String) :
    K.Relates (Inference.analyzeUsing ask p name)
      (fun D => Inference.analyzeUsing (ask' D) p name) K.Good := by
  refine Relates.bind (hK.classDecl name) fun c hc => ?_
  cases c with
  | none =>
    refine Relates.bind (hK.warn _) fun _ _ => ?_
    exact Relates.pure (Ty.every_leaf hK.node rfl rfl)
  | some c =>
    refine Relates.bind (Relates.forM _ fun m _ => ?_) fun _ _ =>
      Relates.pure (hK.instance_good (hc c rfl).mem)
    exact Relates.bind (hask.method c.fullName m) fun _ _ => Relates.pure trivial

theorem Lawful.performUsing {ask : Requests} {ask' : Nat → Requests} (hK : K.Lawful p)
    (hask : K.RelatesRequests ask ask') (q : Query) :
    K.Relates (q.performUsing ask p) (fun D => q.performUsing (ask' D) p)
      fun t => ∀ u ∈ t, K.Good u := by
  have hsome : ∀ {x : Analysis Ty} {y : Nat → Analysis Ty}, K.Relates x y K.Good →
      K.Relates (do return some (← x)) (fun D => do return some (← y D))
        fun t => ∀ u ∈ t, K.Good u := by
    intro x y hx
    refine Relates.bind hx fun t ht => Relates.pure ?_
    rintro u ⟨⟩
    exact ht
  cases q with
  | analyze c => exact hsome (hK.analyzeUsing hask c)
  | method c name => exact hsome (hask.method c name)
  | function name => exact hsome (hask.function name)
  | property c name => exact hsome (hK.propertyType c name)
  | constant c name => exact hsome (hask.constant c name)
  | global name => exact hask.global name

variable {M : Machine}

theorem request_run (ask : Requests → Analysis α) (m : Memory) :
    (M.request p ask).run m = (ask (M.requests p (nestingDepth p m))).run m := by
  have hget : (get : Analysis Memory).run m = ⟨.ok m, m, []⟩ := rfl
  unfold Machine.request
  rw [Analysis.run_bind hget, Analysis.after_nil]

private theorem relates_request {ask : Requests → Analysis α} {y : Nat → Analysis α} {Q : α → Prop}
    (h : ∀ m, K.Relates (ask (M.requests p (nestingDepth p m))) y Q) :
    K.Relates (M.request p ask) y Q := by
  intro history m n hmn hleft
  rw [request_run] at hleft ⊢
  exact h m history m n hmn hleft

/-- Requests from outside correspond to what the requests inside correspond to. -/
theorem relates_outerRequests {ask' : Nat → Requests}
    (hask : ∀ m, K.RelatesRequests (M.requests p (nestingDepth p m)) ask') :
    K.RelatesRequests (M.outerRequests p) ask' :=
  ⟨fun c name => relates_request fun m => (hask m).method c name,
    fun name => relates_request fun m => (hask m).function name,
    fun c name => relates_request fun m => (hask m).constant c name,
    fun name => relates_request fun m => (hask m).global name⟩

section

variable (hsame : ∀ {h m n}, K.holds h m n → n = m)
  (hask : ∀ m, K.RelatesRequests (M.requests p (nestingDepth p m))
    fun _ => M.requests p (nestingDepth p m))

include hsame in
theorem keeps_request {ask : Requests → Analysis α} {Q : α → Prop}
    (h : ∀ m, K.Keeps (ask (M.requests p (nestingDepth p m))) Q) :
    K.Keeps (M.request p ask) Q := by
  intro history m n hmn hleft
  obtain rfl := hsame hmn
  rw [request_run] at hleft ⊢
  obtain ⟨o, hd, ho⟩ := h n history n n hmn hleft
  exact ⟨o, by simpa [request_run] using hd, ho⟩

include hsame hask in
/-- A request from outside keeps what the requests inside keep. -/
theorem Lawful.perform (hK : K.Lawful p) (q : Query) :
    K.Keeps (q.performOn M p) fun t => ∀ u ∈ t, K.Good u := by
  have hall : K.RelatesRequests (M.outerRequests p) fun _ => M.outerRequests p :=
    ⟨fun c name => keeps_request hsame fun m => (hask m).method c name,
      fun name => keeps_request hsame fun m => (hask m).function name,
      fun c name => keeps_request hsame fun m => (hask m).constant c name,
      fun name => keeps_request hsame fun m => (hask m).global name⟩
  exact hK.performUsing hall q

end

end Correspondence

end PhpTypes.Inference
