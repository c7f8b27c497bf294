import PhpTypes.Proofs.DeclaredNames
import PhpTypes.Proofs.Escapes
import PhpTypes.Proofs.LineageOrder
import PhpTypes.Proofs.Transparency

/-!
# The analysis of a class

An analysis walks along the lineage of a class and asks for every method that it meets, once for all
spellings of a name. Each of these requests walks along the lineage again, and takes the first
method with the name. So all methods that are declared first are resolved afterwards, and can be
asked for without any further evaluation.
-/

namespace PhpTypes.Inference

open Source

/-! The first declaration of a name. -/

/-- A class of a lineage has a method, and no method of this name in any spelling stands before it,
neither in the classes before nor in the class itself. -/
structure DeclaredFirst (index : Index) (c d : ClassLike) (m : Method) : Prop where
  inLineage : ∃ before after, lineage index c = before ++ d :: after ∧
    ∀ e ∈ before, ∀ n ∈ e.methods, Text.lower n.name ≠ Text.lower m.name
  inClass : ∃ before after, d.methods = before ++ m :: after ∧
    ∀ n ∈ before, Text.lower n.name ≠ Text.lower m.name

private theorem findIn_eq_none_iff {c : ClassLike} {name : String} :
    findIn c name = none ↔ ∀ n ∈ c.methods, Text.lower n.name ≠ Text.lower name := by
  simp [findIn]

private theorem findIn_eq_some_iff {c : ClassLike} {name : String} {m : Method} :
    findIn c name = some m ↔ Text.lower m.name = Text.lower name ∧
      ∃ before after, c.methods = before ++ m :: after ∧
        ∀ n ∈ before, Text.lower n.name ≠ Text.lower name := by
  simp [findIn, List.find?_eq_some_iff_append]

/-- The method that a lookup finds is the one that is declared first. -/
theorem findMethod_eq_some_iff {index : Index} {c d : ClassLike} {name : String} {m : Method} :
    findMethod index c name = some (d, m) ↔
      Text.lower m.name = Text.lower name ∧ DeclaredFirst index c d m := by
  rw [findMethod, List.findSome?_eq_some_iff]
  constructor
  · rintro ⟨before, e, after, hsplit, he, hbefore⟩
    obtain ⟨m', hm', heq⟩ := Option.map_eq_some_iff.mp he
    cases heq
    obtain ⟨hname, hclass⟩ := findIn_eq_some_iff.mp hm'
    refine ⟨hname, ⟨before, after, hsplit, fun f hf => ?_⟩, hname ▸ hclass⟩
    rw [hname]
    exact findIn_eq_none_iff.mp (Option.map_eq_none_iff.mp (hbefore f hf))
  · rintro ⟨hname, ⟨before, after, hsplit, hbefore⟩, hclass⟩
    refine ⟨before, d, after, hsplit, ?_, fun f hf => ?_⟩
    · rw [findIn_eq_some_iff.mpr ⟨hname, hname ▸ hclass⟩, Option.map_some]
    · rw [findIn_eq_none_iff.mpr (hname ▸ hbefore f hf), Option.map_none]

private theorem exists_findMethod_of_mem {index : Index} {c e : ClassLike} {m : Method}
    (he : e ∈ lineage index c) (hm : m ∈ e.methods) :
    ∃ d first, findMethod index c m.name = some (d, first) := by
  have hsome : (findMethod index c m.name).isSome := by
    rw [findMethod, List.findSome?_isSome_iff]
    refine ⟨e, he, ?_⟩
    rw [Option.isSome_map, Option.isSome_iff_ne_none, ne_eq, findIn_eq_none_iff]
    exact fun hnone => hnone m hm rfl
  obtain ⟨⟨d, first⟩, hfound⟩ := Option.isSome_iff_exists.mp hsome
  exact ⟨d, first, hfound⟩

/-! The names that are asked for. -/

private theorem exists_mem_of_mem_methodNames {name : String} {seen : List String}
    {ms : List Method} (h : name ∈ methodNames seen ms) : ∃ m ∈ ms, m.name = name := by
  induction ms generalizing seen with
  | nil => cases h
  | cons m ms ih =>
    have hrest : ∀ seen, name ∈ methodNames seen ms → ∃ n ∈ m :: ms, n.name = name := by
      intro seen hmem
      obtain ⟨n, hn, hname⟩ := ih hmem
      exact ⟨n, List.mem_cons_of_mem m hn, hname⟩
    rw [methodNames] at h
    split at h
    · exact hrest _ h
    · rcases List.mem_cons.mp h with rfl | h
      · exact ⟨m, List.mem_cons_self, rfl⟩
      · exact hrest _ h

/-- Every name that was not seen is asked for in one of its spellings. -/
theorem exists_mem_methodNames {m : Method} {seen : List String} {ms : List Method} (hm : m ∈ ms)
    (hseen : Text.lower m.name ∉ seen) :
    ∃ name ∈ methodNames seen ms, Text.lower name = Text.lower m.name := by
  induction ms generalizing seen with
  | nil => cases hm
  | cons n ms ih =>
    rw [methodNames]
    by_cases hsame : Text.lower n.name = Text.lower m.name
    · rw [if_neg (by simpa [hsame] using hseen)]
      exact ⟨n.name, List.mem_cons_self, hsame⟩
    · have hm : m ∈ ms := by
        rcases List.mem_cons.mp hm with rfl | hm
        · exact absurd rfl hsame
        · exact hm
      split
      · exact ih hm hseen
      · have hnew : Text.lower m.name ∉ Text.lower n.name :: seen := by
          simpa [Ne.symm hsame] using hseen
        obtain ⟨name, hname, heq⟩ := ih hm hnew
        exact ⟨name, List.mem_cons_of_mem _ hname, heq⟩

/-! What requests leave as it is. -/

/-- An entry that requests do not change any more: it has a type, or it was asked for after it had
been left in progress. -/
inductive Entry.Final : Entry → Prop where
  | resolved (t : Ty) (cyclic : Bool) : Final ⟨.resolved t, cyclic⟩
  | abandoned : Final ⟨.inProgress, true⟩

theorem Entry.final_of_resolved {e : Entry} {t : Ty} (h : e.state = .resolved t) : e.Final := by
  obtain ⟨state, cyclic⟩ := e
  cases h
  exact .resolved t cyclic

theorem Entry.Final.requested {e : Entry} (h : e.Final) : e.state ≠ .unrequested := by
  cases h <;> simp

theorem Entry.Final.eq_of_inProgress {e : Entry} (h : e.Final) (hs : e.state = .inProgress) :
    e = ⟨.inProgress, true⟩ := by
  cases h with
  | resolved t cyclic => cases hs
  | abandoned => rfl

namespace Memory

private theorem hasPlace_of_state {m : Memory} {slot : Slot}
    (h : (m.entry slot).state ≠ .unrequested) : m.HasPlace slot := by
  cases slot with
  | function k => trivial
  | method r k =>
    cases hr : m.records.get? r with
    | some record => simp [HasPlace, hr]
    | none => exact absurd (by simp [entry, hr, Entry.fresh]) h

/-- Writing an entry again changes nothing. -/
theorem setEntry_of_entry {m : Memory} {slot : Slot} {e : Entry} (h : m.entry slot = e)
    (he : e.state ≠ .unrequested) : m.setEntry slot e = m := by
  have hfound : ∀ {o : Option Entry}, o.getD .fresh = e → o = some e := by
    intro o ho
    cases o with
    | some _ => exact congrArg some ho
    | none =>
      rw [← ho] at he
      exact absurd rfl he
  cases slot with
  | function k => simp only [setEntry, Dict.set_of_get? (hfound h)]
  | method r k =>
    obtain ⟨record, hr, hk⟩ := Option.bind_eq_some_iff.mp (hfound h)
    simp only [setEntry, hr, Dict.set_of_get? hk, Dict.set_of_get? hr]

private theorem meet_of_isSome {m : Memory} {c : ClassLike}
    (h : (m.records.get? (classKey c)).isSome) : m.meet c = m := by
  rcases m.meet_cases c with heq | ⟨hnone, -⟩
  · exact heq
  · simp [hnone] at h

private theorem isSome_get?_meet {m : Memory} {key : String} (c : ClassLike)
    (h : (m.records.get? key).isSome) : ((m.meet c).records.get? key).isSome := by
  rcases m.meet_cases c with heq | ⟨-, heq⟩
  · rwa [heq]
  · rw [heq]
    by_cases hkey : key = classKey c
    · subst hkey
      simp
    · simpa [Dict.get?_set_ne _ hkey] using h

private theorem isSome_get?_setEntry {m : Memory} {key : String} (slot : Slot) (e : Entry)
    (h : (m.records.get? key).isSome) : ((m.setEntry slot e).records.get? key).isSome := by
  cases slot with
  | function k => exact h
  | method r k =>
    unfold setEntry
    simp only
    split
    · by_cases hkey : key = r
      · subst hkey
        simp
      · simpa [Dict.get?_set_ne _ hkey] using h
    · exact h

end Memory

/-- The classes that had records before still have them, and the entries that were final are as
before. -/
structure Retains (p : Program) (base m : Memory) : Prop where
  records : m.RecordsFrom p
  recorded : ∀ key, (base.records.get? key).isSome → (m.records.get? key).isSome
  final : ∀ slot, (base.entry slot).Final → m.entry slot = base.entry slot

namespace Retains

variable {p : Program} {base m : Memory} {slot : Slot}

theorem refl (hm : m.RecordsFrom p) : Retains p m m := ⟨hm, fun _ h => h, fun _ _ => rfl⟩

theorem trans {n : Memory} (hm : Retains p base m) (hn : Retains p m n) : Retains p base n where
  records := hn.records
  recorded key h := hn.recorded key (hm.recorded key h)
  final slot h := by
    have heq := hm.final slot h
    rw [hn.final slot (heq ▸ h), heq]

theorem congr {m' : Memory} (hm : Retains p base m) (hrecords : m'.records = m.records)
    (hentry : ∀ slot, m'.entry slot = m.entry slot) : Retains p base m' := by
  refine ⟨?_, ?_, fun slot h => ?_⟩
  · rw [Memory.RecordsFrom, hrecords]
    exact hm.records
  · rw [hrecords]
    exact hm.recorded
  · rw [hentry]
    exact hm.final slot h

theorem write (hm : Retains p base m) (e : Event) : Retains p base (m.write e) :=
  hm.congr rfl (Memory.entry_write m e)

theorem report (hm : Retains p base m) (d : Diag) : Retains p base (m.report d) :=
  hm.congr rfl (Memory.entry_report m d)

theorem activate (hm : Retains p base m) (key : ConstantKey) : Retains p base (m.activate key) :=
  hm.congr rfl (Memory.entry_activate m key)

theorem deactivate (hm : Retains p base m) (key : ConstantKey) :
    Retains p base (m.deactivate key) :=
  hm.congr rfl (Memory.entry_deactivate m key)

theorem meet (hm : Retains p base m) {c : ClassLike} (hc : c ∈ p.index.classes.values) :
    Retains p base (m.meet c) where
  records := hm.records.meet hc
  recorded key h := Memory.isSome_get?_meet c (hm.recorded key h)
  final slot h := by
    rw [Memory.entry_meet]
    exact hm.final slot h

/-- An entry that is not final may be written. -/
theorem store (hm : Retains p base m) (hslot : ¬(base.entry slot).Final) (e : Entry) :
    Retains p base (m.setEntry slot e) where
  records := hm.records.setEntry slot e
  recorded key h := Memory.isSome_get?_setEntry slot e (hm.recorded key h)
  final other h := by
    have ho : other ≠ slot := fun ho => hslot (ho ▸ h)
    rw [Memory.entry_setEntry_ne ho]
    exact hm.final other h

end Retains

namespace Correspondence

variable {p : Program} {base : Memory}

def retained (p : Program) (base : Memory) : Correspondence :=
  invariant (fun _ => Retains p base) (fun _ _ => Retains p base) (fun _ => True) fun _ => True

private theorem retained_lawful : (retained p base).Lawful p := by
  refine Stable.lawful ?_ .trivial
    (fun _ _ _ => trivial) fun _ _ _ => trivial
  exact {
    cut := fun h => h
    report := fun d h => h.report d
    write := fun e h => h.write e
    enter := fun h _ => h
    records := fun h => h.records
    meet := fun h hc => h.meet hc }

private theorem retained_tolerates : Tolerates (fun _ => Retains p base) (fun _ _ => Retains p base)
    (fun _ => True) fun _ => True where
  raise h _ := h
  replace h _ := h
  recover h _ e d := (h.write e).report d

private theorem retained_good (t : Ty) : (retained p base).Good t := fun _ _ => trivial

private theorem retained_same {h : List Step} {m n : Memory} (hmn : (retained p base).holds h m n) :
    n = m := hmn.1

private theorem retained_resolveEntry {faults : Moment → Option Fault} {slot : Slot}
    {label : String} {pos : Pos} {infer : Analysis Ty} {declare : Ty → Analysis Ty}
    (hinner : (retained p base).Keeps (findType faults slot label pos infer declare)
      fun t => (retained p base).Good (t.getD .unknown)) :
    (retained p base).Keeps (resolveEntry faults slot label pos infer declare)
      (retained p base).Good := by
  refine keeps_invariant.mpr fun h m hm _ => ?_
  by_cases hslot : (base.entry slot).Final
  · -- A final entry is not evaluated, and it is written only as it is.
    have hentry := hm.final slot hslot
    have hnever : ∀ h m, False → Ends (fun _ _ => False) (fun _ _ _ => False)
        (fun t => (retained p base).Good (t.getD .unknown)) h
        ((findType faults slot label pos infer declare).run m) := fun _ _ => False.elim
    refine Ends.resolveEntry hm (fun t _ => retained_good t) (fun hs => ⟨retained_good _, ?_⟩)
      (fun hs => ?_) hnever (fun _ _ _ _ => False.elim) (fun _ _ e hm => hm.write e)
      fun _ _ _ => False.elim
    · have hsame : m.entry slot = ⟨.inProgress, true⟩ :=
        Entry.Final.eq_of_inProgress (hentry ▸ hslot) hs
      rw [Memory.setEntry_of_entry (by simpa using hsame) (by simp)]
      exact hm.write _
    · rw [hentry] at hs
      exact hslot.requested hs
  · exact Ends.resolveEntry hm (fun t _ => retained_good t)
      (fun _ => ⟨retained_good _, (hm.write _).store hslot _⟩)
      (fun _ => (hm.write _).store hslot _)
      (fun h m hm => keeps_invariant.mp hinner h m hm fun _ _ => trivial)
      (fun _ _ _ _ hm _ => hm.store hslot _) (fun _ _ e hm => hm.write e) fun _ _ _ hm => hm

private theorem retained_unlessActive {key : ConstantKey} {x : Analysis Ty}
    (hinner : (retained p base).Keeps x (retained p base).Good) :
    (retained p base).Keeps (unlessActive key x) (retained p base).Good :=
  keeps_invariant.mpr fun _ _ hm _ => Ends.unlessActive (fun _ => ⟨retained_good _, hm⟩)
    (fun _ => hm.activate key)
    (fun h m hm => keeps_invariant.mp hinner h m hm fun _ _ => trivial)
    (fun _ _ hm => hm.deactivate key) fun _ _ _ hm => hm.deactivate key

private theorem retained_requests (M : Machine) (d : Nat) :
    (retained p base).RelatesRequests (M.requests p d) fun _ => M.requests p d := by
  induction d generalizing M with
  | zero =>
    have hunanswered : ∀ {α : Type} {answer : α} {Q : α → Prop}, Q answer →
        (retained p base).Keeps (unanswered answer) Q := by
      refine fun ha => keeps_invariant.mpr fun h m hm _ => ⟨?_, by rintro _ ⟨⟩⟩
      rintro _ ⟨⟩
      exact ⟨hm, ha⟩
    exact ⟨fun _ _ => hunanswered (retained_good _), fun _ => hunanswered (retained_good _),
      fun _ _ => hunanswered (retained_good _),
      fun _ => hunanswered fun t _ => retained_good t⟩
  | succ d ih =>
    exact (retained_tolerates.answering (fun _ _ _ => trivial) retained_lawful (ih M.inner)
      retained_resolveEntry retained_unlessActive).requests retained_lawful

end Correspondence

/-! Requests from outside. -/

/-- An entry keeps its type while requests are answered. -/
theorem Valid.resolved_later {p : Program} {h later : List Step} {m n : Memory} {slot : Slot}
    {t : Ty} (hm : Valid p [] h m) (hn : Valid p [] (h ++ later) n)
    (ht : (m.entry slot).state = .resolved t) : (n.entry slot).state = .resolved t := by
  rw [hm.states] at ht
  rw [hn.states]
  exact hn.legal.resolved ht

section

variable {M : Machine} {p : Program} {c owner : ClassLike} {className name : String}
  {method : Method} {h : List Step} {m : Memory} {t : Ty}

/-- The entry of the method that a class finds under a name can be asked for from outside, and is
final. -/
def Settled (M : Machine) (p : Program) (c : ClassLike) (name : String) (m : Memory) : Prop :=
  ∃ owner method, findMethod p.index c name = some (owner, method) ∧
    M.fault? 0 (.request (.body (.method (classKey owner) (Text.lower method.name)))) = none ∧
    (m.entry (.method (classKey owner) (Text.lower method.name))).Final

theorem Settled.retained {n : Memory} (hs : Settled M p c name m) (hn : Retains p m n) :
    Settled M p c name n := by
  obtain ⟨owner, method, hfind, hfault, hfinal⟩ := hs
  exact ⟨owner, method, hfind, hfault, by rwa [hn.final _ hfinal]⟩

/-- A request from outside keeps what is final, and the memory is as the steps tell. -/
theorem Valid.request (hv : Valid p [] h m) {t : Ty}
    (hok : ((M.request p fun r => r.methodType className name).run m).result = .ok t) :
    let o := (M.request p fun r => r.methodType className name).run m
    Valid p [] (h ++ o.steps) o.memory ∧ Retains p m o.memory := by
  intro o
  have hlife : (Correspondence.lifecycle p M.Raises h []).Keeps
      (M.request p fun r => r.methodType className name) _ :=
    Correspondence.keeps_request Correspondence.lifecycle_same fun n =>
      (Correspondence.lifecycle_requests _ M [] (fun _ hf => hf)
        (length_declarations_lt p n)).method className name
  have hretained : (Correspondence.retained p m).Keeps
      (M.request p fun r => r.methodType className name) _ :=
    Correspondence.keeps_request Correspondence.retained_same fun n =>
      (Correspondence.retained_requests M (nestingDepth p n)).method className name
  have hvalid := Correspondence.keeps_invariant.mp hlife h m ⟨hv, [], by simp, recovered_nil⟩
    fun _ _ => trivial
  have hkept := Correspondence.keeps_invariant.mp hretained h m (.refl hv.records)
    fun _ _ => trivial
  exact ⟨(hvalid.ok t hok).1.1, (hkept.ok t hok).1⟩

/-- A request for a method that a class finds asks for the entry of this method. -/
theorem methodType_run (k : Policy) (ask : Requests) (hc : p.index.resolve className = some c)
    (hfind : findMethod p.index c name = some (owner, method))
    (howner : p.index.resolve owner.fullName = some owner) (hm : m.RecordsFrom p) :
    let r := Routine.ofMethod owner owner method
    (methodType k p ask className name).run m =
      (k.routine (.method (classKey owner) (Text.lower method.name)) r.label r.pos (r.infer p ask)
        (r.declare p)).run ((m.meet c).meet owner) := by
  have hmeet : (m.meet c).RecordsFrom p := hm.meet (Index.resolve_mem hc)
  unfold methodType
  rw [Analysis.run_bind (classDecl_run_keyed hc hm), Analysis.after_nil]
  simp only [hfind, ownMethodType]
  rw [Analysis.run_bind (classDecl_run_keyed howner hmeet), Analysis.after_nil]

/-- There is depth enough for a request from outside. -/
theorem exists_request_run (M : Machine) (p : Program) (className name : String) (m : Memory) :
    ∃ ask, (M.request p fun r => r.methodType className name).run m =
      (methodType (.keeping (M.fault? 0)) p ask className name).run m := by
  obtain ⟨d, hd⟩ : ∃ d, nestingDepth p m = d + 1 := ⟨_, rfl⟩
  refine ⟨M.inner.requests p d, ?_⟩
  rw [Correspondence.request_run, hd]
  rfl

/-- A request for an entry that is in progress leaves it so. -/
theorem exists_request_run_inProgress (hc : p.index.resolve className = some c)
    (hfind : findMethod p.index c name = some (owner, method))
    (howner : p.index.resolve owner.fullName = some owner) (hm : m.RecordsFrom p) {slot : Slot}
    (hslot : .method (classKey owner) (Text.lower method.name) = slot)
    (hfault : M.fault? 0 (.request (.body slot)) = none)
    (hs : (m.entry slot).state = .inProgress) :
    ∃ n steps, (M.request p fun r => r.methodType className name).run m = ⟨.ok .unknown, n, steps⟩ ∧
      (n.entry slot).state = .inProgress := by
  have hmeet : (((m.meet c).meet owner).entry slot).state = .inProgress := by simpa using hs
  obtain ⟨ask, hask⟩ := exists_request_run M p className name m
  rw [hask, methodType_run _ ask hc hfind howner hm, hslot]
  simp only [Policy.keeping, hfault, raise?_none_bind]
  refine ⟨_, _, resolveEntry_run_inProgress hmeet, ?_⟩
  rcases Memory.entry_setEntry_cases _ slot slot ⟨.inProgress, true⟩ with heq | heq
  · rw [heq]
  · rw [heq, Memory.entry_write, hmeet]

/-- An entry is final once its type was asked for. -/
theorem final_after_resolveEntry {faults : Moment → Option Fault} {slot : Slot} {label : String}
    {pos : Pos} {infer : Analysis Ty} {declare : Ty → Analysis Ty}
    (hok : ((resolveEntry faults slot label pos infer declare).run m).result = .ok t)
    (hv : Valid p [] (h ++ ((resolveEntry faults slot label pos infer declare).run m).steps)
      ((resolveEntry faults slot label pos infer declare).run m).memory) :
    (((resolveEntry faults slot label pos infer declare).run m).memory.entry slot).Final := by
  cases hstate : (m.entry slot).state with
  | resolved u =>
    rw [resolveEntry_run_resolved hstate]
    exact Entry.final_of_resolved hstate
  | inProgress =>
    have hplace : m.HasPlace slot := Memory.hasPlace_of_state (by simp [hstate])
    rw [resolveEntry_run_inProgress hstate]
    simp only
    rw [Memory.entry_setEntry_self (hplace.write _)]
    exact .abandoned
  | unrequested =>
    cases hr :
        ((findType faults slot label pos infer declare).run (m.takeUp slot label)).result with
    | error e =>
      rw [resolveEntry_run_error hstate rfl hr] at hok
      cases hok
    | ok u =>
      -- The last step of the trace writes the entry.
      refine Entry.final_of_resolved (t := u.getD .unknown) ?_
      rw [hv.states, resolveEntry_run_ok hstate rfl hr]
      simp [stateAfter, Step.change]

/-- Requests for some methods of a class, one after the other. -/
def askMethods (M : Machine) (p : Program) (className : String) (names : List String) :
    Analysis PUnit :=
  names.forM fun name => do
    let _ ← (M.outerRequests p).methodType className name

private theorem askMethods_cons (M : Machine) (p : Program) (className name : String)
    (names : List String) :
    askMethods M p className (name :: names) =
      (M.request p fun r => r.methodType className name) >>= fun _ =>
        askMethods M p className names := by
  have hfirst : askMethods M p className (name :: names) =
      ((M.request p fun r => r.methodType className name) >>= fun _ =>
        (pure ⟨⟩ : Analysis PUnit)) >>= fun _ => askMethods M p className names := rfl
  rw [hfirst, bind_assoc]
  simp

private theorem analyzeClass_run (hc : p.index.resolve name = some c) (hm : m.RecordsFrom p) :
    (M.analyzeClass p name).run m =
      (do
        askMethods M p c.fullName
          (methodNames [] ((lineage p.index c).flatMap ClassLike.methods))
        return instanceType c : Analysis Ty).run (m.meet c) := by
  unfold Machine.analyzeClass analyzeUsing
  rw [Analysis.run_bind (classDecl_run_keyed hc hm), Analysis.after_nil]
  rfl

/-- What an analysis leaves in progress it has left by a fault, if nothing was in progress
before. -/
theorem Valid.analyzeClass (hv : Valid p [] h m)
    (hidle : ∀ slot, (m.entry slot).state ≠ .inProgress) {object : Ty}
    (hok : ((M.analyzeClass p name).run m).result = .ok object) {slot : Slot}
    (hs : (((M.analyzeClass p name).run m).memory.entry slot).state = .inProgress) :
    LeftByFault M slot ((M.analyzeClass p name).run m).steps := by
  have hrun : ((Query.analyze name).performOn M p).run m =
      ⟨.ok (some object), ((M.analyzeClass p name).run m).memory,
        ((M.analyzeClass p name).run m).steps⟩ := by
    refine (Analysis.run_bind_ok (f := fun t => pure (some t)) hok).trans ?_
    simp [Outcome.after, Analysis.run, pure]
  have hend := hv.perform (M := M) (.analyze name)
  have hrecovered := hv.recovered (M := M) (.analyze name) (by rw [hrun])
  rw [hrun] at hend hrecovered
  have hmem : .escaped (.body slot) ∈ h ++ ((M.analyzeClass p name).run m).steps := by
    rw [hend.states] at hs
    simpa using hend.pending slot hs
  rcases List.mem_append.mp hmem with hbefore | hnow
  · -- An entry that was left before would have a type by now.
    cases hstate : (m.entry slot).state with
    | unrequested => exact absurd (hv.states slot ▸ hstate) (hv.quit slot hbefore)
    | inProgress => exact absurd hstate (hidle slot)
    | resolved u =>
      rw [hv.resolved_later hend hstate] at hs
      cases hs
  · exact hrecovered.leftByFault hnow

variable (hself : ∀ d ∈ lineage p.index c, p.index.resolve d.fullName = some d)

include hself

private theorem resolve_start : p.index.resolve c.fullName = some c := by
  obtain ⟨rest, hrest⟩ := lineage_head p.index c
  exact hself c (by simp [hrest])

private theorem resolve_owner (hfind : findMethod p.index c name = some (owner, method)) :
    p.index.resolve owner.fullName = some owner := by
  obtain ⟨before, after, hsplit, -⟩ := (findMethod_eq_some_iff.mp hfind).2.inLineage
  exact hself owner (by simp [hsplit])

/-- A request that ends has settled what it asked for. -/
theorem Valid.settles (hv : Valid p [] h m) (hc : p.index.resolve className = some c)
    (hfind : findMethod p.index c name = some (owner, method))
    (hok : ((M.request p fun r => r.methodType className name).run m).result = .ok t) :
    Settled M p c name ((M.request p fun r => r.methodType className name).run m).memory := by
  have hvalid := (hv.request hok).1
  obtain ⟨ask, hask⟩ := exists_request_run M p className name m
  rw [hask, methodType_run _ ask hc hfind (resolve_owner hself hfind) hv.records] at hok hvalid ⊢
  simp only [Policy.keeping] at hok hvalid ⊢
  cases hf : M.fault? 0 (.request (.body (.method (classKey owner) (Text.lower method.name)))) with
  | some f =>
    rw [hf, raise?_bind_run] at hok
    cases hok
  | none =>
    rw [hf] at hok hvalid
    rw [raise?_none_bind] at hok hvalid ⊢
    exact ⟨owner, method, hfind, hf, final_after_resolveEntry hok hvalid⟩

/-- A request for what is settled asks for its entry and nothing else. -/
theorem Settled.request_run (hs : Settled M p c name m) (hm : m.RecordsFrom p)
    (hc : p.index.resolve className = some c) (hrec : (m.records.get? (classKey c)).isSome) :
    ∃ owner method ask, findMethod p.index c name = some (owner, method) ∧
      (m.entry (.method (classKey owner) (Text.lower method.name))).Final ∧
      let r := Routine.ofMethod owner owner method
      (M.request p fun r => r.methodType className name).run m =
        (resolveEntry (M.fault? 0) (.method (classKey owner) (Text.lower method.name)) r.label r.pos
          (r.infer p ask) (r.declare p)).run m := by
  obtain ⟨owner, method, hfind, hfault, hfinal⟩ := hs
  have hplace : m.HasPlace (.method (classKey owner) (Text.lower method.name)) :=
    Memory.hasPlace_of_state hfinal.requested
  obtain ⟨ask, hask⟩ := exists_request_run M p className name m
  refine ⟨owner, method, ask, hfind, hfinal, ?_⟩
  rw [hask, methodType_run _ ask hc hfind (resolve_owner hself hfind) hm,
    Memory.meet_of_isSome hrec, Memory.meet_of_isSome hplace]
  simp only [Policy.keeping, hfault, raise?_none_bind]

/-- What has a type can be asked for without any change. -/
theorem Settled.request_run_resolved (hs : Settled M p c name m) (hm : m.RecordsFrom p)
    (hc : p.index.resolve className = some c) (hrec : (m.records.get? (classKey c)).isSome)
    (hfind : findMethod p.index c name = some (owner, method))
    (ht : (m.entry (.method (classKey owner) (Text.lower method.name))).state = .resolved t) :
    (M.request p fun r => r.methodType className name).run m = ⟨.ok t, m, []⟩ := by
  obtain ⟨owner', method', ask, hfind', -, hrun⟩ := hs.request_run hself hm hc hrec
  rw [hfind] at hfind'
  cases hfind'
  rw [hrun, resolveEntry_run_resolved ht]

/-- What is settled can be asked for, and at most the log changes. -/
theorem Settled.request_run_log (hs : Settled M p c name m) (hm : m.RecordsFrom p)
    (hc : p.index.resolve className = some c) (hrec : (m.records.get? (classKey c)).isSome) :
    ∃ t log steps, (M.request p fun r => r.methodType className name).run m =
      ⟨.ok t, { m with log := log }, steps⟩ := by
  obtain ⟨owner, method, ask, -, hfinal, hrun⟩ := hs.request_run hself hm hc hrec
  rw [hrun]
  cases hstate : (m.entry (.method (classKey owner) (Text.lower method.name))).state with
  | unrequested => exact absurd hstate hfinal.requested
  | resolved t => exact ⟨t, m.log, [], resolveEntry_run_resolved hstate⟩
  | inProgress =>
    have hentry := hfinal.eq_of_inProgress hstate
    rw [resolveEntry_run_inProgress hstate,
      Memory.setEntry_of_entry (by simpa using hentry) (by simp)]
    exact ⟨.unknown, _, _, rfl⟩

/-- After requests for some methods of a class, all of them are settled. -/
theorem Valid.askMethods {names : List String} (hv : Valid p [] h m)
    (hc : p.index.resolve className = some c)
    (hfound : ∀ name ∈ names, ∃ owner method, findMethod p.index c name = some (owner, method))
    (hok : ((Inference.askMethods M p className names).run m).result = .ok ⟨⟩) :
    let o := (Inference.askMethods M p className names).run m
    Retains p m o.memory ∧ ∀ name ∈ names, Settled M p c name o.memory := by
  induction names generalizing h m with
  | nil => exact ⟨.refl hv.records, by simp⟩
  | cons name names ih =>
    obtain ⟨⟨owner, method, hfind⟩, hfound⟩ := List.forall_mem_cons.mp hfound
    rw [askMethods_cons] at hok ⊢
    cases hr : ((M.request p fun r => r.methodType className name).run m).result with
    | error e =>
      rw [Analysis.run_bind_error hr] at hok
      cases hok
    | ok t =>
      obtain ⟨hnext, hkept⟩ := hv.request hr
      have hfirst := hv.settles hself hc hfind hr
      rw [Analysis.run_bind_ok hr] at hok ⊢
      obtain ⟨hkept', hall⟩ := ih hnext hfound hok
      exact ⟨hkept.trans hkept', List.forall_mem_cons.mpr ⟨hfirst.retained hkept', hall⟩⟩

/-- Requests for what has a type change nothing. -/
theorem askMethods_run_resolved {names : List String} (hm : m.RecordsFrom p)
    (hc : p.index.resolve className = some c) (hrec : (m.records.get? (classKey c)).isSome)
    (hs : ∀ name ∈ names, Settled M p c name m ∧ ∃ owner method t,
      findMethod p.index c name = some (owner, method) ∧
      (m.entry (.method (classKey owner) (Text.lower method.name))).state = .resolved t) :
    (askMethods M p className names).run m = ⟨.ok ⟨⟩, m, []⟩ := by
  induction names with
  | nil => rfl
  | cons name names ih =>
    obtain ⟨⟨hfirst, owner, method, t, hfind, ht⟩, hs⟩ := List.forall_mem_cons.mp hs
    rw [askMethods_cons,
      Analysis.run_bind (hfirst.request_run_resolved hself hm hc hrec hfind ht), ih hs]
    rfl

private theorem askMethods_run_log {names : List String} (hm : m.RecordsFrom p)
    (hc : p.index.resolve className = some c) (hrec : (m.records.get? (classKey c)).isSome)
    (hs : ∀ name ∈ names, Settled M p c name m) :
    ∃ log steps, (askMethods M p className names).run m =
      ⟨.ok ⟨⟩, { m with log := log }, steps⟩ := by
  induction names generalizing m with
  | nil => exact ⟨m.log, [], rfl⟩
  | cons name names ih =>
    obtain ⟨hfirst, hs⟩ := List.forall_mem_cons.mp hs
    obtain ⟨t, log, steps, hrun⟩ := hfirst.request_run_log hself hm hc hrec
    have hkept : Retains p m { m with log := log } :=
      (Retains.refl hm).congr rfl fun slot => by cases slot <;> rfl
    obtain ⟨log', steps', hrest⟩ := ih (m := { m with log := log }) hm hrec
      fun name hname => (hs name hname).retained hkept
    rw [askMethods_cons, Analysis.run_bind hrun, hrest]
    exact ⟨log', _, rfl⟩

/-- After an analysis that returns, all methods of the lineage are settled. -/
theorem Valid.analyzeClass_settled (hv : Valid p [] h m) (hc : p.index.resolve name = some c)
    {object : Ty} (hok : ((M.analyzeClass p name).run m).result = .ok object) :
    let after := ((M.analyzeClass p name).run m).memory
    object = instanceType c ∧ after.RecordsFrom p ∧ (after.records.get? (classKey c)).isSome ∧
      ∀ method ∈ (lineage p.index c).flatMap ClassLike.methods,
        Settled M p c method.name after := by
  have hfound : ∀ name ∈ methodNames [] ((lineage p.index c).flatMap ClassLike.methods),
      ∃ owner method, findMethod p.index c name = some (owner, method) := by
    intro name hname
    obtain ⟨method, hmethod, rfl⟩ := exists_mem_of_mem_methodNames hname
    obtain ⟨d, hd, hmethod⟩ := List.mem_flatMap.mp hmethod
    exact exists_findMethod_of_mem hd hmethod
  rw [analyzeClass_run hc hv.records] at hok ⊢
  cases hr : ((Inference.askMethods M p c.fullName (methodNames []
      ((lineage p.index c).flatMap ClassLike.methods))).run (m.meet c)).result with
  | error e =>
    rw [Analysis.run_bind_error hr] at hok
    cases hok
  | ok u =>
    obtain ⟨hkept, hall⟩ :=
      (hv.meet (Index.resolve_mem hc)).askMethods hself (resolve_start hself) hfound hr
    rw [Analysis.run_bind_ok hr] at hok ⊢
    obtain ⟨r, hrec⟩ := m.meet_get? c
    refine ⟨by cases hok; rfl, hkept.records, hkept.recorded _ (by simp [hrec]), ?_⟩
    intro method hmethod
    -- The name may have been asked for in another spelling.
    obtain ⟨name, hname, hlower⟩ := exists_mem_methodNames hmethod List.not_mem_nil
    obtain ⟨d, first, hfind, hfault, hfinal⟩ := hall name hname
    refine ⟨d, first, ?_, hfault, hfinal⟩
    rw [findMethod_eq_some_iff] at hfind ⊢
    exact ⟨hfind.1.trans hlower, hfind.2⟩

/-- An analysis of a class whose methods are settled changes at most the log. -/
private theorem analyzeClass_run_log (hc : p.index.resolve name = some c) (hm : m.RecordsFrom p)
    (hrec : (m.records.get? (classKey c)).isSome)
    (hs : ∀ name ∈ methodNames [] ((lineage p.index c).flatMap ClassLike.methods),
      Settled M p c name m) :
    ∃ log steps, (M.analyzeClass p name).run m =
      ⟨.ok (instanceType c), { m with log := log }, steps⟩ := by
  obtain ⟨log, steps, hrun⟩ := askMethods_run_log hself hm (resolve_start hself) hrec hs
  rw [analyzeClass_run hc hm, Memory.meet_of_isSome hrec, Analysis.run_bind hrun]
  exact ⟨log, _, rfl⟩

/-- An analysis of a class whose methods have types changes nothing. -/
private theorem analyzeClass_run_resolved (hc : p.index.resolve name = some c)
    (hm : m.RecordsFrom p) (hrec : (m.records.get? (classKey c)).isSome)
    (hs : ∀ name ∈ methodNames [] ((lineage p.index c).flatMap ClassLike.methods),
      Settled M p c name m)
    (hresolved : ∀ d method, DeclaredFirst p.index c d method →
      ∃ t, (m.entry (.method (classKey d) (Text.lower method.name))).state = .resolved t) :
    (M.analyzeClass p name).run m = ⟨.ok (instanceType c), m, []⟩ := by
  have htypes : ∀ name ∈ methodNames [] ((lineage p.index c).flatMap ClassLike.methods),
      Settled M p c name m ∧ ∃ owner method t,
        findMethod p.index c name = some (owner, method) ∧
        (m.entry (.method (classKey owner) (Text.lower method.name))).state = .resolved t := by
    intro name hname
    obtain ⟨d, method, hfind, -, -⟩ := hs name hname
    obtain ⟨t, ht⟩ := hresolved d method (findMethod_eq_some_iff.mp hfind).2
    exact ⟨hs name hname, d, method, t, hfind, ht⟩
  rw [analyzeClass_run hc hm, Memory.meet_of_isSome hrec, Analysis.run_bind
    (askMethods_run_resolved hself hm (resolve_start hself) hrec htypes)]
  rfl

end

private theorem DeclaredFirst.mem_methods {index : Index} {c d : ClassLike} {m : Method}
    (h : DeclaredFirst index c d m) : m ∈ (lineage index c).flatMap ClassLike.methods := by
  obtain ⟨⟨before, rest, hlineage, -⟩, ⟨earlier, later, hmethods, -⟩⟩ := h
  exact List.mem_flatMap.mpr ⟨d, by simp [hlineage], by simp [hmethods]⟩

/-- Classes that sources declare have names. In a program whose classes have names, let a class be
analyzed after any run that left no entry in progress, and let that end. Then each method that its
lineage declares first is resolved, and a request for it in any spelling gives its type and changes
nothing, or its body was left by a fault that was caught later. A second analysis gives the same
object and changes at most the log, and if all these methods are resolved it changes nothing. -/
theorem analyzeClass_settles (M : Machine) (p : Program) :
    (∀ natives diags log sources,
      p.index = (Frontend.processAll ⟨natives, .empty, diags, log⟩ sources).index →
      ∀ c ∈ p.index.classes.values, c.fullName ≠ "") ∧
    ∀ (cs : List Command) (name : String) (c : ClassLike) (object : Ty),
      p.index.resolve name = some c → (∀ d ∈ lineage p.index c, d.fullName ≠ "") →
      (∀ slot, ((runOn M p cs).memory.entry slot).state ≠ .inProgress) →
      ((M.analyzeClass p name).run (runOn M p cs).memory).result = .ok object →
      let o := (M.analyzeClass p name).run (runOn M p cs).memory
      (∀ d m, DeclaredFirst p.index c d m →
        (∃ t, (o.memory.entry (.method (classKey d) (Text.lower m.name))).state = .resolved t ∧
          ∀ className spelling, p.index.resolve className = some c →
            Text.lower spelling = Text.lower m.name →
            (M.request p fun r => r.methodType className spelling).run o.memory =
              ⟨.ok t, o.memory, []⟩) ∨
        (o.memory.entry (.method (classKey d) (Text.lower m.name))).state = .inProgress ∧
          LeftByFault M (.method (classKey d) (Text.lower m.name)) o.steps) ∧
      (∃ log steps, (M.analyzeClass p name).run o.memory =
        ⟨.ok object, { o.memory with log := log }, steps⟩) ∧
      ((∀ d m, DeclaredFirst p.index c d m →
          ∃ t, (o.memory.entry (.method (classKey d) (Text.lower m.name))).state = .resolved t) →
        (M.analyzeClass p name).run o.memory = ⟨.ok object, o.memory, []⟩) := by
  constructor
  · intro natives diags log sources hindex
    rw [hindex]
    exact Frontend.processAll_named natives diags log sources
  intro cs name c object hc hnamed hidle hok o
  have hself : ∀ d ∈ lineage p.index c, p.index.resolve d.fullName = some d := by
    intro d hd
    exact Index.resolve_of_fullKey (hnamed d hd) (lineage_subset (Index.resolve_mem hc) hd) rfl
  have hv := runOn_valid M p cs
  obtain ⟨hobject, hrecords, hrecorded, hsettled⟩ := hv.analyzeClass_settled hself hc hok
  have hnames : ∀ name ∈ methodNames [] ((lineage p.index c).flatMap ClassLike.methods),
      Settled M p c name o.memory := by
    intro name hname
    obtain ⟨m, hm, rfl⟩ := exists_mem_of_mem_methodNames hname
    exact hsettled m hm
  refine ⟨fun d m hfirst => ?_, ?_, fun hresolved => ?_⟩
  · have hfind : ∀ spelling, Text.lower spelling = Text.lower m.name →
        findMethod p.index c spelling = some (d, m) :=
      fun spelling hlower => findMethod_eq_some_iff.mpr ⟨hlower.symm, hfirst⟩
    obtain ⟨d', m', hfound, hfault, hfinal⟩ := hsettled m hfirst.mem_methods
    rw [hfind m.name rfl] at hfound
    cases hfound
    cases hstate : (o.memory.entry (.method (classKey d) (Text.lower m.name))).state with
    | unrequested => exact absurd hstate hfinal.requested
    | inProgress => exact .inr ⟨rfl, hv.analyzeClass hidle hok hstate⟩
    | resolved t =>
      refine .inl ⟨t, rfl, fun className spelling hclass hlower => ?_⟩
      have hspelt : Settled M p c spelling o.memory := ⟨d, m, hfind spelling hlower, hfault, hfinal⟩
      exact hspelt.request_run_resolved hself hrecords hclass hrecorded (hfind spelling hlower)
        hstate
  · rw [hobject]
    exact analyzeClass_run_log hself hc hrecords hrecorded hnames
  · rw [hobject]
    exact analyzeClass_run_resolved hself hc hrecords hrecorded hnames hresolved

/-- Without comments and faults nothing stops an analysis. -/
theorem analyzeClass_returns {p : Program} (h : ∀ node ∈ p.index.nodes, node.comment? = none)
    {m : Memory} (hm : m.RecordsFrom p) (name : String) :
    ∃ object, ((Machine.perfect.analyzeClass p name).run m).result = .ok object := by
  cases hr : ((Machine.perfect.analyzeClass p name).run m).result with
  | ok object => exact ⟨object, rfl⟩
  | error e =>
    have hperform : ((Query.analyze name).perform p).run m = _ :=
      Analysis.run_bind_error (f := fun t => pure (some t)) hr
    have hstopped := (Contract.declared_perform (Query.analyze name) m hm).2
    rw [hperform] at hstopped
    obtain ⟨node, hnode, pos, text, t, hcomment, -⟩ := hstopped
    rw [h node hnode] at hcomment
    cases hcomment

/-- A method that calls another one of its object. -/
def forwarding (name callee : String) : Method :=
  let call : Expr := .methodCall ⟨1, 1⟩ (.var ⟨1, 1⟩ "this") callee [] false
  { signature name with body := some ⟨⟨1, 1⟩, [.returns ⟨1, 1⟩ none (some call)]⟩ }

def greeting : ClassLike :=
  { ClassLike.bare ⟨1, 1⟩ none .trait "Greeting" with methods := [forwarding "hello" "SIZE"] }

/-- Two of its methods have one name. -/
def trunk : ClassLike :=
  { ClassLike.bare ⟨2, 1⟩ none .ordinary "Trunk" with
    methods := [forwarding "NAME" "hello", forwarding "Size" "name", forwarding "size" "size"] }

def leaf : ClassLike :=
  { ClassLike.bare ⟨3, 1⟩ none .ordinary "Leaf" with
    parent := some "Trunk", traits := ["Greeting"], methods := [forwarding "name" "hello"] }

def leafProgram : Program := ⟨[greeting, trunk, leaf].foldl Index.addClass .empty, .empty⟩

private theorem lineage_leaf : lineage leafProgram.index leaf = [leaf, greeting, trunk] := by
  have hmem : leaf ∈ leafProgram.index.classes.values := List.mem_of_getElem? (i := 2) rfl
  have hleaf : relatives leafProgram.index leaf = [greeting, trunk] := rfl
  have hgreeting : relatives leafProgram.index greeting = [] := rfl
  have htrunk : relatives leafProgram.index trunk = [] := rfl
  refine (visits_lineage hmem).unique (.first (by decide) ?_)
  rw [hleaf]
  refine .first (by decide) ?_
  rw [hgreeting]
  refine .first (by decide) ?_
  rw [htrunk]
  exact .done

/-- A name that is declared in two spellings is asked for in a third one. -/
theorem leaf_settles :
    let o := (Machine.perfect.analyzeClass leafProgram "LEAF").run (run leafProgram []).memory
    leafProgram.index.resolve "LEAF" = some leaf ∧
    (∀ d ∈ lineage leafProgram.index leaf, d.fullName ≠ "") ∧
    (∀ slot, ((run leafProgram []).memory.entry slot).state ≠ .inProgress) ∧
    DeclaredFirst leafProgram.index leaf trunk (forwarding "Size" "name") ∧
    ∃ object t, o.result = .ok object ∧
      (o.memory.entry (.method "trunk" "size")).state = .resolved t ∧
      (Machine.perfect.request leafProgram fun r => r.methodType "leaf" "SIZE").run o.memory =
        ⟨.ok t, o.memory, []⟩ ∧
      (Machine.perfect.analyzeClass leafProgram "LEAF").run o.memory =
        ⟨.ok object, o.memory, []⟩ := by
  intro o
  have hresolve : leafProgram.index.resolve "LEAF" = some leaf := rfl
  have hnamed : ∀ d ∈ lineage leafProgram.index leaf, d.fullName ≠ "" := by
    rw [lineage_leaf]
    decide
  have hidle : ∀ slot, ((run leafProgram []).memory.entry slot).state ≠ .inProgress := by
    intro slot hs
    cases slot <;> cases hs
  have hcomments : leafProgram.index.nodes.filterMap Node.comment? = [] := rfl
  have hfirst : DeclaredFirst leafProgram.index leaf trunk (forwarding "Size" "name") := by
    constructor
    · exact ⟨[leaf, greeting], [], lineage_leaf, by decide⟩
    · exact ⟨[forwarding "NAME" "hello"], [forwarding "size" "size"], rfl, by decide⟩
  obtain ⟨object, hok⟩ := analyzeClass_returns
    (fun node hnode => List.filterMap_eq_nil_iff.mp hcomments node hnode)
    (run_recordsFrom leafProgram []) "LEAF"
  obtain ⟨hsettled, -, hagain⟩ :=
    (analyzeClass_settles .perfect leafProgram).2 [] "LEAF" leaf object hresolve hnamed hidle hok
  -- There are no faults by which a body could be left.
  have hresolved := fun d m hfirst => (hsettled d m hfirst).resolve_right
    fun ⟨_, _, _, _, f, _, _, hraises⟩ => Machine.not_raises_perfect f hraises
  obtain ⟨t, ht, hasked⟩ := hresolved trunk _ hfirst
  have hspelling : Text.lower "SIZE" = Text.lower (forwarding "Size" "name").name := by decide
  refine ⟨hresolve, hnamed, hidle, hfirst, object, t, hok, ht, hasked "leaf" "SIZE" rfl hspelling,
    hagain fun d m hfirst => ?_⟩
  obtain ⟨t, ht, -⟩ := hresolved d m hfirst
  exact ⟨t, ht⟩

/-- A method that calls another one, which has no body. -/
def counter : ClassLike :=
  { ClassLike.bare ⟨1, 1⟩ none .ordinary "Counter" with
    methods := [forwarding "next" "start", signature "start"] }

def counterProgram : Program := ⟨Index.empty.addClass counter, .empty⟩

private theorem lineage_counter : lineage counterProgram.index counter = [counter] := by
  have hmem : counter ∈ counterProgram.index.classes.values := List.mem_cons_self
  have hrelatives : relatives counterProgram.index counter = [] := rfl
  refine (visits_lineage hmem).unique (.first (by decide) ?_)
  rw [hrelatives]
  exact .done

private theorem findMethod_counter (name : String) :
    findMethod counterProgram.index counter name =
      (findIn counter name).map fun m => (counter, m) := by
  rw [findMethod, lineage_counter]
  cases hin : findIn counter name <;> simp [hin]

/-- One level below the outermost request there is no room to read what is declared. -/
private theorem start_run (ask : Requests) {m : Memory} (hm : m.RecordsFrom counterProgram)
    (hs : (m.entry (.method "counter" "start")).state = .unrequested) :
    ∃ steps, (methodType (.keeping ((Machine.ofDepth 1).fault? 1)) counterProgram ask "Counter"
      "start").run m = ⟨.error (.fault Machine.tooDeep),
        ((m.meet counter).meet counter).takeUp (.method "counter" "start") "Counter::start",
        steps⟩ := by
  have hmeet : (((m.meet counter).meet counter).entry (.method "counter" "start")).state =
      .unrequested := by simpa using hs
  rw [methodType_run _ ask rfl (findMethod_counter "start") rfl hm]
  exact ⟨_, (congrArg (Analysis.run · _) (raise?_none_bind _)).trans
    (resolveEntry_run_error hmeet rfl rfl)⟩

private theorem run_lift_bind {α β : Type} (x : Analysis α) (next : α → Attempt β) (f : Frame) :
    (liftM x >>= next : Attempt β).run.run f = x >>= fun a => (next a).run.run f := by
  have hlift : (liftM x : Attempt α).run.run f = x >>= fun a => pure (.ok a, f) := by
    change (do let a ← (do let a ← x; pure (a, f)); pure (Except.ok a.1, a.2)) = _
    simp
  rw [ExceptT.run_bind, StateT.run_bind, hlift, bind_assoc]
  simp

/-- A call is stopped by what stops the request for the method. -/
private theorem callOnObject_run_error {s : Site} {method : String} {r : Record}
    {found : ClassLike × Method} {m n : Memory} {e : Escape} {steps : List Step} (declared : String)
    (hrecord : m.records.get? (Text.lower declared) = some r)
    (hfind : findMethod s.program.index r.decl method = some found)
    (hrequest : (s.ask.methodType r.decl.fullName method).run m = ⟨.error e, n, steps⟩)
    (pos : Pos) (name : String) (f : Frame) :
    ((callOnObject s pos name (some declared) method).run.run f).run m =
      ⟨.error e, n, steps⟩ := by
  simp only [callOnObject]
  rw [run_lift_bind, Analysis.run_bind (recordedClass?_run_recorded hrecord), Analysis.after_nil]
  simp only [hfind, Option.isNone_some, Bool.false_eq_true, if_false]
  rw [← bind_pure (liftM _), run_lift_bind, Analysis.run_bind_error (e := e) (by rw [hrequest]),
    hrequest]

/-- The first method at its place. -/
def counterNext : Routine := .ofMethod counter counter (forwarding "next" "start")

private theorem counterNext_evaluate (ask : Requests) :
    ∃ rest, counterNext.evaluate counterProgram ask =
      (callOnObject (counterNext.site counterProgram ask) ⟨1, 1⟩ "Counter" (some "Counter")
        "start").run >>= rest := by
  have hdoc : readDoc counterNext.doc = pure ⟨"", []⟩ := rfl
  have hparams : ∀ b, bindParams (counterNext.site counterProgram ask) b counterNext.params =
      pure [] := fun _ => rfl
  have hthis : variableType (counterNext.site counterProgram ask) "this" =
      pure (.object "Counter" (some "Counter")) := rfl
  have hbody : counterNext.body = (forwarding "next" "start").body := rfl
  simp only [Routine.evaluate, hdoc, hparams, hbody, forwarding, execAll, exec, returned, eval,
    hthis, evalArgs, settle, callMethod, ExceptT.run_pure, pure_bind, bind_assoc, liftM_pure]
  exact ⟨_, rfl⟩

private theorem counterNext_infer_run (ask : Requests) {m n : Memory} {r : Record} {e : Escape}
    {steps : List Step} (hrecord : m.records.get? "counter" = some r) (hdecl : r.decl = counter)
    (hstart : (ask.methodType "Counter" "start").run m = ⟨.error e, n, steps⟩) :
    (counterNext.infer counterProgram ask).run m = ⟨.error e, n, steps⟩ := by
  obtain ⟨rest, hevaluate⟩ := counterNext_evaluate ask
  have hfind : findMethod counterProgram.index r.decl "start" =
      some (counter, signature "start") := by
    rw [hdecl]
    exact findMethod_counter "start"
  have hrequest : (ask.methodType r.decl.fullName "start").run m = ⟨.error e, n, steps⟩ := by
    rw [hdecl]
    exact hstart
  have hcall := callOnObject_run_error (s := counterNext.site counterProgram ask) "Counter"
    hrecord hfind hrequest ⟨1, 1⟩ "Counter" ⟨.empty, []⟩
  rw [Routine.infer, hevaluate, StateT.run'_eq, StateT.run_bind, map_eq_pure_bind, bind_assoc,
    Analysis.run_bind_error (e := e) (by rw [hcall]), hcall]

/-- The request for the first method leaves the second one in progress. -/
private theorem counterNext_request :
    let o := ((Machine.ofDepth 1).request counterProgram fun r =>
      r.methodType "Counter" "next").run (Memory.empty.meet counter)
    o.result = .ok .unknown ∧ (o.memory.entry (.method "counter" "start")).state = .inProgress := by
  intro o
  have hrecords : (Memory.empty.meet counter).RecordsFrom counterProgram :=
    (Memory.empty.recordsFrom_reset counterProgram).meet List.mem_cons_self
  let inner : Requests := (Machine.ofDepth 1).inner.requests counterProgram 4
  let m := (Memory.empty.meet counter).takeUp (.method "counter" "next") "Counter::next"
  have hm : m.RecordsFrom counterProgram :=
    Memory.RecordsFrom.setEntry (m := (Memory.empty.meet counter).write _) hrecords _ _
  obtain ⟨steps, hstart⟩ :=
    start_run ((Machine.ofDepth 1).inner.inner.requests counterProgram 3) hm rfl
  have hinfer := counterNext_infer_run inner (m := m) rfl rfl hstart
  have hrequest : o = (methodType (.keeping ((Machine.ofDepth 1).fault? 0)) counterProgram inner
      "Counter" "next").run (Memory.empty.meet counter) :=
    Correspondence.request_run _ _
  rw [methodType_run _ inner rfl (findMethod_counter "next") rfl hrecords] at hrequest
  have hresolve : o = (resolveEntry ((Machine.ofDepth 1).fault? 0) (.method "counter" "next")
      "Counter::next" ⟨1, 1⟩ (counterNext.infer counterProgram inner)
      (counterNext.declare counterProgram)).run (Memory.empty.meet counter) :=
    hrequest.trans (congrArg (Analysis.run · _) (raise?_none_bind _))
  -- The fault in the second method is met in the body of the first one, which is given up.
  rw [hresolve, resolveEntry_run_failed rfl
    ((congrArg (Analysis.run · _) (raise?_none_bind _)).trans hinfer) rfl rfl]
  exact ⟨rfl, rfl⟩

/-- Without enough depth for both methods the analysis returns, and the second one stays in progress
though nothing was in progress before. -/
theorem counter_abandons :
    let o := ((Machine.ofDepth 1).analyzeClass counterProgram "Counter").run
      (runOn (.ofDepth 1) counterProgram []).memory
    DeclaredFirst counterProgram.index counter counter (signature "start") ∧
    (∀ slot, ((runOn (.ofDepth 1) counterProgram []).memory.entry slot).state ≠ .inProgress) ∧
    o.result = .ok (instanceType counter) ∧
    (o.memory.entry (.method "counter" "start")).state = .inProgress := by
  intro o
  have hempty : Valid counterProgram [] [] .empty := valid_reset counterProgram .empty
  have hmeet : Valid counterProgram [] [] (Memory.empty.meet counter) :=
    hempty.meet List.mem_cons_self
  have hnames : methodNames [] ((lineage counterProgram.index counter).flatMap ClassLike.methods) =
      ["next", "start"] := by
    rw [lineage_counter]
    decide
  have hresolve : counterProgram.index.resolve "Counter" = some counter := rfl
  have hrun : o = (do
      askMethods (.ofDepth 1) counterProgram "Counter" ["next", "start"]
      return instanceType counter : Analysis Ty).run (Memory.empty.meet counter) := by
    rw [← hnames]
    exact analyzeClass_run hresolve hempty.records
  -- The first request leaves the second method in progress.
  obtain ⟨hnext, hstart⟩ := counterNext_request
  have hrecords := (hmeet.request hnext).1.records
  rw [askMethods_cons, bind_assoc, Analysis.run_bind_ok hnext] at hrun
  generalize ((Machine.ofDepth 1).request counterProgram fun r =>
    r.methodType "Counter" "next").run (Memory.empty.meet counter) = first at hstart hrecords hrun
  -- The second request finds it there.
  obtain ⟨n, steps, hagain, hn⟩ := exists_request_run_inProgress (M := .ofDepth 1) hresolve
    (findMethod_counter "start") rfl hrecords rfl rfl hstart
  rw [askMethods_cons, bind_assoc, Analysis.run_bind hagain] at hrun
  rw [hrun]
  exact ⟨⟨⟨[], [], lineage_counter, by simp⟩, ⟨[forwarding "next" "start"], [], rfl, by decide⟩⟩,
    by rintro (_ | _) ⟨⟩, rfl, hn⟩

end PhpTypes.Inference
