import PhpTypes.Proofs.Depth
import PhpTypes.Proofs.Trace

/-!
# The life of entries

Every trace is legal, and the memory is as the trace tells. The bodies and constants under
evaluation are different declarations, so requests are never nested more deeply than there are
declarations.
-/

namespace PhpTypes.Inference

open Source

/-! What can be under evaluation. -/

def declarationsOf (p : Program) (c : ClassLike) : List Activity :=
  c.methods.map (fun m =>
    .body (.method (((p.index.resolve c.fullName).map classKey).getD "") (Text.lower m.name))) ++
  c.constants.map fun d => .constant ⟨some (classKey c), d.name⟩

/-- All bodies and constants of a program. -/
def declarations (p : Program) : List Activity :=
  p.index.classes.values.flatMap (declarationsOf p) ++
  (p.index.functions.values.map fun f => .body (.function (Text.lower f.fullName))) ++
  p.index.constants.values.map fun d => .constant ⟨none, d.name⟩

theorem length_declarations_lt (p : Program) (m : Memory) :
    (declarations p).length < nestingDepth p m := by
  have hclass : ∀ c, (declarationsOf p c).length = classSize c := by
    simp [declarationsOf, classSize]
  have hsum : (p.index.classes.values.flatMap (declarationsOf p)).length =
      (p.index.classes.values.map classSize).foldr (· + ·) 0 := by
    simp [List.length_flatMap, hclass, List.sum]
  simp only [declarations, List.length_append, List.length_map, hsum, nestingDepth,
    Dict.length_values]
  omega

private theorem mem_declarations_method {p : Program} {owner d : ClassLike} {m : Method}
    (howner : owner ∈ p.index.classes.values) (hm : m ∈ owner.methods)
    (hd : p.index.resolve owner.fullName = some d) :
    .body (.method (classKey d) (Text.lower m.name)) ∈ declarations p := by
  have h : .body (.method (classKey d) (Text.lower m.name)) ∈ declarationsOf p owner := by
    simp only [declarationsOf, hd, List.mem_append, List.mem_map]
    exact .inl ⟨m, hm, rfl⟩
  simp only [declarations, List.mem_append, List.mem_flatMap]
  exact .inl (.inl ⟨owner, howner, h⟩)

private theorem mem_declarations_constant {p : Program} {owner : ClassLike} {d : Constant}
    (howner : owner ∈ p.index.classes.values) (hd : d ∈ owner.constants) :
    .constant ⟨some (classKey owner), d.name⟩ ∈ declarations p := by
  have h : .constant ⟨some (classKey owner), d.name⟩ ∈ declarationsOf p owner := by
    simp only [declarationsOf, List.mem_append, List.mem_map]
    exact .inr ⟨d, hd, rfl⟩
  simp only [declarations, List.mem_append, List.mem_flatMap]
  exact .inl (.inl ⟨owner, howner, h⟩)

private theorem mem_declarations_function {p : Program} {f : Function}
    (hf : f ∈ p.index.functions.values) :
    .body (.function (Text.lower f.fullName)) ∈ declarations p := by
  simp only [declarations, List.mem_append, List.mem_map]
  exact .inl (.inr ⟨f, hf, rfl⟩)

private theorem mem_declarations_global {p : Program} {d : Constant}
    (hd : d ∈ p.index.constants.values) : .constant ⟨none, d.name⟩ ∈ declarations p := by
  simp only [declarations, List.mem_append, List.mem_map]
  exact .inr ⟨d, hd, rfl⟩

/-! The invariant. -/

def Activity.constant? : Activity → Option ConstantKey
  | .constant key => some key
  | .body _ => none

/-- The memory agrees with a trace after which a stack of bodies and constants is
under evaluation. -/
structure Valid (p : Program) (stack : List Activity) (h : List Step) (m : Memory) : Prop where
  records : m.RecordsFrom p
  legal : Legal h
  stack_eq : stackAfter h = stack
  subset : stack ⊆ declarations p
  active : m.active = stack.filterMap Activity.constant?
  states : ∀ slot, (m.entry slot).state = stateAfter slot h
  running : ∀ slot, .body slot ∈ stack → stateAfter slot h = .inProgress
  begun : ∀ slot, .started (.body slot) ∈ h → stateAfter slot h ≠ .unrequested
  quit : ∀ slot, .escaped (.body slot) ∈ h → stateAfter slot h ≠ .unrequested
  pending : ∀ slot, stateAfter slot h = .inProgress →
    .body slot ∈ stack ∨ .escaped (.body slot) ∈ h

namespace Valid

variable {p : Program} {stack : List Activity} {h : List Step} {m : Memory} {slot : Slot}
  {key : ConstantKey}

theorem nodup (hv : Valid p stack h m) : stack.Nodup := hv.stack_eq ▸ hv.legal.stack_nodup

/-- There are fewer bodies and constants under evaluation than requests can be nested. -/
theorem length_le (hv : Valid p stack h m) : stack.length ≤ (declarations p).length :=
  (hv.nodup.subperm hv.subset).length_le

theorem hasPlace (hv : Valid p stack h m) (hs : stateAfter slot h ≠ .unrequested) :
    m.HasPlace slot := by
  rw [← hv.states] at hs
  cases slot with
  | function k => trivial
  | method r k =>
    cases hr : m.records.get? r with
    | some record => simp [Memory.HasPlace, hr]
    | none => exact absurd (by simp [Memory.entry, hr, Entry.fresh]) hs

/-- A change of the memory that no field of the invariant speaks of. -/
theorem congr {m' : Memory} (hv : Valid p stack h m) (hrecords : m'.RecordsFrom p)
    (hactive : m'.active = m.active) (hentry : ∀ slot, m'.entry slot = m.entry slot) :
    Valid p stack h m' :=
  { hv with
    records := hrecords
    active := hactive.trans hv.active
    states := fun slot => by rw [hentry, hv.states] }

theorem write (hv : Valid p stack h m) (e : Event) : Valid p stack h (m.write e) :=
  hv.congr hv.records rfl (Memory.entry_write m e)

theorem report (hv : Valid p stack h m) (d : Diag) : Valid p stack h (m.report d) :=
  hv.congr hv.records rfl (Memory.entry_report m d)

theorem meet (hv : Valid p stack h m) {c : ClassLike} (hc : c ∈ p.index.classes.values) :
    Valid p stack h (m.meet c) :=
  hv.congr (hv.records.meet hc) (Memory.active_meet m c) (Memory.entry_meet m c)

/-- A step that changes neither an entry nor the stack. -/
theorem snoc {s : Step} (hv : Valid p stack h m) (hs : Allowed h s)
    (hchange : ∀ slot state, s.change slot state = state) (hnest : ∀ σ, s.nest σ = σ) :
    Valid p stack (h ++ [s]) m where
  records := hv.records
  legal := hv.legal.snoc hs
  stack_eq := by rw [stackAfter_snoc, hnest, hv.stack_eq]
  subset := hv.subset
  active := hv.active
  states := by simpa [hchange] using hv.states
  running := by simpa [hchange] using hv.running
  begun := by
    intro slot hmem
    rw [stateAfter_snoc, hchange]
    rcases List.mem_append.mp hmem with hmem | hmem
    · exact hv.begun slot hmem
    · rw [← List.mem_singleton.mp hmem] at hnest
      exact absurd (hnest []) (by simp [Step.nest])
  quit := by
    intro slot hmem
    rw [stateAfter_snoc, hchange]
    rcases List.mem_append.mp hmem with hmem | hmem
    · exact hv.quit slot hmem
    · rw [← List.mem_singleton.mp hmem] at hnest
      exact absurd (hnest [.body slot]) (by simp [Step.nest])
  pending := by
    intro slot hstate
    rw [stateAfter_snoc, hchange] at hstate
    exact (hv.pending slot hstate).imp_right fun hmem => List.mem_append_left _ hmem

/-- An entry is taken up when it is asked for the first time. -/
theorem takeUp (hv : Valid p stack h m) (hs : (m.entry slot).state = .unrequested)
    (hplace : m.HasPlace slot) (hd : .body slot ∈ declarations p) (label : String) :
    Valid p (.body slot :: stack)
      (h ++ [.stored slot ⟨.inProgress, (m.entry slot).cyclic⟩] ++ [.started (.body slot)])
      (m.takeUp slot label) := by
  have hstate : stateAfter slot h = .unrequested := by rw [← hv.states, hs]
  have hnot : .body slot ∉ stack := fun hmem => by
    rw [hv.running slot hmem] at hstate
    cases hstate
  have hnew : .started (.body slot) ∉ h := fun hmem => hv.begun slot hmem hstate
  refine ⟨?_, ?_, ?_, ?_, ?_, fun other => ?_, fun other => ?_, fun other => ?_, fun other => ?_,
    fun other => ?_⟩
  · exact Memory.RecordsFrom.setEntry (m := m.write _) hv.records slot _
  · refine (hv.legal.snoc ?_).snoc ⟨?_, ?_⟩
    · change Advances (stateAfter slot h) .inProgress
      rw [hstate]
      exact .starts
    · simpa only [stackAfter_snoc, Step.nest, hv.stack_eq] using hnot
    · rintro _ ⟨⟩
      simpa using hnew
  · simp only [stackAfter_snoc, Step.nest, hv.stack_eq]
  · exact List.cons_subset.mpr ⟨hd, hv.subset⟩
  · rw [Memory.takeUp, Memory.active_setEntry]
    exact hv.active
  -- The rest speaks of the state of an entry, which is another one than before or as it was.
  all_goals
    simp only [stateAfter_snoc, Step.change]
    by_cases ho : slot = other
  · subst ho
    rw [Memory.takeUp, Memory.entry_setEntry_self (hplace.write _), if_pos rfl]
  · rw [Memory.takeUp, Memory.entry_setEntry_ne (Ne.symm ho), Memory.entry_write, if_neg ho,
      hv.states]
  · simp [ho]
  · simpa [ho, Ne.symm ho] using hv.running other
  · simp [ho]
  · simpa [ho, Ne.symm ho] using hv.begun other
  · simp [ho]
  · simpa [ho] using hv.quit other
  · simp [ho]
  · simpa [ho, Ne.symm ho] using hv.pending other

/-- An entry that is in progress is asked for. -/
theorem repeated (hv : Valid p stack h m) (hs : (m.entry slot).state = .inProgress)
    (label : String) :
    Valid p stack (h ++ [.repeated (.body slot)] ++ [.stored slot ⟨.inProgress, true⟩])
      ((m.write (.cycle label)).setEntry slot ⟨.inProgress, true⟩) := by
  have hstate : stateAfter slot h = .inProgress := by rw [← hv.states, hs]
  have hplace : m.HasPlace slot := hv.hasPlace (by simp [hstate])
  have hsame : ∀ other,
      stateAfter other (h ++ [.repeated (.body slot)] ++ [.stored slot ⟨.inProgress, true⟩]) =
        stateAfter other h := by
    intro other
    simp only [stateAfter_snoc, Step.change]
    by_cases ho : slot = other
    · subst ho
      rw [if_pos rfl, hstate]
    · rw [if_neg ho]
  refine ⟨?_, ?_, ?_, hv.subset, ?_, fun other => ?_, fun other => ?_, fun other => ?_,
    fun other => ?_, fun other => ?_⟩
  · exact Memory.RecordsFrom.setEntry (m := m.write _) hv.records slot _
  · refine (hv.legal.snoc (s := .repeated (.body slot)) trivial).snoc ?_
    simpa only [Allowed, stateAfter_snoc, Step.change, hstate] using Advances.stays .inProgress
  · simp only [stackAfter_snoc, Step.nest, hv.stack_eq]
  · rw [Memory.active_setEntry]
    exact hv.active
  all_goals rw [hsame]
  · by_cases ho : other = slot
    · subst ho
      rw [Memory.entry_setEntry_self (hplace.write _), hstate]
    · rw [Memory.entry_setEntry_ne ho, Memory.entry_write, hv.states]
  · exact hv.running other
  · simpa using hv.begun other
  · simpa using hv.quit other
  · simpa using hv.pending other

/-- The evaluation of a body ends, and its entry is resolved. -/
theorem resolve (hv : Valid p (.body slot :: stack) h m) (t : Ty) (c : Bool) :
    Valid p stack (h ++ [.completed (.body slot)] ++ [.stored slot ⟨.resolved t, c⟩])
      (m.setEntry slot ⟨.resolved t, c⟩) := by
  have hstate := hv.running slot List.mem_cons_self
  have hplace : m.HasPlace slot := hv.hasPlace (by simp [hstate])
  have hnot := (List.nodup_cons.mp hv.nodup).1
  refine ⟨?_, ?_, ?_, ?_, ?_, fun other => ?_, fun other => ?_, fun other => ?_, fun other => ?_,
    fun other => ?_⟩
  · exact Memory.RecordsFrom.setEntry hv.records slot _
  · refine (hv.legal.snoc (s := .completed (.body slot)) trivial).snoc ?_
    simpa only [Allowed, stateAfter_snoc, Step.change, hstate] using Advances.ends t
  · simp only [stackAfter_snoc, Step.nest, hv.stack_eq, List.erase_cons_head]
  · exact (List.cons_subset.mp hv.subset).2
  · exact (Memory.active_setEntry m slot _).trans hv.active
  all_goals
    simp only [stateAfter_snoc, Step.change]
    by_cases ho : slot = other
  · subst ho
    rw [Memory.entry_setEntry_self hplace, if_pos rfl]
  · rw [Memory.entry_setEntry_ne (Ne.symm ho), if_neg ho, hv.states]
  · subst ho
    exact fun hmem => absurd hmem hnot
  · simpa [ho] using fun hmem => hv.running other (List.mem_cons_of_mem _ hmem)
  · simp [ho]
  · simpa [ho] using hv.begun other
  · simp [ho]
  · simpa [ho] using hv.quit other
  · simp [ho]
  · simpa [ho, Ne.symm ho] using hv.pending other

/-- A body is left without a type, and its entry stays in progress. -/
theorem abandon (hv : Valid p (.body slot :: stack) h m) :
    Valid p stack (h ++ [.escaped (.body slot)]) m := by
  refine ⟨hv.records, hv.legal.snoc trivial, ?_, (List.cons_subset.mp hv.subset).2, hv.active,
    fun other => ?_, fun other hmem => ?_, fun other => ?_, fun other hmem => ?_,
    fun other => ?_⟩
  · simp only [stackAfter_snoc, Step.nest, hv.stack_eq, List.erase_cons_head]
  all_goals simp only [stateAfter_snoc, Step.change]
  · exact hv.states other
  · exact hv.running other (List.mem_cons_of_mem _ hmem)
  · simpa using hv.begun other
  · rcases List.mem_append.mp hmem with hmem | hmem
    · exact hv.quit other hmem
    · cases List.mem_singleton.mp hmem
      rw [hv.running _ List.mem_cons_self]
      rintro ⟨⟩
  · intro hstate
    rcases hv.pending other hstate with hmem | hmem
    · rcases List.mem_cons.mp hmem with heq | hmem
      · exact .inr (by simp [heq])
      · exact .inl hmem
    · exact .inr (List.mem_append_left _ hmem)

theorem activate (hv : Valid p stack h m) (hk : key ∉ m.active)
    (hd : .constant key ∈ declarations p) :
    Valid p (.constant key :: stack) (h ++ [.started (.constant key)]) (m.activate key) := by
  have hnot : .constant key ∉ stack := fun hmem => hk (by
    rw [hv.active]
    exact List.mem_filterMap.mpr ⟨_, hmem, rfl⟩)
  refine ⟨hv.records, hv.legal.snoc ⟨by rwa [hv.stack_eq], by rintro _ ⟨⟩⟩, ?_,
    List.cons_subset.mpr ⟨hd, hv.subset⟩, ?_, fun other => ?_, fun other => ?_, fun other => ?_,
    fun other => ?_, fun other => ?_⟩
  · simp only [stackAfter_snoc, Step.nest, hv.stack_eq]
  · simp [Memory.activate, Activity.constant?, hv.active]
  all_goals simp only [stateAfter_snoc, Step.change]
  · rw [Memory.entry_activate, hv.states]
  · simpa using hv.running other
  · simpa using hv.begun other
  · simpa using hv.quit other
  · simpa using hv.pending other

theorem deactivate (hv : Valid p (.constant key :: stack) h m) {s : Step}
    (hs : s = .completed (.constant key) ∨ s = .escaped (.constant key)) :
    Valid p stack (h ++ [s]) (m.deactivate key) := by
  have hnot := (List.nodup_cons.mp hv.nodup).1
  have hallowed : Allowed h s := by rcases hs with rfl | rfl <;> trivial
  have hnest : s.nest (.constant key :: stack) = stack := by
    rcases hs with rfl | rfl <;> simp [Step.nest]
  have hchange : ∀ other state, s.change other state = state := by
    rcases hs with rfl | rfl <;> simp [Step.change]
  refine ⟨hv.records, hv.legal.snoc hallowed, ?_, (List.cons_subset.mp hv.subset).2, ?_,
    fun other => ?_, fun other hmem => ?_, fun other => ?_, fun other => ?_,
    fun other hstate => ?_⟩
  · rw [stackAfter_snoc, hv.stack_eq, hnest]
  · have hkeep : ∀ k ∈ stack.filterMap Activity.constant?, k ≠ key := by
      rintro k hk rfl
      obtain ⟨a, ha, hak⟩ := List.mem_filterMap.mp hk
      cases a with
      | body slot => cases hak
      | constant key =>
        cases hak
        exact hnot ha
    simpa [Memory.deactivate, hv.active, Activity.constant?] using hkeep
  · rw [stateAfter_snoc, hchange, Memory.entry_deactivate, hv.states]
  · rw [stateAfter_snoc, hchange]
    exact hv.running other (List.mem_cons_of_mem _ hmem)
  · rw [stateAfter_snoc, hchange]
    rcases hs with rfl | rfl <;> simpa using hv.begun other
  · rw [stateAfter_snoc, hchange]
    rcases hs with rfl | rfl <;> simpa using hv.quit other
  · rw [stateAfter_snoc, hchange] at hstate
    exact (hv.pending other hstate).imp (by simp) (List.mem_append_left _)

end Valid

/-! Every request keeps the invariant. -/

/-- Steps by which something is left without a result. -/
def Step.isEscape : Step → Bool
  | .escaped _ | .faulted _ => true
  | _ => false

/-- What was left without a result, was left by a fault that was caught later, one of the given
ones. -/
def Recovered (R : Fault → Prop) (h : List Step) : Prop :=
  ∀ before s after, h = before ++ s :: after → s.isEscape →
    ∃ slot f, .failed slot f ∈ after ∧ R f

/-- The body of an entry was left for a fault of the machine, which was caught later. -/
def LeftByFault (M : Machine) (slot : Slot) (steps : List Step) : Prop :=
  ∃ earlier later other f, steps = earlier ++ .escaped (.body slot) :: later ∧
    .failed other f ∈ later ∧ M.Raises f

theorem Recovered.leftByFault {M : Machine} {h : List Step} {slot : Slot}
    (hh : Recovered M.Raises h) (hmem : .escaped (.body slot) ∈ h) : LeftByFault M slot h := by
  obtain ⟨earlier, later, hsteps⟩ := List.append_of_mem hmem
  obtain ⟨other, f, hf, hraises⟩ := hh _ _ _ hsteps rfl
  exact ⟨earlier, later, other, f, hsteps, hf, hraises⟩

section

variable {R : Fault → Prop} {h : List Step} {s : Step}

theorem recovered_nil : Recovered R [] := by
  intro before s after heq
  simp at heq

theorem Recovered.snoc (hh : Recovered R h) (hs : s.isEscape = false) :
    Recovered R (h ++ [s]) := by
  intro before s' after heq hescape
  obtain ⟨-, rfl, -⟩ | ⟨rest, rfl, rfl⟩ := eq_append_cons_of_snoc heq
  · rw [hs] at hescape
    cases hescape
  · obtain ⟨slot, f, hf, hR⟩ := hh before s' rest rfl hescape
    exact ⟨slot, f, List.mem_append_left _ hf, hR⟩

/-- A fault that is caught makes up for all that was left before. -/
theorem recovered_failed (h : List Step) {slot : Slot} {f : Fault} (hf : R f) :
    Recovered R (h ++ [.failed slot f]) := by
  intro before s after heq hescape
  obtain ⟨-, rfl, -⟩ | ⟨rest, rfl, -⟩ := eq_append_cons_of_snoc heq
  · cases hescape
  · exact ⟨slot, f, by simp, hf⟩

end

/-- The memory is valid, and all that was left since some steps was left by caught faults. -/
def Proceeds (p : Program) (R : Fault → Prop) (base : List Step) (stack : List Activity)
    (h : List Step) (m : Memory) : Prop :=
  Valid p stack h m ∧ ∃ later, h = base ++ later ∧ Recovered R later

/-- The memory is valid, and what stops the analysis is one of the given faults, if it is
a fault. -/
def Stops (p : Program) (R : Fault → Prop) (base : List Step) (stack : List Activity) (e : Escape)
    (h : List Step) (m : Memory) : Prop :=
  Valid p stack h m ∧ base <+: h ∧ ∀ f, e = .fault f → R f

section

variable {p : Program} {R : Fault → Prop} {base : List Step} {stack stack' : List Activity}
  {h : List Step} {m m' : Memory} {s : Step} {e : Escape} {f : Fault}

theorem Proceeds.congr (hm : Proceeds p R base stack h m) (hv : Valid p stack h m') :
    Proceeds p R base stack h m' := ⟨hv, hm.2⟩

theorem Proceeds.snoc (hm : Proceeds p R base stack h m) (hv : Valid p stack' (h ++ [s]) m')
    (hs : s.isEscape = false) : Proceeds p R base stack' (h ++ [s]) m' := by
  obtain ⟨-, later, rfl, hlater⟩ := hm
  exact ⟨hv, later ++ [s], by simp, hlater.snoc hs⟩

theorem Proceeds.snoc_two {s' : Step} (hm : Proceeds p R base stack h m)
    (hv : Valid p stack' (h ++ [s] ++ [s']) m') (hs : s.isEscape = false)
    (hs' : s'.isEscape = false) : Proceeds p R base stack' (h ++ [s] ++ [s']) m' := by
  obtain ⟨-, later, rfl, hlater⟩ := hm
  exact ⟨hv, later ++ [s] ++ [s'], by simp, (hlater.snoc hs).snoc hs'⟩

theorem Proceeds.stops (hm : Proceeds p R base stack h m) (he : ∀ f, e = .fault f → R f) :
    Stops p R base stack e h m := by
  obtain ⟨hv, later, rfl, -⟩ := hm
  exact ⟨hv, List.prefix_append base later, he⟩

theorem Stops.snoc (hm : Stops p R base stack e h m) (hv : Valid p stack' (h ++ [s]) m')
    {e' : Escape} (he : ∀ f, e' = .fault f → R f) : Stops p R base stack' e' (h ++ [s]) m' :=
  ⟨hv, hm.2.1.trans (List.prefix_append h [s]), he⟩

theorem Stops.recover {slot : Slot} (hm : Stops p R base stack (.fault f) h m) :
    Proceeds p R base stack (h ++ [.failed slot f]) m := by
  obtain ⟨hv, ⟨later, rfl⟩, hf⟩ := hm
  refine ⟨hv.snoc trivial (fun _ _ => rfl) fun _ => rfl, later ++ [.failed slot f], by simp, ?_⟩
  exact recovered_failed later (hf f rfl)

end

namespace Correspondence

variable {p : Program} {R : Fault → Prop} {base : List Step} {stack : List Activity}
  {h : List Step} {m : Memory} {faults : Moment → Option Fault}

/-- While a stack is under evaluation the memory is valid, and as long as nothing stops the analysis
all faults are caught. -/
def lifecycle (p : Program) (R : Fault → Prop) (base : List Step) (stack : List Activity) :
    Correspondence :=
  invariant (Proceeds p R base stack) (Stops p R base stack) (fun _ => True) fun _ => True

private theorem lifecycle_lawful : (lifecycle p R base stack).Lawful p := by
  refine Stable.lawful ?_ .trivial
    (fun _ _ _ => trivial) fun _ _ _ => trivial
  exact {
    cut := fun h => h.stops (by rintro _ ⟨⟩)
    report := fun d h => h.congr (h.1.report d)
    write := fun e h => h.congr (h.1.write e)
    enter := fun h _ => h.snoc (h.1.snoc trivial (fun _ _ => rfl) fun _ => rfl) rfl
    records := fun h => h.1.records
    meet := fun h hc => h.congr (h.1.meet hc) }

private theorem lifecycle_tolerates :
    Tolerates (Proceeds p R base stack) (Stops p R base stack) (fun _ => True) R where
  raise {h m f} hm hf := by
    have hstops : Stops p R base stack (.fault f) h m := hm.stops (by
      rintro _ ⟨⟩
      exact hf)
    exact hstops.snoc (s := .faulted f) (hm.1.snoc trivial (fun _ _ => rfl) fun _ => rfl)
      hstops.2.2
  replace {h m f g} hm hg := by
    refine hm.snoc (s := .faulted g) (hm.1.snoc trivial (fun _ _ => rfl) fun _ => rfl) ?_
    rintro _ ⟨⟩
    exact hg
  recover {h m f slot} hm _ e d := by
    have hrecovered : Proceeds p R base stack (h ++ [.failed slot f]) m := hm.recover
    exact hrecovered.congr ((hrecovered.1.write e).report d)

private theorem lifecycle_resolveEntry {slot : Slot} {label : String} {pos : Pos}
    {infer : Analysis Ty} {declare : Ty → Analysis Ty}
    (hinner : (lifecycle p R base (.body slot :: stack)).Keeps
      (findType faults slot label pos infer declare) fun _ => True)
    (hd : .body slot ∈ declarations p) (hplace : m.HasPlace slot)
    (hm : Proceeds p R base stack h m) :
    Ends (Proceeds p R base stack) (Stops p R base stack) (fun _ => True) h
      ((resolveEntry faults slot label pos infer declare).run m) := by
  exact Ends.resolveEntry hm (fun _ _ => trivial)
    (fun hs => ⟨trivial, hm.snoc_two (hm.1.repeated hs label) rfl rfl⟩)
    (fun hs => hm.snoc_two (hm.1.takeUp hs hplace hd label) rfl rfl)
    (fun h m hm => keeps_invariant.mp hinner h m hm fun _ _ => trivial)
    (fun h m t c hm _ => hm.snoc_two (hm.1.resolve t c) rfl rfl)
    (fun h m e hm => hm.congr (hm.1.write e))
    fun e h m hm => hm.snoc hm.1.abandon hm.2.2

private theorem lifecycle_unlessActive {key : ConstantKey} {x : Analysis Ty}
    (hinner : (lifecycle p R base (.constant key :: stack)).Keeps x fun _ => True)
    (hd : .constant key ∈ declarations p) :
    (lifecycle p R base stack).Keeps (unlessActive key x) fun _ => True := by
  refine keeps_invariant.mpr fun h m hm _ => ?_
  have hrepeated : Valid p stack (h ++ [.repeated (.constant key)]) m :=
    hm.1.snoc trivial (fun _ _ => rfl) fun _ => rfl
  exact Ends.unlessActive (fun _ => ⟨trivial, hm.snoc hrepeated rfl⟩)
    (fun hk => hm.snoc (hm.1.activate hk hd) rfl)
    (fun h m hm => keeps_invariant.mp hinner h m hm fun _ _ => trivial)
    (fun h m hm => hm.snoc (hm.1.deactivate (.inl rfl)) rfl)
    fun e h m hm => hm.snoc (hm.1.deactivate (.inr rfl)) hm.2.2

theorem lifecycle_same {n : Memory} (hmn : (lifecycle p R base stack).holds h m n) : n = m := hmn.1

private theorem lifecycle_good (t : Ty) : (lifecycle p R base stack).Good t := fun _ _ => trivial

section

variable (hfaults : ∀ moment f, faults moment = some f → R f)

include hfaults

private theorem lifecycle_routine {ask : Requests} {slot : Slot} {r : Routine}
    (hask : (lifecycle p R base (.body slot :: stack)).RelatesRequests ask fun _ => ask)
    (hr : ∀ c ∈ r.owner, c ∈ p.index.classes.values) (hd : .body slot ∈ declarations p)
    (hplace : m.HasPlace slot) (hm : Proceeds p R base stack h m) :
    Ends (Proceeds p R base stack) (Stops p R base stack) (fun _ => True) h
      (((Policy.keeping faults).routine slot r.label r.pos (r.infer p ask)
        (r.declare p)).run m) := by
  unfold Policy.keeping
  simp only
  cases hf : faults (.request (.body slot)) with
  | some f =>
    rw [raise?_bind_run]
    refine ⟨by rintro _ ⟨⟩, ?_⟩
    rintro _ ⟨⟩
    exact lifecycle_tolerates.raise hm (hfaults _ f hf)
  | none =>
    rw [raise?_none_bind]
    refine lifecycle_resolveEntry ?_ hd hplace hm
    exact (lifecycle_tolerates.findType hfaults lifecycle_lawful hask slot hr).weaken
      fun _ _ => trivial

/-- A method is asked for after its class has a record, so there is a place for its entry. -/
theorem lifecycle_ownMethodType {ask : Requests} {owner : ClassLike} {method : Method}
    (howner : owner ∈ p.index.classes.values) (hmethod : method ∈ owner.methods)
    (hask : ∀ a, (lifecycle p R base (a :: stack)).RelatesRequests ask fun _ => ask) :
    (lifecycle p R base stack).Keeps (ownMethodType (.keeping faults) p ask owner method)
      fun _ => True := by
  refine keeps_invariant.mpr fun h m hm _ => ?_
  unfold ownMethodType
  cases hres : p.index.resolve owner.fullName with
  | none =>
    rw [Analysis.run_bind (classDecl_run_none hres m)]
    refine ⟨fun _ _ => ⟨?_, trivial⟩, by rintro _ ⟨⟩⟩
    change Proceeds p R base stack (h ++ []) m
    simpa using hm
  | some c =>
    obtain ⟨r, hr, hrun⟩ := classDecl_run_some hres m
    have hmeet : Proceeds p R base stack h (m.meet c) :=
      hm.congr (hm.1.meet (Index.resolve_mem hres))
    obtain ⟨hdecl, hkey⟩ := hmeet.1.records _ r hr
    have hplace : (m.meet c).HasPlace (.method (classKey r.decl) (Text.lower method.name)) := by
      rw [Memory.HasPlace, hkey, hr]
      rfl
    have hd : .body (.method (classKey r.decl) (Text.lower method.name)) ∈ declarations p := by
      rw [hkey]
      exact mem_declarations_method howner hmethod hres
    rw [Analysis.run_bind hrun, Analysis.after_nil]
    refine lifecycle_routine hfaults (r := .ofMethod r.decl owner method) (hask _) ?_ hd hplace
      hmeet
    rintro d ⟨⟩
    exact hdecl

private theorem lifecycle_constant {key : ConstantKey} {x : Analysis Ty}
    (hx : (lifecycle p R base (.constant key :: stack)).Keeps x fun _ => True)
    (hd : .constant key ∈ declarations p) :
    (lifecycle p R base stack).Keeps ((Policy.keeping faults).constant key x) fun _ => True := by
  refine Relates.bind (lifecycle_tolerates.raises hfaults _) fun _ _ => ?_
  refine lifecycle_unlessActive ?_ hd
  exact Relates.bind (lifecycle_tolerates.raises hfaults _) fun _ _ => hx

end

/-- Requests that can be nested as often as there are declarations that are not under evaluation
are all answered. -/
theorem lifecycle_requests (d : Nat) : ∀ (M : Machine) (stack : List Activity),
    (∀ f, M.Raises f → R f) → (declarations p).length < d + stack.length →
    (lifecycle p R base stack).RelatesRequests (M.requests p d) fun _ => M.requests p d := by
  induction d with
  | zero =>
    intro M stack _ hlt
    have hnever : ∀ {h m n}, ¬(lifecycle p R base stack).holds h m n := by
      intro h m n hmn
      have hle := hmn.2.1.length_le
      omega
    constructor
    all_goals
      intros
      exact fun h m n hmn => absurd hmn hnever
  | succ d ih =>
    intro M stack hM hlt
    -- What is under evaluation grows by one where the depth falls by one.
    have hask : ∀ a, (lifecycle p R base (a :: stack)).RelatesRequests (M.inner.requests p d)
        fun _ => M.inner.requests p d := fun a =>
      ih M.inner (a :: stack) (fun f hf => hM f hf.of_inner) (by
        rw [List.length_cons]
        omega)
    have hfaults : ∀ moment f, M.fault? 0 moment = some f → R f := fun _ f hf =>
      hM f (Machine.raises_outer hf)
    refine Answering.requests (k := .keeping (M.fault? 0)) lifecycle_lawful ⟨?_, ?_, ?_, ?_⟩
    · intro owner name m howner hm
      refine (lifecycle_ownMethodType hfaults howner ?_ hask).weaken fun t _ => lifecycle_good t
      exact List.mem_of_find?_eq_some hm
    · intro f hf
      refine Relates.weaken (P := fun _ => True) ?_ fun t _ => lifecycle_good t
      refine keeps_invariant.mpr fun h m hm _ => ?_
      refine lifecycle_routine hfaults (r := .ofFunction f) (hask _) ?_
        (mem_declarations_function hf) trivial hm
      rintro c ⟨⟩
    · intro owner d recorded howner hd hrec context
      refine (lifecycle_constant hfaults ?_ (mem_declarations_constant howner hd)).weaken
        fun t _ => lifecycle_good t
      have hs : (lifecycle p R base (.constant ⟨some (classKey owner), d.name⟩ :: stack)).AtSite
          ⟨p, M.inner.requests p _, recorded, context⟩ _ := ⟨lifecycle_lawful, hrec, hask _⟩
      exact (hs.evalAlone d.value).weaken fun _ _ => trivial
    · intro d hd
      refine (lifecycle_constant hfaults ?_ (mem_declarations_global hd)).weaken fun t _ =>
        lifecycle_good t
      have hs : (lifecycle p R base (.constant ⟨none, d.name⟩ :: stack)).AtSite
          ⟨p, M.inner.requests p _, none, .global⟩ _ := ⟨lifecycle_lawful, by simp, hask _⟩
      exact (hs.evalAlone d.value).weaken fun _ _ => trivial

/-- A request from outside finds and leaves nothing under evaluation. -/
theorem lifecycle_perform (M : Machine) (q : Query) :
    (lifecycle p M.Raises base []).Keeps (q.performOn M p) fun _ => True := by
  refine (lifecycle_lawful.perform lifecycle_same (fun m => ?_) q).weaken fun _ _ => trivial
  exact lifecycle_requests _ M [] (fun _ hf => hf) (length_declarations_lt p m)

end Correspondence

/-! Runs. -/

section

variable {M : Machine} {p : Program} {h : List Step} {m : Memory}

theorem Valid.performs (hv : Valid p [] h m) (q : Query) :
    Correspondence.Ends (Proceeds p M.Raises h []) (Stops p M.Raises h []) (fun _ => True) h
      ((q.performOn M p).run m) :=
  Correspondence.keeps_invariant.mp (Correspondence.lifecycle_perform M q) h m
    ⟨hv, [], by simp, recovered_nil⟩ fun _ _ => trivial

theorem Valid.perform (hv : Valid p [] h m) (q : Query) :
    Valid p [] (h ++ ((q.performOn M p).run m).steps) ((q.performOn M p).run m).memory := by
  have hend := hv.performs (M := M) q
  cases hr : ((q.performOn M p).run m).result with
  | ok t => exact (hend.ok t hr).1.1
  | error e => exact (hend.error e hr).1

/-- A request that leaves an evaluation does not give a result, or catches a fault later. -/
theorem Valid.recovered (hv : Valid p [] h m) (q : Query) {t : Option Ty}
    (ht : ((q.performOn M p).run m).result = .ok t) :
    Recovered M.Raises ((q.performOn M p).run m).steps := by
  obtain ⟨⟨-, later, hlater, hrecovered⟩, -⟩ := (hv.performs q).ok t ht
  rwa [List.append_cancel_left hlater]

end

theorem valid_reset (p : Program) (m : Memory) : Valid p [] [] m.reset where
  records := m.recordsFrom_reset p
  legal := legal_nil
  stack_eq := rfl
  subset := by simp
  active := rfl
  states slot := by cases slot <;> rfl
  running := by simp
  begun := by simp
  quit := by simp
  pending slot h := by cases h

theorem runOn_valid (M : Machine) (p : Program) (cs : List Command) :
    Valid p [] (runOn M p cs).steps (runOn M p cs).memory :=
  runOn_keeps (valid_reset p) (fun _ _ q hv => hv.perform q) cs

/-- The outcome of a request after some others. -/
def Query.outcomeAfter (M : Machine) (p : Program) (before : List Command) (q : Query) :
    Outcome (Option Ty) :=
  (q.performOn M p).run (runOn M p before).memory

/-- A step since the last reset is one of some request. -/
theorem runOn_steps {M : Machine} {p : Program} {cs : List Command} {s : Step}
    (hs : s ∈ (runOn M p cs).steps) :
    ∃ before q after, cs = before ++ .ask q :: after ∧ .reset ∉ after ∧
      s ∈ (q.outcomeAfter M p before).steps := by
  induction cs using List.reverseRecOn with
  | nil => cases hs
  | append_singleton cs c ih =>
    rw [runOn_append] at hs
    cases c with
    | reset => cases hs
    | ask q =>
      rcases List.mem_append.mp hs with hs | hs
      · obtain ⟨before, q', after, rfl, hreset, hmem⟩ := ih hs
        exact ⟨before, q', after ++ [.ask q], by simp, by simpa using hreset, hmem⟩
      · exact ⟨cs, q, [], rfl, by simp, hs⟩

private theorem runOn_append_asks (M : Machine) (p : Program) (cs : List Command)
    (qs : List Query) :
    ∃ later, (runOn M p (cs ++ qs.map .ask)).steps = (runOn M p cs).steps ++ later := by
  induction qs using List.reverseRecOn with
  | nil => exact ⟨[], by simp⟩
  | append_singleton qs q ih =>
    obtain ⟨later, hlater⟩ := ih
    rw [List.map_append, List.map_singleton, ← List.append_assoc, runOn_append]
    exact ⟨later ++ _, by rw [Run.next, hlater, List.append_assoc]⟩

/-- In every run, at every step, each entry stays as it is or goes on from unrequested to in
progress or from in progress to resolved, and the memory is as the steps tell. A resolved entry
keeps its type until the next reset. Between requests no constant is under evaluation, and an entry
is in progress only if the analysis of its body was left by some request since the last reset. If
that request gives a result nevertheless, a fault of the machine was caught later, where some entry
was being resolved. -/
theorem run_entries_advance (M : Machine) (p : Program) (cs : List Command) :
    (∀ before s after, (runOn M p cs).steps = before ++ s :: after →
      ∀ slot, Advances (stateAfter slot before) (stateAfter slot (before ++ [s]))) ∧
    (∀ slot, ((runOn M p cs).memory.entry slot).state = stateAfter slot (runOn M p cs).steps) ∧
    (∀ slot t (qs : List Query), ((runOn M p cs).memory.entry slot).state = .resolved t →
      ((runOn M p (cs ++ qs.map .ask)).memory.entry slot).state = .resolved t) ∧
    (runOn M p cs).memory.active = [] ∧
    ∀ slot, ((runOn M p cs).memory.entry slot).state = .inProgress →
      ∃ before q after, cs = before ++ .ask q :: after ∧ .reset ∉ after ∧
        .escaped (.body slot) ∈ (q.outcomeAfter M p before).steps ∧
        ((∃ e, (q.outcomeAfter M p before).result = .error e) ∨
          LeftByFault M slot (q.outcomeAfter M p before).steps) := by
  have hv := runOn_valid M p cs
  refine ⟨fun _ _ _ h => hv.legal.advances h, hv.states, ?_, hv.active, ?_⟩
  · intro slot t qs ht
    obtain ⟨later, hlater⟩ := runOn_append_asks M p cs qs
    have hend := runOn_valid M p (cs ++ qs.map .ask)
    have hlegal := hend.legal
    rw [hend.states, hlater]
    rw [hlater] at hlegal
    rw [hv.states] at ht
    exact hlegal.resolved ht
  · intro slot hs
    rw [hv.states] at hs
    have hleft : .escaped (.body slot) ∈ (runOn M p cs).steps := by
      simpa using hv.pending slot hs
    obtain ⟨before, q, after, hcs, hreset, hmem⟩ := runOn_steps hleft
    refine ⟨before, q, after, hcs, hreset, hmem, ?_⟩
    cases hr : (q.outcomeAfter M p before).result with
    | error e => exact .inl ⟨e, rfl⟩
    | ok t => exact .inr (((runOn_valid M p before).recovered q hr).leftByFault hmem)

/-- A function whose doc comment has a tag without a name, which stops its evaluation. -/
def brokenProgram : Program :=
  ⟨Index.empty.addTop (.functionDecl ⟨⟨1, 1⟩, some "/** @ */", "f", [], none,
    ⟨⟨1, 1⟩, [.returns ⟨1, 1⟩ none (some (.int ⟨1, 1⟩ 1))]⟩, .global⟩), .empty⟩

/-- The entry of a function stays in progress, since the request for it was stopped. -/
theorem brokenProgram_pending :
    ((runOn .perfect brokenProgram [.ask (.function "f")]).memory.entry (.function "f")).state =
      .inProgress ∧
    ∃ before q after, [Command.ask (.function "f")] = before ++ .ask q :: after ∧
      .reset ∉ after ∧
      .escaped (.body (.function "f")) ∈ (q.outcomeAfter .perfect brokenProgram before).steps ∧
      ((∃ e, (q.outcomeAfter .perfect brokenProgram before).result = .error e) ∨
        LeftByFault .perfect (.function "f")
          (q.outcomeAfter .perfect brokenProgram before).steps) := by
  have hpending : ((runOn .perfect brokenProgram [.ask (.function "f")]).memory.entry
      (.function "f")).state = .inProgress := rfl
  exact ⟨hpending, (run_entries_advance .perfect brokenProgram _).2.2.2.2 _ hpending⟩

/-- A function `f` that gives a number, and a function `g` that gives what `f` gives. -/
def callingFile : File :=
  ⟨[.functionDecl ⟨⟨1, 1⟩, none, "f", [], none,
      ⟨⟨1, 1⟩, [.returns ⟨1, 1⟩ none (some (.int ⟨1, 1⟩ 1))]⟩, .global⟩,
    .functionDecl ⟨⟨2, 1⟩, none, "g", [], none,
      ⟨⟨2, 1⟩, [.returns ⟨2, 1⟩ none (some (.call ⟨2, 1⟩ "f" []))]⟩, .global⟩]⟩

/-- A function whose declaration cannot be read for want of depth stays in progress, though the
request for the function that calls it gives a result. -/
theorem callingFile_abandons :
    let o := (Query.function "g").outcomeAfter (.ofDepth 1) ⟨.ofFiles [callingFile], .empty⟩ []
    o.result = .ok (some .unknown) ∧ (o.memory.entry (.function "g")).state = .resolved .unknown ∧
      (o.memory.entry (.function "f")).state = .inProgress :=
  ⟨rfl, rfl, rfl⟩

/-- After every run a request is answered as it is when requests can be nested without bound, and no
request reached the bound. Since the last reset every body was evaluated at most once, and at every
step the bodies and constants under evaluation were different. -/
theorem run_evaluates_once (p : Program) (cs : List Command) :
    (∀ q : Query, ∃ d, ∀ D, d ≤ D →
      ((q.performUsing (requests .remember p D) p).run (run p cs).memory).result =
        ((q.perform p).run (run p cs).memory).result ∧
      ((q.performUsing (requests .remember p D) p).run (run p cs).memory).memory =
        ((q.perform p).run (run p cs).memory).memory) ∧
    .exhausted ∉ (run p cs).steps ∧
    ((run p cs).steps.filterMap Step.startedBody?).Nodup ∧
    ∀ before after, (run p cs).steps = before ++ after → (stackAfter before).Nodup := by
  have hv := runOn_valid .perfect p cs
  refine ⟨fun q => ?_, hv.legal.not_exhausted, hv.legal.startedBodies_nodup, ?_⟩
  · simp only [← Machine.perfect_requests]
    refine perform_deeper hv.records q fun hmem => ?_
    exact (hv.perform q).legal.not_exhausted (List.mem_append_right _ hmem)
  · intro before after h
    have hlegal := hv.legal
    rw [h] at hlegal
    exact hlegal.before.stack_nodup

end PhpTypes.Inference
