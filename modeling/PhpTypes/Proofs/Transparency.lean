import PhpTypes.Proofs.Keys
import PhpTypes.Proofs.Lifecycle
import PhpTypes.Proofs.WellFormed

/-!
# Kept types are those of a new evaluation

As long as no request meets something under evaluation, nothing stops the analysis and no fault has
to be caught, an entry is resolved with the type that its routine has when everything is evaluated
again at every request. So the type of an entry does not depend on the requests that were made
before.
-/

namespace PhpTypes.Inference

open Source

/-- Objects of a known class have the name of a class of the index. -/
def KnownNode (p : Program) : Ty → Prop
  | .object _ (some d) => ∃ c ∈ p.index.classes.values, c.fullName = d
  | _ => True

private theorem knownNode_property (p : Program) : Ty.NodeProperty (KnownNode p) where
  plain := by
    intro t ht
    cases t with
    | object name declared =>
      cases declared with
      | none => trivial
      | some d => cases ht
    | _ => trivial
  int _ _ := trivial
  float _ := trivial
  union _ := trivial

private theorem knownNode_instance {p : Program} {c : ClassLike} (hc : c ∈ p.index.classes.values) :
    Ty.Every (KnownNode p) (instanceType c) := by
  intro u hu
  rw [instanceType, Ty.instanceOf, Ty.parts, List.mem_singleton] at hu
  subst hu
  exact ⟨c, hc, rfl⟩

/-- Finds the type of a routine, where everything that it asks for is evaluated again. -/
def freshType (p : Program) (r : Routine) (depth : Nat) : Analysis Ty := do
  r.declare p (← r.infer p (requests .recompute p depth))

/-- From some depth on, and whatever classes were met before, the type is found. -/
def Settles (p : Program) (x : Nat → Analysis Ty) (t : Ty) : Prop :=
  ∀ n : Memory, n.RecordsFrom p → ∃ o : Outcome Ty, (∃ d, ∀ D, d ≤ D → (x D).run n = o) ∧
    o.result = .ok t ∧ (∀ s ∈ o.steps, s ≠ .exhausted) ∧ o.memory.RecordsFrom p

/-- Every resolved entry has the type that is found for its routine. -/
structure Sound (p : Program) (m : Memory) : Prop where
  records : m.RecordsFrom p
  acyclic : ∀ slot, (m.entry slot).cyclic = false
  entries : ∀ slot t, (m.entry slot).state = .resolved t → Ty.Every (KnownNode p) t ∧
    ∃ r, RoutineAt p slot r ∧ Settles p (freshType p r) t

namespace Sound

variable {p : Program} {m : Memory}

theorem congr {m' : Memory} (hm : Sound p m) (hrecords : m'.RecordsFrom p)
    (hentry : ∀ slot, m'.entry slot = m.entry slot) : Sound p m' := by
  refine ⟨hrecords, fun slot => ?_, fun slot t ht => ?_⟩
  · rw [hentry]
    exact hm.acyclic slot
  · rw [hentry] at ht
    exact hm.entries slot t ht

theorem write (hm : Sound p m) (e : Event) : Sound p (m.write e) :=
  hm.congr hm.records (Memory.entry_write m e)

theorem setEntry (hm : Sound p m) {slot : Slot} {state : EntryState}
    (hs : ∀ t, state = .resolved t → Ty.Every (KnownNode p) t ∧
      ∃ r, RoutineAt p slot r ∧ Settles p (freshType p r) t) :
    Sound p (m.setEntry slot ⟨state, false⟩) := by
  refine ⟨hm.records.setEntry slot _, fun other => ?_, fun other t ht => ?_⟩
  · rcases m.entry_setEntry_cases slot other ⟨state, false⟩ with heq | heq <;> rw [heq]
    exact hm.acyclic other
  · by_cases ho : other = slot
    · subst ho
      rcases m.entry_setEntry_cases other other ⟨state, false⟩ with heq | heq
      · rw [heq] at ht
        exact hs t ht
      · rw [heq] at ht
        exact hm.entries other t ht
    · rw [Memory.entry_setEntry_ne ho] at ht
      exact hm.entries other t ht

theorem finish {slot : Slot} {label : String} {t : Option Ty} {r : Routine} (hm : Sound p m)
    (hgood : Ty.Every (KnownNode p) (t.getD .unknown)) (hr : RoutineAt p slot r)
    (hsettles : Settles p (freshType p r) (t.getD .unknown)) :
    Sound p (m.finish slot label t) := by
  have hset : Sound p (m.setEntry slot ⟨.resolved (t.getD .unknown), false⟩) := by
    refine hm.setEntry ?_
    rintro _ ⟨⟩
    exact ⟨hgood, r, hr, hsettles⟩
  cases t with
  | none => rwa [Memory.finish, hm.acyclic slot]
  | some t =>
    rw [Memory.finish, hm.acyclic slot]
    exact hset.write _

theorem takeUp (hm : Sound p m) (slot : Slot) (label : String) :
    Sound p (m.takeUp slot label) := by
  rw [Memory.takeUp, hm.acyclic slot]
  exact (hm.write _).setEntry (by rintro t ⟨⟩)

end Sound

/-! Looking up classes, which have keys of their own. -/

section

variable {p : Program}

theorem classDecl_run_keyed {name : String} {c : ClassLike} (hc : p.index.resolve name = some c)
    {m : Memory} (hm : m.RecordsFrom p) :
    (classDecl p name).run m = ⟨.ok (some c), m.meet c, []⟩ := by
  obtain ⟨r, hr, hrun⟩ := classDecl_run_some hc m
  have hmem := Index.resolve_mem hc
  obtain ⟨hdecl, hkey⟩ := hm.meet hmem _ r hr
  rw [hrun, Index.class_eq hdecl hmem hkey]

private theorem recordedClass?_run_keyed {c : ClassLike} (hc : c ∈ p.index.classes.values)
    {m : Memory} (hm : m.RecordsFrom p) :
    ∃ m', (recordedClass? p (some c.fullName)).run m = ⟨.ok (some c), m', []⟩ ∧
      (m' = m ∨ m' = m.meet c) := by
  cases hrec : m.records.get? (Text.lower c.fullName) with
  | some r =>
    obtain ⟨hdecl, hkey⟩ := hm _ r hrec
    refine ⟨m, ?_, .inl rfl⟩
    rw [recordedClass?_run_recorded hrec, Index.class_eq hdecl hc hkey]
  | none =>
    obtain ⟨r, hr, hrun⟩ := recordedClass?_run_declared hrec (Index.get?_fullKey hc)
    obtain ⟨hdecl, hkey⟩ := hm.meet hc _ r hr
    refine ⟨m.meet c, ?_, .inr rfl⟩
    rw [hrun, Index.class_eq hdecl hc hkey]

private theorem RecordedAs.eq_owner {owner recorded : ClassLike}
    (ho : owner ∈ p.index.classes.values)
    (h : RecordedAs p owner.fullName recorded) : recorded = owner := by
  obtain ⟨d, hd, hkey⟩ := h.key
  obtain rfl := Index.resolve_fullName ho hd
  exact Index.class_eq h.mem ho hkey

private theorem findIn_lower {c : ClassLike} {name : String} {m : Method}
    (h : findIn c name = some m) : Text.lower m.name = Text.lower name := by
  have heq := List.find?_some (p := fun m : Method => Text.lower m.name == Text.lower name) h
  simpa using heq

/-- An entry has only one routine. -/
theorem RoutineAt.unique (hp : p.index.Keyed) {slot slot' : Slot} {r r' : Routine}
    (h : RoutineAt p slot r) (h' : RoutineAt p slot' r') (heq : slot = slot') : r = r' := by
  cases h with
  | @method owner recorded name m ho hm hrec =>
    cases h' with
    | function _ => cases heq
    | @method owner' recorded' name' m' ho' hm' hrec' =>
      obtain ⟨hkey, hname⟩ := Slot.method.inj heq
      obtain rfl := hrec.eq_owner ho
      obtain rfl := hrec'.eq_owner ho'
      obtain rfl := Index.class_eq ho ho' hkey
      rw [findIn_lower hm, findIn_lower hm'] at hname
      have hsame : findIn recorded name = findIn recorded name' := by simp only [findIn, hname]
      rw [hsame, hm'] at hm
      cases hm
      rfl
  | @function f hf =>
    cases h' with
    | method _ _ _ => cases heq
    | @function g hg =>
      obtain rfl := hp.function_eq hf hg (Slot.function.inj heq)
      rfl

end

namespace Correspondence

variable {p : Program}

/-- The steps of an analysis without faults that meets nothing that is under evaluation. -/
structure Untroubled (s : Step) : Prop where
  answered : s ≠ .exhausted
  new : ∀ a, s ≠ .repeated a
  sound : ∀ f, s ≠ .faulted f

/-- An analysis that keeps types corresponds to one that evaluates everything again. -/
def transparent (p : Program) : Correspondence where
  holds _ m n := Sound p m ∧ n.RecordsFrom p
  cut e _ _ _ := ∃ t, e = .malformedTag t
  node := KnownNode p
  left := Untroubled
  right s := s ≠ .exhausted

/-- Both memories change in a way that does not matter. -/
theorem transparent_keeps {α : Type} {x : Analysis α} {Q : α → Prop}
    (hx : ∀ m n, Sound p m → n.RecordsFrom p → ∃ a m' n' s s',
      x.run m = ⟨.ok a, m', s⟩ ∧ x.run n = ⟨.ok a, n', s'⟩ ∧
      Sound p m' ∧ n'.RecordsFrom p ∧ (∀ u ∈ s', u ≠ .exhausted) ∧ Q a) :
    (transparent p).Keeps x Q := by
  intro h m n hmn _
  obtain ⟨a, m', n', s, s', hm, hn, hm', hn', hs', ha⟩ := hx m n hmn.1 hmn.2
  refine ⟨x.run n, ⟨0, fun _ _ => rfl⟩, ?_⟩
  rw [hm, hn]
  refine ⟨rfl, hs', ?_, by rintro _ ⟨⟩⟩
  rintro _ ⟨⟩
  exact ⟨⟨hm', hn'⟩, ha⟩

private theorem transparent_lawful
    (hnatives : ∀ {name s}, p.natives.get? name = some s → Ty.Every (KnownNode p) s.result) :
    (transparent p).Lawful p where
  node := knownNode_property p
  cut_of_holds _ := ⟨_, rfl⟩
  warn d := transparent_keeps fun m n hm hn => ⟨(), m.report d, n.report d, [], [], rfl, rfl,
    hm.congr hm.records (Memory.entry_report m d), hn, by simp, trivial⟩
  note e := transparent_keeps fun m n hm hn => ⟨(), m.write e, n.write e, [], [], rfl, rfl,
    hm.write e, hn, by simp, trivial⟩
  enter _ := transparent_keeps fun m n hm hn => ⟨(), m, n, _, _, rfl, rfl, hm, hn, by simp, trivial⟩
  classDecl name := by
    refine transparent_keeps fun m n hm hn => ?_
    cases hres : p.index.resolve name with
    | none =>
      exact ⟨none, m, n, [], [], classDecl_run_none hres m, classDecl_run_none hres n, hm, hn,
        by simp, by simp⟩
    | some c =>
      have hc := Index.resolve_mem hres
      refine ⟨some c, m.meet c, n.meet c, [], [], classDecl_run_keyed hres hm.records,
        classDecl_run_keyed hres hn, hm.congr (hm.records.meet hc) (Memory.entry_meet m c),
        hn.meet hc, by simp, ?_⟩
      rintro d ⟨⟩
      exact ⟨hc, c, hres, rfl⟩
  recorded := by
    intro name declared hnode
    obtain ⟨c, hc, rfl⟩ := hnode
    refine transparent_keeps fun m n hm hn => ?_
    obtain ⟨m', hrun, hm'⟩ := recordedClass?_run_keyed hc hm.records
    obtain ⟨n', hrun', hn'⟩ := recordedClass?_run_keyed hc hn
    refine ⟨some c, m', n', [], [], hrun, hrun', ?_, ?_, by simp, trivial⟩
    · rcases hm' with rfl | rfl
      · exact hm
      · exact hm.congr (hm.records.meet hc) (Memory.entry_meet m c)
    · rcases hn' with rfl | rfl
      · exact hn
      · exact hn.meet hc
  instance_good hc := knownNode_instance hc
  native_good := hnatives

/-- Where a fault arises the analysis is not followed. -/
theorem transparent_raise {α : Type} {x : Analysis α} {y : Nat → Analysis α} {Q : α → Prop}
    (hx : (transparent p).Relates x y Q) (f : Option Fault) :
    (transparent p).Relates (do raise? f; x) y Q := by
  cases f with
  | none =>
    rw [raise?_none_bind]
    exact hx
  | some f =>
    intro h m n _ hleft
    rw [raise?_bind_run] at hleft
    exact absurd rfl ((hleft (.faulted f) (by simp)).sound f)

section

variable {faults : Moment → Option Fault} {ask : Requests} {slot : Slot} {r : Routine}

/-- No cycle was found and there is no fault, so that an entry gets what is inferred
and declared. -/
theorem transparent_findType (hK : (transparent p).Lawful p)
    (hask : (transparent p).RelatesRequests ask fun D => requests .recompute p D)
    (hr : ∀ c ∈ r.owner, c ∈ p.index.classes.values) :
    (transparent p).Relates
      ((·.getD .unknown) <$>
        findType faults slot r.label r.pos (r.infer p ask) (r.declare p))
      (freshType p r) (transparent p).Good := by
  have hinfer := transparent_raise (hK.infer hask hr) (faults (.evaluation (.body slot)))
  unfold findType
  rw [map_bind, Analysis.catchFault_bind]
  refine hinfer.andThen (fun t ht => ?_) fun e => ?_
  · simp only [map_bind, map_pure, Option.getD_some, bind_pure]
    refine transparent_raise ?_ _
    intro h m n hmn hleft
    have hget : (getEntry slot).run m = ⟨.ok (m.entry slot), m, []⟩ := rfl
    rw [Analysis.run_bind hget, hmn.1.acyclic slot, Analysis.after_nil] at hleft ⊢
    exact hK.declare r ht h m n hmn hleft
  · cases e with
    | malformedTag t => exact .fail
    | fault f =>
      rintro h m n ⟨_, ⟨⟩⟩

private theorem transparent_resolveEntry (hp : p.index.Keyed) (hr : RoutineAt p slot r)
    (hinner : (transparent p).Relates
      ((·.getD .unknown) <$>
        findType faults slot r.label r.pos (r.infer p ask) (r.declare p))
      (freshType p r) (transparent p).Good) :
    (transparent p).Relates
      (resolveEntry faults slot r.label r.pos (r.infer p ask) (r.declare p))
      (freshType p r) (transparent p).Good := by
  intro h m n hmn hleft
  cases hs : (m.entry slot).state with
  | resolved t =>
    obtain ⟨hgood, r', hr', hsettles⟩ := hmn.1.entries slot t hs
    obtain rfl := hr'.unique hp hr rfl
    obtain ⟨o, hd, ho, hsteps, hrecords⟩ := hsettles n hmn.2
    rw [resolveEntry_run_resolved hs]
    refine ⟨o, hd, ho, hsteps, ?_, by rintro _ ⟨⟩⟩
    rintro _ ⟨⟩
    exact ⟨⟨hmn.1, hrecords⟩, hgood⟩
  | inProgress =>
    rw [resolveEntry_run_inProgress hs] at hleft
    exact absurd rfl ((hleft (.repeated (.body slot)) (by simp)).new _)
  | unrequested =>
    have hstart := hmn.1.takeUp slot r.label
    generalize ho : (findType faults slot r.label r.pos (r.infer p ask) (r.declare p)).run
      (m.takeUp slot r.label) = o
    -- The evaluation inside corresponds to a new one from every memory.
    have hfresh : (∀ s ∈ o.steps, Untroubled s) → ∀ n' : Memory, n'.RecordsFrom p →
        ∃ o', (∃ d, ∀ D, d ≤ D → (freshType p r D).run n' = o') ∧
          (transparent p).Agree h (transparent p).Good
            ⟨o.result.map (·.getD .unknown), o.memory, o.steps⟩ o' := by
      intro hsteps n' hn'
      have hrel := hinner h (m.takeUp slot r.label) n' ⟨hstart, hn'⟩
      rw [Analysis.run_map, ho] at hrel
      exact hrel hsteps
    cases hres : o.result with
    | ok t =>
      rw [resolveEntry_run_ok hs ho hres] at hleft ⊢
      rw [hres] at hfresh
      have hsteps : ∀ s ∈ o.steps, Untroubled s := fun s hmem => hleft s (by simp [hmem])
      have hsettles : Settles p (freshType p r) (t.getD .unknown) := by
        intro n' hn'
        obtain ⟨o', hd, hagree⟩ := hfresh hsteps n' hn'
        exact ⟨o', hd, hagree.result, hagree.steps, (hagree.ok _ rfl).1.2⟩
      obtain ⟨o', hd, hagree⟩ := hfresh hsteps n hmn.2
      obtain ⟨⟨hsound, hrecords⟩, hgood⟩ := hagree.ok _ rfl
      refine ⟨o', hd, hagree.result, hagree.steps, ?_, by rintro _ ⟨⟩⟩
      rintro _ ⟨⟩
      refine ⟨⟨hsound.finish hgood hr hsettles, hrecords⟩, hgood⟩
    | error e =>
      rw [resolveEntry_run_error hs ho hres] at hleft ⊢
      rw [hres] at hfresh
      obtain ⟨o', hd, hagree⟩ := hfresh (fun s hmem => hleft s (by simp [hmem])) n hmn.2
      exact ⟨o', hd, hagree.result, hagree.steps, by rintro _ ⟨⟩, fun _ he => hagree.error _ he⟩

end

private theorem transparent_unlessActive {key : ConstantKey} {x : Analysis Ty}
    {y : Nat → Analysis Ty} (hx : (transparent p).Relates x y (transparent p).Good) :
    (transparent p).Relates (unlessActive key x) y (transparent p).Good := by
  intro h m n hmn hleft
  by_cases hk : key ∈ m.active
  · rw [unlessActive_run_active hk] at hleft
    exact absurd rfl ((hleft (.repeated (.constant key)) (by simp)).new _)
  · rw [unlessActive_run_new hk] at hleft ⊢
    have hstart : Sound p (m.activate key) :=
      hmn.1.congr hmn.1.records (Memory.entry_activate m key)
    cases hres : (x.run (m.activate key)).result with
    | ok t =>
      rw [whileActive_run_ok rfl hres] at hleft ⊢
      obtain ⟨o, hd, hagree⟩ := hx h _ n ⟨hstart, hmn.2⟩ fun s hmem => hleft s (by simp [hmem])
      obtain ⟨⟨hsound, hrecords⟩, hgood⟩ := hagree.ok t hres
      refine ⟨o, hd, hagree.result.trans hres, hagree.steps, ?_, by rintro _ ⟨⟩⟩
      rintro _ ⟨⟩
      exact ⟨⟨hsound.congr hsound.records (Memory.entry_deactivate _ key), hrecords⟩, hgood⟩
    | error e =>
      rw [whileActive_run_error rfl hres] at hleft ⊢
      obtain ⟨o, hd, hagree⟩ := hx h _ n ⟨hstart, hmn.2⟩ fun s hmem => hleft s (by simp [hmem])
      refine ⟨o, hd, hagree.result.trans hres, hagree.steps, by rintro _ ⟨⟩, ?_⟩
      rintro _ ⟨⟩
      exact hagree.error e hres

/-- What is kept corresponds to what is evaluated again, for all requests and at every depth. -/
theorem transparent_requests (hp : p.index.Keyed) (hK : (transparent p).Lawful p) (M : Machine)
    (d : Nat) :
    (transparent p).RelatesRequests (M.requests p d) fun D => requests .recompute p D := by
  induction d generalizing M with
  | zero =>
    have hnever : ∀ {α : Type} {answer : α} {y : Nat → Analysis α} {Q : α → Prop},
        (transparent p).Relates (unanswered answer) y Q := by
      intro α answer y Q h m n _ hleft
      exact absurd rfl (hleft .exhausted (by simp [unanswered_run])).answered
    exact ⟨fun _ _ => hnever, fun _ => hnever, fun _ _ => hnever, fun _ => hnever⟩
  | succ d ih =>
    -- Both sides gain one level, and on the second only large depths count.
    have hall : (transparent p).RelatesRequests (M.requests p (d + 1)) fun D =>
        requests .recompute p (D + 1) := by
      have hanswering : (transparent p).Answering p (.keeping (M.fault? 0)) (M.inner.requests p d)
          .recompute fun D => requests .recompute p D := by
        refine hK.answering (ih M.inner) (fun hr => ?_) fun hx => ?_
        · refine transparent_raise (transparent_resolveEntry hp hr ?_) _
          exact transparent_findType hK (ih M.inner) hr.owner
        · exact transparent_raise (transparent_unlessActive (transparent_raise hx _)) _
      exact hanswering.requests hK
    exact hall.of_succ

/-- The memory stays sound, whatever a new evaluation would do. -/
def sound (p : Program) : Correspondence :=
  invariant (fun _ m => Sound p m) (fun _ _ _ => True) (KnownNode p) Untroubled

private theorem sound_of_transparent {α : Type} {x : Analysis α} {y : Nat → Analysis α}
    {Q : α → Prop} (hx : (transparent p).Relates x y Q) : (sound p).Keeps x Q := by
  refine keeps_invariant.mpr fun h m hm hleft => ?_
  -- Any memory will do for the second analysis.
  obtain ⟨o, -, hagree⟩ := hx h m .empty ⟨hm, Memory.recordsFrom_reset p .empty⟩ hleft
  exact ⟨fun a ha => ⟨(hagree.ok a ha).1.1, (hagree.ok a ha).2⟩, fun _ _ => trivial⟩

private theorem sound_lawful
    (hnatives : ∀ {name s}, p.natives.get? name = some s → Ty.Every (KnownNode p) s.result) :
    (sound p).Lawful p := by
  refine Stable.lawful ?_ (knownNode_property p) knownNode_instance hnatives
  exact {
    cut := fun _ => trivial
    report := fun d h => h.congr h.records (Memory.entry_report _ d)
    write := fun e h => h.write e
    enter := fun h _ => h
    records := fun h => h.records
    meet := fun h hc => h.congr (h.records.meet hc) (Memory.entry_meet _ _) }

private theorem sound_same {h : List Step} {m n : Memory} (hmn : (sound p).holds h m n) :
    n = m := hmn.1

private theorem sound_perform (hp : p.index.Keyed)
    (hnatives : ∀ {name s}, p.natives.get? name = some s → Ty.Every (KnownNode p) s.result)
    (M : Machine) (q : Query) :
    (sound p).Keeps (q.performOn M p) fun t => ∀ u ∈ t, (sound p).Good u := by
  refine (sound_lawful hnatives).perform sound_same (fun m => ?_) q
  have hall := transparent_requests hp (transparent_lawful hnatives) M (nestingDepth p m)
  exact ⟨fun c name => sound_of_transparent (hall.method c name),
    fun name => sound_of_transparent (hall.function name),
    fun c name => sound_of_transparent (hall.constant c name),
    fun name => sound_of_transparent (hall.global name)⟩

end Correspondence

/-! Runs without cycles and faults. -/

def Step.isRepeated : Step → Bool
  | .repeated _ => true
  | _ => false

def Step.isFailed : Step → Bool
  | .failed _ _ => true
  | _ => false

/-- An analysis gives a result, does not meet anything that is under evaluation and does not catch a
fault. -/
structure Outcome.Smooth {α : Type} (o : Outcome α) : Prop where
  result : ∃ a, o.result = .ok a
  unrepeated : ∀ a, .repeated a ∉ o.steps
  unfailed : ∀ slot f, .failed slot f ∉ o.steps

instance {α : Type} (o : Outcome α) : Decidable o.Smooth :=
  decidable_of_iff (o.result.isOk = true ∧
    ∀ s ∈ o.steps, s.isRepeated = false ∧ s.isFailed = false) <| by
    constructor
    · rintro ⟨hok, hsteps⟩
      refine ⟨?_, fun a ha => (nomatch (hsteps _ ha).1), fun slot f hf =>
        (nomatch (hsteps _ hf).2)⟩
      cases hr : o.result with
      | ok t => exact ⟨t, rfl⟩
      | error e => simp [hr, Except.isOk, Except.toBool] at hok
    · rintro ⟨⟨t, ht⟩, hrepeated, hfailed⟩
      refine ⟨by rw [ht]; rfl, fun s hs => ?_⟩
      cases s with
      | repeated a => exact absurd hs (hrepeated a)
      | failed slot f => exact absurd hs (hfailed slot f)
      | _ => exact ⟨rfl, rfl⟩

/-- All requests of a run give a result, and none meets anything that is under evaluation or catches
a fault. -/
def RunsSmoothly (M : Machine) (p : Program) (cs : List Command) : Prop :=
  ∀ before q after, cs = before ++ .ask q :: after → (q.outcomeAfter M p before).Smooth

namespace RunsSmoothly

variable {M : Machine} {p : Program} {cs : List Command}

theorem before {after : List Command} (h : RunsSmoothly M p (cs ++ after)) :
    RunsSmoothly M p cs := by
  intro before q rest heq
  exact h before q (rest ++ after) (by simp [heq])

theorem nil : RunsSmoothly M p [] := by
  intro before q after heq
  simp at heq

theorem snoc (h : RunsSmoothly M p cs) {q : Query} (hq : (q.outcomeAfter M p cs).Smooth) :
    RunsSmoothly M p (cs ++ [.ask q]) := by
  intro before q' after heq
  obtain ⟨rfl, heq, -⟩ | ⟨rest, -, rfl⟩ := eq_append_cons_of_snoc heq
  · cases heq
    exact hq
  · exact h before q' rest rfl

end RunsSmoothly

/-- A fault in a request that gives a result is caught. -/
theorem Outcome.Smooth.untroubled {M : Machine} {p : Program} {cs : List Command} {q : Query}
    (h : (q.outcomeAfter M p cs).Smooth) :
    ∀ s ∈ (q.outcomeAfter M p cs).steps, Correspondence.Untroubled s := by
  intro s hs
  have hv := runOn_valid M p cs
  obtain ⟨t, ht⟩ := h.result
  refine ⟨?_, fun a heq => h.unrepeated a (heq ▸ hs), ?_⟩
  · rintro rfl
    exact (hv.perform q).legal.not_exhausted (List.mem_append_right _ hs)
  · rintro f rfl
    obtain ⟨before, after, hsteps⟩ := List.append_of_mem hs
    obtain ⟨slot, g, hg, -⟩ := hv.recovered q ht _ _ _ hsteps rfl
    exact h.unfailed slot g (by simp [hsteps, hg])

private theorem runOn_sound {M : Machine} {p : Program} (hp : p.index.Keyed)
    (hnatives : ∀ {name s}, p.natives.get? name = some s → Ty.Every (KnownNode p) s.result)
    {cs : List Command} (hcs : RunsSmoothly M p cs) : Sound p (runOn M p cs).memory := by
  have hreset : ∀ m : Memory, Sound p m.reset := by
    intro m
    refine ⟨m.recordsFrom_reset p, fun slot => ?_, fun slot t ht => ?_⟩
    · cases slot <;> rfl
    · cases slot <;> cases ht
  induction cs using List.reverseRecOn with
  | nil => exact hreset .empty
  | append_singleton cs c ih =>
    have hsound := ih hcs.before
    rw [runOn_append]
    cases c with
    | reset => exact hreset _
    | ask q =>
      have hsmooth := hcs cs q [] rfl
      obtain ⟨t, ht⟩ := hsmooth.result
      have hend := Correspondence.keeps_invariant.mp (Correspondence.sound_perform hp hnatives M q)
        [] _ hsound hsmooth.untroubled
      exact (hend.ok t ht).1

/-! The entries that requests ask for. -/

/-- The entry of a method of a class, if the method is found. -/
def methodSlot (p : Program) (className method : String) : Option Slot := do
  let c ← p.index.resolve className
  let (owner, m) ← findMethod p.index c method
  let recorded ← p.index.resolve owner.fullName
  return .method (classKey recorded) (Text.lower m.name)

/-- The entry of a function, if the function is found. -/
def functionSlot (p : Program) (name : String) : Option Slot := do
  return .function (Text.lower (← p.index.resolveFunction name).fullName)

theorem RoutineAt.request {p : Program} (hp : p.index.Keyed) {slot : Slot} {r : Routine}
    (h : RoutineAt p slot r) :
    (∃ c m, methodSlot p c m = some slot) ∨ ∃ name, functionSlot p name = some slot := by
  cases h with
  | @method owner recorded name m howner hm hrecorded =>
    obtain ⟨d, hd, hkey⟩ := hrecorded.key
    obtain rfl := Index.resolve_fullName howner hd
    refine .inl ⟨d.fullName, name, ?_⟩
    simp [methodSlot, hd, findMethod_own hm, hkey]
  | @function f hf =>
    have hget : p.index.functions.get? (nameKey f.fullName) = some f := hp.get? hf
    refine .inr ⟨f.fullName, ?_⟩
    simp [functionSlot, Index.resolveFunction, hget]

/-- A request for a method looks up its classes and then asks for its entry. -/
theorem methodType_run_keyed {p : Program} {className method : String} {slot : Slot}
    (h : methodSlot p className method = some slot) {n : Memory}
    (hn : n.RecordsFrom p) :
    ∃ r n', RoutineAt p slot r ∧ n'.RecordsFrom p ∧ ∀ k ask,
      (methodType k p ask className method).run n =
        (k.routine slot r.label r.pos (r.infer p ask) (r.declare p)).run n' := by
  simp only [methodSlot, Option.bind_eq_bind, Option.bind_eq_some_iff] at h
  obtain ⟨c, hc, ⟨owner, m⟩, hfind, recorded, hrecorded, hslot⟩ := h
  obtain rfl := Option.some.inj hslot
  obtain ⟨howner, hm⟩ := findMethod_owner (Index.resolve_mem hc) hfind
  have hmem := Index.resolve_mem hrecorded
  have hmeet := hn.meet (Index.resolve_mem hc)
  refine ⟨.ofMethod recorded owner m, (n.meet c).meet recorded,
    .method howner hm ⟨hmem, recorded, hrecorded, rfl⟩, hmeet.meet hmem, fun k ask => ?_⟩
  unfold methodType
  rw [Analysis.run_bind (classDecl_run_keyed hc hn)]
  simp only [hfind]
  unfold ownMethodType
  rw [Analysis.run_bind (classDecl_run_keyed hrecorded hmeet)]
  rfl

private theorem functionType_eq {p : Program} {name : String} {slot : Slot}
    (h : functionSlot p name = some slot) : ∃ r, RoutineAt p slot r ∧ ∀ k ask,
      functionType k p ask name =
        k.routine slot r.label r.pos (r.infer p ask) (r.declare p) := by
  simp only [functionSlot, Option.bind_eq_bind, Option.bind_eq_some_iff] at h
  obtain ⟨f, hf, hslot⟩ := h
  obtain rfl := Option.some.inj hslot
  exact ⟨.ofFunction f, .function (Index.resolveFunction_mem hf),
    fun k ask => by simp only [functionType, hf]⟩

/-- A request finds a type when all that it leads to is evaluated again each time, as deep as it
needs. -/
def Recomputes (p : Program) (ask : Requests → Analysis Ty) (t : Ty) : Prop :=
  ∃ d, ∀ D, d ≤ D → ((ask (requests .recompute p D)).run .empty).result = .ok t ∧
    .exhausted ∉ ((ask (requests .recompute p D)).run .empty).steps

theorem Settles.unique {p : Program} {x : Nat → Analysis Ty} {t t' : Ty} (h : Settles p x t)
    (h' : Settles p x t') : t = t' := by
  have hempty : Memory.empty.RecordsFrom p := Memory.recordsFrom_reset p .empty
  obtain ⟨o, ⟨d, hd⟩, ho, -⟩ := h .empty hempty
  obtain ⟨o', ⟨d', hd'⟩, ho', -⟩ := h' .empty hempty
  have heq : o = o' := (hd _ (Nat.le_max_left d d')).symm.trans (hd' _ (Nat.le_max_right d d'))
  rw [heq, ho'] at ho
  cases ho
  rfl

theorem Settles.recomputes {p : Program} {r : Routine} {t : Ty} (h : Settles p (freshType p r) t)
    {ask : Requests → Analysis Ty} {n : Memory} (hn : n.RecordsFrom p)
    (hask : ∀ D, (ask (requests .recompute p (D + 1))).run .empty = (freshType p r D).run n) :
    Recomputes p ask t := by
  obtain ⟨o, ⟨d, hd⟩, ho, hsteps, -⟩ := h n hn
  refine ⟨d + 1, fun D hD => ?_⟩
  obtain ⟨D, rfl⟩ : ∃ D', D = D' + 1 := ⟨D - 1, by omega⟩
  rw [hask D, hd D (by omega)]
  exact ⟨ho, fun hmem => hsteps _ hmem rfl⟩

/-- If in two runs, on any machines, all requests give a result and none meets something under
evaluation or catches a fault, an entry that both resolve has the same type in both. It is the entry
of some request, and every request for it finds that type also when nothing is kept and all is
evaluated again each time it is asked for. -/
theorem run_types_transparent (M M' : Machine) (files : List File)
    (natives : List Natives.Declared) (cs cs' : List Command) (slot : Slot) (t t' : Ty)
    (h : RunsSmoothly M (.declaring (.ofFiles files) natives) cs)
    (h' : RunsSmoothly M' (.declaring (.ofFiles files) natives) cs')
    (ht : ((runOn M (.declaring (.ofFiles files) natives) cs).memory.entry slot).state =
      .resolved t)
    (ht' : ((runOn M' (.declaring (.ofFiles files) natives) cs').memory.entry slot).state =
      .resolved t') :
    t = t' ∧
    ((∃ c m, methodSlot (.declaring (.ofFiles files) natives) c m = some slot) ∨
      ∃ name, functionSlot (.declaring (.ofFiles files) natives) name = some slot) ∧
    (∀ c m, methodSlot (.declaring (.ofFiles files) natives) c m = some slot →
      Recomputes (.declaring (.ofFiles files) natives) (fun r => r.methodType c m) t) ∧
    ∀ name, functionSlot (.declaring (.ofFiles files) natives) name = some slot →
      Recomputes (.declaring (.ofFiles files) natives) (fun r => r.functionType name) t := by
  generalize hp : Program.declaring (.ofFiles files) natives = p at *
  have hkeyed : p.index.Keyed := hp ▸ Index.keyed_ofFiles files
  have hnatives : ∀ {name s}, p.natives.get? name = some s → Ty.Every (KnownNode p) s.result := by
    intro name s hs
    rw [← hp] at hs
    exact Doc.every_native (knownNode_property p) hs
  have hempty : Memory.empty.RecordsFrom p := Memory.recordsFrom_reset p .empty
  obtain ⟨-, r, hr, hsettles⟩ := (runOn_sound hkeyed hnatives h).entries slot t ht
  obtain ⟨-, r', hr', hsettles'⟩ := (runOn_sound hkeyed hnatives h').entries slot t' ht'
  obtain rfl := hr'.unique hkeyed hr rfl
  refine ⟨hsettles.unique hsettles', hr.request hkeyed, fun c m hslot => ?_, fun name hslot => ?_⟩
  · obtain ⟨r, n, hr, hn, hrun⟩ := methodType_run_keyed hslot hempty
    obtain rfl := hr'.unique hkeyed hr rfl
    exact hsettles.recomputes hn fun D => hrun .recompute _
  · obtain ⟨r, hr, heq⟩ := functionType_eq hslot
    obtain rfl := hr'.unique hkeyed hr rfl
    refine hsettles.recomputes hempty fun D => ?_
    exact congrArg (fun x => Analysis.run x .empty) (heq .recompute _)

def callingProgram : Program := .declaring (.ofFiles [callingFile]) []

/-- Whether `g` is asked for first or last, its type is the one that is found without
keeping any. -/
theorem callingProgram_transparent :
    RunsSmoothly .standard callingProgram [.ask (.function "g"), .ask (.function "f")] ∧
    RunsSmoothly .perfect callingProgram
      [.ask (.function "f"), .ask (.function "f"), .ask (.function "g")] ∧
    functionSlot callingProgram "g" = some (.function "g") ∧
    Recomputes callingProgram (fun r => r.functionType "g") (.int (some 1)) := by
  have hfirst : RunsSmoothly .standard callingProgram
      [.ask (.function "g"), .ask (.function "f")] :=
    (RunsSmoothly.nil.snoc (by decide)).snoc (by decide)
  have hlast : RunsSmoothly .perfect callingProgram
      [.ask (.function "f"), .ask (.function "f"), .ask (.function "g")] :=
    ((RunsSmoothly.nil.snoc (by decide)).snoc (by decide)).snoc (by decide)
  have hslot : functionSlot callingProgram "g" = some (.function "g") := rfl
  exact ⟨hfirst, hlast, hslot, (run_types_transparent .standard .perfect [callingFile] [] _ _
    (.function "g") _ _ hfirst hlast rfl rfl).2.2.2 "g" hslot⟩

/-- Without enough depth for both functions, `g` has a type only if `f` is asked for before, though
all requests give a result and none meets something under evaluation. -/
theorem callingProgram_depends :
    let first := runOn (.ofDepth 1) callingProgram [.ask (.function "g")]
    let last := runOn (.ofDepth 1) callingProgram [.ask (.function "f"), .ask (.function "g")]
    (first.memory.entry (.function "g")).state = .resolved .unknown ∧
    (last.memory.entry (.function "g")).state = .resolved (.int (some 1)) ∧
    (∀ s ∈ first.steps ++ last.steps, s.isRepeated = false) ∧
    ((Query.function "g").outcomeAfter (.ofDepth 1) callingProgram []).result =
      .ok (some .unknown) ∧
    ((Query.function "f").outcomeAfter (.ofDepth 1) callingProgram []).result =
      .ok (some (.int (some 1))) ∧
    ((Query.function "g").outcomeAfter (.ofDepth 1) callingProgram [.ask (.function "f")]).result =
      .ok (some (.int (some 1))) :=
  ⟨rfl, rfl, by decide, rfl, rfl, rfl⟩

end PhpTypes.Inference
