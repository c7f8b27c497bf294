import PhpTypes.Inference.Request
import PhpTypes.Proofs.Correspondence

/-!
# What happens to an entry

The outcomes of the parts of a request that write to the memory: making the record of a class,
marking a constant, and taking an entry from unrequested over in progress to resolved. Each is given
by the outcome of the evaluation inside.
-/

namespace PhpTypes.Inference

open Source

/-! Records and entries. -/

namespace Memory

theorem meet_get? (m : Memory) (c : ClassLike) :
    ∃ r, (m.meet c).records.get? (classKey c) = some r := by
  unfold meet
  split
  · rename_i h
    exact Option.isSome_iff_exists.mp h
  · exact ⟨_, Dict.get?_set_self _ _ _⟩

theorem meet_cases (m : Memory) (c : ClassLike) : m.meet c = m ∨
    m.records.get? (classKey c) = none ∧
      m.meet c = { m with records := m.records.set (classKey c) ⟨c, .empty⟩ } := by
  unfold meet
  split
  · exact .inl rfl
  · rename_i h
    exact .inr ⟨by simpa [Dict.contains] using h, rfl⟩

@[simp]
theorem entry_meet (m : Memory) (c : ClassLike) (slot : Slot) :
    (m.meet c).entry slot = m.entry slot := by
  rcases meet_cases m c with h | ⟨hnone, h⟩
  · rw [h]
  · rw [h]
    cases slot with
    | function k => rfl
    | method r k =>
      by_cases hr : r = classKey c
      · subst hr
        simp [entry, hnone, Dict.get?_empty]
      · simp [entry, Dict.get?_set_ne _ hr]

@[simp]
theorem entry_report (m : Memory) (d : Diag) (slot : Slot) :
    (m.report d).entry slot = m.entry slot := by
  cases slot <;> rfl

@[simp]
theorem entry_write (m : Memory) (e : Event) (slot : Slot) :
    (m.write e).entry slot = m.entry slot := by
  cases slot <;> rfl

@[simp]
theorem entry_activate (m : Memory) (key : ConstantKey) (slot : Slot) :
    (m.activate key).entry slot = m.entry slot := by
  cases slot <;> rfl

@[simp]
theorem entry_deactivate (m : Memory) (key : ConstantKey) (slot : Slot) :
    (m.deactivate key).entry slot = m.entry slot := by
  cases slot <;> rfl

@[simp]
theorem active_meet (m : Memory) (c : ClassLike) : (m.meet c).active = m.active := by
  rcases meet_cases m c with h | ⟨-, h⟩ <;> rw [h]

@[simp]
theorem active_setEntry (m : Memory) (slot : Slot) (e : Entry) :
    (m.setEntry slot e).active = m.active := by
  cases slot with
  | function k => rfl
  | method r k =>
    unfold setEntry
    simp only
    split <;> rfl

/-- The memory has a place for the entry. -/
def HasPlace (m : Memory) : Slot → Prop
  | .method r _ => (m.records.get? r).isSome
  | .function _ => True

theorem HasPlace.write {m : Memory} {slot : Slot} (h : m.HasPlace slot) (e : Event) :
    (m.write e).HasPlace slot := by
  cases slot <;> exact h

theorem entry_setEntry_self {m : Memory} {slot : Slot} (h : m.HasPlace slot) (e : Entry) :
    (m.setEntry slot e).entry slot = e := by
  cases slot with
  | function k => simp [setEntry, entry]
  | method r k =>
    obtain ⟨record, hr⟩ := Option.isSome_iff_exists.mp h
    simp [setEntry, entry, hr]

theorem entry_setEntry_ne {m : Memory} {slot other : Slot} (h : other ≠ slot) (e : Entry) :
    (m.setEntry slot e).entry other = m.entry other := by
  cases slot with
  | function k =>
    cases other with
    | function k' =>
      have hk : k' ≠ k := fun hk => h (hk ▸ rfl)
      simp [setEntry, entry, Dict.get?_set_ne _ hk]
    | method r' k' => rfl
  | method r k =>
    unfold setEntry
    simp only
    split
    · rename_i record hr
      cases other with
      | function k' => rfl
      | method r' k' =>
        by_cases hr' : r' = r
        · subst hr'
          have hk : k' ≠ k := fun hk => h (hk ▸ rfl)
          simp [entry, hr, Dict.get?_set_ne _ hk]
        · simp [entry, Dict.get?_set_ne _ hr']
    · rfl

/-- An entry that is written is found, if the memory has a place for it. -/
theorem entry_setEntry_cases (m : Memory) (slot other : Slot) (e : Entry) :
    (m.setEntry slot e).entry other = e ∨ (m.setEntry slot e).entry other = m.entry other := by
  by_cases ho : other = slot
  · subst ho
    cases other with
    | function k =>
      have hplace : m.HasPlace (.function k) := trivial
      exact .inl (entry_setEntry_self hplace e)
    | method r k =>
      cases hr : m.records.get? r with
      | none => exact .inr (by simp [setEntry, hr])
      | some record => exact .inl (entry_setEntry_self (by simp [HasPlace, hr]) e)
  · exact .inr (entry_setEntry_ne ho e)

/-- Every record has the key of its declaration, which is one of the index. -/
def RecordsFrom (p : Program) (m : Memory) : Prop :=
  ∀ key r, m.records.get? key = some r → r.decl ∈ p.index.classes.values ∧ classKey r.decl = key

theorem recordsFrom_reset (p : Program) (m : Memory) : m.reset.RecordsFrom p := by
  rintro key r ⟨⟩

theorem RecordsFrom.meet {p : Program} {m : Memory} (h : m.RecordsFrom p) {c : ClassLike}
    (hc : c ∈ p.index.classes.values) : (m.meet c).RecordsFrom p := by
  rcases meet_cases m c with hm | ⟨-, hm⟩
  · rw [hm]
    exact h
  · intro key r hr
    by_cases hk : key = classKey c
    · subst hk
      rw [hm, Dict.get?_set_self] at hr
      cases hr
      exact ⟨hc, rfl⟩
    · rw [hm, Dict.get?_set_ne _ hk] at hr
      exact h key r hr

theorem RecordsFrom.setEntry {p : Program} {m : Memory} (h : m.RecordsFrom p) (slot : Slot)
    (e : Entry) : (m.setEntry slot e).RecordsFrom p := by
  cases slot with
  | function k => exact h
  | method r k =>
    unfold Memory.setEntry
    simp only
    split
    · rename_i record hr
      intro key r' hr'
      by_cases hk : key = r
      · subst hk
        rw [Dict.get?_set_self] at hr'
        cases hr'
        exact h key record hr
      · rw [Dict.get?_set_ne _ hk] at hr'
        exact h key r' hr'
    · exact h

end Memory

/-! Outcomes. -/

private theorem recordOf_run (c : ClassLike) (m : Memory) :
    (recordOf c).run m =
      ⟨.ok (((m.meet c).records.get? (classKey c)).getD ⟨c, .empty⟩), m.meet c, []⟩ := rfl

theorem unanswered_run {α : Type} (answer : α) (m : Memory) :
    (unanswered answer).run m = ⟨.ok answer, m, [.exhausted]⟩ := rfl

theorem classDecl_run_none {p : Program} {name : String} (h : p.index.resolve name = none)
    (m : Memory) : (classDecl p name).run m = ⟨.ok none, m, []⟩ := by
  simp [classDecl, classRecord, h]
  rfl

/-- A class that is declared has a record after it is looked up. -/
theorem classDecl_run_some {p : Program} {name : String} {c : ClassLike}
    (h : p.index.resolve name = some c) (m : Memory) :
    ∃ r, (m.meet c).records.get? (classKey c) = some r ∧
      (classDecl p name).run m = ⟨.ok (some r.decl), m.meet c, []⟩ := by
  obtain ⟨r, hr⟩ := m.meet_get? c
  have hrun := recordOf_run c m
  rw [hr] at hrun
  refine ⟨r, hr, ?_⟩
  simp only [classDecl, classRecord, h]
  rw [bind_assoc, Analysis.run_bind hrun]
  rfl

theorem recordedClass?_run_recorded {p : Program} {name : String} {m : Memory} {r : Record}
    (h : m.records.get? (Text.lower name) = some r) :
    (recordedClass? p (some name)).run m = ⟨.ok (some r.decl), m, []⟩ := by
  have hget : (get : Analysis Memory).run m = ⟨.ok m, m, []⟩ := rfl
  simp only [recordedClass?]
  rw [Analysis.run_bind hget, h]
  rfl

theorem recordedClass?_run_undeclared {p : Program} {name : String} {m : Memory}
    (h : m.records.get? (Text.lower name) = none)
    (hc : p.index.classes.get? (nameKey name) = none) :
    (recordedClass? p (some name)).run m = ⟨.ok none, m, []⟩ := by
  have hget : (get : Analysis Memory).run m = ⟨.ok m, m, []⟩ := rfl
  simp only [recordedClass?]
  rw [Analysis.run_bind hget, h, hc]
  rfl

theorem recordedClass?_run_declared {p : Program} {name : String} {m : Memory} {c : ClassLike}
    (h : m.records.get? (Text.lower name) = none)
    (hc : p.index.classes.get? (nameKey name) = some c) :
    ∃ r, (m.meet c).records.get? (classKey c) = some r ∧
      (recordedClass? p (some name)).run m = ⟨.ok (some r.decl), m.meet c, []⟩ := by
  obtain ⟨r, hr⟩ := m.meet_get? c
  have hget : (get : Analysis Memory).run m = ⟨.ok m, m, []⟩ := rfl
  have hrun := recordOf_run c m
  rw [hr] at hrun
  refine ⟨r, hr, ?_⟩
  simp only [recordedClass?]
  rw [Analysis.run_bind hget, h, hc, Analysis.run_bind hrun]
  rfl

private theorem raise?_run (f : Fault) (m : Memory) :
    (raise? (some f)).run m = ⟨.error (.fault f), m, [.faulted f]⟩ := rfl

theorem raise?_bind_run {α : Type} (f : Fault) (x : Analysis α) (m : Memory) :
    (do raise? (some f); x).run m = ⟨.error (.fault f), m, [.faulted f]⟩ := by
  rw [Analysis.run_bind_error (e := .fault f) (by rw [raise?_run]), raise?_run]

theorem raise?_none_bind {α : Type} (x : Analysis α) : (do raise? none; x) = x :=
  pure_bind () fun _ => x

section

variable {α : Type} {a : Activity} {x : Analysis α} {m : Memory} {r : α} {e : Escape}

private theorem during_run_ok (h : (x.run m).result = .ok r) : (during a x).run m =
    ⟨.ok r, (x.run m).memory, .started a :: ((x.run m).steps ++ [.completed a])⟩ := by
  have hstart : (take (.started a)).run m = ⟨.ok (), m, [.started a]⟩ := rfl
  unfold during
  rw [Analysis.run_bind hstart, Analysis.run_bind_ok (a := r) (by
    rw [Analysis.run_tryCatch_ok h, h]), Analysis.run_tryCatch_ok h]
  rfl

private theorem during_run_error (h : (x.run m).result = .error e) : (during a x).run m =
    ⟨.error e, (x.run m).memory, .started a :: ((x.run m).steps ++ [.escaped a])⟩ := by
  have hstart : (take (.started a)).run m = ⟨.ok (), m, [.started a]⟩ := rfl
  unfold during
  rw [Analysis.run_bind hstart, Analysis.run_bind_error (e := e) (by
    rw [Analysis.run_tryCatch_error h]; rfl), Analysis.run_tryCatch_error h]
  rfl

end

section

variable {x : Analysis Ty} {m : Memory} {t : Ty} {e : Escape}

theorem whileActive_run_ok {key : ConstantKey} {o : Outcome Ty} (ho : x.run (m.activate key) = o)
    (h : o.result = .ok t) : (whileActive key x).run m =
      ⟨.ok t, o.memory.deactivate key,
        .started (.constant key) :: (o.steps ++ [.completed (.constant key)])⟩ := by
  subst ho
  have hmark : (modify fun m : Memory => m.activate key : Analysis PUnit).run m =
      ⟨.ok (), m.activate key, []⟩ := rfl
  have hend : ∀ n, (do modify fun m : Memory => m.deactivate key; return t : Analysis Ty).run n =
      ⟨.ok t, n.deactivate key, []⟩ := fun _ => rfl
  have hres : ((during (.constant key) x).run (m.activate key)).result = .ok t := by
    rw [during_run_ok h]
  unfold whileActive
  rw [Analysis.run_bind hmark, Analysis.run_bind_ok (a := t) (by
    rw [Analysis.run_tryCatch_ok hres, hres]), Analysis.run_tryCatch_ok hres, during_run_ok h, hend]
  simp [Outcome.after]

theorem whileActive_run_error {key : ConstantKey} {o : Outcome Ty}
    (ho : x.run (m.activate key) = o) (h : o.result = .error e) : (whileActive key x).run m =
      ⟨.error e, o.memory.deactivate key,
        .started (.constant key) :: (o.steps ++ [.escaped (.constant key)])⟩ := by
  subst ho
  have hmark : (modify fun m : Memory => m.activate key : Analysis PUnit).run m =
      ⟨.ok (), m.activate key, []⟩ := rfl
  have hend : ∀ n, (do modify fun m : Memory => m.deactivate key; throw e : Analysis Ty).run n =
      ⟨.error e, n.deactivate key, []⟩ := fun _ => rfl
  have hres : ((during (.constant key) x).run (m.activate key)).result = .error e := by
    rw [during_run_error h]
  unfold whileActive
  rw [Analysis.run_bind hmark, Analysis.run_bind_error (e := e) (by
    rw [Analysis.run_tryCatch_error hres, hend]; rfl), Analysis.run_tryCatch_error hres,
    during_run_error h, hend]
  simp [Outcome.after]

theorem unlessActive_run_active {key : ConstantKey} (h : key ∈ m.active) :
    (unlessActive key x).run m = ⟨.ok .unknown, m, [.repeated (.constant key)]⟩ := by
  have hget : (get : Analysis Memory).run m = ⟨.ok m, m, []⟩ := rfl
  unfold unlessActive
  rw [Analysis.run_bind hget, if_pos (by simpa using h)]
  rfl

theorem unlessActive_run_new {key : ConstantKey} (h : key ∉ m.active) :
    (unlessActive key x).run m = (whileActive key x).run m := by
  have hget : (get : Analysis Memory).run m = ⟨.ok m, m, []⟩ := rfl
  unfold unlessActive
  rw [Analysis.run_bind hget, if_neg (by simpa using h)]
  simp [Outcome.after]

end

/-! Entries. -/

/-- The memory in which an entry was just taken up. -/
def Memory.takeUp (m : Memory) (slot : Slot) (label : String) : Memory :=
  (m.write (.resolving label)).setEntry slot ⟨.inProgress, (m.entry slot).cyclic⟩

/-- The memory in which an entry was just resolved. -/
def Memory.finish (m : Memory) (slot : Slot) (label : String) : Option Ty → Memory
  | some t =>
    (m.setEntry slot ⟨.resolved t, (m.entry slot).cyclic⟩).write (.resolved label t.text)
  | none => m.setEntry slot ⟨.resolved .unknown, (m.entry slot).cyclic⟩

section

variable {faults : Moment → Option Fault} {slot : Slot} {label : String} {pos : Pos}
  {infer : Analysis Ty} {declare : Ty → Analysis Ty} {m : Memory} {t : Ty}

theorem resolveEntry_run_resolved (h : (m.entry slot).state = .resolved t) :
    (resolveEntry faults slot label pos infer declare).run m = ⟨.ok t, m, []⟩ := by
  have hget : (getEntry slot).run m = ⟨.ok (m.entry slot), m, []⟩ := rfl
  unfold resolveEntry
  rw [Analysis.run_bind hget, h]
  rfl

theorem resolveEntry_run_inProgress (h : (m.entry slot).state = .inProgress) :
    (resolveEntry faults slot label pos infer declare).run m =
      ⟨.ok .unknown, (m.write (.cycle label)).setEntry slot ⟨.inProgress, true⟩,
        [.repeated (.body slot), .stored slot ⟨.inProgress, true⟩]⟩ := by
  have hget : (getEntry slot).run m = ⟨.ok (m.entry slot), m, []⟩ := rfl
  unfold resolveEntry
  rw [Analysis.run_bind hget, h]
  rfl

private theorem finishEntry_run (t : Option Ty) (n : Memory) : (finishEntry slot label t).run n =
    ⟨.ok (t.getD .unknown), n.finish slot label t,
      [.stored slot ⟨.resolved (t.getD .unknown), (n.entry slot).cyclic⟩]⟩ := by
  cases t <;> rfl

private theorem resolveEntry_run_unrequested (h : (m.entry slot).state = .unrequested) :
    (resolveEntry faults slot label pos infer declare).run m =
      ((during (.body slot) (findType faults slot label pos infer declare) >>=
        finishEntry slot label).run (m.takeUp slot label)).after
        [.stored slot ⟨.inProgress, (m.entry slot).cyclic⟩] := by
  have hget : (getEntry slot).run m = ⟨.ok (m.entry slot), m, []⟩ := rfl
  have hnote : (note (.resolving label)).run m = ⟨.ok (), m.write (.resolving label), []⟩ := rfl
  have hset :
      (setEntry slot ⟨.inProgress, (m.entry slot).cyclic⟩).run (m.write (.resolving label)) =
      ⟨.ok (), m.takeUp slot label, [.stored slot ⟨.inProgress, (m.entry slot).cyclic⟩]⟩ := rfl
  unfold resolveEntry
  rw [Analysis.run_bind hget, h]
  simp only
  rw [Analysis.run_bind hnote, Analysis.run_bind hset]
  rfl

/-- An entry that is asked for the first time ends up resolved, with or without a type. -/
theorem resolveEntry_run_ok (h : (m.entry slot).state = .unrequested) {o : Outcome (Option Ty)}
    {t : Option Ty}
    (ho : (findType faults slot label pos infer declare).run (m.takeUp slot label) = o)
    (ht : o.result = .ok t) :
    (resolveEntry faults slot label pos infer declare).run m =
      ⟨.ok (t.getD .unknown), o.memory.finish slot label t,
        .stored slot ⟨.inProgress, (m.entry slot).cyclic⟩ :: .started (.body slot) ::
          (o.steps ++ [.completed (.body slot),
            .stored slot ⟨.resolved (t.getD .unknown), (o.memory.entry slot).cyclic⟩])⟩ := by
  subst ho
  rw [resolveEntry_run_unrequested h, Analysis.run_bind_ok (a := t) (by rw [during_run_ok ht]),
    during_run_ok ht, finishEntry_run]
  simp [Outcome.after]

/-- A fault in the body of an entry is caught: the entry is resolved all the same, to an unknown
type, and there is a warning. -/
theorem resolveEntry_run_failed (h : (m.entry slot).state = .unrequested) {o : Outcome Ty}
    {f : Fault}
    (ho : (do raise? (faults (.evaluation (.body slot))); infer).run (m.takeUp slot label) = o)
    (hf : o.result = .error (.fault f)) (hreport : faults (.report slot) = none) :
    let warned := (o.memory.write (.failed label f.text)).report
      (.warning .internal (label ++ " 推导失败: " ++ f.text) (.ofPos pos))
    (resolveEntry faults slot label pos infer declare).run m =
      ⟨.ok .unknown, warned.finish slot label none,
        .stored slot ⟨.inProgress, (m.entry slot).cyclic⟩ :: .started (.body slot) ::
          (o.steps ++ [.failed slot f, .completed (.body slot),
            .stored slot ⟨.resolved .unknown, (warned.entry slot).cyclic⟩])⟩ := by
  intro warned
  subst ho
  have hcaught := Analysis.catchFault_run_error hf
  have hfind : (findType faults slot label pos infer declare).run (m.takeUp slot label) =
      ⟨.ok none, warned, ((do raise? (faults (.evaluation (.body slot))); infer).run
        (m.takeUp slot label)).steps ++ [.failed slot f]⟩ := by
    unfold findType
    rw [Analysis.run_bind hcaught]
    simp only [reportFault, hreport, raise?_none_bind]
    rfl
  rw [resolveEntry_run_ok h hfind rfl]
  simp

/-- An entry stays in progress if something stops its evaluation. -/
theorem resolveEntry_run_error (h : (m.entry slot).state = .unrequested)
    {o : Outcome (Option Ty)} {e : Escape}
    (ho : (findType faults slot label pos infer declare).run (m.takeUp slot label) = o)
    (he : o.result = .error e) :
    (resolveEntry faults slot label pos infer declare).run m =
      ⟨.error e, o.memory, .stored slot ⟨.inProgress, (m.entry slot).cyclic⟩ ::
        .started (.body slot) :: (o.steps ++ [.escaped (.body slot)])⟩ := by
  subst ho
  rw [resolveEntry_run_unrequested h, Analysis.run_bind_error (e := e) (by
    rw [during_run_error he]), during_run_error he]
  rfl

end

end PhpTypes.Inference
