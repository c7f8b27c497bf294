import PhpTypes.Inference.Frame
import PhpTypes.Proofs.TypeParts

/-!
# Corresponding analyses

Two analyses correspond if they give the same result whenever they start in related memories. The
second one comes as a family that is indexed by a depth, and counts from some depth on. A
correspondence fixes how memories are related, given the steps so far of the first analysis, which
types may occur, and which steps are looked at. An invariant of a single analysis is the case in
which the two memories are the same.
-/

namespace PhpTypes.Inference

namespace Analysis

variable {α β : Type}

private theorem run_andThen_ok {x : Analysis α} {next : α → Analysis β}
    {stopped : Escape → Analysis β} {m : Memory} {a : α} (h : (x.run m).result = .ok a) :
    (x.andThen next stopped).run m = ((next a).run (x.run m).memory).after (x.run m).steps := by
  rw [run, andThen]
  simp only [h]

private theorem run_andThen_error {x : Analysis α} {next : α → Analysis β}
    {stopped : Escape → Analysis β} {m : Memory} {e : Escape} (h : (x.run m).result = .error e) :
    (x.andThen next stopped).run m = ((stopped e).run (x.run m).memory).after (x.run m).steps := by
  rw [run, andThen]
  simp only [h]

theorem run_bind_ok {x : Analysis α} {f : α → Analysis β} {m : Memory} {a : α}
    (h : (x.run m).result = .ok a) :
    (x >>= f).run m = ((f a).run (x.run m).memory).after (x.run m).steps :=
  run_andThen_ok h

theorem run_bind_error {x : Analysis α} {f : α → Analysis β} {m : Memory} {e : Escape}
    (h : (x.run m).result = .error e) :
    (x >>= f).run m = ⟨.error e, (x.run m).memory, (x.run m).steps⟩ := by
  refine (run_andThen_error h).trans ?_
  simp [Analysis.run, Analysis.fail, Outcome.after]

@[simp]
theorem after_nil (o : Outcome α) : o.after [] = o := rfl

/-- A computation whose first part is known to succeed goes on from there. -/
theorem run_bind {x : Analysis α} {f : α → Analysis β} {m m' : Memory} {a : α} {steps : List Step}
    (h : x.run m = ⟨.ok a, m', steps⟩) : (x >>= f).run m = ((f a).run m').after steps := by
  rw [run_bind_ok (a := a) (by rw [h]), h]

theorem run_tryCatch_ok {x : Analysis α} {handle : Escape → Analysis α} {m : Memory} {a : α}
    (h : (x.run m).result = .ok a) : (tryCatch x handle).run m = x.run m := by
  refine (run_andThen_ok h).trans ?_
  simp only [Outcome.after, run, pure, List.append_nil] at h ⊢
  rw [← h]

theorem run_tryCatch_error {x : Analysis α} {handle : Escape → Analysis α} {m : Memory} {e : Escape}
    (h : (x.run m).result = .error e) :
    (tryCatch x handle).run m = ((handle e).run (x.run m).memory).after (x.run m).steps :=
  run_andThen_error h

theorem run_map (f : α → β) (x : Analysis α) (m : Memory) :
    (f <$> x).run m = ⟨(x.run m).result.map f, (x.run m).memory, (x.run m).steps⟩ := by
  cases hr : (x.run m).result with
  | ok a =>
    refine (run_bind_ok (f := pure ∘ f) hr).trans ?_
    simp [Outcome.after, run, pure, Except.map, Function.comp]
  | error e => exact run_bind_error (f := pure ∘ f) hr

private theorem id_map_run (x : Analysis α) (m : Memory) : (id <$> x).run m = x.run m := by
  rw [run_map, Except.map_id]
  rfl

private theorem bind_assoc_run {γ : Type} (x : Analysis α) (f : α → Analysis β)
    (g : β → Analysis γ) (m : Memory) :
    (x >>= f >>= g).run m = (x >>= fun a => f a >>= g).run m := by
  cases hx : (x.run m).result with
  | error e =>
    rw [run_bind_error hx, run_bind_error (e := e) (by rw [run_bind_error hx]), run_bind_error hx]
  | ok a =>
    cases hf : ((f a).run (x.run m).memory).result with
    | error e =>
      have h : ((x >>= f).run m).result = .error e := by rw [run_bind_ok hx]; exact hf
      rw [run_bind_error h, run_bind_ok hx, run_bind_ok hx, run_bind_error hf]
      rfl
    | ok b =>
      have h : ((x >>= f).run m).result = .ok b := by rw [run_bind_ok hx]; exact hf
      rw [run_bind_ok h, run_bind_ok hx, run_bind_ok hx, run_bind_ok hf]
      simp only [Outcome.after, List.append_assoc]

section

variable {x : Analysis α} {m : Memory}

private theorem catchFault_run_ok {a : α} (h : (x.run m).result = .ok a) :
    (catchFault x).run m = ⟨.ok (.ok a), (x.run m).memory, (x.run m).steps⟩ := by
  have hinner : (do return .ok (← x) : Analysis (Except Fault α)).run m =
      ⟨.ok (.ok a), (x.run m).memory, (x.run m).steps⟩ := by
    refine (run_bind_ok h).trans ?_
    simp [Outcome.after, run, pure]
  unfold catchFault
  rw [run_tryCatch_ok (a := .ok a) (by rw [hinner]), hinner]

theorem catchFault_run_error {e : Escape} (h : (x.run m).result = .error e) :
    (catchFault x).run m = match e with
      | .fault f => ⟨.ok (.error f), (x.run m).memory, (x.run m).steps⟩
      | .malformedTag t => ⟨.error (.malformedTag t), (x.run m).memory, (x.run m).steps⟩ := by
  have hinner : (do return .ok (← x) : Analysis (Except Fault α)).run m =
      ⟨.error e, (x.run m).memory, (x.run m).steps⟩ := run_bind_error h
  unfold catchFault
  rw [run_tryCatch_error (e := e) (by rw [hinner]), hinner]
  cases e <;> simp [Outcome.after, run, pure, throw, throwThe, MonadExceptOf.throw, fail]

end

/-- What follows a caught fault or a result, and is told which of them it was. -/
theorem catchFault_bind (x : Analysis α) (f : Except Fault α → Analysis β) :
    (catchFault x >>= f) = x.andThen (fun a => f (.ok a)) fun
      | .fault e => f (.error e)
      | .malformedTag t => fail (.malformedTag t) := by
  funext m
  change (catchFault x >>= f).run m = (x.andThen _ _).run m
  cases hx : (x.run m).result with
  | ok a => rw [run_bind (catchFault_run_ok hx), run_andThen_ok hx]
  | error e =>
    rw [run_andThen_error hx]
    cases e with
    | fault e => rw [run_bind (catchFault_run_error hx)]
    | malformedTag t =>
      have hstop := catchFault_run_error hx
      rw [run_bind_error (e := .malformedTag t) (by rw [hstop]), hstop]
      simp [Outcome.after, run, fail]

instance : LawfulMonad Analysis :=
  LawfulMonad.mk' Analysis (fun x => funext (id_map_run x))
    (fun a f => funext fun m => by simp [bind, pure, andThen, run, Outcome.after])
    (fun x f g => funext (bind_assoc_run x f g))

end Analysis

structure Correspondence where
  /-- How memories are related after some steps of the first analysis. -/
  holds : List Step → Memory → Memory → Prop
  /-- How they are related after an escape. -/
  cut : Escape → List Step → Memory → Memory → Prop
  /-- What every node of a type has. -/
  node : Ty → Prop
  /-- The steps of the first analysis up to which it is followed. -/
  left : Step → Prop
  /-- The steps that the second analysis takes. -/
  right : Step → Prop

namespace Correspondence

variable {α β : Type} (K : Correspondence)

/-- Types of which every node may occur. -/
abbrev Good (t : Ty) : Prop := Ty.Every K.node t

/-- How related outcomes agree. -/
structure Agree (h : List Step) (Q : α → Prop) (o o' : Outcome α) : Prop where
  result : o'.result = o.result
  steps : ∀ s ∈ o'.steps, K.right s
  ok : ∀ a, o.result = .ok a → K.holds (h ++ o.steps) o.memory o'.memory ∧ Q a
  error : ∀ e, o.result = .error e → K.cut e (h ++ o.steps) o.memory o'.memory

/-- From related memories the second analysis has, from some depth on, an outcome that agrees with
that of the first one. -/
def Relates (x : Analysis α) (y : Nat → Analysis α) (Q : α → Prop) : Prop :=
  ∀ h m n, K.holds h m n → (∀ s ∈ (x.run m).steps, K.left s) →
    ∃ o, (∃ d, ∀ D, d ≤ D → (y D).run n = o) ∧ K.Agree h Q (x.run m) o

/-- The same from memories that are related as after an escape. -/
def Resumes (e : Escape) (x : Analysis α) (y : Nat → Analysis α) (Q : α → Prop) : Prop :=
  ∀ h m n, K.cut e h m n → (∀ s ∈ (x.run m).steps, K.left s) →
    ∃ o, (∃ d, ∀ D, d ≤ D → (y D).run n = o) ∧ K.Agree h Q (x.run m) o

/-- An analysis that corresponds to itself. -/
def Keeps (x : Analysis α) (Q : α → Prop) : Prop := K.Relates x (fun _ => x) Q

variable {K}

theorem Relates.weaken {x : Analysis α} {y : Nat → Analysis α} {P Q : α → Prop}
    (hx : K.Relates x y P) (hPQ : ∀ a, P a → Q a) : K.Relates x y Q := by
  intro h m n hmn hleft
  obtain ⟨o, hy, ho⟩ := hx h m n hmn hleft
  refine ⟨o, hy, ho.result, ho.steps, fun a ha => ?_, ho.error⟩
  exact (ho.ok a ha).imp_right (hPQ a)

/-- Only large depths count. -/
theorem Relates.of_succ {x : Analysis α} {y : Nat → Analysis α} {Q : α → Prop}
    (hx : K.Relates x (fun D => y (D + 1)) Q) : K.Relates x y Q := by
  intro h m n hmn hleft
  obtain ⟨o, ⟨d, hd⟩, ho⟩ := hx h m n hmn hleft
  refine ⟨o, ⟨d + 1, fun D hD => ?_⟩, ho⟩
  obtain ⟨D, rfl⟩ : ∃ D', D = D' + 1 := ⟨D - 1, by omega⟩
  exact hd D (by omega)

theorem Relates.pure {a : α} {Q : α → Prop} (ha : Q a) :
    K.Relates (Pure.pure a) (fun _ => Pure.pure a) Q := by
  intro h m n hmn _
  refine ⟨⟨.ok a, n, []⟩, ⟨0, fun _ _ => rfl⟩, rfl, by simp, ?_, ?_⟩
  · rintro b ⟨⟩
    exact ⟨by simpa [Analysis.run, Pure.pure] using hmn, ha⟩
  · rintro e ⟨⟩

theorem Relates.fail {e : Escape} {Q : α → Prop}
    (hcut : ∀ {h m n}, K.holds h m n → K.cut e h m n) :
    K.Relates (throw e) (fun _ => throw e) Q := by
  intro h m n hmn _
  refine ⟨⟨.error e, n, []⟩, ⟨0, fun _ _ => rfl⟩, rfl, by simp, ?_, ?_⟩
  · rintro a ⟨⟩
  · rintro _ ⟨⟩
    simpa [Analysis.run, throw, throwThe, MonadExceptOf.throw, Analysis.fail] using hcut hmn

theorem Resumes.fail {e : Escape} {Q : α → Prop} :
    K.Resumes e (Analysis.fail e) (fun _ => Analysis.fail e) Q := by
  intro h m n hmn _
  refine ⟨⟨.error e, n, []⟩, ⟨0, fun _ _ => rfl⟩, rfl, by simp, ?_, ?_⟩
  · rintro a ⟨⟩
  · rintro _ ⟨⟩
    simpa [Analysis.run, Analysis.fail] using hmn

/-- Two analyses correspond if their first parts do, and what follows these, whether or not
something stopped them. -/
theorem Relates.andThen {x : Analysis α} {y : Nat → Analysis α} {next : α → Analysis β}
    {next' : Nat → α → Analysis β} {stopped : Escape → Analysis β}
    {stopped' : Nat → Escape → Analysis β} {P : α → Prop} {Q : β → Prop} (hx : K.Relates x y P)
    (hnext : ∀ a, P a → K.Relates (next a) (fun D => next' D a) Q)
    (hstopped : ∀ e, K.Resumes e (stopped e) (fun D => stopped' D e) Q) :
    K.Relates (x.andThen next stopped) (fun D => (y D).andThen (next' D) (stopped' D)) Q := by
  intro h m n hmn hleft
  -- The whole counts from the depth on at which both parts do.
  have hchain : ∀ {o : Outcome α} {o' : Outcome β} {z : Analysis β},
      (∀ s ∈ o.steps, K.right s) →
      K.Agree (h ++ (x.run m).steps) Q (z.run (x.run m).memory) o' →
      K.Agree h Q ((z.run (x.run m).memory).after (x.run m).steps) (o'.after o.steps) := by
    intro o o' z ho ho'
    refine ⟨ho'.result, List.forall_mem_append.mpr ⟨ho, ho'.steps⟩, ?_, ?_⟩
    · intro b hb
      have hend := ho'.ok b hb
      rw [List.append_assoc] at hend
      exact hend
    · intro e he
      have hend := ho'.error e he
      rw [List.append_assoc] at hend
      exact hend
  cases hr : (x.run m).result with
  | ok a =>
    rw [Analysis.run_andThen_ok hr] at hleft ⊢
    have hleft' : ∀ s ∈ (x.run m).steps ++ ((next a).run (x.run m).memory).steps, K.left s := hleft
    rw [List.forall_mem_append] at hleft'
    obtain ⟨o, ⟨d, hd⟩, ho⟩ := hx h m n hmn hleft'.1
    obtain ⟨hmid, ha⟩ := ho.ok a hr
    obtain ⟨o', ⟨d', hd'⟩, ho'⟩ := hnext a ha _ _ _ hmid hleft'.2
    refine ⟨o'.after o.steps, ⟨max d d', fun D hD => ?_⟩, hchain ho.steps ho'⟩
    have hyD := hd D (Nat.le_trans (Nat.le_max_left d d') hD)
    have hok : ((y D).run n).result = .ok a := by rw [hyD, ho.result, hr]
    rw [Analysis.run_andThen_ok hok, hyD, hd' D (Nat.le_trans (Nat.le_max_right d d') hD)]
  | error e =>
    rw [Analysis.run_andThen_error hr] at hleft ⊢
    have hleft' : ∀ s ∈ (x.run m).steps ++ ((stopped e).run (x.run m).memory).steps, K.left s :=
      hleft
    rw [List.forall_mem_append] at hleft'
    obtain ⟨o, ⟨d, hd⟩, ho⟩ := hx h m n hmn hleft'.1
    obtain ⟨o', ⟨d', hd'⟩, ho'⟩ := hstopped e _ _ _ (ho.error e hr) hleft'.2
    refine ⟨o'.after o.steps, ⟨max d d', fun D hD => ?_⟩, hchain ho.steps ho'⟩
    have hyD := hd D (Nat.le_trans (Nat.le_max_left d d') hD)
    have herr : ((y D).run n).result = .error e := by rw [hyD, ho.result, hr]
    rw [Analysis.run_andThen_error herr, hyD, hd' D (Nat.le_trans (Nat.le_max_right d d') hD)]

theorem Relates.bind {x : Analysis α} {y : Nat → Analysis α} {f : α → Analysis β}
    {g : Nat → α → Analysis β} {P : α → Prop} {Q : β → Prop} (hx : K.Relates x y P)
    (hf : ∀ a, P a → K.Relates (f a) (fun D => g D a) Q) :
    K.Relates (x >>= f) (fun D => y D >>= g D) Q :=
  hx.andThen hf fun _ => .fail

/-- What follows a fault has to correspond too, where faults are caught. -/
theorem Relates.bindCaught {x : Analysis α} {y : Nat → Analysis α}
    {f : Except Fault α → Analysis β} {g : Nat → Except Fault α → Analysis β} {P : α → Prop}
    {Q : β → Prop} (hx : K.Relates x y P)
    (hok : ∀ a, P a → K.Relates (f (.ok a)) (fun D => g D (.ok a)) Q)
    (hfault : ∀ e, K.Resumes (.fault e) (f (.error e)) (fun D => g D (.error e)) Q) :
    K.Relates (catchFault x >>= f) (fun D => catchFault (y D) >>= g D) Q := by
  simp only [Analysis.catchFault_bind]
  refine hx.andThen hok fun e => ?_
  cases e with
  | fault e => exact hfault e
  | malformedTag t => exact .fail

theorem Relates.map {x : Analysis α} {y : Nat → Analysis α} {f : α → β} {Q : β → Prop}
    (hx : K.Relates x y fun a => Q (f a)) : K.Relates (f <$> x) (fun D => f <$> y D) Q :=
  Relates.bind (f := fun a => Pure.pure (f a)) (g := fun _ a => Pure.pure (f a)) hx
    fun _ ha => Relates.pure ha

theorem Relates.mapM {f : α → Analysis β} {g : Nat → α → Analysis β} {Q : β → Prop} (as : List α)
    (hf : ∀ a ∈ as, K.Relates (f a) (fun D => g D a) Q) :
    K.Relates (as.mapM f) (fun D => as.mapM (g D)) fun bs => ∀ b ∈ bs, Q b := by
  induction as with
  | nil => exact Relates.pure (by simp)
  | cons a as ih =>
    simp only [List.mapM_cons]
    refine Relates.bind (hf a (by simp)) fun b hb => ?_
    refine Relates.bind (ih fun a' ha' => hf a' (by simp [ha'])) fun bs hbs => ?_
    exact Relates.pure (List.forall_mem_cons.mpr ⟨hb, hbs⟩)

theorem Relates.forM {f : α → Analysis PUnit} {g : Nat → α → Analysis PUnit} (as : List α)
    (hf : ∀ a ∈ as, K.Relates (f a) (fun D => g D a) fun _ => True) :
    K.Relates (as.forM f) (fun D => as.forM (g D)) fun _ => True := by
  induction as with
  | nil => exact Relates.pure trivial
  | cons a as ih =>
    simp only [List.forM]
    exact Relates.bind (hf a (by simp)) fun _ _ => ih fun a' ha' => hf a' (by simp [ha'])

/-! Bodies: the scope and the types returned so far are good. -/

variable (K) in
def GoodScope (s : Scope) : Prop := ∀ t ∈ s.bindings.values, K.Good t

variable (K) in
structure GoodFrame (f : Frame) : Prop where
  scope : K.GoodScope f.scope
  returns : ∀ t ∈ f.returns, K.Good t

variable (K) in
def RelatesIn (x : Eval α) (y : Nat → Eval α) (Q : α → Prop) : Prop :=
  ∀ f, K.GoodFrame f → K.Relates (x.run f) (fun D => (y D).run f) fun r => Q r.1 ∧ K.GoodFrame r.2

variable (K) in
def RelatesTry (x : Attempt α) (y : Nat → Attempt α) (Q : α → Prop) : Prop :=
  K.RelatesIn x.run (fun D => (y D).run) fun r => ∀ a, r = .ok a → Q a

theorem RelatesIn.pure {a : α} {Q : α → Prop} (ha : Q a) :
    K.RelatesIn (Pure.pure a) (fun _ => Pure.pure a) Q := fun _ hf =>
  Relates.pure ⟨ha, hf⟩

theorem RelatesIn.bind {x : Eval α} {y : Nat → Eval α} {f : α → Eval β} {g : Nat → α → Eval β}
    {P : α → Prop} {Q : β → Prop} (hx : K.RelatesIn x y P)
    (hf : ∀ a, P a → K.RelatesIn (f a) (fun D => g D a) Q) :
    K.RelatesIn (x >>= f) (fun D => y D >>= g D) Q := fun frame hframe =>
  Relates.bind (hx frame hframe) fun r hr => hf r.1 hr.1 r.2 hr.2

theorem RelatesIn.lift {x : Analysis α} {y : Nat → Analysis α} {Q : α → Prop}
    (hx : K.Relates x y Q) : K.RelatesIn (liftM x) (fun D => liftM (y D)) Q := fun _ hframe =>
  Relates.bind hx fun _ ha => Relates.pure ⟨ha, hframe⟩

theorem RelatesIn.get : K.RelatesIn MonadState.get (fun _ => MonadState.get) K.GoodFrame :=
  fun _ hframe => Relates.pure ⟨hframe, hframe⟩

theorem RelatesIn.set {f : Frame} (hf : K.GoodFrame f) :
    K.RelatesIn (MonadState.set f) (fun _ => MonadState.set f) fun _ => True :=
  fun _ _ => Relates.pure ⟨trivial, hf⟩

theorem RelatesIn.modify {f : Frame → Frame} (hf : ∀ a, K.GoodFrame a → K.GoodFrame (f a)) :
    K.RelatesIn (modify f) (fun _ => modify f) fun _ => True := fun frame hframe =>
  Relates.pure ⟨trivial, hf frame hframe⟩

theorem RelatesIn.forM {f : α → Eval PUnit} {g : Nat → α → Eval PUnit} (as : List α)
    (hf : ∀ a ∈ as, K.RelatesIn (f a) (fun D => g D a) fun _ => True) :
    K.RelatesIn (as.forM f) (fun D => as.forM (g D)) fun _ => True := by
  induction as with
  | nil => exact RelatesIn.pure trivial
  | cons a as ih =>
    simp only [List.forM]
    exact RelatesIn.bind (hf a (by simp)) fun _ _ => ih fun a' ha' => hf a' (by simp [ha'])

/-! Attempts: only what succeeds has to be good. -/

theorem RelatesTry.pure {a : α} {Q : α → Prop} (ha : Q a) :
    K.RelatesTry (Pure.pure a) (fun _ => Pure.pure a) Q :=
  RelatesIn.pure (by rintro b ⟨⟩; exact ha)

theorem RelatesTry.throw {e : Failure} {Q : α → Prop} :
    K.RelatesTry (MonadExcept.throw e) (fun _ => MonadExcept.throw e) Q :=
  RelatesIn.pure (by rintro b ⟨⟩)

theorem RelatesTry.bind {x : Attempt α} {y : Nat → Attempt α} {f : α → Attempt β}
    {g : Nat → α → Attempt β} {P : α → Prop} {Q : β → Prop} (hx : K.RelatesTry x y P)
    (hf : ∀ a, P a → K.RelatesTry (f a) (fun D => g D a) Q) :
    K.RelatesTry (x >>= f) (fun D => y D >>= g D) Q := by
  refine RelatesIn.bind hx fun r hr => ?_
  cases r with
  | ok a => exact hf a (hr a rfl)
  | error e => exact RelatesIn.pure (by rintro b ⟨⟩)

theorem RelatesTry.forM {f : α → Attempt PUnit} {g : Nat → α → Attempt PUnit} (as : List α)
    (hf : ∀ a ∈ as, K.RelatesTry (f a) (fun D => g D a) fun _ => True) :
    K.RelatesTry (as.forM f) (fun D => as.forM (g D)) fun _ => True := by
  induction as with
  | nil => exact RelatesTry.pure trivial
  | cons a as ih =>
    simp only [List.forM]
    exact RelatesTry.bind (hf a (by simp)) fun _ _ => ih fun a' ha' => hf a' (by simp [ha'])

theorem RelatesTry.ite {c : Prop} [Decidable c] {x x' : Attempt α} {y y' : Nat → Attempt α}
    {Q : α → Prop} (hx : c → K.RelatesTry x y Q) (hx' : ¬c → K.RelatesTry x' y' Q) :
    K.RelatesTry (if c then x else x') (fun D => if c then y D else y' D) Q := by
  by_cases hc : c
  · simp only [if_pos hc]
    exact hx hc
  · simp only [if_neg hc]
    exact hx' hc

theorem RelatesTry.lift {x : Eval α} {y : Nat → Eval α} {Q : α → Prop} (hx : K.RelatesIn x y Q) :
    K.RelatesTry (liftM x) (fun D => liftM (y D)) Q :=
  RelatesIn.bind hx fun a ha => RelatesIn.pure (by rintro b ⟨⟩; exact ha)

theorem RelatesTry.liftAnalysis {x : Analysis α} {y : Nat → Analysis α} {Q : α → Prop}
    (hx : K.Relates x y Q) : K.RelatesTry (liftM x) (fun D => liftM (y D)) Q :=
  RelatesTry.lift (RelatesIn.lift hx)

end Correspondence

end PhpTypes.Inference
