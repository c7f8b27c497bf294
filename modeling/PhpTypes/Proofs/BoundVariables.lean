import PhpTypes.Proofs.ArrayPlaces

/-!
# Variables bound after a branching

A branching evaluates its conditions in the scope that it stands in and runs each branch in a copy
of that scope. The branches that survive are joined into the scope itself: a variable is bound
afterwards if one of them binds it, and also if it is bound in the scope that they are joined into.
So a variable that is unset in all of them comes back.
-/

namespace PhpTypes

private theorem Scope.has_iff {s : Scope} {x : String} : s.has x = true ↔ s.get? x ≠ none :=
  Option.isSome_iff_ne_none

private theorem Scope.has_merge (s : Scope) (branches : List Scope) (x : String) :
    (s.merge branches).has x = true ↔ (∃ b ∈ branches, b.has x = true) ∨ s.has x = true := by
  have hcandidates : candidates branches x = [] ↔ ∀ b ∈ branches, b.get? x = none := by
    simp [candidates]
  simp only [has_iff, get?_merge]
  by_cases h : candidates branches x = []
  · have hnone := hcandidates.mp h
    rw [if_pos h]
    constructor
    · exact Or.inr
    · intro hx
      rcases hx with ⟨b, hb, hx⟩ | hx
      · exact (hx (hnone b hb)).elim
      · exact hx
  · have hsome : ∃ b ∈ branches, b.get? x ≠ none := by
      simpa using hcandidates.not.mp h
    rw [if_neg h]
    simp [hsome]

namespace Inference

open Source

variable {α β : Type} {s : Site}

/-! Endings. -/

section

variable (f : Frame) (m : Memory)

/-- What is asked from outside leaves the frame as it is. -/
theorem ending_lift (x : Analysis α) :
    ending (liftM x) f m = ((x.run m).result.map fun a => (a, f), (x.run m).memory) := by
  change (((x >>= fun a => pure (a, f)).run m).result,
    ((x >>= fun a => pure (a, f)).run m).memory) = _
  cases hr : (x.run m).result with
  | ok a =>
    rw [Analysis.run_bind_ok hr]
    rfl
  | error e =>
    rw [Analysis.run_bind_error hr]
    rfl

private theorem ending_inScope (scope : Scope) (x : Eval α) :
    ending (inScope scope x) f m = andThen (ending x { f with scope := scope } m)
      fun a g n => (.ok ((a, g.scope), { g with scope := f.scope }), n) := by
  unfold inScope
  rw [ending_bind_ok (ending_getScope f m), ending_bind_ok (ending_setScope scope f m), ending_bind]
  rfl

private theorem ending_branchFrom (scope : Scope) (x : Eval Bool) :
    ending (branchFrom scope x) f m = andThen (ending x { f with scope := scope } m)
      fun b g n => (.ok (if b then [] else [g.scope], { g with scope := f.scope }), n) := by
  unfold branchFrom
  rw [ending_bind, ending_inScope]
  rcases ending x { f with scope := scope } m with ⟨⟨e⟩ | ⟨b, g⟩, n⟩ <;> rfl

private theorem ending_branch (x : Eval Bool) :
    ending (branch x) f m = andThen (ending x f m)
      fun b g n => (.ok (if b then [] else [g.scope], { g with scope := f.scope }), n) := by
  unfold branch
  rw [ending_bind_ok (ending_getScope f m), ending_branchFrom]

end

/-! The parts of a branching. -/

/-- What a branching does in turn: it evaluates something in the scope that it stands in, or it runs
a branch in a copy of that scope. -/
inductive Part where
  | shared (x : Eval Unit)
  | branch (x : Eval Bool)

/-- The parts run one after the other. The scopes at the ends of the branches that survive are
`live`, and `g` is the frame that they are to be joined into. -/
inductive RunsThrough : List Part → Frame → Memory → List Scope → Frame → Memory → Prop where
  | nil {f m} : RunsThrough [] f m [] f m
  | shared {x rest f m f' m' live g n} : ending x f m = (.ok ((), f'), m') →
    RunsThrough rest f' m' live g n → RunsThrough (.shared x :: rest) f m live g n
  | survives {x rest f m f' m' live g n} : ending x f m = (.ok (false, f'), m') →
    RunsThrough rest { f' with scope := f.scope } m' live g n →
    RunsThrough (.branch x :: rest) f m (f'.scope :: live) g n
  | terminates {x rest f m f' m' live g n} : ending x f m = (.ok (true, f'), m') →
    RunsThrough rest { f' with scope := f.scope } m' live g n →
    RunsThrough (.branch x :: rest) f m live g n

/-- The parts as one evaluation, which gives the branches that survive. -/
def liveBranches : List Part → Eval (List Scope)
  | [] => return []
  | .shared x :: rest => do
    x
    liveBranches rest
  | .branch x :: rest => do
    let first ← branch x
    return first ++ (← liveBranches rest)

private theorem liveBranches_append (ps qs : List Part) :
    liveBranches (ps ++ qs) = do
      let first ← liveBranches ps
      return first ++ (← liveBranches qs) := by
  induction ps with
  | nil => simp [liveBranches]
  | cons p ps ih =>
    cases p with
    | shared x => simp only [List.cons_append, liveBranches, ih, bind_assoc]
    | branch x =>
      simp only [List.cons_append, liveBranches, ih, bind_assoc, pure_bind, List.append_assoc]

private theorem liveBranches_map_branch (xs : List (Eval Bool)) :
    liveBranches (xs.map .branch) = branches xs := by
  induction xs with
  | nil => rfl
  | cons x xs ih => rw [List.map_cons, liveBranches, branches, ih]

theorem RunsThrough.ending {ps : List Part} {f g : Frame} {m n : Memory} {live : List Scope}
    (h : RunsThrough ps f m live g n) : ending (liveBranches ps) f m = (.ok (live, g), n) := by
  induction h with
  | nil => rfl
  | shared hx _ ih => rw [liveBranches, ending_bind_ok hx, ih]
  | survives hx _ ih =>
    rw [liveBranches, ending_bind_ok (ending_branch_ok hx), ending_bind_ok ih]
    rfl
  | terminates hx _ ih =>
    rw [liveBranches, ending_bind_ok (ending_branch_ok hx), ending_bind_ok ih]
    rfl

private theorem runsThrough_of_ending {ps : List Part} {f g : Frame} {m n : Memory}
    {live : List Scope}
    (h : ending (liveBranches ps) f m = (.ok (live, g), n)) : RunsThrough ps f m live g n := by
  induction ps generalizing f m live with
  | nil =>
    cases h
    exact .nil
  | cons p ps ih =>
    cases p with
    | shared x =>
      rw [liveBranches] at h
      rcases hx : Inference.ending x f m with ⟨⟨e⟩ | ⟨a, f'⟩, m'⟩
      · rw [ending_bind_error hx] at h
        cases h
      · rw [ending_bind_ok hx] at h
        exact .shared hx (ih h)
    | branch x =>
      rw [liveBranches] at h
      rcases hx : Inference.ending x f m with ⟨⟨e⟩ | ⟨b, f'⟩, m'⟩
      · rw [ending_bind_error (ending_branch_error hx)] at h
        cases h
      · rw [ending_bind_ok (ending_branch_ok hx)] at h
        rcases hrest : Inference.ending (liveBranches ps) { f' with scope := f.scope } m' with
          ⟨⟨e⟩ | ⟨rest, g'⟩, n'⟩
        · rw [ending_bind_error hrest] at h
          cases h
        · rw [ending_bind_ok hrest, ending_pure] at h
          cases h
          cases b with
          | true => exact .terminates hx (ih hrest)
          | false => exact .survives hx (ih hrest)

private theorem runsThrough_iff {ps : List Part} {f g : Frame} {m n : Memory} {live : List Scope} :
    RunsThrough ps f m live g n ↔ ending (liveBranches ps) f m = (.ok (live, g), n) :=
  ⟨RunsThrough.ending, runsThrough_of_ending⟩

/-! The branchings. -/

/-- An expression as a branch; what it leaves behind is its scope. -/
def valueBranch (s : Site) (e : Expr) : Part :=
  .branch do
    let _ ← settle (eval s e)
    return false

def conditionPart (s : Site) (e : Expr) : Part :=
  .shared do
    let _ ← settle (eval s e)

def elseIfBranch (s : Site) : ElseIf → Eval Bool
  | .mk _ _ body => exec s body

/-- The cases that a `switch` can be entered at, each with those after it. -/
def caseEntries : List Case → List (List Case)
  | [] => []
  | c :: rest => (c :: rest) :: caseEntries rest

/-- A `catch` binds its variable before its body is run. -/
def catchBranch (s : Site) : Catch → Eval Bool
  | .mk _ classes var _ body => do
    setScope (← catchScope s classes var)
    execAll s body

def armParts (s : Site) : Arm → List Part
  | .case _ conditions body => [.shared (evalAll s conditions), valueBranch s body]
  | .fallback _ body => [valueBranch s body]

/-- A statement or an expression. -/
inductive Construct where
  | stmt (body : Stmt)
  | expr (e : Expr)

namespace Construct

def run (s : Site) : Construct → Eval Unit
  | .stmt body => do let _ ← exec s body
  | .expr e => do let _ ← settle (eval s e)

/-- The parts of a branching. Without an `else` or a `default`, to pass by is a branch of its own,
and so it is in `a ?: b`. -/
def parts? (s : Site) : Construct → Option (List Part)
  | .stmt (.conditional _ _ test yes elseIfs no) =>
    some ([conditionPart s test, .shared (evalConditions s elseIfs)] ++
      (exec s yes :: elseIfs.map (elseIfBranch s) ++ [exec s no]).map .branch)
  | .stmt (.switch _ subject cases) =>
    some ([conditionPart s subject, .shared (evalTests s cases)] ++
      ((caseEntries cases).map (runCases s) ++
        if cases.any isFallback then [] else [return false]).map .branch)
  | .stmt (.guarded _ _ body catches .empty) =>
    some ((execAll s body :: catches.map (catchBranch s)).map .branch)
  | .expr (.ternary _ test yes no) =>
    some [conditionPart s test, valueBranch s yes, valueBranch s no]
  | .expr (.elvis _ test no) =>
    some [conditionPart s test, .branch (return false), valueBranch s no]
  | .expr (.select _ subject arms) => some (conditionPart s subject :: arms.flatMap (armParts s))
  | _ => none

/-- Whether a branching can be passed by. -/
def isOpen : Construct → Bool
  | .stmt (.conditional _ _ _ _ _ .empty) => true
  | .stmt (.switch _ _ cases) => !cases.any isFallback
  | .expr (.elvis _ _ _) => true
  | _ => false

end Construct

theorem settle_lift_bind (x : Eval α) (next : α → Attempt Ty) :
    settle (liftM x >>= next) = x >>= fun a => settle (next a) := by
  simp [settle, ExceptT.run_bind]

private theorem elseIfBranches_eq (elseIfs : List ElseIf) :
    elseIfBranches s elseIfs = branches (elseIfs.map (elseIfBranch s)) := by
  induction elseIfs with
  | nil => rfl
  | cons e rest ih =>
    obtain ⟨pos, test, body⟩ := e
    rw [elseIfBranches, List.map_cons, branches, ih, elseIfBranch]

private theorem enterCases_eq (cases : List Case) :
    enterCases s cases = branches ((caseEntries cases).map (runCases s)) := by
  induction cases with
  | nil => rfl
  | cons c rest ih =>
    rw [caseEntries, List.map_cons, branches, ← ih]
    cases c <;> rw [enterCases, runCases]

/-- A `catch` only asks for classes before it starts. -/
theorem ending_catchScope (classes : List String) (var : Option String) (f : Frame) (m : Memory) :
    ∃ (r : Except Escape Scope) (n : Memory),
      ending (catchScope s classes var) f m = (r.map fun scope => (scope, f), n) := by
  cases var with
  | none => exact ⟨.ok f.scope, m, rfl⟩
  | some name =>
    let types : Analysis (List Ty) := classes.mapM s.resolveClass
    have hlift := ending_lift f m types
    unfold catchScope
    rw [ending_bind_ok (ending_getScope f m)]
    cases hr : (types.run m).result with
    | ok ts =>
      rw [hr] at hlift
      exact ⟨.ok (f.scope.set name (Ty.unionOf ts)), _, ending_bind_ok hlift _⟩
    | error e =>
      rw [hr] at hlift
      exact ⟨.error e, _, ending_bind_error hlift _⟩

private theorem ending_catchBranches (catches : List Catch) (f : Frame) (m : Memory) :
    ending (catchBranches s catches) f m = ending (branches (catches.map (catchBranch s))) f m := by
  induction catches generalizing f m with
  | nil => rfl
  | cons c rest ih =>
    obtain ⟨pos, classes, var, bodyPos, body⟩ := c
    have hfirst : ending (do branchFrom (← catchScope s classes var) (execAll s body)) f m =
        ending (branch (catchBranch s (.mk pos classes var bodyPos body))) f m := by
      obtain ⟨r, n, hscope⟩ := ending_catchScope (s := s) classes var f m
      rw [ending_branch, catchBranch]
      cases r with
      | error e => rw [ending_bind_error hscope, ending_bind_error hscope]; rfl
      | ok scope =>
        rw [ending_bind_ok hscope, ending_bind_ok hscope, ending_branchFrom,
          ending_bind_ok (ending_setScope scope f n)]
    rw [catchBranches, List.map_cons, branches, ← bind_assoc]
    apply ending_bind_congr hfirst
    intro first g n _
    exact ending_bind_congr (ih g n) fun _ _ _ _ => rfl

private theorem andThen_assoc {γ : Type} (r : Except Escape (α × Frame) × Memory)
    (next : α → Frame → Memory → Except Escape (β × Frame) × Memory)
    (last : β → Frame → Memory → Except Escape (γ × Frame) × Memory) :
    andThen (andThen r next) last = andThen r fun a g n => andThen (next a g n) last := by
  rcases r with ⟨⟨e⟩ | ⟨a, g⟩, n⟩ <;> rfl

private theorem andThen_ok (a : α) (g : Frame) (n : Memory)
    (next : α → Frame → Memory → Except Escape (β × Frame) × Memory) :
    andThen (.ok (a, g), n) next = next a g n := rfl

/-- An expression that is evaluated in a copy of the scope is a branch. -/
theorem ending_valueBranch (e : Expr) (rest : List Part) (f : Frame) (m : Memory) :
    ending (liveBranches (valueBranch s e :: rest)) f m =
      andThen (ending (settle (eval s e)) f m) fun _ g n =>
        andThen (ending (liveBranches rest) { g with scope := f.scope } n) fun live h k =>
          (.ok (g.scope :: live, h), k) := by
  rw [valueBranch, liveBranches]
  simp only [ending_bind, ending_branch, andThen_assoc, andThen_ok, ending_pure,
    Bool.false_eq_true, if_false, List.singleton_append]

private theorem ending_evalArms (arms : List Arm) (f : Frame) (m : Memory) :
    ending (liveBranches (arms.flatMap (armParts s))) f m =
      andThen (ending (evalArms s arms) f m) fun results g n =>
        (.ok (results.map Prod.snd, g), n) := by
  induction arms generalizing f m with
  | nil => rfl
  | cons arm rest ih =>
    cases arm with
    | case pos conditions body =>
      rw [List.flatMap_cons, armParts, List.cons_append, List.singleton_append, liveBranches,
        evalArms]
      simp only [ending_bind, ending_valueBranch, ending_getScope, ending_inScope, andThen_assoc,
        andThen_ok, ending_pure, ih, List.map_cons]
    | fallback pos body =>
      rw [List.flatMap_cons, armParts, List.singleton_append, evalArms]
      simp only [ending_bind, ending_valueBranch, ending_getScope, ending_inScope, andThen_assoc,
        andThen_ok, ending_pure, ih, List.map_cons]

/-- The branches that survive are joined into the scope. -/
def joined (ps : List Part) : Eval Unit := do
  let _ ← joinLive (← liveBranches ps)

theorem RunsThrough.append {ps qs : List Part} {f g : Frame} {m n : Memory} {live : List Scope}
    (h : RunsThrough (ps ++ qs) f m live g n) :
    ∃ first f' m' last, RunsThrough ps f m first f' m' ∧ RunsThrough qs f' m' last g n ∧
      live = first ++ last := by
  rw [runsThrough_iff, liveBranches_append] at h
  rcases hps : Inference.ending (liveBranches ps) f m with ⟨⟨e⟩ | ⟨first, f'⟩, m'⟩
  · rw [ending_bind_error hps] at h
    cases h
  · rw [ending_bind_ok hps] at h
    rcases hqs : Inference.ending (liveBranches qs) f' m' with ⟨⟨e⟩ | ⟨last, g'⟩, n'⟩
    · rw [ending_bind_error hqs] at h
      cases h
    · rw [ending_bind_ok hqs, ending_pure] at h
      cases h
      exact ⟨first, f', m', last, runsThrough_iff.mpr hps, runsThrough_iff.mpr hqs, rfl⟩

private theorem ending_joined {ps : List Part} {f g : Frame} {m n : Memory} {live : List Scope}
    (h : RunsThrough ps f m live g n) (hlive : live ≠ []) :
    ending (joined ps) f m = (.ok ((), { g with scope := g.scope.merge live }), n) := by
  have hsome : live.isEmpty = false := by simpa using hlive
  have hjoin := ending_joinLive live g n
  rw [hsome] at hjoin
  rw [joined, ending_bind_ok h.ending, ending_bind_ok hjoin]
  rfl

/-- If the evaluation is not stopped, then all parts have been run. -/
theorem exists_runsThrough {ps : List Part} {f h : Frame} {m n : Memory}
    (hend : ending (joined ps) f m = (.ok ((), h), n)) :
    ∃ live g, RunsThrough ps f m live g n := by
  rcases hps : ending (liveBranches ps) f m with ⟨⟨e⟩ | ⟨live, g⟩, n'⟩
  · rw [joined, ending_bind_error hps] at hend
    cases hend
  · rw [joined, ending_bind_ok hps, ending_bind_ok (ending_joinLive live g n')] at hend
    cases hend
    exact ⟨live, g, runsThrough_iff.mpr hps⟩

/-- A branch in which nothing happens ends in the scope that the branches are joined into. -/
theorem RunsThrough.passed {ps : List Part} {f g : Frame} {m n : Memory} {live : List Scope}
    (h : RunsThrough (ps ++ [.branch (return false)]) f m live g n) : g.scope ∈ live := by
  obtain ⟨first, f', m', last, -, hlast, rfl⟩ := h.append
  have hend : Inference.ending (liveBranches [.branch (return false)]) f' m' =
      (.ok ([f'.scope], f'), m') := rfl
  rw [runsThrough_iff, hend] at hlast
  cases hlast
  simp

namespace Construct

theorem run_conditional (pos : Pos) (doc : Option String) (test : Expr) (yes no : Stmt)
    (elseIfs : List ElseIf) :
    run s (.stmt (.conditional pos doc test yes elseIfs no)) =
      joined ([conditionPart s test, .shared (evalConditions s elseIfs)] ++
        (exec s yes :: elseIfs.map (elseIfBranch s) ++ [exec s no]).map .branch) := by
  rw [run, exec, joined, liveBranches_append, liveBranches_map_branch, elseIfBranches_eq]
  simp only [conditionPart, liveBranches, branches, branches_append, List.cons_append, bind_assoc,
    pure_bind, List.append_assoc, List.nil_append, List.append_nil]

theorem ending_switch (pos : Pos) (subject : Expr) (cases : List Case) (f : Frame) (m : Memory) :
    ending (run s (.stmt (.switch pos subject cases))) f m =
      ending (joined ([conditionPart s subject, .shared (evalTests s cases)] ++
        ((caseEntries cases).map (runCases s) ++
          if cases.any isFallback then [] else [return false]).map .branch)) f m := by
  rw [run, exec, joined, liveBranches_append, liveBranches_map_branch, enterCases_eq]
  simp only [conditionPart, liveBranches, branches_append, bind_assoc, pure_bind, List.nil_append]
  apply ending_bind_congr rfl
  intro _ f₁ m₁ _
  apply ending_bind_congr rfl
  intro _ f₂ m₂ _
  apply ending_bind_congr rfl
  intro live g n _
  rw [ending_bind_ok (ending_getScope g n)]
  split
  · rw [ending_bind_ok (show ending (branches []) g n = (.ok ([], g), n) from rfl),
      List.append_nil]
  · -- To pass by leaves the scope as it is.
    rw [ending_bind_ok (show ending (branches [return false]) g n = (.ok ([g.scope], g), n) from
      rfl)]

theorem ending_guarded (pos bodyPos : Pos) (body : List Stmt) (catches : List Catch) (f : Frame)
    (m : Memory) :
    ending (run s (.stmt (.guarded pos bodyPos body catches .empty))) f m =
      ending (joined ((execAll s body :: catches.map (catchBranch s)).map .branch)) f m := by
  rw [run, exec, joined, liveBranches_map_branch, branches]
  simp only [exec, bind_assoc, pure_bind, Bool.false_eq_true, if_false]
  apply ending_bind_congr rfl
  intro first g n _
  exact ending_bind_congr (ending_catchBranches catches g n) fun _ _ _ _ => rfl

theorem ending_join (branches : List Scope) (f : Frame) (m : Memory) :
    ending (join branches) f m = (.ok ((), { f with scope := f.scope.merge branches }), m) := rfl

theorem ending_ternary (pos : Pos) (test yes no : Expr) (f : Frame) (m : Memory) :
    ending (run s (.expr (.ternary pos test yes no))) f m =
      ending (joined [conditionPart s test, valueBranch s yes, valueBranch s no]) f m := by
  rw [run, eval, joined, conditionPart]
  simp only [settle_lift_bind, settle_pure, ending_bind, ending_getScope, ending_inScope,
    ending_join, liveBranches, ending_valueBranch, ending_joinLive, andThen_assoc, andThen_ok,
    ending_pure, List.isEmpty_cons, Bool.false_eq_true, if_false]

theorem ending_elvis (pos : Pos) (test no : Expr) (f : Frame) (m : Memory) :
    ending (run s (.expr (.elvis pos test no))) f m =
      ending (joined [conditionPart s test, .branch (return false), valueBranch s no]) f m := by
  rw [run, eval, joined, conditionPart]
  simp only [settle_lift_bind, settle_pure, ending_bind, ending_getScope, ending_inScope,
    ending_join, liveBranches, ending_branch, ending_valueBranch, ending_joinLive, andThen_assoc,
    andThen_ok, ending_pure, List.singleton_append, List.isEmpty_cons, Bool.false_eq_true, if_false]

theorem ending_select (pos : Pos) (subject : Expr) (arms : List Arm) (f : Frame) (m : Memory) :
    ending (run s (.expr (.select pos subject arms))) f m =
      ending (joined (conditionPart s subject :: arms.flatMap (armParts s))) f m := by
  rw [run, eval, joined, conditionPart, liveBranches]
  simp only [settle_lift_bind, settle_pure, ending_bind, ending_evalArms, ending_joinLive,
    andThen_assoc, andThen_ok, ending_pure]

/-- A branching runs its parts and joins the branches that survive. -/
theorem ending_run {c : Construct} {ps : List Part} (hc : c.parts? s = some ps) (f : Frame)
    (m : Memory) : ending (c.run s) f m = ending (joined ps) f m := by
  unfold parts? at hc
  split at hc
  · cases hc
    rw [run_conditional]
  · cases hc
    exact ending_switch _ _ _ f m
  · cases hc
    exact ending_guarded _ _ _ _ f m
  · cases hc
    exact ending_ternary _ _ _ _ f m
  · cases hc
    exact ending_elvis _ _ _ f m
  · cases hc
    exact ending_select _ _ _ f m
  · cases hc

theorem mem_live_of_isOpen {c : Construct} (hopen : c.isOpen = true) {ps : List Part}
    (hc : c.parts? s = some ps) {f g : Frame} {m n : Memory} {live : List Scope}
    (h : RunsThrough ps f m live g n) : g.scope ∈ live := by
  unfold isOpen at hopen
  split at hopen
  · cases hc
    rw [List.map_append, ← List.append_assoc, exec] at h
    exact h.passed
  · cases hc
    simp only [Bool.not_eq_true'] at hopen
    rw [hopen, if_neg (by simp), List.map_append, ← List.append_assoc] at h
    exact h.passed
  · cases hc
    cases h with
    | shared _ h =>
      cases h with
      | survives hnothing h =>
        cases hnothing
        cases h with
        | survives _ h =>
          cases h
          exact List.mem_cons_self
        | terminates _ h =>
          cases h
          exact List.mem_cons_self
      | terminates hnothing _ => cases hnothing
  · cases hopen

end Construct

/-- A branching that is not stopped has run all its parts. If a branch survives, then a variable is
bound afterwards exactly if it is bound at the end of a surviving branch, or in the scope that the
branches are joined into. If the branching can be passed by, that scope is itself the end of a
branch. -/
theorem bound_after_branching (s : Site) {c : Construct} {ps : List Part}
    (hc : c.parts? s = some ps) (f : Frame) (m : Memory) :
    (∀ h n, ending (c.run s) f m = (.ok ((), h), n) → ∃ live g, RunsThrough ps f m live g n) ∧
    ∀ live g n, RunsThrough ps f m live g n → live ≠ [] →
      ∃ h, ending (c.run s) f m = (.ok ((), h), n) ∧
        (∀ x, h.scope.has x = true ↔ (∃ b ∈ live, b.has x = true) ∨ g.scope.has x = true) ∧
        (c.isOpen = true → ∀ x, h.scope.has x = true ↔ ∃ b ∈ live, b.has x = true) := by
  constructor
  · intro h n hend
    rw [Construct.ending_run hc] at hend
    exact exists_runsThrough hend
  · intro live g n hruns hlive
    have hbound := Scope.has_merge g.scope live
    have hend := ending_joined hruns hlive
    rw [← Construct.ending_run hc] at hend
    refine ⟨_, hend, hbound, fun hopen x => ?_⟩
    have hmem := Construct.mem_live_of_isOpen hopen hc hruns
    rw [hbound x, or_iff_left_of_imp]
    exact fun hx => ⟨g.scope, hmem, hx⟩

/-- `unset($a);` -/
def clearing : Stmt :=
  .expr ⟨1, 1⟩ none (.call ⟨1, 1⟩ "unset" [.mk ⟨1, 1⟩ none false (.var ⟨1, 1⟩ "a")])

/-- `if ($b) { unset($a); }` -/
def clearedOnce : Construct := .stmt (.conditional ⟨1, 1⟩ none (.var ⟨1, 1⟩ "b") clearing [] .empty)

theorem clearedOnce_binds :
    ∃ ps live h, clearedOnce.parts? emptySite = some ps ∧
      RunsThrough ps (holding .boolean) .empty live (holding .boolean) .empty ∧ live.length = 2 ∧
      ending (clearedOnce.run emptySite) (holding .boolean) .empty = (.ok ((), h), .empty) ∧
      ∀ x, h.scope.has x = true ↔ ∃ b ∈ live, b.has x = true := by
  let live : List Scope := [Scope.empty, (holding .boolean).scope]
  have hparts : ∃ ps, clearedOnce.parts? emptySite = some ps := ⟨_, rfl⟩
  obtain ⟨ps, hps⟩ := hparts
  have hruns : RunsThrough ps (holding .boolean) .empty live (holding .boolean) .empty := by
    cases hps
    exact runsThrough_iff.mpr rfl
  obtain ⟨h, hend, -, hbound⟩ := (bound_after_branching emptySite hps (holding .boolean) .empty).2
    live _ _ hruns (List.cons_ne_nil _ _)
  exact ⟨ps, live, h, hps, hruns, rfl, hend, hbound rfl⟩

/-- `if ($b) { unset($a); } else { unset($a); }` -/
def clearedTwice : Construct :=
  .stmt (.conditional ⟨1, 1⟩ none (.var ⟨1, 1⟩ "b") clearing [] clearing)

/-- A variable that is unset in every branch is bound afterwards. -/
theorem clearedTwice_bound :
    ∃ ps live h, clearedTwice.parts? emptySite = some ps ∧
      RunsThrough ps (holding .boolean) .empty live (holding .boolean) .empty ∧
      live.length = 2 ∧ (∀ b ∈ live, b.has "a" = false) ∧
      ending (clearedTwice.run emptySite) (holding .boolean) .empty = (.ok ((), h), .empty) ∧
      h.scope.has "a" = true := by
  have hunbound : ∀ b ∈ [Scope.empty, Scope.empty], b.has "a" = false := by
    simp [Scope.has, Scope.empty, Dict.contains]
  exact ⟨_, [Scope.empty, Scope.empty], holding .boolean, rfl, runsThrough_iff.mpr rfl, rfl,
    hunbound, rfl, rfl⟩

end Inference

end PhpTypes
