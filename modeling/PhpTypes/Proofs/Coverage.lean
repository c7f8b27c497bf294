import PhpTypes.Proofs.Paths
import PhpTypes.Proofs.PathTypes

/-!
# Joined scopes cover all paths

In bodies that assign literals and variables, the scope after a statement covers the variables of
every path that goes on after it, and the type of the body covers what any path returns.
-/

namespace PhpTypes.Inference

open Source

variable {s : Site}

/-! What an evaluation has to follow: all paths, from any variables that its scope covers. -/

/-- A path that returns has its type covered, and one that goes on is as described. -/
def Followed (s : Site) (returned : List Ty) (goesOn : Exit → Scope → Prop) (env : Scope) :
    Exit → Prop
  | .returns value => ∀ t, returnType? s env value = some t → ∃ u ∈ returned, u.Covers t
  | .throws => True
  | x => goesOn x env

structure Follows (s : Site) (paths : List Stmt → Exit → Prop) (goesOn : Exit → Scope → Prop)
    (f g : Frame) : Prop where
  returns : f.returns ⊆ g.returns
  paths : ∀ {env env' es x}, f.scope.Covers env → paths es x → pathScope? s env es = some env' →
    Followed s g.returns goesOn env' x

/-- A path goes on in a scope that covers its variables, if it may end so. -/
def Going (ends : Exit → Prop) (scope : Scope) (x : Exit) (env : Scope) : Prop :=
  ends x ∧ scope.Covers env

/-- A path falls through a branch that survives. -/
def Surviving (live : List Scope) (x : Exit) (env : Scope) : Prop :=
  x = .falls ∧ ∃ b ∈ live, b.Covers env

/-- The ends of paths that may go on after a statement. -/
def Ongoing (terminated : Bool) (x : Exit) : Prop := x = .falls ∧ terminated = false

/-- The paths through one part after the other. -/
def Sequence (first second paths : List Stmt → Exit → Prop) : Prop :=
  ∀ es x, paths es x → (first es x ∧ x ≠ .falls) ∨
    ∃ es' fs, es = es' ++ fs ∧ first es' .falls ∧ second fs x

variable {paths paths' : List Stmt → Exit → Prop} {goesOn goesOn' : Exit → Scope → Prop}
  {f f' g g' h : Frame} {env : Scope} {x : Exit}

theorem Followed.mono {returned returned' : List Ty} (hx : Followed s returned goesOn env x)
    (hreturned : returned ⊆ returned') (hgoes : goesOn x env → goesOn' x env) :
    Followed s returned' goesOn' env x := by
  cases x with
  | returns value =>
    intro t ht
    obtain ⟨u, hu, hcov⟩ := hx t ht
    exact ⟨u, hreturned hu, hcov⟩
  | throws => trivial
  | falls => exact hgoes hx
  | breaks => exact hgoes hx
  | continues => exact hgoes hx

namespace Follows

theorem mono (hfg : Follows s paths goesOn f g) (hscope : f'.scope = f.scope)
    (hf : f'.returns ⊆ f.returns) (hg : g.returns ⊆ g'.returns)
    (hgoes : ∀ x env, goesOn x env → goesOn' x env) : Follows s paths goesOn' f' g' where
  returns := List.Subset.trans (List.Subset.trans hf hfg.returns) hg
  paths hcov hpath hscope' := by
    rw [hscope] at hcov
    exact (hfg.paths hcov hpath hscope').mono hg (hgoes _ _)

theorem or (h : Follows s paths goesOn f g) (h' : Follows s paths' goesOn f g) :
    Follows s (fun es x => paths es x ∨ paths' es x) goesOn f g where
  returns := h.returns
  paths hcov hpath hscope := hpath.elim (fun hpath => h.paths hcov hpath hscope)
    fun hpath => h'.paths hcov hpath hscope

theorem congr (h : Follows s paths goesOn f g) (hpaths : ∀ es x, paths' es x → paths es x) :
    Follows s paths' goesOn f g where
  returns := h.returns
  paths hcov hpath hscope := h.paths hcov (hpaths _ _ hpath) hscope

/-- A path that falls through the first part goes on with the second. -/
theorem seq {first second : List Stmt → Exit → Prop} {ends : Exit → Prop}
    (hfirst : Follows s first (Going ends g.scope) f g) (hsecond : Follows s second goesOn g h)
    (hends : ∀ x, ends x → x = .falls) (hpaths : Sequence first second paths) :
    Follows s paths goesOn f h where
  returns := List.Subset.trans hfirst.returns hsecond.returns
  paths := by
    intro env env' es x hcov hpath hscope
    rcases hpaths es x hpath with ⟨hstop, hx⟩ | ⟨es', fs, rfl, hes, hfs⟩
    · apply (hfirst.paths hcov hstop hscope).mono hsecond.returns
      intro hgoing
      exact absurd (hends x hgoing.1) hx
    -- The scope between the parts covers the variables with which the path enters the second.
    · rw [pathScope?, List.foldlM_append] at hscope
      obtain ⟨env₁, h₁, h₂⟩ := Option.bind_eq_some_iff.mp hscope
      exact hsecond.paths (hfirst.paths hcov hes h₁).2 hfs h₂

/-- If no path falls through the first part, then what comes after it is of no matter. -/
theorem stop {first second : List Stmt → Exit → Prop} {ends : Exit → Prop}
    (hfirst : Follows s first (Going ends g.scope) f g) (hends : ¬ends .falls)
    (hgoes : ∀ x env, Going ends g.scope x env → goesOn x env)
    (hpaths : Sequence first second paths) : Follows s paths goesOn f g where
  returns := hfirst.returns
  paths := by
    intro env env' es x hcov hpath hscope
    rcases hpaths es x hpath with ⟨hstop, -⟩ | ⟨es', fs, rfl, hes, -⟩
    · exact (hfirst.paths hcov hstop hscope).mono (.refl _) (hgoes x _)
    · rw [pathScope?, List.foldlM_append] at hscope
      obtain ⟨env₁, h₁, -⟩ := Option.bind_eq_some_iff.mp hscope
      exact absurd (hfirst.paths hcov hes h₁).1 hends

/-- A path without statements leaves the variables as they are. -/
theorem still {ends : Exit → Prop}
    (hpaths : ∀ es x, paths es x → es = [] ∧ (x = .falls ∨ x = .breaks) ∧ ends x) :
    Follows s paths (Going ends f.scope) f f where
  returns := .refl _
  paths := by
    intro env env' es x hcov hpath hscope
    obtain ⟨rfl, rfl | rfl, hends⟩ := hpaths es x hpath
    · cases hscope
      exact ⟨hends, hcov⟩
    · cases hscope
      exact ⟨hends, hcov⟩

/-- One branch after the other, from the same scope. -/
theorem branches {first others : List Scope} (hfirst : Follows s paths (Surviving first) f g)
    (hscope : g.scope = f.scope) (hothers : Follows s paths' (Surviving others) g h) :
    Follows s (fun es x => paths es x ∨ paths' es x) (Surviving (first ++ others)) f h := by
  apply Follows.or
  · refine hfirst.mono rfl (.refl _) hothers.returns ?_
    rintro x env ⟨hx, b, hb, hcov⟩
    exact ⟨hx, b, List.mem_append_left _ hb, hcov⟩
  · refine hothers.mono hscope.symm hfirst.returns (.refl _) ?_
    rintro x env ⟨hx, b, hb, hcov⟩
    exact ⟨hx, b, List.mem_append_right _ hb, hcov⟩

/-- A path that leaves a statement by a jump falls through it. -/
theorem leave {ends ends' : Exit → Prop} (hfg : Follows s paths (Going ends g.scope) f g)
    (hends : ∀ x, ends x → x.leave = .falls → ends' .falls) :
    Follows s (fun es x => ∃ y, paths es y ∧ x = y.leave) (Going ends' g.scope) f g where
  returns := hfg.returns
  paths := by
    rintro env env' es _ hcov ⟨y, hpath, rfl⟩ hscope
    have hy := hfg.paths hcov hpath hscope
    cases y with
    | returns value => exact hy
    | throws => trivial
    | falls | breaks | continues => exact ⟨hends _ hy.1 rfl, hy.2⟩

end Follows

private theorem branch_follows {eval : Eval Bool}
    (hx : Ensures False eval f fun b g => Follows s paths (Going (Ongoing b) g.scope) f g) :
    Ensures False (branch eval) f fun live g =>
      g.scope = f.scope ∧ Follows s paths (Surviving live) f g := by
  apply Ensures.branch
  apply hx.weaken
  intro b g hg
  refine ⟨rfl, hg.mono rfl (.refl _) (.refl _) ?_⟩
  rintro x env ⟨⟨rfl, rfl⟩, hcov⟩
  exact ⟨rfl, g.scope, by simp, hcov⟩

private theorem joinLive_follows {live : List Scope} (hg : Follows s paths (Surviving live) f g) :
    Ensures False (joinLive live) g fun b h =>
      Follows s paths (Going (Ongoing b) h.scope) f h := by
  apply Ensures.joinLive
  · rintro rfl
    refine hg.mono rfl (.refl _) (.refl _) ?_
    rintro x env ⟨-, b, hb, -⟩
    cases hb
  · intro _
    refine hg.mono rfl (.refl _) (.refl _) ?_
    rintro x env ⟨hx, b, hb, hcov⟩
    exact ⟨⟨hx, rfl⟩, hcov.merge hb g.scope⟩

private theorem loopOnce_follows {body : Eval Bool}
    (hx : Ensures False body f fun b g => Follows s paths (Going (Ongoing b) g.scope) f g) :
    Ensures False (loopOnce body) f fun _ g =>
      Follows s (fun es x => (es = [] ∧ x = .falls) ∨ ∃ y, paths es y ∧ x = y.leave)
        (Going (Ongoing false) g.scope) f g := by
  apply Ensures.loopOnce
  apply hx.weaken
  intro b g hg
  have hskip : Follows s (fun es x => es = [] ∧ x = .falls) (Going (Ongoing false) f.scope) f f :=
    .still fun _ _ ⟨hes, hx⟩ => ⟨hes, .inl hx, hx, rfl⟩
  have honce : Follows s (fun es x => ∃ y, paths es y ∧ x = y.leave)
      (Going (Ongoing false) g.scope) f g := hg.leave fun _ _ _ => ⟨rfl, rfl⟩
  apply Follows.or
  · refine hskip.mono rfl (.refl _) hg.returns ?_
    intro x env hgoing
    exact ⟨hgoing.1, hgoing.2.merge (by simp) f.scope⟩
  · refine honce.mono rfl (.refl _) (.refl _) ?_
    intro x env hgoing
    exact ⟨hgoing.1, hgoing.2.merge (by simp) f.scope⟩

/-! Single statements. -/

private theorem applyDoc_quiet {doc : Option String} {e : Expr} {x : String}
    (hx : documentedVariable? e = some x) (hdoc : isQuiet doc x = true) :
    Ensures False (applyDoc s doc e) f fun _ g => g = f := by
  cases doc with
  | none => exact .pure rfl
  | some text =>
    simp only [applyDoc, hx, readDoc]
    cases hblock : Doc.Block.parse (some text) with
    | error e =>
      rw [isQuiet, hblock] at hdoc
      cases hdoc
    | ok block =>
      rw [isQuiet, hblock] at hdoc
      apply Ensures.bind
      refine Ensures.pure ?_
      cases htag : block.varTag? (some x) with
      | none => exact .pure rfl
      | some tag =>
        have hempty : tag.typeExpr.isEmpty = true := by simpa [htag] using hdoc
        simp only [hempty]
        exact .pure rfl

private theorem isPlainAssign_cases {doc : Option String} {e : Expr}
    (h : isPlainAssign doc e = true) :
    ∃ pos pos' name value, e = .assign pos none (.var pos' name) value ∧
      (name == "this") = false ∧ isOperand value = true ∧ isQuiet doc name = true := by
  unfold isPlainAssign at h
  split at h
  · simp only [bne, Bool.and_eq_true, Bool.not_eq_true'] at h
    exact ⟨_, _, _, _, rfl, h.1.1, h.1.2, h.2⟩
  · cases h

private theorem assign_follows {pos pos' pos'' : Pos} {doc : Option String} {name : String}
    {e : Expr}
    (hname : (name == "this") = false) (he : isOperand e = true) (hdoc : isQuiet doc name = true) :
    Ensures False (exec s (.expr pos doc (.assign pos' none (.var pos'' name) e))) f fun b g =>
      Follows s (Path .obeyed (.expr pos doc (.assign pos' none (.var pos'' name) e)))
        (Going (Ongoing b) g.scope) f g := by
  -- The operand may be the variable itself, so its type is taken in the scope before.
  have hassign : Ensures False (settle (eval s (.assign pos' none (.var pos'' name) e))) f
      fun _ g => ∃ t, g = { f with scope := f.scope.set name t } ∧
        ∀ env u, f.scope.Covers env → operandType? s env e = some u → t.Covers u := by
    simp only [eval, assignTo, hname]
    apply Ensures.settle
    apply Ensures.tryBind
    apply Ensures.tryLift
    apply (eval_operand he f).weaken
    rintro t g ⟨rfl, hcov⟩
    apply Ensures.tryBind
    apply Ensures.tryLift
    apply Ensures.bindVar
    exact .pure ⟨t, rfl, hcov⟩
  simp only [exec]
  apply hassign.andThen
  rintro _ g ⟨t, rfl, hcov⟩
  apply (applyDoc_quiet rfl hdoc).andThen
  rintro _ g rfl
  refine .pure ⟨.refl _, ?_⟩
  intro env env' es x henv hpath hscope
  cases hpath
  obtain ⟨u, hu, rfl⟩ : ∃ u, operandType? s env e = some u ∧ env.set name u = env' := by
    simpa [pathScope?, scopeAfter?] using hscope
  exact ⟨⟨rfl, rfl⟩, henv.set (hcov env u henv hu) name⟩

private theorem evalConditions_basic {elseIfs : List ElseIf} (h : basicElseIfs elseIfs = true) :
    Ensures False (evalConditions s elseIfs) f fun _ g => g = f := by
  induction elseIfs with
  | nil =>
    simp only [evalConditions]
    exact .pure rfl
  | cons e rest ih =>
    obtain ⟨_, condition, body⟩ := e
    simp only [basicElseIfs, Bool.and_eq_true] at h
    simp only [evalConditions]
    apply (eval_operand h.1.1 f).andThen
    rintro _ g ⟨rfl, -⟩
    exact ih h.2

private theorem evalTests_basic {cases : List Case} (h : basicCases cases = true) :
    Ensures False (evalTests s cases) f fun _ g => g = f := by
  induction cases with
  | nil =>
    simp only [evalTests]
    exact .pure rfl
  | cons c rest ih =>
    cases c with
    | test pos value body =>
      simp only [basicCases, Bool.and_eq_true] at h
      simp only [evalTests]
      apply (eval_operand h.1.1 f).andThen
      rintro _ g ⟨rfl, -⟩
      exact ih h.2
    | fallback pos body =>
      simp only [basicCases, Bool.and_eq_true] at h
      simp only [evalTests]
      exact ih h.2

private theorem returned_basic {value : Option Expr} (h : value.all isOperand = true) :
    Ensures False (returned s value) f fun t g =>
      g = f ∧ ∀ env u, f.scope.Covers env → returnType? s env value = some u → t.Covers u := by
  cases value with
  | none =>
    simp only [returned]
    refine .pure ⟨rfl, fun env u _ hu => ?_⟩
    cases hu
    exact .refl _
  | some e =>
    simp only [returned]
    exact eval_operand h f

private theorem basicCase_cons {stmt : Stmt} {rest : List Stmt} (hb : isBreak stmt = false) :
    basicCase (stmt :: rest) = (isBasic stmt && basicCase rest) := by
  rw [basicCase]
  rintro pos rfl
  cases hb

/-! Cases. -/

/-- The ends of paths that may go on after the statements of a case. -/
def CaseOngoing (e : CaseEnd) (x : Exit) : Prop :=
  (x = .falls ∧ e = .fallsThrough) ∨ (x = .breaks ∧ e = .breaks)

/-- The ends of paths that may go on after a `switch`. -/
def Leaving (terminated : Bool) (x : Exit) : Prop :=
  (x = .falls ∨ x = .breaks) ∧ terminated = false

private theorem throughCase_follows {first : Eval CaseEnd} {rest : Eval Bool} (c : Case)
    {cases : List Case} (hfirst : Ensures False first f fun e g =>
      Follows s (PathCase .obeyed (caseBody c)) (Going (CaseOngoing e) g.scope) f g)
    (hrest : ∀ g, Ensures False rest g fun b h =>
      Follows s (PathCase .obeyed (cases.flatMap caseBody)) (Going (Leaving b) h.scope) g h) :
    Ensures False (throughCase first rest) f fun b g =>
      Follows s (PathCase .obeyed ((c :: cases).flatMap caseBody)) (Going (Leaving b) g.scope)
        f g := by
  have hpaths : Sequence (PathCase .obeyed (caseBody c))
      (PathCase .obeyed (cases.flatMap caseBody))
      (PathCase .obeyed ((c :: cases).flatMap caseBody)) := by
    intro es x h
    rw [List.flatMap_cons] at h
    exact pathCase_append_iff.mp h
  apply hfirst.andThen
  intro e g hg
  cases e with
  | fallsThrough =>
    apply (hrest g).weaken
    intro b h hh
    apply hg.seq hh _ hpaths
    rintro x (⟨rfl, -⟩ | ⟨-, h⟩)
    · rfl
    · cases h
  | breaks =>
    refine .pure (hg.stop ?_ ?_ hpaths)
    · rintro (⟨-, h⟩ | ⟨h, -⟩) <;> cases h
    · rintro x env ⟨⟨-, h⟩ | ⟨hx, -⟩, hcov⟩
      · cases h
      · exact ⟨⟨.inr hx, rfl⟩, hcov⟩
  | terminates =>
    refine .pure (hg.stop ?_ ?_ hpaths)
    · rintro (⟨-, h⟩ | ⟨h, -⟩) <;> cases h
    · rintro x env ⟨⟨-, h⟩ | ⟨-, h⟩, hcov⟩ <;> cases h

private theorem enterFirst_follows {first : Eval CaseEnd} {through : Eval Bool}
    {enter : Eval (List Scope)} (c : Case) {cases : List Case}
    (hfirst : Ensures False first f fun e g =>
      Follows s (PathCase .obeyed (caseBody c)) (Going (CaseOngoing e) g.scope) f g)
    (hthrough : ∀ g, Ensures False through g fun b h =>
      Follows s (PathCase .obeyed (cases.flatMap caseBody)) (Going (Leaving b) h.scope) g h)
    (henter : ∀ g, Ensures False enter g fun live h => h.scope = g.scope ∧
      Follows s (EntryPath .obeyed cases) (Surviving live) g h) :
    Ensures False (do
      let live ← branch (throughCase first through)
      return live ++ (← enter)) f fun live g => g.scope = f.scope ∧
        Follows s (EntryPath .obeyed (c :: cases)) (Surviving live) f g := by
  have hcase : Ensures False (throughCase first through) f fun b g =>
      Follows s (fun es x => ∃ y, PathCase .obeyed ((c :: cases).flatMap caseBody) es y ∧
        x = y.leave) (Going (Ongoing b) g.scope) f g := by
    apply (throughCase_follows c hfirst hthrough).weaken
    intro b g hg
    exact hg.leave fun _ hleaving _ => ⟨rfl, hleaving.2⟩
  apply (branch_follows hcase).andThen
  rintro live g ⟨hscope, hlive⟩
  apply (henter g).andThen
  rintro others h ⟨hscope', hothers⟩
  refine .pure ⟨hscope'.trans hscope, (hlive.branches hscope hothers).congr ?_⟩
  intro es x hpath
  exact entryPath_cons_iff.mp hpath

-- One theorem for each function that runs statements, by the same recursion on the tree.
mutual

private theorem exec_follows :
    ∀ {stmt : Stmt}, isBasic stmt = true → ∀ f, Ensures False (exec s stmt) f
    fun b g => Follows s (Path .obeyed stmt) (Going (Ongoing b) g.scope) f g
  | .empty, _, f => by
    simp only [exec]
    refine .pure (.still ?_)
    intro es x h
    cases h
    exact ⟨rfl, .inl rfl, rfl, rfl⟩
  | .block _ body, h, f => by
    rw [isBasic] at h
    simp only [exec]
    apply (execAll_follows h f).weaken
    intro b g hg
    apply hg.congr
    intro es x h
    cases h with
    | block h => exact h
  | .expr pos doc e, h, f => by
    rw [isBasic] at h
    obtain ⟨_, _, name, value, rfl, hname, hvalue, hdoc⟩ := isPlainAssign_cases h
    exact assign_follows hname hvalue hdoc
  | .conditional _ _ condition yes elseIfs no, h, f => by
    simp only [isBasic, Bool.and_eq_true] at h
    obtain ⟨⟨⟨hcondition, hyes⟩, helseIfs⟩, hno⟩ := h
    simp only [exec]
    apply (eval_operand hcondition f).andThen
    rintro _ g ⟨rfl, -⟩
    apply (evalConditions_basic helseIfs).andThen
    rintro _ g rfl
    apply (branch_follows (exec_follows hyes _)).andThen
    rintro first g ⟨hscope, hfirst⟩
    apply (elseIfBranches_follows helseIfs g).andThen
    rintro others h ⟨hscope', hothers⟩
    apply (branch_follows (exec_follows hno h)).andThen
    rintro last k ⟨-, hlast⟩
    have hall := (hfirst.branches hscope hothers).branches (hscope'.trans hscope) hlast
    apply joinLive_follows
    apply hall.congr
    intro es x h
    cases h with
    | yes h => exact .inl (.inl h)
    | elseIf hmem h => exact .inl (.inr ⟨_, hmem, h⟩)
    | no h => exact .inr h
  | .whileLoop _ condition body, h, f => by
    simp only [isBasic, Bool.and_eq_true] at h
    simp only [exec]
    apply (eval_operand h.1 f).andThen
    rintro _ g ⟨rfl, -⟩
    apply (loopOnce_follows (exec_follows h.2 _)).andThen
    intro _ g hg
    refine .pure (hg.congr ?_)
    intro es x h
    cases h with
    | whileSkip => exact .inl ⟨rfl, rfl⟩
    | whileOnce h => exact .inr ⟨_, h, rfl⟩
  | .switch _ subject cases, h, f => by
    simp only [isBasic, Bool.and_eq_true] at h
    simp only [exec]
    apply (eval_operand h.1 f).andThen
    rintro _ g ⟨rfl, -⟩
    apply (evalTests_basic h.2).andThen
    rintro _ g rfl
    apply (enterCases_follows h.2 _).andThen
    rintro live h ⟨hscope, hlive⟩
    apply Ensures.bind
    apply Ensures.getScope
    apply joinLive_follows
    cases hfallback : cases.any isFallback with
    | true =>
      apply hlive.congr
      intro es x hpath
      rcases path_switch_iff.mp hpath with hpath | ⟨hskip, -⟩
      · exact hpath
      · rw [hfallback] at hskip
        cases hskip
    | false =>
      -- Without a default one more branch passes all cases by.
      have hskip : Follows s (fun es x => es = [] ∧ x = .falls) (Surviving [h.scope]) h h := by
        refine ⟨.refl _, ?_⟩
        rintro env env' es x hcov ⟨rfl, rfl⟩ hes
        cases hes
        exact ⟨rfl, h.scope, by simp, hcov⟩
      apply (hlive.branches hscope hskip).congr
      intro es x hpath
      rcases path_switch_iff.mp hpath with hpath | ⟨-, hskip⟩
      · exact .inl hpath
      · exact .inr hskip
  | .returns _ _ value, h, f => by
    rw [isBasic] at h
    simp only [exec]
    apply (returned_basic h).andThen
    rintro t g ⟨rfl, hcov⟩
    apply Ensures.bind
    apply Ensures.addReturn
    refine .pure ⟨List.subset_append_left _ _, ?_⟩
    intro env env' es x henv hpath hscope
    cases hpath
    cases hscope
    intro u hu
    exact ⟨t, by simp, hcov env u henv hu⟩
  | .throws _ value, h, f => by
    rw [isBasic] at h
    simp only [exec]
    apply (eval_operand h f).andThen
    rintro _ g ⟨rfl, -⟩
    refine .pure ⟨.refl _, ?_⟩
    intro env env' es x henv hpath hscope
    cases hpath
    trivial
  | .doLoop _ _ _, h, _ | .forLoop _ _ _ _ _, h, _ | .foreachLoop _ _ _ _ _, h, _
  | .guarded _ _ _ _ _, h, _ | .breaks _, h, _ | .continues _, h, _ | .echo _ _, h, _
  | .globals _ _, h, _ | .statics _ _, h, _ | .includes _ _, h, _ => by cases h

private theorem execAll_follows : ∀ {body : List Stmt}, areBasic body = true → ∀ f,
    Ensures False (execAll s body) f fun b g =>
      Follows s (PathAll .obeyed body) (Going (Ongoing b) g.scope) f g
  | [], _, f => by
    simp only [execAll]
    refine .pure (.still ?_)
    intro es x h
    cases h
    exact ⟨rfl, .inl rfl, rfl, rfl⟩
  | stmt :: rest, h, f => by
    simp only [areBasic, Bool.and_eq_true] at h
    have hpaths : Sequence (Path .obeyed stmt) (PathAll .obeyed rest)
        (PathAll .obeyed (stmt :: rest)) := by
      intro es x h
      cases h with
      | stop h hx => exact .inl ⟨h, hx⟩
      | next h hrest => exact .inr ⟨_, _, rfl, h, hrest⟩
    simp only [execAll]
    apply (exec_follows h.1 f).andThen
    intro terminated g hg
    cases terminated with
    | true =>
      refine .pure (hg.stop ?_ (fun _ _ h => h) hpaths)
      rintro ⟨-, h⟩
      cases h
    | false =>
      apply (execAll_follows h.2 g).weaken
      intro b h hh
      exact hg.seq hh (fun _ h => h.1) hpaths

private theorem elseIfBranches_follows :
    ∀ {elseIfs : List ElseIf}, basicElseIfs elseIfs = true → ∀ f,
    Ensures False (elseIfBranches s elseIfs) f fun live g => g.scope = f.scope ∧
      Follows s (fun es x => ∃ e ∈ elseIfs, Path .obeyed (elseIfBody e) es x) (Surviving live) f g
  | [], _, f => by
    simp only [elseIfBranches]
    refine .pure ⟨rfl, .refl _, ?_⟩
    rintro env env' es x - ⟨e, hmem, -⟩
    cases hmem
  | .mk _ _ body :: rest, h, f => by
    simp only [basicElseIfs, Bool.and_eq_true] at h
    simp only [elseIfBranches]
    apply (branch_follows (exec_follows h.1.2 f)).andThen
    rintro first g ⟨hscope, hfirst⟩
    apply (elseIfBranches_follows h.2 g).andThen
    rintro others h ⟨hscope', hothers⟩
    refine .pure ⟨hscope'.trans hscope, (hfirst.branches hscope hothers).congr ?_⟩
    rintro es x ⟨e, hmem, h⟩
    rcases List.mem_cons.mp hmem with rfl | hmem
    · exact .inl h
    · exact .inr ⟨e, hmem, h⟩

private theorem enterCases_follows : ∀ {cases : List Case}, basicCases cases = true → ∀ f,
    Ensures False (enterCases s cases) f fun live g => g.scope = f.scope ∧
      Follows s (EntryPath .obeyed cases) (Surviving live) f g
  | [], _, f => by
    simp only [enterCases]
    refine .pure ⟨rfl, .refl _, ?_⟩
    intro env env' es x _ h
    exact absurd h not_entryPath_nil
  | .test pos value body :: rest, h, f => by
    simp only [basicCases, Bool.and_eq_true] at h
    simp only [enterCases]
    exact enterFirst_follows (.test pos value body) (runCase_follows h.1.2 f)
      (runCases_follows h.2) (enterCases_follows h.2)
  | .fallback pos body :: rest, h, f => by
    simp only [basicCases, Bool.and_eq_true] at h
    simp only [enterCases]
    exact enterFirst_follows (.fallback pos body) (runCase_follows h.1 f) (runCases_follows h.2)
      (enterCases_follows h.2)

private theorem runCases_follows : ∀ {cases : List Case}, basicCases cases = true → ∀ f,
    Ensures False (runCases s cases) f fun b g =>
      Follows s (PathCase .obeyed (cases.flatMap caseBody)) (Going (Leaving b) g.scope) f g
  | [], _, f => by
    simp only [runCases]
    refine .pure (.still ?_)
    intro es x h
    cases h
    exact ⟨rfl, .inl rfl, .inl rfl, rfl⟩
  | .test pos value body :: rest, h, f => by
    simp only [basicCases, Bool.and_eq_true] at h
    simp only [runCases]
    exact throughCase_follows (.test pos value body) (runCase_follows h.1.2 f)
      (runCases_follows h.2)
  | .fallback pos body :: rest, h, f => by
    simp only [basicCases, Bool.and_eq_true] at h
    simp only [runCases]
    exact throughCase_follows (.fallback pos body) (runCase_follows h.1 f) (runCases_follows h.2)

private theorem runCase_follows : ∀ {body : List Stmt}, basicCase body = true → ∀ f,
    Ensures False (runCase s body) f fun e g =>
      Follows s (PathCase .obeyed body) (Going (CaseOngoing e) g.scope) f g
  | [], _, f => by
    simp only [runCase]
    refine .pure (.still ?_)
    intro es x h
    cases h
    exact ⟨rfl, .inl rfl, .inl ⟨rfl, rfl⟩⟩
  | stmt :: rest, h, f => by
    rcases isBreak_cases stmt with ⟨pos, rfl⟩ | hb
    · simp only [runCase]
      refine .pure (.still ?_)
      intro es x hpath
      obtain ⟨rfl, rfl⟩ := pathCase_break_iff.mp hpath
      exact ⟨rfl, .inr rfl, .inr ⟨rfl, rfl⟩⟩
    · have hpaths : Sequence (Path .obeyed stmt) (PathCase .obeyed rest)
          (PathCase .obeyed (stmt :: rest)) := by
        intro es x h
        cases h with
        | breaks => cases hb
        | stop _ h hx => exact .inl ⟨h, hx⟩
        | next _ h hrest => exact .inr ⟨_, _, rfl, h, hrest⟩
      rw [basicCase_cons hb, Bool.and_eq_true] at h
      rw [runCase_cons hb]
      apply (exec_follows h.1 f).andThen
      intro terminated g hg
      cases terminated with
      | true =>
        refine .pure (hg.stop ?_ ?_ hpaths)
        · rintro ⟨-, h⟩
          cases h
        · rintro x env ⟨⟨-, h⟩, -⟩
          cases h
      | false =>
        apply (runCase_follows h.2 g).weaken
        intro e h hh
        exact hg.seq hh (fun _ h => h.1) hpaths

end

private theorem bodyType_covers {body : List Stmt} (hbody : areBasic body = true) (f : Frame) :
    Ensures False (execAll s body >>= bodyType) f fun t g => ∀ es x env,
      PathAll .obeyed body es x → pathScope? s f.scope es = some env →
        (∀ value u, x = .returns value → returnType? s env value = some u → t.Covers u) ∧
        (x = .falls → t.Includes .null ∧ g.scope.Covers env) := by
  apply (execAll_follows hbody f).andThen
  intro b g hg
  apply Ensures.bodyType
  intro es x env hpath hscope
  have hx := hg.paths (.refl _) hpath hscope
  constructor
  · rintro value u rfl hu
    obtain ⟨v, hv, hcov⟩ := hx u hu
    have hmem : v ∈ if b then g.returns else g.returns ++ [.null] := by
      cases b <;> simp [hv]
    exact (Ty.covers_unionOf hmem).trans hcov
  · rintro rfl
    obtain ⟨⟨-, rfl⟩, hcov⟩ := hx
    have hmem : .null ∈ g.returns ++ [.null] := by simp
    exact ⟨Ty.covers_unionOf hmem .null (by simp [Ty.flatten]), hcov⟩

/-- A body that is made of assignments of literals and variables, branches and loops of `while` has
a type. It covers what any path returns, if the path reads only variables that it has bound, and it
has null among its members if a path reaches the end. After each statement the scope covers the
variables of every path that falls through it. -/
theorem paths_covered (s : Site) {body : List Stmt} (hbody : areBasic body = true) (scope : Scope)
    (m : Memory) :
    (∃ t g, (((execAll s body >>= bodyType).run ⟨scope, []⟩).run m).result = .ok (t, g) ∧
      ∀ es x env, PathAll .obeyed body es x → pathScope? s scope es = some env →
        (∀ value u, x = .returns value → returnType? s env value = some u → t.Covers u) ∧
        (x = .falls → t.Includes .null ∧ g.scope.Covers env)) ∧
    ∀ stmt f env m, isBasic stmt = true → f.scope.Covers env →
      ∃ b g, (((exec s stmt).run f).run m).result = .ok (b, g) ∧
        ∀ es env', Path .obeyed stmt es .falls → pathScope? s env es = some env' →
          b = false ∧ g.scope.Covers env' := by
  constructor
  · exact (bodyType_covers hbody ⟨scope, []⟩).exists_ok m
  · intro stmt f env m hstmt hcov
    obtain ⟨b, g, hrun, hg⟩ := (exec_follows hstmt f).exists_ok m
    refine ⟨b, g, hrun, fun es env' hpath hscope => ?_⟩
    obtain ⟨hfalls, hcov'⟩ := hg.paths hcov hpath hscope
    exact ⟨hfalls.2, hcov'⟩

/-- A number is assigned, the first case assigns a string and falls through, and the other case
returns the variable. -/
def fallingCase : List Stmt :=
  [.expr ⟨1, 1⟩ none (.assign ⟨1, 1⟩ none (.var ⟨1, 1⟩ "x") (.int ⟨1, 1⟩ 1)),
    .switch ⟨1, 1⟩ (.var ⟨1, 1⟩ "a")
      [.test ⟨1, 1⟩ (.int ⟨1, 1⟩ 1)
        [.expr ⟨1, 1⟩ none (.assign ⟨1, 1⟩ none (.var ⟨1, 1⟩ "x") (.string ⟨1, 1⟩ "s" false))],
        .fallback ⟨1, 1⟩ [.returns ⟨1, 1⟩ none (some (.var ⟨1, 1⟩ "x"))]]]

theorem fallingCase_covered :
    areBasic fallingCase = true ∧ ∀ (s : Site) (scope : Scope) (m : Memory), ∃ t g,
      (((execAll s fallingCase >>= bodyType).run ⟨scope, []⟩).run m).result = .ok (t, g) ∧
        t.Covers (.int (some 1)) ∧ t.Covers (.string (some "s")) := by
  have hbasic : areBasic fallingCase = true := rfl
  refine ⟨hbasic, fun s scope m => ?_⟩
  obtain ⟨t, g, hrun, hpaths⟩ := (paths_covered s hbasic scope m).1
  have hreturn : PathCase .obeyed [.returns ⟨1, 1⟩ none (some (.var ⟨1, 1⟩ "x"))] []
      (.returns (some (.var ⟨1, 1⟩ "x"))) := .stop rfl .returns (by simp)
  refine ⟨t, g, hrun, ?_, ?_⟩
  · have hpath : PathAll .obeyed fallingCase _ (.returns (some (.var ⟨1, 1⟩ "x"))) :=
      .next .expr (.stop (path_switch_iff.mpr (.inl (entryPath_cons_iff.mpr (.inr
        (entryPath_cons_iff.mpr (.inl ⟨_, hreturn, rfl⟩)))))) (by simp))
    exact (hpaths _ _ _ hpath rfl).1 _ _ rfl (Scope.get?_set_self _ "x" _)
  · have hpath : PathAll .obeyed fallingCase _ (.returns (some (.var ⟨1, 1⟩ "x"))) :=
      .next .expr (.stop (path_switch_iff.mpr (.inl (entryPath_cons_iff.mpr (.inl
        ⟨_, .next rfl .expr hreturn, rfl⟩)))) (by simp))
    exact (hpaths _ _ _ hpath rfl).1 _ _ rfl (Scope.get?_set_self _ "x" _)

end PhpTypes.Inference
