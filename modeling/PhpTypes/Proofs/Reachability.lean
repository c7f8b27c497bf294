import PhpTypes.Proofs.Paths
import PhpTypes.Proofs.Postconditions

/-!
# What is reached after a statement

A statement is said to leave no path exactly if there is none, where a jump counts only if it is a
`break` directly in a case of a `switch`. For statements without other jumps these are all paths, so
that null is added to the type of a body exactly if its end can be reached.
-/

namespace PhpTypes.Inference

open Source

/-- Whenever the evaluation ends, its value is as described. -/
def Yields {α : Type} (x : Eval α) (Q : α → Prop) : Prop := ∀ f, Ensures True x f fun a _ => Q a

namespace Yields

variable {α β : Type}

theorem pure {a : α} {Q : α → Prop} (h : Q a) : Yields (Pure.pure a) Q := fun _ => .pure h

theorem bind {x : Eval α} {next : α → Eval β} {P : α → Prop} {Q : β → Prop} (hx : Yields x P)
    (hnext : ∀ a, P a → Yields (next a) Q) : Yields (x >>= next) Q := fun f =>
  (hx f).andThen fun a g ha => hnext a ha g

/-- The value of the first part is of no matter. -/
theorem skip {x : Eval α} {next : α → Eval β} {Q : β → Prop} (hnext : ∀ a, Yields (next a) Q) :
    Yields (x >>= next) Q := fun _ =>
  (Ensures.any x).andThen fun a g _ => hnext a g

theorem weaken {x : Eval α} {P Q : α → Prop} (hx : Yields x P) (hPQ : ∀ a, P a → Q a) :
    Yields x Q := fun f =>
  (hx f).weaken fun a _ => hPQ a

variable {x : Eval Bool} {P : Prop}

theorem inScope (s : Scope) {x : Eval α} {Q : α → Prop} (hx : Yields x Q) :
    Yields (inScope s x) fun r => Q r.1 := fun f =>
  .inScope (hx { f with scope := s })

theorem branchFrom (s : Scope) (hx : Yields x fun b => b = false ↔ P) :
    Yields (branchFrom s x) fun live => live ≠ [] ↔ P := by
  intro f
  apply Ensures.branchFrom
  apply (hx _).weaken
  intro b g hb
  rw [← hb]
  cases b <;> simp

theorem branch (hx : Yields x fun b => b = false ↔ P) :
    Yields (branch x) fun live => live ≠ [] ↔ P :=
  skip fun s => branchFrom s hx

theorem joinLive (live : List Scope) : Yields (joinLive live) fun b => b = false ↔ live ≠ [] := by
  intro f
  apply Ensures.joinLive
  · intro h
    simp [h]
  · intro h
    simp [h]

end Yields

/-! Paths that go on, where jumps are passed over except for a `break` directly in a case. -/

def GoesOn (stmt : Stmt) : Prop := ∃ es, Path .passed stmt es .falls

def GoesOnAll (body : List Stmt) : Prop := ∃ es, PathAll .passed body es .falls

/-- From the first of the cases on, a path leads out of the `switch`. -/
def LeadsOut (cases : List Case) : Prop :=
  ∃ es x, PathCase .passed (cases.flatMap caseBody) es x ∧ .falls = x.leave

def EntersOut (cases : List Case) : Prop := ∃ es, EntryPath .passed cases es .falls

private theorem goesOn_block {pos : Pos} {body : List Stmt} :
    GoesOn (.block pos body) ↔ GoesOnAll body := by
  constructor
  · rintro ⟨es, h⟩
    cases h with
    | block h => exact ⟨es, h⟩
  · rintro ⟨es, h⟩
    exact ⟨es, .block h⟩

private theorem goesOn_conditional {pos : Pos} {doc : Option String} {condition : Expr}
    {yes no : Stmt} {elseIfs : List ElseIf} :
    GoesOn (.conditional pos doc condition yes elseIfs no) ↔
      (GoesOn yes ∨ ∃ e ∈ elseIfs, GoesOn (elseIfBody e)) ∨ GoesOn no := by
  constructor
  · rintro ⟨es, h⟩
    cases h with
    | yes h => exact .inl (.inl ⟨es, h⟩)
    | elseIf hmem h => exact .inl (.inr ⟨_, hmem, es, h⟩)
    | no h => exact .inr ⟨es, h⟩
  · rintro ((⟨es, h⟩ | ⟨e, hmem, es, h⟩) | ⟨es, h⟩)
    · exact ⟨es, .yes h⟩
    · exact ⟨es, .elseIf hmem h⟩
    · exact ⟨es, .no h⟩

private theorem goesOn_do {pos : Pos} {body : Stmt} {condition : Expr} :
    GoesOn (.doLoop pos body condition) ↔ GoesOn body := by
  constructor
  · rintro ⟨es, h⟩
    obtain ⟨y, h, hy⟩ := path_do_iff.mp h
    rw [h.leave_exit] at hy
    exact ⟨es, hy ▸ h⟩
  · rintro ⟨es, h⟩
    exact ⟨es, path_do_iff.mpr ⟨_, h, rfl⟩⟩

private theorem goesOn_switch {pos : Pos} {subject : Expr} {cases : List Case} :
    GoesOn (.switch pos subject cases) ↔ EntersOut cases ∨ cases.any isFallback = false := by
  constructor
  · rintro ⟨es, h⟩
    rcases path_switch_iff.mp h with h | ⟨h, -, -⟩
    · exact .inl ⟨es, h⟩
    · exact .inr h
  · rintro (⟨es, h⟩ | h)
    · exact ⟨es, path_switch_iff.mpr (.inl h)⟩
    · exact ⟨[], .skip h⟩

private theorem goesOn_guarded {pos bodyPos : Pos} {body : List Stmt} {catches : List Catch}
    {finalizer : Stmt} :
    GoesOn (.guarded pos bodyPos body catches finalizer) ↔
      (GoesOnAll body ∨ ∃ c ∈ catches, GoesOnAll (catchBody c)) ∧ GoesOn finalizer := by
  constructor
  · rintro ⟨es, h⟩
    obtain ⟨es', y, fs, z, h, hfin, -, hx⟩ := path_guarded_iff.mp h
    obtain ⟨rfl, rfl⟩ := Exit.thenAlways_eq_falls.mp hx.symm
    refine ⟨?_, fs, hfin⟩
    rcases h with h | ⟨c, hmem, h⟩
    · exact .inl ⟨es', h⟩
    · exact .inr ⟨c, hmem, es', h⟩
  · rintro ⟨⟨es, h⟩ | ⟨c, hmem, es, h⟩, fs, hfin⟩
    · exact ⟨es ++ fs, .tried h hfin⟩
    · exact ⟨es ++ fs, .caught hmem h hfin⟩

private theorem goesOnAll_cons {stmt : Stmt} {rest : List Stmt} :
    GoesOnAll (stmt :: rest) ↔ GoesOn stmt ∧ GoesOnAll rest := by
  constructor
  · rintro ⟨es, h⟩
    cases h with
    | stop h hx => exact absurd rfl hx
    | next h hrest => exact ⟨⟨_, h⟩, _, hrest⟩
  · rintro ⟨⟨es, h⟩, fs, hrest⟩
    exact ⟨es ++ fs, .next h hrest⟩

private theorem pathCase_passed_cons {stmt : Stmt} {rest : List Stmt} {x : Exit}
    (hb : isBreak stmt = false) (hx : x = .falls ∨ x = .breaks) :
    (∃ es, PathCase .passed (stmt :: rest) es x) ↔
      GoesOn stmt ∧ ∃ es, PathCase .passed rest es x := by
  constructor
  · rintro ⟨es, h⟩
    cases h with
    | breaks => cases hb
    | stop _ h hne =>
      rcases hx with rfl | rfl
      · exact absurd rfl hne
      · cases h.leave_exit
    | next _ h hrest => exact ⟨⟨_, h⟩, _, hrest⟩
  · rintro ⟨⟨es, h⟩, fs, hrest⟩
    exact ⟨es ++ fs, .next hb h hrest⟩

private theorem leadsOut_cons {c : Case} {cases : List Case} :
    LeadsOut (c :: cases) ↔ (∃ es, PathCase .passed (caseBody c) es .breaks) ∨
      (∃ es, PathCase .passed (caseBody c) es .falls) ∧ LeadsOut cases := by
  rw [LeadsOut, List.flatMap_cons]
  constructor
  · rintro ⟨es, x, h, hx⟩
    rcases pathCase_append_iff.mp h with ⟨h, hne⟩ | ⟨es', fs, -, h, hrest⟩
    · rcases h.leave_exit with rfl | hleave
      · exact .inl ⟨es, h⟩
      · exact absurd (hleave.symm.trans hx.symm) hne
    · exact .inr ⟨⟨es', h⟩, fs, x, hrest, hx⟩
  · rintro (⟨es, h⟩ | ⟨⟨es, h⟩, fs, x, hrest, hx⟩)
    · exact ⟨es, .breaks, pathCase_append_iff.mpr (.inl ⟨h, by simp⟩), rfl⟩
    · exact ⟨es ++ fs, x, pathCase_append_iff.mpr (.inr ⟨es, fs, rfl, h, hrest⟩), hx⟩

private theorem entersOut_cons {c : Case} {cases : List Case} :
    EntersOut (c :: cases) ↔ LeadsOut (c :: cases) ∨ EntersOut cases := by
  simp only [EntersOut, entryPath_cons_iff, exists_or]
  rfl

/-! The evaluation of statements. -/

variable {s : Site}

/-- How the end of a case shows in its paths. -/
structure CaseEnds (body : List Stmt) (e : CaseEnd) : Prop where
  falls : e = .fallsThrough ↔ ∃ es, PathCase .passed body es .falls
  breaks : e = .breaks ↔ ∃ es, PathCase .passed body es .breaks

private theorem throughCase_live {first : Eval CaseEnd} {rest : Eval Bool} (c : Case)
    {cases : List Case} (hfirst : Yields first (CaseEnds (caseBody c)))
    (hrest : Yields rest fun b => b = false ↔ LeadsOut cases) :
    Yields (throughCase first rest) fun b => b = false ↔ LeadsOut (c :: cases) := by
  refine hfirst.bind fun e he => ?_
  simp only [leadsOut_cons, ← he.falls, ← he.breaks]
  cases e with
  | fallsThrough => simpa using hrest
  | breaks => exact .pure (by simp)
  | terminates => exact .pure (by simp)

private theorem append_live {as bs : List Scope} : as ++ bs ≠ [] ↔ as ≠ [] ∨ bs ≠ [] := by
  cases as <;> simp

private theorem live_of_path {stmt : Stmt} {es : List Stmt} (h : Path .passed stmt es .falls) :
    false = false ↔ GoesOn stmt :=
  ⟨fun _ => ⟨es, h⟩, fun _ => rfl⟩

-- One theorem for each function that runs statements, by the same recursion on the tree.
mutual

private theorem exec_live : ∀ stmt : Stmt, Yields (exec s stmt) fun b => b = false ↔ GoesOn stmt
  | .empty => by
    simp only [exec]
    exact .pure (live_of_path .empty)
  | .block _ body => by
    simp only [exec, goesOn_block]
    exact execAll_live body
  | .expr _ doc e => by
    simp only [exec]
    exact .skip fun _ => .skip fun _ => .pure (live_of_path .expr)
  | .conditional _ _ condition yes elseIfs no => by
    simp only [exec, goesOn_conditional]
    refine .skip fun _ => .skip fun _ => ?_
    refine (exec_live yes).branch.bind fun first hfirst => ?_
    refine (elseIfBranches_live elseIfs).bind fun others hothers => ?_
    refine (exec_live no).branch.bind fun last hlast => ?_
    apply (Yields.joinLive _).weaken
    intro b hb
    rw [hb, append_live, append_live, hfirst, hothers, hlast]
  | .whileLoop _ condition body => by
    simp only [exec]
    exact .skip fun _ => .skip fun _ => .pure (live_of_path .whileSkip)
  | .doLoop _ body condition => by
    simp only [exec, goesOn_do]
    refine .skip fun before => ?_
    refine ((exec_live body).inScope before).bind fun r hr => ?_
    obtain ⟨terminated, after⟩ := r
    rw [← hr]
    -- The condition is evaluated only if the body goes on, and has no part in the answer.
    cases terminated with
    | true => exact .pure Iff.rfl
    | false => exact .skip fun _ => .skip fun _ => .pure Iff.rfl
  | .forLoop _ start condition step body => by
    simp only [exec]
    exact .skip fun _ => .skip fun _ => .skip fun _ => .pure (live_of_path .forSkip)
  | .foreachLoop _ iterable key value body => by
    simp only [exec]
    exact .skip fun _ => .skip fun _ => .pure (live_of_path .foreachSkip)
  | .switch _ subject cases => by
    simp only [exec, goesOn_switch]
    refine .skip fun _ => .skip fun _ => ?_
    refine (enterCases_live cases).bind fun live hlive => ?_
    refine .skip fun skipped => ?_
    apply (Yields.joinLive _).weaken
    intro b hb
    rw [hb, ← hlive]
    cases cases.any isFallback <;> simp
  | .guarded _ _ body catches finalizer => by
    simp only [exec, goesOn_guarded]
    refine (execAll_live body).branch.bind fun first hfirst => ?_
    refine (catchBranches_live catches).bind fun others hothers => ?_
    refine (Yields.joinLive _).bind fun terminated hterminated => ?_
    -- The finalizer is run even if no branch survives.
    refine (exec_live finalizer).bind fun ended hended => ?_
    rw [append_live, hfirst, hothers] at hterminated
    rw [← hterminated, ← hended]
    cases ended with
    | true => exact .pure (by simp)
    | false => exact .pure (by simp)
  | .returns _ _ value => by
    simp only [exec]
    refine .skip fun _ => .skip fun _ => .pure ?_
    simp only [Bool.true_eq_false, false_iff]
    rintro ⟨es, ⟨⟩⟩
  | .breaks _ => by
    simp only [exec]
    exact .pure (live_of_path .breaks)
  | .continues _ => by
    simp only [exec]
    exact .pure (live_of_path .continues)
  | .throws _ value => by
    simp only [exec]
    refine .skip fun _ => .pure ?_
    simp only [Bool.true_eq_false, false_iff]
    rintro ⟨es, ⟨⟩⟩
  | .echo _ values => by
    simp only [exec]
    exact .skip fun _ => .pure (live_of_path .echo)
  | .globals _ names => by
    simp only [exec]
    exact .skip fun _ => .pure (live_of_path .globals)
  | .statics _ vars => by
    simp only [exec]
    exact .skip fun _ => .pure (live_of_path .statics)
  | .includes _ path => by
    simp only [exec]
    exact .skip fun _ => .pure (live_of_path .includes)

private theorem execAll_live :
    ∀ body : List Stmt, Yields (execAll s body) fun b => b = false ↔ GoesOnAll body
  | [] => by
    simp only [execAll]
    exact .pure ⟨fun _ => ⟨[], .done⟩, fun _ => rfl⟩
  | stmt :: rest => by
    simp only [execAll, goesOnAll_cons]
    refine (exec_live stmt).bind fun terminated hterminated => ?_
    rw [← hterminated]
    cases terminated with
    | true => exact .pure (by simp)
    | false => simpa using execAll_live rest

private theorem elseIfBranches_live :
    ∀ elseIfs : List ElseIf, Yields (elseIfBranches s elseIfs) fun live =>
      live ≠ [] ↔ ∃ e ∈ elseIfs, GoesOn (elseIfBody e)
  | [] => by
    simp only [elseIfBranches]
    exact .pure (by simp)
  | .mk _ _ body :: rest => by
    simp only [elseIfBranches]
    refine (exec_live body).branch.bind fun first hfirst => ?_
    refine (elseIfBranches_live rest).bind fun others hothers => .pure ?_
    rw [append_live, hfirst, hothers]
    simp [elseIfBody]

private theorem enterCases_live :
    ∀ cases : List Case, Yields (enterCases s cases) fun live => live ≠ [] ↔ EntersOut cases
  | [] => by
    simp only [enterCases]
    exact .pure (by simp [EntersOut, not_entryPath_nil])
  | .test pos test body :: rest => by
    simp only [enterCases, entersOut_cons]
    refine (throughCase_live (.test pos test body) (runCase_live body)
      (runCases_live rest)).branch.bind fun first hfirst => ?_
    refine (enterCases_live rest).bind fun others hothers => .pure ?_
    rw [append_live, hfirst, hothers]
  | .fallback pos body :: rest => by
    simp only [enterCases, entersOut_cons]
    refine (throughCase_live (.fallback pos body) (runCase_live body)
      (runCases_live rest)).branch.bind fun first hfirst => ?_
    refine (enterCases_live rest).bind fun others hothers => .pure ?_
    rw [append_live, hfirst, hothers]

private theorem runCases_live :
    ∀ cases : List Case, Yields (runCases s cases) fun b => b = false ↔ LeadsOut cases
  | [] => by
    simp only [runCases]
    exact .pure ⟨fun _ => ⟨[], .falls, .done, rfl⟩, fun _ => rfl⟩
  | .test pos test body :: rest => by
    simp only [runCases]
    exact throughCase_live (.test pos test body) (runCase_live body) (runCases_live rest)
  | .fallback pos body :: rest => by
    simp only [runCases]
    exact throughCase_live (.fallback pos body) (runCase_live body) (runCases_live rest)

private theorem runCase_live : ∀ body : List Stmt, Yields (runCase s body) (CaseEnds body)
  | [] => by
    simp only [runCase]
    refine .pure ⟨?_, ?_⟩
    · simpa using ⟨_, .done⟩
    · simp only [reduceCtorEq, false_iff]
      rintro ⟨es, ⟨⟩⟩
  | stmt :: rest => by
    rcases isBreak_cases stmt with ⟨pos, rfl⟩ | hb
    · simp only [runCase]
      exact .pure ⟨by simp [pathCase_break_iff], by simp [pathCase_break_iff]⟩
    · rw [runCase_cons hb]
      refine (exec_live stmt).bind fun terminated hterminated => ?_
      have hpath : ∀ {x : Exit}, x = .falls ∨ x = .breaks →
          ((∃ es, PathCase .passed (stmt :: rest) es x) ↔
            terminated = false ∧ ∃ es, PathCase .passed rest es x) := by
        intro x hx
        rw [pathCase_passed_cons hb hx, hterminated]
      cases terminated with
      | true => exact .pure ⟨by simp [hpath], by simp [hpath]⟩
      | false =>
        apply (runCase_live rest).weaken
        intro e he
        exact ⟨by simp [hpath, he.falls], by simp [hpath, he.breaks]⟩

private theorem catchBranches_live :
    ∀ catches : List Catch, Yields (catchBranches s catches) fun live =>
      live ≠ [] ↔ ∃ c ∈ catches, GoesOnAll (catchBody c)
  | [] => by
    simp only [catchBranches]
    exact .pure (by simp)
  | .mk _ classes var _ body :: rest => by
    simp only [catchBranches]
    refine .skip fun scope => ?_
    refine ((execAll_live body).branchFrom scope).bind fun first hfirst => ?_
    refine (catchBranches_live rest).bind fun others hothers => .pure ?_
    rw [append_live, hfirst, hothers]
    simp [catchBody]

end

private theorem pathAll_falls_iff {body : List Stmt} (hbody : orderlyAll body = true) :
    (∃ es, PathAll .obeyed body es .falls) ↔ GoesOnAll body :=
  exists_congr fun _ => ⟨fun h => h.congr hbody, fun h => h.congr hbody⟩

/-- Statements that have no jumps, except for a `break` directly in a case, leave no path exactly if
no path falls through them. The type of such a body has null added to what it returns exactly if
some path reaches its end. -/
theorem execAll_ends_iff (s : Site) {body : List Stmt} (hbody : orderlyAll body = true) (f : Frame)
    (m : Memory) :
    (∀ b g, (((execAll s body).run f).run m).result = .ok (b, g) →
      (b = true ↔ ¬∃ es, PathAll .obeyed body es .falls)) ∧
    ∀ t g, (((execAll s body >>= bodyType).run f).run m).result = .ok (t, g) →
      ((∃ es, PathAll .obeyed body es .falls) → t = Ty.unionOf (g.returns ++ [.null])) ∧
      ((¬∃ es, PathAll .obeyed body es .falls) → t = Ty.unionOf g.returns) := by
  have hlive := execAll_live (s := s) body f
  rw [pathAll_falls_iff hbody]
  constructor
  · intro b g hrun
    have hb : b = false ↔ GoesOnAll body := hlive.ok hrun
    rw [← hb, Bool.not_eq_false]
  · intro t g hrun
    have htype : Ensures True (execAll s body >>= bodyType) f fun t g =>
        (GoesOnAll body → t = Ty.unionOf (g.returns ++ [.null])) ∧
          (¬GoesOnAll body → t = Ty.unionOf g.returns) := by
      apply hlive.andThen
      intro b g hb
      apply Ensures.bodyType
      rw [← hb]
      cases b <;> simp
    exact htype.ok hrun

/-- A place outside of all classes, in a program without declarations. -/
def emptySite : Site where
  program := ⟨.empty, .empty⟩
  ask := ⟨fun _ _ => return .unknown, fun _ => return .unknown, fun _ _ => return .unknown,
    fun _ => return none⟩
  owner := none
  context := .global

/-- A `try` whose body leaves a `switch` by a `break` and then throws, and whose `catch` returns. -/
def guardedThrow : Stmt :=
  .guarded ⟨1, 1⟩ ⟨1, 1⟩
    [.switch ⟨1, 1⟩ (.var ⟨1, 1⟩ "a")
      [.test ⟨1, 1⟩ (.int ⟨1, 1⟩ 1) [.breaks ⟨1, 1⟩], .fallback ⟨1, 1⟩ [.returns ⟨1, 1⟩ none none]],
      .throws ⟨1, 1⟩ (.var ⟨1, 1⟩ "e")]
    [.mk ⟨1, 1⟩ ["E"] (some "e") ⟨1, 1⟩ [.returns ⟨1, 1⟩ none (some (.int ⟨1, 1⟩ 1))]] .empty

theorem guardedThrow_ends :
    orderlyAll [guardedThrow] = true ∧ ¬∃ es, PathAll .obeyed [guardedThrow] es .falls :=
  ⟨rfl, ((execAll_ends_iff emptySite rfl ⟨.empty, []⟩ .empty).1 true _ rfl).mp rfl⟩

/-- Some path through a `switch` or `do` runs a `break` that belongs to it. -/
def BreaksOut : Stmt → Prop
  | .switch _ _ cases => ∃ after es, after ≠ [] ∧ after <:+ cases ∧
    PathCase .obeyed (after.flatMap caseBody) es .breaks
  | .doLoop _ body _ => ∃ es, Path .obeyed body es .breaks
  | _ => False

theorem BreaksOut.falls {stmt : Stmt} (h : BreaksOut stmt) :
    ∃ es, Path .obeyed stmt es .falls := by
  cases stmt with
  | switch pos subject cases =>
    obtain ⟨after, es, hne, hsuffix, h⟩ := h
    exact ⟨es, .enter hne hsuffix h⟩
  | doLoop pos body condition =>
    obtain ⟨es, h⟩ := h
    exact ⟨es, .doOnce h⟩
  | _ => cases h

/-- A `switch` or `do` that a path leaves by a `break` of its own is taken to go on exactly if some
path does so on which only a `break` directly in a case counts. That is so if all jumps are such. -/
theorem exec_breaksOut_iff (s : Site) {stmt : Stmt} (hbreak : BreaksOut stmt) (f : Frame)
    (m : Memory) (b : Bool) (g : Frame) (hrun : (((exec s stmt).run f).run m).result = .ok (b, g)) :
    (b = false ↔ ∃ es, Path .passed stmt es .falls) ∧ (orderly stmt = true → b = false) := by
  have hlive : b = false ↔ GoesOn stmt := (exec_live stmt f).ok hrun
  refine ⟨hlive, fun horderly => ?_⟩
  obtain ⟨es, hfalls⟩ := hbreak.falls
  exact hlive.mpr ⟨es, hfalls.congr horderly⟩

/-- A `switch` whose first case breaks under a condition and returns otherwise; its other case
returns. -/
def conditionalBreak : Stmt :=
  .switch ⟨1, 1⟩ (.var ⟨1, 1⟩ "a")
    [.test ⟨1, 1⟩ (.int ⟨1, 1⟩ 1)
      [.conditional ⟨1, 1⟩ none (.var ⟨1, 1⟩ "b") (.block ⟨1, 1⟩ [.breaks ⟨1, 1⟩]) [] .empty,
        .returns ⟨1, 1⟩ none (some (.int ⟨1, 1⟩ 1))],
      .fallback ⟨1, 1⟩ [.returns ⟨1, 1⟩ none (some (.int ⟨1, 1⟩ 2))]]

def returnText : Stmt := .returns ⟨1, 1⟩ none (some (.string ⟨1, 1⟩ "x" false))

private theorem conditionalBreak_breaksOut : BreaksOut conditionalBreak :=
  ⟨_, [], by simp, List.suffix_refl _,
    .stop rfl (.yes (.block (.stop .breaks (by simp)))) (by simp)⟩

theorem conditionalBreak_ends :
    BreaksOut conditionalBreak ∧ ¬∃ es, Path .passed conditionalBreak es .falls := by
  refine ⟨conditionalBreak_breaksOut, fun hfalls => ?_⟩
  have hlive :=
    exec_breaksOut_iff emptySite conditionalBreak_breaksOut ⟨.empty, []⟩ .empty true _ rfl
  cases hlive.1.mpr hfalls

/-- A `break` under a condition is not noticed: what is returned after the `switch` is no part of
the type, although a path leads there. -/
theorem conditionalBreak_lost :
    BreaksOut conditionalBreak ∧
    (∃ es, PathAll .obeyed [conditionalBreak, returnText] es
      (.returns (some (.string ⟨1, 1⟩ "x" false)))) ∧
    (((execAll emptySite [conditionalBreak, returnText] >>= bodyType).run ⟨.empty, []⟩).run
        .empty).result =
      .ok (.union [.int (some 1), .int (some 2)], ⟨.empty, [.int (some 1), .int (some 2)]⟩) := by
  refine ⟨conditionalBreak_breaksOut, ?_, ?_⟩
  · obtain ⟨es, hfalls⟩ := conditionalBreak_breaksOut.falls
    exact ⟨es ++ [], .next hfalls (.stop .returns (by simp))⟩
  · have hunion : Ty.unionOf [.int (some 1), .int (some 2)] =
        .union [.int (some 1), .int (some 2)] := by
      simp [Ty.unionOf, Ty.flattenAll, Ty.flatten, Ty.distinct, Ty.distinctFrom, Ty.same,
        Ty.ofMembers]
    rw [← hunion]
    rfl

end PhpTypes.Inference
