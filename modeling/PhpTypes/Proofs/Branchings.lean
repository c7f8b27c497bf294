import PhpTypes.Proofs.Compliance
import PhpTypes.Proofs.NestedJoins
import PhpTypes.Proofs.PathTypes
import PhpTypes.Proofs.Paths

/-!
# Branchings

A chain of `if` and `elseif`, the same choices nested in each other, and a `switch` each of whose
cases ends with a `break`, are three ways to write one branching. They run the same branches in the
same order, and join them all at once or one after the other, which comes to the same.
-/

namespace PhpTypes

private theorem Ty.WellFormed.flatten_ne_nil {t : Ty} (h : t.WellFormed) : t.flatten ≠ [] := by
  have hnode := h.self
  cases t with
  | union ts =>
    have hnormal : Ty.UnionNode (.union ts) := hnode
    rw [hnormal.flatten]
    exact hnormal.members_ne_nil
  | _ => simp [Ty.flatten]

namespace Inference

open Source

variable {α β : Type}

/-! Endings. -/

/-- How an evaluation ends: with its result and frame unless it is stopped, and with the memory that
it leaves. -/
def ending (x : Eval α) (f : Frame) (m : Memory) : Except Escape (α × Frame) × Memory :=
  (((x.run f).run m).result, ((x.run f).run m).memory)

theorem ending_pure (a : α) (f : Frame) (m : Memory) :
    ending (pure a) f m = (.ok (a, f), m) := rfl

theorem ending_bind_ok {x : Eval α} {f g : Frame} {m n : Memory} {a : α}
    (h : ending x f m = (.ok (a, g), n)) (next : α → Eval β) :
    ending (x >>= next) f m = ending (next a) g n := by
  obtain ⟨hr, rfl⟩ := Prod.mk.inj h
  change (((x.run f >>= fun r => (next r.1).run r.2).run m).result,
    ((x.run f >>= fun r => (next r.1).run r.2).run m).memory) = _
  rw [Analysis.run_bind_ok hr]
  rfl

theorem ending_bind_error {x : Eval α} {f : Frame} {m n : Memory} {e : Escape}
    (h : ending x f m = (.error e, n)) (next : α → Eval β) :
    ending (x >>= next) f m = (.error e, n) := by
  obtain ⟨hr, rfl⟩ := Prod.mk.inj h
  change (((x.run f >>= fun r => (next r.1).run r.2).run m).result,
    ((x.run f >>= fun r => (next r.1).run r.2).run m).memory) = _
  rw [Analysis.run_bind_error hr]

/-- Evaluations that end alike and go on alike end alike. -/
theorem ending_bind_congr {x y : Eval α} {f : Frame} {m : Memory}
    (h : ending x f m = ending y f m) {next next' : α → Eval β}
    (hnext : ∀ a g n, ending x f m = (.ok (a, g), n) → ending (next a) g n = ending (next' a) g n) :
    ending (x >>= next) f m = ending (y >>= next') f m := by
  rcases hx : ending x f m with ⟨⟨e⟩ | ⟨a, g⟩, n⟩
  · rw [ending_bind_error hx, ending_bind_error (h.symm.trans hx)]
  · rw [ending_bind_ok hx, ending_bind_ok (h.symm.trans hx), hnext a g n hx]

/-- Goes on from an ending, unless the evaluation was stopped. -/
def andThen (r : Except Escape (α × Frame) × Memory)
    (next : α → Frame → Memory → Except Escape (β × Frame) × Memory) :
    Except Escape (β × Frame) × Memory :=
  match r with
  | (.ok (a, g), n) => next a g n
  | (.error e, n) => (.error e, n)

theorem ending_bind (x : Eval α) (next : α → Eval β) (f : Frame) (m : Memory) :
    ending (x >>= next) f m = andThen (ending x f m) fun a g n => ending (next a) g n := by
  rcases h : ending x f m with ⟨⟨e⟩ | ⟨a, g⟩, n⟩
  · exact ending_bind_error h next
  · exact ending_bind_ok h next

theorem ending_joinLive (live : List Scope) (f : Frame) (m : Memory) :
    ending (joinLive live) f m =
      (.ok (live.isEmpty, if live.isEmpty then f else { f with scope := f.scope.merge live }),
        m) := by
  cases live with
  | nil => rfl
  | cons b bs => rfl

theorem ending_getScope (f : Frame) (m : Memory) :
    ending getScope f m = (.ok (f.scope, f), m) := rfl

theorem ending_setScope (s : Scope) (f : Frame) (m : Memory) :
    ending (setScope s) f m = (.ok ((), { f with scope := s }), m) := rfl

theorem ending_branch_ok {x : Eval Bool} {f g : Frame} {m n : Memory} {b : Bool}
    (h : ending x f m = (.ok (b, g), n)) :
    ending (branch x) f m =
      (.ok (if b then [] else [g.scope], { g with scope := f.scope }), n) := by
  have hinner : ending (inScope f.scope x) f m =
      (.ok ((b, g.scope), { g with scope := f.scope }), n) := by
    unfold inScope
    rw [ending_bind_ok (ending_getScope f m), ending_bind_ok (ending_setScope f.scope f m),
      ending_bind_ok h, ending_bind_ok (ending_getScope g n),
      ending_bind_ok (ending_setScope f.scope g n), ending_pure]
  unfold branch branchFrom
  rw [ending_bind_ok (ending_getScope f m), ending_bind_ok hinner, ending_pure]

theorem ending_branch_error {x : Eval Bool} {f : Frame} {m n : Memory} {e : Escape}
    (h : ending x f m = (.error e, n)) : ending (branch x) f m = (.error e, n) := by
  have hinner : ending (inScope f.scope x) f m = (.error e, n) := by
    unfold inScope
    rw [ending_bind_ok (ending_getScope f m), ending_bind_ok (ending_setScope f.scope f m),
      ending_bind_error h]
  unfold branch branchFrom
  rw [ending_bind_ok (ending_getScope f m), ending_bind_error hinner]

private theorem ending_branch_congr {x y : Eval Bool} {f : Frame} {m : Memory}
    (h : ending x f m = ending y f m) : ending (branch x) f m = ending (branch y) f m := by
  rcases hx : ending x f m with ⟨⟨e⟩ | ⟨b, g⟩, n⟩
  · rw [ending_branch_error hx, ending_branch_error (h.symm.trans hx)]
  · rw [ending_branch_ok hx, ending_branch_ok (h.symm.trans hx)]

/-! Branches one after the other. -/

/-- The scopes that survive some branches. -/
def branches : List (Eval Bool) → Eval (List Scope)
  | [] => return []
  | x :: xs => do
    let first ← branch x
    return first ++ (← branches xs)

/-- A branching whose branches are joined all at once. -/
def branching (xs : List (Eval Bool)) : Eval Bool := do joinLive (← branches xs)

/-- A branching each of whose branches but the last one is joined with the rest. -/
def nested : List (Eval Bool) → Eval Bool → Eval Bool
  | [], z => z
  | x :: xs, z => do
    let first ← branch x
    let last ← branch (nested xs z)
    joinLive (first ++ last)

theorem branches_append (xs ys : List (Eval Bool)) :
    branches (xs ++ ys) = do
      let first ← branches xs
      return first ++ (← branches ys) := by
  induction xs with
  | nil => simp [branches]
  | cons x xs ih =>
    simp only [List.cons_append, branches, ih, bind_assoc, pure_bind, List.append_assoc]

/-- All types at hand are well formed. -/
structure WellTypedAt (p : Program) (f : Frame) (m : Memory) : Prop where
  scope : ∀ t ∈ f.scope.bindings.values, t.WellFormed
  returns : ∀ t ∈ f.returns, t.WellFormed
  memory : WellTyped p [] m

/-- A body that keeps all types well formed and lets no variable go. -/
def Grows (p : Program) (x : Eval Bool) : Prop :=
  ∀ f g m n b, WellTypedAt p f m → ending x f m = (.ok (b, g), n) →
    WellTypedAt p g n ∧ f.scope.names <+: g.scope.names

variable {p : Program} {f : Frame} {m : Memory}

theorem WellTypedAt.extends {g : Frame} {n : Memory} (h : WellTypedAt p g n)
    (hnames : f.scope.names <+: g.scope.names) : f.scope.Extends g.scope :=
  ⟨hnames, fun _ _ ht => (h.scope _ (Dict.mem_values_of_get? ht)).flatten_ne_nil⟩

theorem Grows.branch {x : Eval Bool} (hx : Grows p x) (hs : WellTypedAt p f m) {live : List Scope}
    {g : Frame} {n : Memory} (h : ending (branch x) f m = (.ok (live, g), n)) :
    WellTypedAt p g n ∧ g.scope = f.scope ∧ ∀ b ∈ live, f.scope.Extends b := by
  rcases hend : ending x f m with ⟨⟨e⟩ | ⟨terminated, k⟩, n'⟩
  · rw [ending_branch_error hend] at h
    cases h
  · obtain ⟨hk, hnames⟩ := hx f k m n' terminated hs hend
    rw [ending_branch_ok hend] at h
    cases h
    refine ⟨⟨hs.scope, hk.returns, hk.memory⟩, rfl, ?_⟩
    cases terminated with
    | true => simp
    | false => simpa using hk.extends hnames

theorem Grows.branches {xs : List (Eval Bool)} (hxs : ∀ x ∈ xs, Grows p x) (hs : WellTypedAt p f m)
    {live : List Scope} {g : Frame} {n : Memory}
    (h : ending (branches xs) f m = (.ok (live, g), n)) :
    WellTypedAt p g n ∧ g.scope = f.scope ∧ ∀ b ∈ live, f.scope.Extends b := by
  induction xs generalizing f g m n live with
  | nil =>
    cases h
    exact ⟨hs, rfl, by simp⟩
  | cons x xs ih =>
    rw [List.forall_mem_cons] at hxs
    unfold Inference.branches at h
    rcases hx : ending (Inference.branch x) f m with ⟨⟨e⟩ | ⟨first, k⟩, n'⟩
    · rw [ending_bind_error hx] at h
      cases h
    · obtain ⟨hk, hscope, hfirst⟩ := hxs.1.branch hs hx
      rw [ending_bind_ok hx] at h
      rcases hrest : ending (Inference.branches xs) k n' with ⟨⟨e⟩ | ⟨others, l⟩, n''⟩
      · rw [ending_bind_error hrest] at h
        cases h
      · obtain ⟨hl, hscope', hothers⟩ := ih hxs.2 hk hrest
        rw [ending_bind_ok hrest, ending_pure] at h
        cases h
        refine ⟨hl, hscope'.trans hscope, List.forall_mem_append.mpr ⟨hfirst, ?_⟩⟩
        rwa [hscope] at hothers

/-- To join a branching with other branches is to join all branches. -/
theorem ending_branch_branching {xs : List (Eval Bool)} (hxs : ∀ x ∈ xs, Grows p x)
    (hs : WellTypedAt p f m) (first : List Scope) :
    ending (do let last ← branch (branching xs); joinLive (first ++ last)) f m =
      ending (do let others ← branches xs; joinLive (first ++ others)) f m := by
  rcases hend : ending (branches xs) f m with ⟨⟨e⟩ | ⟨live, g⟩, n⟩
  · have hall : ending (branching xs) f m = (.error e, n) := ending_bind_error hend _
    rw [ending_bind_error hend, ending_bind_error (ending_branch_error hall)]
  · obtain ⟨-, hscope, hlive⟩ := Grows.branches hxs hs hend
    have hall : ending (branching xs) f m = ending (joinLive live) g n := ending_bind_ok hend _
    rw [ending_joinLive] at hall
    rw [ending_bind_ok hend, ending_bind_ok (ending_branch_ok hall)]
    by_cases hne : live = []
    · subst hne
      rw [← hscope]
      rfl
    · have hfilled : live.isEmpty = false := by simpa using hne
      have hmerge := Scope.merge_append_merge hne hlive first
      have hnested : (first ++ [f.scope.merge live]).isEmpty = false := by simp
      have hflat : (first ++ live).isEmpty = false := by simp [hne]
      simp [ending_joinLive, hfilled, hnested, hflat, hscope, hmerge]

/-- Choices nested in each other end as all of them at once. -/
theorem ending_nested {x z : Eval Bool} {xs : List (Eval Bool)} (hx : Grows p x)
    (hxs : ∀ x ∈ xs, Grows p x) (hz : Grows p z) (hs : WellTypedAt p f m) :
    ending (nested (x :: xs) z) f m = ending (branching (x :: xs ++ [z])) f m := by
  induction xs generalizing x f m with
  | nil => simp [nested, branching, branches]
  | cons y ys ih =>
    rw [List.forall_mem_cons] at hxs
    have hrest : ∀ x ∈ y :: ys ++ [z], Grows p x := by
      simpa [or_imp, forall_and] using ⟨hxs.1, hxs.2, hz⟩
    have hsplit : branching (x :: (y :: ys) ++ [z]) = (do
        let first ← branch x
        let others ← branches (y :: ys ++ [z])
        joinLive (first ++ others)) := by
      simp [branching, branches]
    rw [hsplit, nested]
    refine ending_bind_congr rfl fun first g n hfirst => ?_
    obtain ⟨hg, -, -⟩ := hx.branch hs hfirst
    rw [← ending_branch_branching hrest hg]
    exact ending_bind_congr (ending_branch_congr (ih hxs.1 hxs.2 hg)) fun _ _ _ _ => rfl

/-! The three forms. -/

variable {s : Site}

theorem ending_operand {e : Expr} (he : isOperand e = true) (f : Frame) (m : Memory) :
    ∃ t, ending (settle (eval s e)) f m = (.ok (t, f), m) := by
  rcases isOperand_cases (s := s) he with ⟨pos, name, rfl⟩ | ⟨t, ht, -⟩
  · simp only [eval, variableType]
    split
    · exact ⟨_, rfl⟩
    · exact ⟨_, rfl⟩
  · rw [eval_literal ht]
    exact ⟨t, rfl⟩

private theorem ending_skip {e : Expr} (he : isOperand e = true) (next : Eval α) (f : Frame)
    (m : Memory) : ending (do let _ ← settle (eval s e); next) f m = ending next f m := by
  obtain ⟨t, ht⟩ := ending_operand (s := s) he f m
  exact ending_bind_ok ht _

/-- A choice of a branching: what it depends on, and the body that it leads to. -/
structure Choice where
  condition : Expr
  body : List Stmt

/-- Statements between braces, or a single one without. -/
inductive Body : List Stmt → Stmt → Prop where
  | braced {pos : Pos} {body : List Stmt} : Body body (.block pos body)
  | bare {stmt : Stmt} : Body [stmt] stmt

/-- What is done if no choice is taken, which can be nothing. -/
inductive Otherwise : Option (List Stmt) → Stmt → Prop where
  | missing : Otherwise none .empty
  | given {body : List Stmt} {no : Stmt} : Body body no → Otherwise (some body) no

/-- The choices of an `if` after the first one. -/
inductive ElseIfs : List Choice → List ElseIf → Prop where
  | nil : ElseIfs [] []
  | cons {c cs pos stmt rest} : Body c.body stmt → ElseIfs cs rest →
    ElseIfs (c :: cs) (.mk pos c.condition stmt :: rest)

/-- An `if` with an `elseif` for each further choice. -/
inductive Chain : List Choice → Option (List Stmt) → Stmt → Prop where
  | mk {c cs last pos doc yes elseIfs no} : Body c.body yes → ElseIfs cs elseIfs →
    Otherwise last no → Chain (c :: cs) last (.conditional pos doc c.condition yes elseIfs no)

/-- An `if` with each further choice in an `else`. -/
inductive Nest : List Choice → Option (List Stmt) → Stmt → Prop where
  | last {c last pos doc yes no} : Body c.body yes → Otherwise last no →
    Nest [c] last (.conditional pos doc c.condition yes [] no)
  | more {c cs last pos doc yes inner no} : Body c.body yes → Nest cs last inner →
    Body [inner] no → Nest (c :: cs) last (.conditional pos doc c.condition yes [] no)

/-- Cases that end with a `break`, and a default at the end unless it is missing. -/
inductive Cases : List Choice → Option (List Stmt) → List Case → Prop where
  | missing : Cases [] none []
  | given {body pos} : Cases [] (some body) [.fallback pos body]
  | cons {c cs last pos breakPos rest} : Cases cs last rest →
    Cases (c :: cs) last (.test pos c.condition (c.body ++ [.breaks breakPos]) :: rest)

/-- The bodies of a branching as they are evaluated. -/
def bodies (s : Site) (choices : List Choice) (last : Option (List Stmt)) : List (Eval Bool) :=
  choices.map (fun c => execAll s c.body) ++ [execAll s (last.getD [])]

private theorem return_flag (x : Eval Bool) :
    (do if ← x then return true else return false) = x := by
  have hflag : (fun b : Bool => if b = true then pure true else pure false : Bool → Eval Bool) =
      pure := by
    funext b
    cases b <;> rfl
  rw [hflag, bind_pure]

private theorem execAll_singleton (stmt : Stmt) : execAll s [stmt] = exec s stmt := by
  simp only [execAll]
  exact return_flag _

theorem Body.exec {body : List Stmt} {stmt : Stmt} (h : Body body stmt) :
    exec s stmt = execAll s body := by
  cases h with
  | braced => rw [Inference.exec]
  | bare => exact (execAll_singleton stmt).symm

theorem Otherwise.exec {last : Option (List Stmt)} {no : Stmt} (h : Otherwise last no) :
    exec s no = execAll s (last.getD []) := by
  cases h with
  | missing => rw [Inference.exec, Option.getD_none, execAll]
  | given hbody => exact hbody.exec

theorem ElseIfs.branches {cs : List Choice} {elseIfs : List ElseIf} (h : ElseIfs cs elseIfs) :
    elseIfBranches s elseIfs = branches (cs.map fun c => execAll s c.body) := by
  induction h with
  | nil => rfl
  | cons hbody _ ih => rw [elseIfBranches, List.map_cons, Inference.branches, hbody.exec, ih]

theorem ElseIfs.conditions {cs : List Choice} {elseIfs : List ElseIf} (h : ElseIfs cs elseIfs)
    (hcs : ∀ c ∈ cs, isOperand c.condition = true) (f : Frame) (m : Memory) :
    ending (evalConditions s elseIfs) f m = (.ok ((), f), m) := by
  induction h with
  | nil => rfl
  | cons _ _ ih =>
    rw [List.forall_mem_cons] at hcs
    rw [evalConditions, ending_skip hcs.1, ih hcs.2]

theorem Chain.ending {choices : List Choice} {last : Option (List Stmt)} {stmt : Stmt}
    (h : Chain choices last stmt) (hc : ∀ c ∈ choices, isOperand c.condition = true) (f : Frame)
    (m : Memory) :
    ending (exec s stmt) f m = ending (branching (bodies s choices last)) f m := by
  cases h with
  | mk hyes helseIfs hno =>
    rw [List.forall_mem_cons] at hc
    rw [exec, ending_skip hc.1, ending_bind_ok (helseIfs.conditions hc.2 f m), hyes.exec, hno.exec,
      helseIfs.branches]
    simp [branching, bodies, branches, branches_append]

theorem Nest.ending {choices : List Choice} {last : Option (List Stmt)} {stmt : Stmt}
    (h : Nest choices last stmt) (hc : ∀ c ∈ choices, isOperand c.condition = true) (f : Frame)
    (m : Memory) :
    ending (exec s stmt) f m = ending
      (nested (choices.map fun c => execAll s c.body) (execAll s (last.getD []))) f m := by
  induction h generalizing f m with
  | last hyes hno =>
    rw [List.forall_mem_cons] at hc
    rw [exec, ending_skip hc.1, hyes.exec, hno.exec]
    simp [evalConditions, elseIfBranches, nested]
  | more hyes _ hno ih =>
    rw [List.forall_mem_cons] at hc
    rw [exec, ending_skip hc.1, hyes.exec, hno.exec, execAll_singleton]
    simp only [evalConditions, elseIfBranches, pure_bind, List.append_nil, List.map_cons, nested]
    refine ending_bind_congr rfl fun first g n _ => ?_
    exact ending_bind_congr (ending_branch_congr (ih hc.2 g n)) fun _ _ _ _ => rfl

/-! Cases. -/

private theorem throughCase_append {body : List Stmt} (hb : ∀ stmt ∈ body, isBreak stmt = false)
    (after : List Stmt) (rest : Eval Bool) :
    throughCase (runCase s (body ++ after)) rest = (do
      if ← execAll s body then return true else throughCase (runCase s after) rest) := by
  induction body with
  | nil => simp [execAll]
  | cons stmt body ih =>
    rw [List.forall_mem_cons] at hb
    rw [List.cons_append, runCase_cons hb.1, execAll]
    unfold throughCase at ih ⊢
    simp only [bind_assoc]
    congr 1
    funext b
    cases b with
    | true => simp
    | false => simpa using ih hb.2

private theorem throughCase_break {body : List Stmt} (hb : ∀ stmt ∈ body, isBreak stmt = false)
    (pos : Pos) (rest : Eval Bool) :
    throughCase (runCase s (body ++ [.breaks pos])) rest = execAll s body := by
  rw [throughCase_append hb, runCase]
  exact return_flag _

private theorem throughCase_last {body : List Stmt} (hb : ∀ stmt ∈ body, isBreak stmt = false) :
    throughCase (runCase s body) (runCases s []) = execAll s body := by
  have happend := throughCase_append (s := s) hb [] (runCases s [])
  rw [List.append_nil] at happend
  rw [happend, runCase, runCases]
  exact return_flag _

theorem Cases.branches {choices : List Choice} {last : Option (List Stmt)} {cases : List Case}
    (h : Cases choices last cases)
    (hb : ∀ c ∈ choices, ∀ stmt ∈ c.body, isBreak stmt = false)
    (hlast : ∀ body ∈ last, ∀ stmt ∈ body, isBreak stmt = false) :
    enterCases s cases = branches
      (choices.map (fun c => execAll s c.body) ++ last.toList.map (execAll s)) := by
  induction h with
  | missing => rfl
  | given =>
    rw [enterCases, throughCase_last (hlast _ rfl)]
    rfl
  | cons _ ih =>
    rw [List.forall_mem_cons] at hb
    rw [enterCases, throughCase_break hb.1, ih hb.2 hlast]
    rfl

theorem Cases.tests {choices : List Choice} {last : Option (List Stmt)} {cases : List Case}
    (h : Cases choices last cases) (hc : ∀ c ∈ choices, isOperand c.condition = true) (f : Frame)
    (m : Memory) : Inference.ending (evalTests s cases) f m = (.ok ((), f), m) := by
  induction h with
  | missing => rfl
  | given => rfl
  | cons _ ih =>
    rw [List.forall_mem_cons] at hc
    rw [evalTests, ending_skip hc.1, ih hc.2]

theorem Cases.any_isFallback {choices : List Choice} {last : Option (List Stmt)}
    {cases : List Case} (h : Cases choices last cases) : cases.any isFallback = last.isSome := by
  induction h with
  | missing => rfl
  | given => rfl
  | cons _ ih => simpa [isFallback] using ih

/-- Without a default, a `switch` goes on with the scope before it, as after an empty branch. -/
theorem Cases.ending {subject : Expr} (hsubject : isOperand subject = true)
    {choices : List Choice} {last : Option (List Stmt)} {cases : List Case}
    (h : Cases choices last cases) (hc : ∀ c ∈ choices, isOperand c.condition = true)
    (hb : ∀ c ∈ choices, ∀ stmt ∈ c.body, isBreak stmt = false)
    (hlast : ∀ body ∈ last, ∀ stmt ∈ body, isBreak stmt = false) (pos : Pos) (f : Frame)
    (m : Memory) :
    Inference.ending (exec s (.switch pos subject cases)) f m =
      Inference.ending (branching (bodies s choices last)) f m := by
  rw [exec, ending_skip hsubject, ending_bind_ok (h.tests hc f m), h.branches hb hlast,
    h.any_isFallback]
  cases last with
  | some body =>
    refine ending_bind_congr rfl fun live g n _ => ?_
    rw [ending_bind_ok (ending_getScope g n)]
    rfl
  | none =>
    simp only [branching, bodies, branches_append, bind_assoc, Option.toList_none, List.map_nil,
      List.append_nil, Option.getD_none, execAll]
    refine ending_bind_congr rfl fun live g n _ => ?_
    have hskip : Inference.ending (Inference.branches [pure false]) g n = (.ok ([g.scope], g), n) :=
      rfl
    rw [ending_bind_ok hskip, ending_bind_ok (ending_getScope g n)]
    rfl

/-! Bodies without `unset`. -/

/-- A call of `unset`. -/
def Unsets (node : Node) : Prop :=
  ∃ pos call args, node = .expr (.call pos call args) ∧ builtIn call = .unset

/-- A block in which no variable is unset, and in which no `break` stands directly. Those inside of
loops and other statements are of no account, and neither is `continue`. -/
structure Straight (body : List Stmt) : Prop where
  unsets : ∀ node ∈ bodyNodes body, ¬ Unsets node
  breaks : ∀ stmt ∈ body, isBreak stmt = false

/-- Without `unset`, the scope keeps its variables in their places. -/
def Contract.keeping (names : List String) : Contract where
  memory _ := True
  scope s := names <+: s.names
  escapes _ := True
  admits node := ¬ Unsets node

theorem Contract.keeping_fits (names : List String) (s : Site) : (keeping names).Fits s := by
  have hfree : ∀ {α : Type} (x : Analysis α), (keeping names).Holds x fun _ => True :=
    Holds.free (fun _ => trivial) fun _ => trivial
  exact {
    report := fun _ _ => trivial
    write := fun _ _ => trivial
    bound := fun {scope} name t h => by
      change names <+: (scope.set name t).names
      rw [Scope.names_set]
      split
      · exact h
      · exact h.trans (List.prefix_append _ _)
    unbound := fun _ hadmits hcall _ => (hadmits ⟨_, _, _, rfl, hcall⟩).elim
    read := fun _ _ => hfree _
    classDecl := fun _ => hfree _
    recorded := fun _ => hfree _
    property := fun _ _ => hfree _
    requests := ⟨fun _ _ => hfree _, fun _ => hfree _, fun _ _ => hfree _, fun _ => hfree _⟩ }

theorem Straight.grows {body : List Stmt} (hbody : Straight body)
    (hs : (Correspondence.wellTyped s.program).AtSite s fun _ => s.ask) :
    Grows s.program (execAll s body) := by
  intro f g m n b htyped hend
  obtain ⟨hr, rfl⟩ := Prod.mk.inj hend
  have hkeeps := hs.execAll body f ⟨htyped.scope, htyped.returns⟩
  have hends := Correspondence.keeps_invariant.mp hkeeps [] m htyped.memory fun _ _ => trivial
  obtain ⟨hm, -, hframe⟩ := hends.ok _ hr
  have hnames := (execAll_complies body (.keeping f.scope.names) (Contract.keeping_fits _ s)
    hbody.unsets f (List.prefix_refl _) m trivial).2
  rw [hr] at hnames
  exact ⟨⟨hframe.scope, hframe.returns, hm.records, hm.entries, by simp⟩, hnames.2⟩

private theorem straight_nil : Straight [] := ⟨by simp, by simp⟩

/-- A branching whose conditions are literals or variables, and whose bodies are straight, ends in
the same way whether it is written as a chain, nested, or as a `switch`, with a last branch or
without. -/
theorem branchings_agree (M : Machine) (index : Index) (natives : List Natives.Declared) (d : Nat)
    {owner : Option ClassLike} (howner : ∀ c ∈ owner, c ∈ index.classes.values) (context : Context)
    {choices : List Choice} {last : Option (List Stmt)} {chain nest : Stmt} {subject : Expr}
    {cases : List Case} (hchain : Chain choices last chain) (hnest : Nest choices last nest)
    (hcases : Cases choices last cases) (hsubject : isOperand subject = true)
    (hconditions : ∀ c ∈ choices, isOperand c.condition = true)
    (hbodies : ∀ c ∈ choices, Straight c.body) (hlast : ∀ body ∈ last, Straight body)
    {f : Frame} {m : Memory} (htyped : WellTypedAt (.declaring index natives) f m) (pos : Pos) :
    let p := Program.declaring index natives
    let s : Site := ⟨p, M.requests p d, owner, context⟩
    ending (exec s nest) f m = ending (exec s chain) f m ∧
      ending (exec s (.switch pos subject cases)) f m = ending (exec s chain) f m := by
  intro p s
  have hlawful := Correspondence.wellTyped_lawful (p := p)
    fun h => Doc.every_native Ty.soundNode_property h
  have hs : (Correspondence.wellTyped s.program).AtSite s fun _ => s.ask :=
    ⟨hlawful, howner, Correspondence.wellTyped_requests hlawful M d⟩
  have hrest : Straight (last.getD []) := by
    cases last with
    | none => exact straight_nil
    | some body => exact hlast body rfl
  rw [hchain.ending hconditions]
  constructor
  · rw [hnest.ending hconditions]
    cases hchain with
    | mk _ _ _ =>
      rw [List.forall_mem_cons] at hbodies
      refine ending_nested (hbodies.1.grows hs) ?_ (hrest.grows hs) htyped
      simpa using fun c hc => (hbodies.2 c hc).grows hs
  · exact hcases.ending hsubject hconditions (fun c hc => (hbodies c hc).breaks)
      (fun body hbody => (hlast body hbody).breaks) pos f m

private theorem wellTypedAt_empty (p : Program) : WellTypedAt p ⟨.empty, []⟩ .empty := by
  refine ⟨fun t ht => (by cases ht), by simp, Memory.recordsFrom_reset p .empty, fun slot => ?_,
    by simp⟩
  cases slot <;> exact Ty.every_unknown Ty.soundNode_property

/-- A choice that assigns a number. -/
def numbering : Choice where
  condition := .var ⟨1, 1⟩ "a"
  body := [.expr ⟨1, 1⟩ none (.assign ⟨1, 1⟩ none (.var ⟨1, 1⟩ "x") (.int ⟨1, 1⟩ 1))]

/-- A choice that returns. -/
def leaving : Choice where
  condition := .var ⟨1, 1⟩ "b"
  body := [.returns ⟨1, 1⟩ none (some (.var ⟨1, 1⟩ "x"))]

/-- A last branch that assigns a string. -/
def naming : List Stmt :=
  [.expr ⟨1, 1⟩ none (.assign ⟨1, 1⟩ none (.var ⟨1, 1⟩ "x") (.string ⟨1, 1⟩ "s" false))]

def markedChain : Stmt :=
  .conditional ⟨1, 1⟩ none numbering.condition (.block ⟨1, 1⟩ numbering.body)
    [.mk ⟨1, 1⟩ leaving.condition (.block ⟨1, 1⟩ leaving.body)] (.block ⟨1, 1⟩ naming)

def markedNest : Stmt :=
  .conditional ⟨1, 1⟩ none numbering.condition (.block ⟨1, 1⟩ numbering.body) []
    (.block ⟨1, 1⟩ [.conditional ⟨1, 1⟩ none leaving.condition (.block ⟨1, 1⟩ leaving.body) []
      (.block ⟨1, 1⟩ naming)])

def markedCases : List Case :=
  [.test ⟨1, 1⟩ numbering.condition (numbering.body ++ [.breaks ⟨1, 1⟩]),
    .test ⟨1, 1⟩ leaving.condition (leaving.body ++ [.breaks ⟨1, 1⟩]), .fallback ⟨1, 1⟩ naming]

theorem marked_agree :
    let p := Program.declaring .empty []
    let s : Site := ⟨p, Machine.perfect.requests p 1, none, .global⟩
    ending (exec s markedNest) ⟨.empty, []⟩ .empty =
        ending (exec s markedChain) ⟨.empty, []⟩ .empty ∧
      ending (exec s (.switch ⟨1, 1⟩ (.null ⟨1, 1⟩) markedCases)) ⟨.empty, []⟩ .empty =
        ending (exec s markedChain) ⟨.empty, []⟩ .empty := by
  have hchain : Chain [numbering, leaving] (some naming) markedChain :=
    .mk .braced (.cons .braced .nil) (.given .braced)
  have hnest : Nest [numbering, leaving] (some naming) markedNest :=
    .more .braced (.last .braced (.given .braced)) .braced
  have hcases : Cases [numbering, leaving] (some naming) markedCases := .cons (.cons .given)
  have hnumbering : Straight numbering.body :=
    ⟨by simp [numbering, Unsets], by simp [numbering, isBreak]⟩
  have hleaving : Straight leaving.body :=
    ⟨by simp [leaving, Unsets],
      by simp [leaving, isBreak]⟩
  have hnaming : Straight naming :=
    ⟨by simp [naming, Unsets], by simp [naming, isBreak]⟩
  exact branchings_agree .perfect .empty [] 1 (by simp) .global hchain hnest hcases rfl
    (by simp [numbering, leaving, isOperand]) (by simp [hnumbering, hleaving]) (by simp [hnaming])
    (wellTypedAt_empty _) ⟨1, 1⟩

end Inference

end PhpTypes
