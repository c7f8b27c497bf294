import PhpTypes.Proofs.Paths
import PhpTypes.Proofs.Targets

/-!
# The frame law

The evaluation of an expression or a statement changes the types of its targets only. After a
branching each other variable has the union of copies of its type, which is that type. All scopes of
a run have types of this kind.
-/

namespace PhpTypes.Inference

open Source

variable {x : String} {τ : Option Ty} {s : Site}

theorem LeavesTry.settling {c : Attempt Ty} (hc : LeavesTry x τ c fun _ => True) :
    LeavesTry x τ (liftM (settle c)) fun _ => True :=
  .lift (.settle hc)

-- One theorem for each function of the evaluator, by the same recursion on the tree.
mutual

private theorem eval_leaves (hτ : Joinable τ) :
    ∀ e : Expr, x ∉ targets e → LeavesTry x τ (eval s e) fun _ => True
  | .var _ name => by
    intro _
    simp only [eval]
    exact .lift (variableType_leaves name)
  | .int _ _ | .float _ _ | .string _ _ _ | .bool _ _ | .null _ => by
    intro _
    simp only [eval]
    exact .pure trivial
  | .constant pos name => by
    intro _
    simp only [eval]
    exact constantFetch_leaves pos name
  | .array _ elements => by
    intro hx
    simp only [targets] at hx
    simp only [eval]
    exact (LeavesTry.lift (gather_leaves hτ elements _ hx)).bind fun _ _ => .pure trivial
  | .binary _ op left right => by
    intro hx
    simp only [targets, List.mem_append, not_or] at hx
    simp only [eval]
    refine (eval_leaves hτ left hx.1).settling.bind fun _ _ => ?_
    exact (eval_leaves hτ right hx.2).settling.bind fun _ _ => .pure trivial
  | .unary _ op operand => by
    intro hx
    simp only [targets] at hx
    simp only [eval]
    exact (eval_leaves hτ operand hx).settling.bind fun _ _ => .pure trivial
  | .cast pos target operand => by
    intro hx
    simp only [targets] at hx
    simp only [eval]
    exact (eval_leaves hτ operand hx).settling.bind fun t _ => castType_leaves pos target t
  | .step _ _ _ target => by
    intro hx
    simp only [targets, List.mem_append, not_or] at hx
    simp only [eval]
    exact (eval_leaves hτ target hx.2).settling.bind fun t _ => .lift (stepped_leaves hx.1 t)
  | .assign _ none target value => by
    intro hx
    simp only [targets, List.mem_append, not_or] at hx
    simp only [eval]
    refine (eval_leaves hτ value hx.2).settling.bind fun t _ => ?_
    exact (assignTo_leaves hτ target t hx.1.1 hx.1.2).bind fun _ _ => .pure trivial
  | .assign _ (some op) target value => by
    intro hx
    simp only [targets, List.mem_append, not_or] at hx
    simp only [eval]
    refine (eval_leaves hτ target hx.1.2).settling.bind fun _ _ => ?_
    refine (eval_leaves hτ value hx.2).settling.bind fun _ _ => ?_
    exact (assignTo_leaves hτ target _ hx.1.1 hx.1.2).bind fun _ _ => .pure trivial
  | .ternary _ condition yes no => by
    intro hx
    simp only [targets, List.mem_append, not_or] at hx
    simp only [eval]
    refine (eval_leaves hτ condition hx.1.1).settling.bind fun _ _ => ?_
    refine (LeavesTry.lift .getScope).bind fun scope hscope => ?_
    refine (LeavesTry.lift (.inScope hscope (.settle (eval_leaves hτ yes hx.1.2)))).bind
      fun a ha => ?_
    refine (LeavesTry.lift (.inScope hscope (.settle (eval_leaves hτ no hx.2)))).bind
      fun b hb => ?_
    refine (LeavesTry.lift (.join hτ ?_)).bind fun _ _ => .pure trivial
    simpa using ⟨ha.2, hb.2⟩
  | .elvis _ condition no => by
    intro hx
    simp only [targets, List.mem_append, not_or] at hx
    simp only [eval]
    refine (eval_leaves hτ condition hx.1).settling.bind fun _ _ => ?_
    refine (LeavesTry.lift .getScope).bind fun scope hscope => ?_
    refine (LeavesTry.lift (.inScope hscope (.settle (eval_leaves hτ no hx.2)))).bind
      fun b hb => ?_
    refine (LeavesTry.lift (.join hτ ?_)).bind fun _ _ => .pure trivial
    simpa using ⟨hscope, hb.2⟩
  | .instanceOf _ operand _ => by
    intro hx
    simp only [targets] at hx
    simp only [eval]
    exact (eval_leaves hτ operand hx).settling.bind fun _ _ => .pure trivial
  | .clone _ operand => by
    intro hx
    simp only [targets] at hx
    simp only [eval]
    exact (eval_leaves hτ operand hx).settling
  | .methodCall pos receiver name args nullsafe => by
    intro hx
    simp only [targets, List.mem_append, not_or] at hx
    simp only [eval]
    refine (eval_leaves hτ receiver hx.1).settling.bind fun t _ => ?_
    refine (LeavesTry.lift (evalArgs_leaves hτ args hx.2)).bind fun _ _ => ?_
    exact callMethod_leaves pos t name nullsafe
  | .property _ receiver name nullsafe => by
    intro hx
    simp only [targets] at hx
    simp only [eval]
    exact (eval_leaves hτ receiver hx).settling.bind fun _ _ => .analysis _
  | .index _ container key => by
    intro hx
    simp only [targets, List.mem_append, not_or] at hx
    simp only [eval]
    refine (eval_leaves hτ container hx.1).settling.bind fun _ _ => ?_
    exact (eval_leaves hτ key hx.2).settling.bind fun _ _ => .pure trivial
  | .append pos container => by
    intro hx
    simp only [targets] at hx
    simp only [eval]
    exact (eval_leaves hτ container hx).settling.bind fun _ _ => .throw
  | .staticCall pos cls name args => by
    intro hx
    simp only [targets] at hx
    simp only [eval]
    refine (LeavesTry.lift (evalArgs_leaves hτ args hx)).bind fun _ _ => ?_
    exact callStatic_leaves pos cls name
  | .staticProperty pos cls name => by
    intro _
    simp only [eval]
    exact fetchStaticProperty_leaves pos cls name
  | .classConstant pos cls name => by
    intro _
    simp only [eval]
    exact classConstant_leaves pos cls name
  | .call pos name args => by
    simp only [eval, targets]
    cases builtIn name with
    | unset =>
      -- The arguments are not evaluated: only the names among them are unbound.
      intro hx
      refine (LeavesTry.forM _ fun n hn => .lift (.unbindVar ?_)).bind fun _ _ => .pure trivial
      exact ne_of_mem_of_not_mem hn hx |>.symm
    | test =>
      intro hx
      exact (LeavesTry.lift (evalArgs_leaves hτ args hx)).bind fun _ _ => .pure trivial
    | compact =>
      intro hx
      exact (LeavesTry.lift (compacted_leaves hτ args [] hx)).bind fun _ _ => .pure trivial
    | none =>
      intro hx
      refine (LeavesTry.lift (evalArgs_leaves hτ args hx)).bind fun _ _ => ?_
      exact callFunction_leaves pos name
  | .dynamicCall _ name args => by
    intro hx
    simp only [targets] at hx
    simp only [eval]
    refine (LeavesTry.lift (variableType_leaves name)).bind fun _ _ => ?_
    exact (LeavesTry.lift (evalArgs_leaves hτ args hx)).bind fun _ _ => .pure trivial
  | .new pos cls args => by
    intro hx
    simp only [targets] at hx
    simp only [eval]
    refine (LeavesTry.lift (evalArgs_leaves hτ args hx)).bind fun _ _ => ?_
    exact instantiate_leaves pos cls
  | .closure _ _ params uses hint _ body => by
    intro _
    simp only [eval]
    refine (LeavesTry.lift .getScope).bind fun _ _ => ?_
    exact (LeavesTry.lift (.inFrame _ _)).bind fun _ _ => .analysis _
  | .arrow _ _ params hint body => by
    intro _
    simp only [eval]
    refine (LeavesTry.lift .getScope).bind fun _ _ => ?_
    exact (LeavesTry.lift (.inFrame _ _)).bind fun _ _ => .analysis _
  | .select _ subject arms => by
    intro hx
    simp only [targets, List.mem_append, not_or] at hx
    simp only [eval]
    refine (eval_leaves hτ subject hx.1).settling.bind fun _ _ => ?_
    refine (LeavesTry.lift (evalArms_leaves hτ arms hx.2)).bind fun results hresults => ?_
    refine (LeavesTry.lift (.joinLive hτ ?_)).bind fun _ _ => .pure trivial
    intro b hb
    obtain ⟨r, hr, rfl⟩ := List.mem_map.mp hb
    exact hresults r hr

private theorem evalAll_leaves (hτ : Joinable τ) :
    ∀ es : List Expr, x ∉ targetsOfAll es → Leaves x τ (evalAll s es) fun _ => True
  | [] => by
    intro _
    simp only [evalAll]
    exact .pure trivial
  | e :: es => by
    intro hx
    simp only [targetsOfAll, List.mem_append, not_or] at hx
    simp only [evalAll]
    exact (Leaves.settle (eval_leaves hτ e hx.1)).bind fun _ _ => evalAll_leaves hτ es hx.2

private theorem evalArgs_leaves (hτ : Joinable τ) :
    ∀ args : List Argument, x ∉ argTargets args → Leaves x τ (evalArgs s args) fun _ => True
  | [] => by
    intro _
    simp only [evalArgs]
    exact .pure trivial
  | .mk _ _ _ value :: rest => by
    intro hx
    simp only [argTargets, List.mem_append, not_or] at hx
    simp only [evalArgs]
    exact (Leaves.settle (eval_leaves hτ value hx.1)).bind fun _ _ =>
      evalArgs_leaves hτ rest hx.2

private theorem compacted_leaves (hτ : Joinable τ) :
    ∀ (args : List Argument) (items : List Item), x ∉ argTargets args →
      Leaves x τ (compacted s items args) fun _ => True
  | [] => by
    intro items _
    simp only [compacted]
    exact .pure trivial
  | .mk _ _ _ value :: rest => by
    intro items hx
    simp only [argTargets, List.mem_append, not_or] at hx
    -- A string names a variable that is read; any other argument is evaluated.
    by_cases hstring : ∃ pos name i, value = .string pos name i
    · obtain ⟨pos, name, i, rfl⟩ := hstring
      simp only [compacted]
      exact Leaves.getScope.bind fun _ _ => compacted_leaves hτ rest _ hx.2
    · rw [compacted]
      · exact (Leaves.settle (eval_leaves hτ value hx.1)).bind fun _ _ =>
          compacted_leaves hτ rest items hx.2
      · intro pos name i h
        exact hstring ⟨pos, name, i, h⟩

private theorem gather_leaves (hτ : Joinable τ) :
    ∀ (elements : List Element) (g : Gathered), x ∉ elementTargets elements →
      Leaves x τ (gather s g elements) fun _ => True
  | [] => by
    intro g _
    simp only [gather]
    exact .pure trivial
  | .spread _ _ value :: rest => by
    intro g hx
    simp only [elementTargets, List.mem_append, not_or] at hx
    simp only [gather]
    exact (Leaves.settle (eval_leaves hτ value hx.1)).bind fun _ _ =>
      gather_leaves hτ rest _ hx.2
  | .plain _ doc value :: rest => by
    intro g hx
    simp only [elementTargets, List.mem_append, not_or] at hx
    simp only [gather]
    refine (Leaves.settle (eval_leaves hτ value hx.1)).bind fun _ _ => ?_
    exact (Leaves.lift _).bind fun _ _ => gather_leaves hτ rest _ hx.2
  | .keyed _ doc key value :: rest => by
    intro g hx
    simp only [elementTargets, List.mem_append, not_or] at hx
    simp only [gather]
    refine (Leaves.settle (eval_leaves hτ value hx.1.2)).bind fun _ _ => ?_
    refine (Leaves.lift _).bind fun _ _ => ?_
    refine (Leaves.settle (eval_leaves hτ key hx.1.1)).bind fun _ _ => ?_
    exact gather_leaves hτ rest _ hx.2

private theorem evalArms_leaves (hτ : Joinable τ) :
    ∀ arms : List Arm, x ∉ armTargets arms →
      Leaves x τ (evalArms s arms) fun results => ∀ r ∈ results, r.2.get? x = τ
  | [] => by
    intro _
    simp only [evalArms]
    exact .pure (by simp)
  | .case _ conditions body :: rest => by
    intro hx
    simp only [armTargets, List.mem_append, not_or] at hx
    simp only [evalArms]
    refine (evalAll_leaves hτ conditions hx.1.1).bind fun _ _ => ?_
    refine Leaves.getScope.bind fun scope hscope => ?_
    refine (Leaves.inScope hscope (.settle (eval_leaves hτ body hx.1.2))).bind fun r hr => ?_
    refine (evalArms_leaves hτ rest hx.2).bind fun rs hrs => .pure ?_
    exact List.forall_mem_cons.mpr ⟨hr.2, hrs⟩
  | .fallback _ body :: rest => by
    intro hx
    simp only [armTargets, List.mem_append, not_or] at hx
    simp only [evalArms]
    refine Leaves.getScope.bind fun scope hscope => ?_
    refine (Leaves.inScope hscope (.settle (eval_leaves hτ body hx.1))).bind fun r hr => ?_
    refine (evalArms_leaves hτ rest hx.2).bind fun rs hrs => .pure ?_
    exact List.forall_mem_cons.mpr ⟨hr.2, hrs⟩

private theorem assignTo_leaves (hτ : Joinable τ) : ∀ (e : Expr) (t : Ty), x ∉ assigned e →
    x ∉ targets e → LeavesTry x τ (assignTo s t e) fun _ => True
  | .var _ name => by
    intro t ha _
    simp only [assigned, List.mem_singleton] at ha
    simp only [assignTo]
    split
    · exact .pure trivial
    · exact .lift (.bindVar ha t)
  | .index _ container key => by
    intro t ha hx
    simp only [assigned] at ha
    simp only [targets, List.mem_append, not_or] at hx
    simp only [assignTo]
    refine (LeavesTry.lift (currentOf_leaves (current_leaves hτ container hx.1)
      (.settle (eval_leaves hτ container hx.1)))).bind fun _ _ => ?_
    refine (eval_leaves hτ key hx.2).settling.bind fun _ _ => ?_
    exact assignTo_leaves hτ container _ ha hx.1
  | .append _ container => by
    intro t ha hx
    simp only [assigned] at ha
    simp only [targets] at hx
    simp only [assignTo]
    refine (LeavesTry.lift (currentOf_leaves (current_leaves hτ container hx)
      (.settle (eval_leaves hτ container hx)))).bind fun _ _ => ?_
    exact assignTo_leaves hτ container _ ha hx
  | .array _ elements => by
    intro t ha hx
    simp only [assigned] at ha
    simp only [targets] at hx
    simp only [assignTo]
    exact destructure_leaves hτ elements t 0 ha hx
  | .property _ receiver name nullsafe => by
    intro t _ hx
    simp only [targets] at hx
    simp only [assignTo]
    refine (eval_leaves hτ receiver hx).settling.bind fun _ _ => ?_
    exact (LeavesTry.analysis _).bind fun _ _ => .pure trivial
  | .staticProperty pos cls name => by
    intro t _ _
    simp only [assignTo]
    exact (fetchStaticProperty_leaves pos cls name).settling.bind fun _ _ => .pure trivial
  | .int _ _ | .float _ _ | .string _ _ _ | .bool _ _ | .null _ | .constant _ _
  | .binary _ _ _ _ | .unary _ _ _ | .cast _ _ _ | .step _ _ _ _ | .assign _ _ _ _
  | .ternary _ _ _ _ | .elvis _ _ _ | .instanceOf _ _ _ | .clone _ _ | .methodCall _ _ _ _ _
  | .staticCall _ _ _ _ | .classConstant _ _ _ | .call _ _ _ | .dynamicCall _ _ _ | .new _ _ _
  | .closure _ _ _ _ _ _ _ | .arrow _ _ _ _ _ | .select _ _ _ => by
    intro _ _ _
    simp only [assignTo]
    exact .throw

private theorem destructure_leaves (hτ : Joinable τ) :
    ∀ (elements : List Element) (t : Ty) (position : Int), x ∉ assignedElements elements →
      x ∉ elementTargets elements → LeavesTry x τ (destructure s t position elements) fun _ => True
  | [] => by
    intro t position _ _
    simp only [destructure]
    exact .pure trivial
  | .keyed _ _ key target :: rest => by
    intro t position ha hx
    simp only [assignedElements, List.mem_append, not_or] at ha
    simp only [elementTargets, List.mem_append, not_or] at hx
    simp only [destructure]
    refine (eval_leaves hτ key hx.1.1).settling.bind fun _ _ => ?_
    refine (assignTo_leaves hτ target _ ha.1 hx.1.2).bind fun _ _ => ?_
    exact destructure_leaves hτ rest t position ha.2 hx.2
  | .plain _ _ target :: rest => by
    intro t position ha hx
    simp only [assignedElements, List.mem_append, not_or] at ha
    simp only [elementTargets, List.mem_append, not_or] at hx
    simp only [destructure]
    refine (assignTo_leaves hτ target _ ha.1 hx.1).bind fun _ _ => ?_
    exact destructure_leaves hτ rest t _ ha.2 hx.2
  | .spread _ _ target :: rest => by
    intro t position ha hx
    simp only [assignedElements, List.mem_append, not_or] at ha
    simp only [elementTargets, List.mem_append, not_or] at hx
    simp only [destructure]
    refine (assignTo_leaves hτ target _ ha.1 hx.1).bind fun _ _ => ?_
    exact destructure_leaves hτ rest t _ ha.2 hx.2

private theorem current_leaves (hτ : Joinable τ) :
    ∀ e : Expr, x ∉ targets e → Leaves x τ (current s e) fun _ => True
  | .var _ name => by
    intro _
    simp only [current]
    exact Leaves.getScope.bind fun _ _ => .pure trivial
  | .index _ container key => by
    intro hx
    simp only [targets, List.mem_append, not_or] at hx
    simp only [current]
    refine (currentOf_leaves (current_leaves hτ container hx.1)
      (.settle (eval_leaves hτ container hx.1))).bind fun outer _ => ?_
    cases outer with
    | none => exact .pure trivial
    | some outer =>
      exact (Leaves.settle (eval_leaves hτ key hx.2)).bind fun _ _ => .pure trivial
  | .append _ container => by
    intro hx
    simp only [targets] at hx
    simp only [current]
    exact (currentOf_leaves (current_leaves hτ container hx)
      (.settle (eval_leaves hτ container hx))).bind fun _ _ => .pure trivial
  | .int _ _ | .float _ _ | .string _ _ _ | .bool _ _ | .null _ | .constant _ _ | .array _ _
  | .binary _ _ _ _ | .unary _ _ _ | .cast _ _ _ | .step _ _ _ _ | .assign _ _ _ _
  | .ternary _ _ _ _ | .elvis _ _ _ | .instanceOf _ _ _ | .clone _ _ | .methodCall _ _ _ _ _
  | .property _ _ _ _ | .staticCall _ _ _ _ | .staticProperty _ _ _ | .classConstant _ _ _
  | .call _ _ _ | .dynamicCall _ _ _ | .new _ _ _ | .closure _ _ _ _ _ _ _ | .arrow _ _ _ _ _
  | .select _ _ _ => by
    intro _
    simp only [current]
    exact .pure trivial

end

private theorem returned_leaves (hτ : Joinable τ) {value : Option Expr}
    (hx : x ∉ optionTargets value) : Leaves x τ (returned s value) fun _ => True := by
  cases value with
  | none =>
    simp only [returned]
    exact .pure trivial
  | some e =>
    simp only [returned]
    exact .settle (eval_leaves hτ e hx)

private theorem assignKey_leaves (hτ : Joinable τ) {key : Option Expr} (t : Ty)
    (hx : x ∉ keyTargets key) : LeavesTry x τ (assignKey s t key) fun _ => True := by
  cases key with
  | none =>
    simp only [assignKey]
    exact .pure trivial
  | some e =>
    simp only [keyTargets, List.mem_append, not_or] at hx
    simp only [assignKey]
    exact assignTo_leaves hτ e t hx.1 hx.2

private theorem evalConditions_leaves (hτ : Joinable τ) {elseIfs : List ElseIf}
    (hx : x ∉ elseIfTargets elseIfs) : Leaves x τ (evalConditions s elseIfs) fun _ => True := by
  induction elseIfs with
  | nil =>
    simp only [evalConditions]
    exact .pure trivial
  | cons e rest ih =>
    obtain ⟨pos, condition, body⟩ := e
    simp only [elseIfTargets, List.mem_append, not_or] at hx
    simp only [evalConditions]
    exact (Leaves.settle (eval_leaves hτ condition hx.1.1)).bind fun _ _ => ih hx.2

private theorem evalTests_leaves (hτ : Joinable τ) {cases : List Case}
    (hx : x ∉ caseTargets cases) : Leaves x τ (evalTests s cases) fun _ => True := by
  induction cases with
  | nil =>
    simp only [evalTests]
    exact .pure trivial
  | cons c rest ih =>
    cases c with
    | test pos value body =>
      simp only [caseTargets, List.mem_append, not_or] at hx
      simp only [evalTests]
      exact (Leaves.settle (eval_leaves hτ value hx.1.1)).bind fun _ _ => ih hx.2
    | fallback pos body =>
      simp only [caseTargets, List.mem_append, not_or] at hx
      simp only [evalTests]
      exact ih hx.2

private theorem bindStatics_leaves (hτ : Joinable τ) {vars : List StaticVar}
    (hx : x ∉ staticTargets vars) : Leaves x τ (bindStatics s vars) fun _ => True := by
  induction vars with
  | nil =>
    simp only [bindStatics]
    exact .pure trivial
  | cons v rest ih =>
    obtain ⟨name, value⟩ := v
    cases value with
    | none =>
      simp only [staticTargets, List.mem_cons, not_or] at hx
      simp only [bindStatics]
      exact (Leaves.bindVar hx.1 _).bind fun _ _ => ih hx.2
    | some e =>
      simp only [staticTargets, List.cons_append, List.mem_cons, List.mem_append, not_or] at hx
      simp only [bindStatics]
      refine (Leaves.settle (eval_leaves hτ e hx.2.1)).bind fun _ _ => ?_
      exact (Leaves.bindVar hx.1 _).bind fun _ _ => ih hx.2.2

mutual

private theorem exec_leaves (hτ : Joinable τ) :
    ∀ stmt : Stmt, x ∉ stmtTargets stmt → Leaves x τ (exec s stmt) fun _ => True
  | .empty | .breaks _ | .continues _ => by
    intro _
    simp only [exec]
    exact .pure trivial
  | .block _ body => by
    intro hx
    simp only [stmtTargets] at hx
    simp only [exec]
    exact execAll_leaves hτ body hx
  | .expr _ doc e => by
    intro hx
    simp only [stmtTargets, List.mem_append, not_or] at hx
    simp only [exec]
    refine (Leaves.settle (eval_leaves hτ e hx.2)).bind fun _ _ => ?_
    exact (applyDoc_leaves hx.1).bind fun _ _ => .pure trivial
  | .conditional _ _ condition yes elseIfs no => by
    intro hx
    simp only [stmtTargets, List.mem_append, not_or] at hx
    obtain ⟨⟨⟨hcondition, hyes⟩, helseIfs⟩, hno⟩ := hx
    simp only [exec]
    refine (Leaves.settle (eval_leaves hτ condition hcondition)).bind fun _ _ => ?_
    refine (evalConditions_leaves hτ helseIfs).bind fun _ _ => ?_
    refine (exec_leaves hτ yes hyes).branch.bind fun first hfirst => ?_
    refine (elseIfBranches_leaves hτ elseIfs helseIfs).bind fun others hothers => ?_
    refine (exec_leaves hτ no hno).branch.bind fun last hlast => ?_
    apply Leaves.joinLive hτ
    simp only [List.forall_mem_append]
    exact ⟨⟨hfirst, hothers⟩, hlast⟩
  | .whileLoop _ condition body => by
    intro hx
    simp only [stmtTargets, List.mem_append, not_or] at hx
    simp only [exec]
    refine (Leaves.settle (eval_leaves hτ condition hx.1)).bind fun _ _ => ?_
    exact (Leaves.loopOnce hτ (exec_leaves hτ body hx.2)).bind fun _ _ => .pure trivial
  | .doLoop _ body condition => by
    intro hx
    simp only [stmtTargets, List.mem_append, not_or] at hx
    simp only [exec]
    refine Leaves.getScope.bind fun before hbefore => ?_
    refine (Leaves.inScope hbefore (exec_leaves hτ body hx.1)).bind fun r hr => ?_
    obtain ⟨terminated, after⟩ := r
    cases terminated with
    | true => exact .pure trivial
    | false =>
      -- The condition goes on in the scope that the body has left.
      refine (Leaves.inScope hr.2 (.settle (eval_leaves hτ condition hx.2))).bind
        fun r hr => ?_
      refine (Leaves.join hτ ?_).bind fun _ _ => .pure trivial
      simpa using ⟨hbefore, hr.2⟩
  | .forLoop _ start condition step body => by
    intro hx
    simp only [stmtTargets, List.mem_append, not_or] at hx
    obtain ⟨⟨⟨hstart, hcondition⟩, hstep⟩, hbody⟩ := hx
    simp only [exec]
    refine (evalAll_leaves hτ start hstart).bind fun _ _ => ?_
    refine (evalAll_leaves hτ condition hcondition).bind fun _ _ => ?_
    refine (Leaves.loopOnce hτ ?_).bind fun _ _ => .pure trivial
    refine (exec_leaves hτ body hbody).bind fun _ _ => ?_
    exact (evalAll_leaves hτ step hstep).bind fun _ _ => .pure trivial
  | .foreachLoop _ iterable key value body => by
    intro hx
    simp only [stmtTargets, List.mem_append, not_or] at hx
    obtain ⟨⟨⟨⟨hiterable, hkey⟩, hassigned⟩, hvalue⟩, hbody⟩ := hx
    simp only [exec]
    refine (Leaves.settle (eval_leaves hτ iterable hiterable)).bind fun _ _ => ?_
    refine (Leaves.loopOnce hτ ?_).bind fun _ _ => .pure trivial
    refine (Leaves.tolerate ?_).bind fun _ _ => exec_leaves hτ body hbody
    exact (assignKey_leaves hτ _ hkey).bind fun _ _ =>
      assignTo_leaves hτ value _ hassigned hvalue
  | .switch _ subject cases => by
    intro hx
    simp only [stmtTargets, List.mem_append, not_or] at hx
    simp only [exec]
    refine (Leaves.settle (eval_leaves hτ subject hx.1)).bind fun _ _ => ?_
    refine (evalTests_leaves hτ hx.2).bind fun _ _ => ?_
    refine (enterCases_leaves hτ cases hx.2).bind fun live hlive => ?_
    refine Leaves.getScope.bind fun skipped hskipped => .joinLive hτ ?_
    split
    · exact hlive
    · rw [List.forall_mem_append]
      exact ⟨hlive, by simpa using hskipped⟩
  | .guarded _ _ body catches finalizer => by
    intro hx
    simp only [stmtTargets, List.mem_append, not_or] at hx
    obtain ⟨⟨hbody, hcatches⟩, hfinalizer⟩ := hx
    simp only [exec]
    refine (execAll_leaves hτ body hbody).branch.bind fun first hfirst => ?_
    refine (catchBranches_leaves hτ catches hcatches).bind fun others hothers => ?_
    refine (Leaves.joinLive hτ (List.forall_mem_append.mpr ⟨hfirst, hothers⟩)).bind
      fun terminated _ => ?_
    refine (exec_leaves hτ finalizer hfinalizer).bind fun ended _ => ?_
    split <;> exact .pure trivial
  | .returns _ _ value => by
    intro hx
    simp only [stmtTargets] at hx
    simp only [exec]
    refine (returned_leaves hτ hx).bind fun t _ => ?_
    exact (Leaves.addReturn t).bind fun _ _ => .pure trivial
  | .throws _ value => by
    intro hx
    simp only [stmtTargets] at hx
    simp only [exec]
    exact (Leaves.settle (eval_leaves hτ value hx)).bind fun _ _ => .pure trivial
  | .echo _ values => by
    intro hx
    simp only [stmtTargets] at hx
    simp only [exec]
    exact (evalAll_leaves hτ values hx).bind fun _ _ => .pure trivial
  | .globals _ names => by
    intro hx
    simp only [stmtTargets] at hx
    simp only [exec]
    refine (Leaves.forM names fun n hn => .bindVar ?_ _).bind fun _ _ => .pure trivial
    exact ne_of_mem_of_not_mem hn hx |>.symm
  | .statics _ vars => by
    intro hx
    simp only [stmtTargets] at hx
    simp only [exec]
    exact (bindStatics_leaves hτ hx).bind fun _ _ => .pure trivial
  | .includes _ path => by
    intro hx
    simp only [stmtTargets] at hx
    simp only [exec]
    exact (Leaves.settle (eval_leaves hτ path hx)).bind fun _ _ => .pure trivial

private theorem execAll_leaves (hτ : Joinable τ) :
    ∀ body : List Stmt, x ∉ bodyTargets body → Leaves x τ (execAll s body) fun _ => True
  | [] => by
    intro _
    simp only [execAll]
    exact .pure trivial
  | stmt :: rest => by
    intro hx
    simp only [bodyTargets, List.mem_append, not_or] at hx
    simp only [execAll]
    refine (exec_leaves hτ stmt hx.1).bind fun terminated _ => ?_
    cases terminated with
    | true => exact .pure trivial
    | false => exact execAll_leaves hτ rest hx.2

private theorem elseIfBranches_leaves (hτ : Joinable τ) :
    ∀ elseIfs : List ElseIf, x ∉ elseIfTargets elseIfs →
      Leaves x τ (elseIfBranches s elseIfs) fun live => ∀ b ∈ live, b.get? x = τ
  | [] => by
    intro _
    simp only [elseIfBranches]
    exact .pure (by simp)
  | .mk _ _ body :: rest => by
    intro hx
    simp only [elseIfTargets, List.mem_append, not_or] at hx
    simp only [elseIfBranches]
    refine (exec_leaves hτ body hx.1.2).branch.bind fun first hfirst => ?_
    refine (elseIfBranches_leaves hτ rest hx.2).bind fun others hothers => .pure ?_
    exact List.forall_mem_append.mpr ⟨hfirst, hothers⟩

private theorem enterCases_leaves (hτ : Joinable τ) :
    ∀ cases : List Case, x ∉ caseTargets cases →
      Leaves x τ (enterCases s cases) fun live => ∀ b ∈ live, b.get? x = τ
  | [] => by
    intro _
    simp only [enterCases]
    exact .pure (by simp)
  | .test _ _ body :: rest => by
    intro hx
    simp only [caseTargets, List.mem_append, not_or] at hx
    simp only [enterCases]
    refine (throughCase_leaves (runCase_leaves hτ body hx.1.2)
      (runCases_leaves hτ rest hx.2)).branch.bind fun first hfirst => ?_
    refine (enterCases_leaves hτ rest hx.2).bind fun others hothers => .pure ?_
    exact List.forall_mem_append.mpr ⟨hfirst, hothers⟩
  | .fallback _ body :: rest => by
    intro hx
    simp only [caseTargets, List.mem_append, not_or] at hx
    simp only [enterCases]
    refine (throughCase_leaves (runCase_leaves hτ body hx.1)
      (runCases_leaves hτ rest hx.2)).branch.bind fun first hfirst => ?_
    refine (enterCases_leaves hτ rest hx.2).bind fun others hothers => .pure ?_
    exact List.forall_mem_append.mpr ⟨hfirst, hothers⟩

private theorem runCases_leaves (hτ : Joinable τ) :
    ∀ cases : List Case, x ∉ caseTargets cases → Leaves x τ (runCases s cases) fun _ => True
  | [] => by
    intro _
    simp only [runCases]
    exact .pure trivial
  | .test _ _ body :: rest => by
    intro hx
    simp only [caseTargets, List.mem_append, not_or] at hx
    simp only [runCases]
    exact throughCase_leaves (runCase_leaves hτ body hx.1.2) (runCases_leaves hτ rest hx.2)
  | .fallback _ body :: rest => by
    intro hx
    simp only [caseTargets, List.mem_append, not_or] at hx
    simp only [runCases]
    exact throughCase_leaves (runCase_leaves hτ body hx.1) (runCases_leaves hτ rest hx.2)

private theorem runCase_leaves (hτ : Joinable τ) :
    ∀ body : List Stmt, x ∉ bodyTargets body → Leaves x τ (runCase s body) fun _ => True
  | [] => by
    intro _
    simp only [runCase]
    exact .pure trivial
  | stmt :: rest => by
    intro hx
    simp only [bodyTargets, List.mem_append, not_or] at hx
    rcases isBreak_cases stmt with ⟨pos, rfl⟩ | hb
    · simp only [runCase]
      exact .pure trivial
    · rw [runCase_cons hb]
      refine (exec_leaves hτ stmt hx.1).bind fun terminated _ => ?_
      cases terminated with
      | true => exact .pure trivial
      | false => exact runCase_leaves hτ rest hx.2

private theorem catchBranches_leaves (hτ : Joinable τ) :
    ∀ catches : List Catch, x ∉ catchTargets catches →
      Leaves x τ (catchBranches s catches) fun live => ∀ b ∈ live, b.get? x = τ
  | [] => by
    intro _
    simp only [catchBranches]
    exact .pure (by simp)
  | .mk _ classes var _ body :: rest => by
    intro hx
    simp only [catchTargets, List.mem_append, not_or] at hx
    simp only [catchBranches]
    refine (catchScope_leaves hx.1.1).bind fun scope hscope => ?_
    refine (Leaves.branchFrom hscope (execAll_leaves hτ body hx.1.2)).bind fun first hfirst => ?_
    refine (catchBranches_leaves hτ rest hx.2).bind fun others hothers => .pure ?_
    exact List.forall_mem_append.mpr ⟨hfirst, hothers⟩

end

/-- A variable that is no target of an expression or a statement is bound afterwards if it was bound
before, with the same type, given that this type meets the union condition and that every float in
it is a number. -/
theorem evaluation_leaves_others (s : Site) (x : String) (f : Frame)
    (hx : ∀ t, f.scope.get? x = some t → t.UnionNode ∧ t.Every Ty.NumberNode) (m : Memory) :
    (∀ e r g, x ∉ targets e → (((eval s e).run.run f).run m).result = .ok (r, g) →
      g.scope.get? x = f.scope.get? x) ∧
    ∀ stmt b g, x ∉ stmtTargets stmt → (((exec s stmt).run f).run m).result = .ok (b, g) →
      g.scope.get? x = f.scope.get? x := by
  constructor
  · intro e r g he hrun
    exact (((eval_leaves hx e he) f rfl).ok hrun).1
  · intro stmt b g hstmt hrun
    exact (((exec_leaves hx stmt hstmt) f rfl).ok hrun).1

/-- In one branch another variable is assigned, and a closure has a variable of the same name. -/
def closureInBranch : Stmt :=
  .conditional ⟨1, 1⟩ none (.var ⟨1, 1⟩ "a")
    (.block ⟨1, 1⟩
      [.expr ⟨1, 1⟩ none (.assign ⟨1, 1⟩ none (.var ⟨1, 1⟩ "y") (.string ⟨1, 1⟩ "s" false)),
        .expr ⟨1, 1⟩ none (.closure ⟨1, 1⟩ false [] ["x"] none ⟨1, 1⟩
          [.expr ⟨1, 1⟩ none (.assign ⟨1, 1⟩ none (.var ⟨1, 1⟩ "x") (.int ⟨1, 1⟩ 1))])]) [] .empty

theorem closureInBranch_leaves :
    "x" ∉ stmtTargets closureInBranch ∧ ∀ (s : Site) (m : Memory) (b : Bool) (g : Frame),
      (((exec s closureInBranch).run ⟨.ofList [("x", .union [.int none, .string none])], []⟩).run
        m).result = .ok (b, g) →
      g.scope.get? "x" = some (.union [.int none, .string none]) := by
  have htarget : "x" ∉ stmtTargets closureInBranch := by decide
  refine ⟨htarget, fun s m b g hrun => ?_⟩
  refine ((evaluation_leaves_others s "x" _ ?_ m).2 _ b g htarget hrun).trans rfl
  rintro t ⟨⟩
  refine ⟨⟨by simp, by simp [Ty.isUnion], by simp [Ty.same]⟩, ?_⟩
  simp [Ty.Every, Ty.parts, Ty.partsOfAll, Ty.NumberNode]

/-! Literals are numbers and operators compute finite numbers only, so that in a run no type stands
in the way of the frame law. -/

/-- Every scope of a run has types that are the unions of their copies. -/
theorem scoped_joinable {M : Machine} {index : Index} {natives : List Natives.Declared}
    {cs : List Command} {scope : Scope}
    (hscope : .scoped scope ∈ (runOn M (.declaring index natives) cs).steps) (x : String) :
    Joinable (scope.get? x) := by
  intro t ht
  have hrun := runOn_wellTyped (M := M) (Program.declaring_wellFormed index natives) cs
  have hbound : t ∈ scope.bindings.values := Dict.mem_values_of_get? ht
  exact joinable_of_wellFormed (hrun.steps _ hscope t hbound) t rfl

/-- In every run, what is evaluated next in a scope that has been reached changes its targets
only. -/
theorem reached_scope_leaves_others (M : Machine) (index : Index)
    (natives : List Natives.Declared) (cs : List Command) (scope : Scope)
    (hscope : .scoped scope ∈ (runOn M (.declaring index natives) cs).steps) (s : Site)
    (x : String) (returns : List Ty) (m : Memory) :
    (∀ e r g, x ∉ targets e → (((eval s e).run.run ⟨scope, returns⟩).run m).result = .ok (r, g) →
      g.scope.get? x = scope.get? x) ∧
    ∀ stmt b g, x ∉ stmtTargets stmt →
      (((exec s stmt).run ⟨scope, returns⟩).run m).result = .ok (b, g) →
      g.scope.get? x = scope.get? x := by
  have hx := scoped_joinable hscope x
  constructor
  · intro e r g he hrun
    exact (((eval_leaves hx e he) ⟨scope, returns⟩ rfl).ok hrun).1
  · intro stmt b g hstmt hrun
    exact (((exec_leaves hx stmt hstmt) ⟨scope, returns⟩ rfl).ok hrun).1

end PhpTypes.Inference
