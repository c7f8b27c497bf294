import PhpTypes.Proofs.Contracts
import PhpTypes.Proofs.Paths

/-!
# Evaluations keep contracts

Expressions and statements all of whose nodes are admitted keep every contract that fits their site.
-/

namespace PhpTypes.Inference

open Source Contract

variable {s : Site}

-- One theorem for each function of the evaluator, by the same recursion on the tree. The contract
-- is not fixed: inside a closure there is no condition on scopes.
mutual

theorem eval_complies : ∀ (e : Expr) (C : Contract), C.Fits s →
    (∀ n ∈ exprNodes e, C.admits n) → C.HoldsTry (eval s e) fun _ => True
  | .var _ name => by
    intro C _ _
    simp only [eval]
    exact .lift (Fits.variableType C name)
  | .int _ _ | .float _ _ | .string _ _ _ | .bool _ _ | .null _ => by
    intro C _ _
    simp only [eval]
    exact .pure trivial
  | .constant pos name => by
    intro C hs _
    simp only [eval]
    exact hs.constantFetch pos name
  | .array _ elements => by
    intro C hs h
    simp only [exprNodes, List.forall_mem_cons] at h
    simp only [eval]
    exact (HoldsTry.lift (gather_complies elements C hs h.2 _)).bind fun _ _ => .pure trivial
  | .binary _ op left right => by
    intro C hs h
    simp only [exprNodes, List.forall_mem_cons, List.forall_mem_append] at h
    obtain ⟨-, hleft, hright⟩ := h
    simp only [eval]
    refine (hs.settling (eval_complies left C hs hleft)).bind fun _ _ => ?_
    exact (hs.settling (eval_complies right C hs hright)).bind fun _ _ => .pure trivial
  | .unary _ op operand => by
    intro C hs h
    simp only [exprNodes, List.forall_mem_cons] at h
    simp only [eval]
    exact (hs.settling (eval_complies operand C hs h.2)).bind fun _ _ => .pure trivial
  | .cast pos target operand => by
    intro C hs h
    simp only [exprNodes, List.forall_mem_cons] at h
    simp only [eval]
    exact (hs.settling (eval_complies operand C hs h.2)).bind fun t _ =>
      Fits.castType C pos target t
  | .step _ _ _ target => by
    intro C hs h
    simp only [exprNodes, List.forall_mem_cons] at h
    simp only [eval]
    exact (hs.settling (eval_complies target C hs h.2)).bind fun t _ => .lift (hs.stepped target t)
  | .assign _ none target value => by
    intro C hs h
    simp only [exprNodes, List.forall_mem_cons, List.forall_mem_append] at h
    obtain ⟨-, htarget, hvalue⟩ := h
    simp only [eval]
    refine (hs.settling (eval_complies value C hs hvalue)).bind fun t _ => ?_
    exact (assignTo_complies target C hs htarget t).bind fun _ _ => .pure trivial
  | .assign _ (some op) target value => by
    intro C hs h
    simp only [exprNodes, List.forall_mem_cons, List.forall_mem_append] at h
    obtain ⟨-, htarget, hvalue⟩ := h
    simp only [eval]
    refine (hs.settling (eval_complies target C hs htarget)).bind fun _ _ => ?_
    refine (hs.settling (eval_complies value C hs hvalue)).bind fun _ _ => ?_
    exact (assignTo_complies target C hs htarget _).bind fun _ _ => .pure trivial
  | .ternary _ condition yes no => by
    intro C hs h
    simp only [exprNodes, List.forall_mem_cons, List.forall_mem_append] at h
    obtain ⟨-, ⟨hcondition, hyes⟩, hno⟩ := h
    simp only [eval]
    refine (hs.settling (eval_complies condition C hs hcondition)).bind fun _ _ => ?_
    refine (HoldsTry.lift .getScope).bind fun scope hscope => ?_
    refine (HoldsTry.lift (.inScope hscope (hs.settle (eval_complies yes C hs hyes)))).bind
      fun a _ => ?_
    refine (HoldsTry.lift (.inScope hscope (hs.settle (eval_complies no C hs hno)))).bind
      fun b _ => ?_
    exact (HoldsTry.lift (hs.join _)).bind fun _ _ => .pure trivial
  | .elvis _ condition no => by
    intro C hs h
    simp only [exprNodes, List.forall_mem_cons, List.forall_mem_append] at h
    obtain ⟨-, hcondition, hno⟩ := h
    simp only [eval]
    refine (hs.settling (eval_complies condition C hs hcondition)).bind fun _ _ => ?_
    refine (HoldsTry.lift .getScope).bind fun scope hscope => ?_
    refine (HoldsTry.lift (.inScope hscope (hs.settle (eval_complies no C hs hno)))).bind
      fun b _ => ?_
    exact (HoldsTry.lift (hs.join _)).bind fun _ _ => .pure trivial
  | .instanceOf _ operand _ => by
    intro C hs h
    simp only [exprNodes, List.forall_mem_cons] at h
    simp only [eval]
    exact (hs.settling (eval_complies operand C hs h.2)).bind fun _ _ => .pure trivial
  | .clone _ operand => by
    intro C hs h
    simp only [exprNodes, List.forall_mem_cons] at h
    simp only [eval]
    exact hs.settling (eval_complies operand C hs h.2)
  | .methodCall pos receiver name args nullsafe => by
    intro C hs h
    simp only [exprNodes, List.forall_mem_cons, List.forall_mem_append] at h
    obtain ⟨-, hreceiver, hargs⟩ := h
    simp only [eval]
    refine (hs.settling (eval_complies receiver C hs hreceiver)).bind fun t _ => ?_
    refine (HoldsTry.lift (evalArgs_complies args C hs hargs)).bind fun _ _ => ?_
    exact hs.callMethod pos t name nullsafe
  | .property _ receiver name nullsafe => by
    intro C hs h
    simp only [exprNodes, List.forall_mem_cons] at h
    simp only [eval]
    exact (hs.settling (eval_complies receiver C hs h.2)).bind fun t _ =>
      .analysis (hs.fetchProperty t name nullsafe)
  | .index _ container key => by
    intro C hs h
    simp only [exprNodes, List.forall_mem_cons, List.forall_mem_append] at h
    obtain ⟨-, hcontainer, hkey⟩ := h
    simp only [eval]
    refine (hs.settling (eval_complies container C hs hcontainer)).bind fun _ _ => ?_
    exact (hs.settling (eval_complies key C hs hkey)).bind fun _ _ => .pure trivial
  | .append pos container => by
    intro C hs h
    simp only [exprNodes, List.forall_mem_cons] at h
    simp only [eval]
    exact (hs.settling (eval_complies container C hs h.2)).bind fun _ _ => .throw
  | .staticCall pos cls name args => by
    intro C hs h
    simp only [exprNodes, List.forall_mem_cons] at h
    simp only [eval]
    refine (HoldsTry.lift (evalArgs_complies args C hs h.2)).bind fun _ _ => ?_
    exact hs.callStatic pos cls name
  | .staticProperty pos cls name => by
    intro C hs _
    simp only [eval]
    exact hs.fetchStaticProperty pos cls name
  | .classConstant pos cls name => by
    intro C hs _
    simp only [eval]
    exact hs.classConstant pos cls name
  | .call pos name args => by
    intro C hs h
    simp only [exprNodes, List.forall_mem_cons] at h
    obtain ⟨hcall, hargs⟩ := h
    simp only [eval]
    cases hb : builtIn name with
    | unset =>
      refine (HoldsTry.forM _ fun n _ => .lift ?_).bind fun _ _ => .pure trivial
      exact HoldsIn.getScope.bind fun _ hscope => .setScope (hs.unbound n hcall hb hscope)
    | test =>
      exact (HoldsTry.lift (evalArgs_complies args C hs hargs)).bind fun _ _ => .pure trivial
    | compact =>
      exact (HoldsTry.lift (compacted_complies args C hs hargs [])).bind fun _ _ => .pure trivial
    | none =>
      refine (HoldsTry.lift (evalArgs_complies args C hs hargs)).bind fun _ _ => ?_
      exact hs.callFunction pos name
  | .dynamicCall _ name args => by
    intro C hs h
    simp only [exprNodes, List.forall_mem_cons] at h
    simp only [eval]
    refine (HoldsTry.lift (Fits.variableType C name)).bind fun _ _ => ?_
    exact (HoldsTry.lift (evalArgs_complies args C hs h.2)).bind fun _ _ => .pure trivial
  | .new pos cls args => by
    intro C hs h
    simp only [exprNodes, List.forall_mem_cons] at h
    simp only [eval]
    refine (HoldsTry.lift (evalArgs_complies args C hs h.2)).bind fun _ _ => ?_
    exact hs.instantiate pos cls
  | .closure _ _ params uses hint _ body => by
    intro C hs h
    simp only [exprNodes, List.forall_mem_cons, List.forall_mem_append] at h
    obtain ⟨-, -, hbody⟩ := h
    have hclosure : C.anyScope.HoldsIn (do bodyType (← execAll s body)) fun _ => True :=
      (execAll_complies body C.anyScope hs.anyScope hbody).bind fun b _ => .bodyType b
    simp only [eval]
    refine (HoldsTry.lift .getScope).bind fun scope _ => ?_
    refine (HoldsTry.lift (hs.inClosure _ params hclosure)).bind fun r _ => ?_
    exact .analysis (hs.closureType hint _ _)
  | .arrow _ _ params hint body => by
    intro C hs h
    simp only [exprNodes, List.forall_mem_cons, List.forall_mem_append] at h
    obtain ⟨-, -, hbody⟩ := h
    have harrow : C.anyScope.HoldsIn (settle (eval s body)) fun _ => True :=
      hs.anyScope.settle (eval_complies body C.anyScope hs.anyScope hbody)
    simp only [eval]
    refine (HoldsTry.lift .getScope).bind fun scope _ => ?_
    refine (HoldsTry.lift (hs.inClosure _ params harrow)).bind fun r _ => ?_
    exact .analysis (hs.closureType hint _ _)
  | .select _ subject arms => by
    intro C hs h
    simp only [exprNodes, List.forall_mem_cons, List.forall_mem_append] at h
    obtain ⟨-, hsubject, harms⟩ := h
    simp only [eval]
    refine (hs.settling (eval_complies subject C hs hsubject)).bind fun _ _ => ?_
    refine (HoldsTry.lift (evalArms_complies arms C hs harms)).bind fun results _ => ?_
    exact (HoldsTry.lift (hs.joinLive _)).bind fun _ _ => .pure trivial

private theorem evalAll_complies : ∀ (es : List Expr) (C : Contract), C.Fits s →
    (∀ n ∈ exprsNodes es, C.admits n) → C.HoldsIn (evalAll s es) fun _ => True
  | [] => by
    intro C _ _
    simp only [evalAll]
    exact .pure trivial
  | e :: es => by
    intro C hs h
    simp only [exprsNodes, List.forall_mem_append] at h
    simp only [evalAll]
    exact (hs.settle (eval_complies e C hs h.1)).bind fun _ _ => evalAll_complies es C hs h.2

private theorem evalArgs_complies : ∀ (args : List Argument) (C : Contract), C.Fits s →
    (∀ n ∈ argNodes args, C.admits n) → C.HoldsIn (evalArgs s args) fun _ => True
  | [] => by
    intro C _ _
    simp only [evalArgs]
    exact .pure trivial
  | .mk _ _ _ value :: rest => by
    intro C hs h
    simp only [argNodes, List.forall_mem_append] at h
    simp only [evalArgs]
    exact (hs.settle (eval_complies value C hs h.1)).bind fun _ _ =>
      evalArgs_complies rest C hs h.2

private theorem compacted_complies : ∀ (args : List Argument) (C : Contract), C.Fits s →
    (∀ n ∈ argNodes args, C.admits n) →
      ∀ items, C.HoldsIn (compacted s items args) fun _ => True
  | [] => by
    intro C _ _ items
    simp only [compacted]
    exact .pure trivial
  | .mk _ _ _ value :: rest => by
    intro C hs h items
    simp only [argNodes, List.forall_mem_append] at h
    -- A string names a variable that is read; any other argument is evaluated.
    by_cases hstring : ∃ pos name i, value = .string pos name i
    · obtain ⟨pos, name, i, rfl⟩ := hstring
      simp only [compacted]
      exact HoldsIn.getScope.bind fun _ _ => compacted_complies rest C hs h.2 _
    · rw [compacted]
      · exact (hs.settle (eval_complies value C hs h.1)).bind fun _ _ =>
          compacted_complies rest C hs h.2 items
      · intro pos name i heq
        exact hstring ⟨pos, name, i, heq⟩

private theorem gather_complies : ∀ (elements : List Element) (C : Contract), C.Fits s →
    (∀ n ∈ elementNodes elements, C.admits n) →
      ∀ g, C.HoldsIn (gather s g elements) fun _ => True
  | [] => by
    intro C _ _ g
    simp only [gather]
    exact .pure trivial
  | .spread _ _ value :: rest => by
    intro C hs h g
    simp only [elementNodes, List.forall_mem_cons, List.forall_mem_append] at h
    obtain ⟨-, hvalue, hrest⟩ := h
    simp only [gather]
    exact (hs.settle (eval_complies value C hs hvalue)).bind fun _ _ =>
      gather_complies rest C hs hrest _
  | .plain _ doc value :: rest => by
    intro C hs h g
    simp only [elementNodes, List.forall_mem_cons, List.forall_mem_append] at h
    obtain ⟨helement, hvalue, hrest⟩ := h
    have hdoc := readComment hs.read helement rfl
    simp only [gather]
    refine (hs.settle (eval_complies value C hs hvalue)).bind fun t _ => ?_
    refine (HoldsIn.lift (hs.documentedItem hdoc t)).bind fun _ _ => ?_
    exact gather_complies rest C hs hrest _
  | .keyed _ doc key value :: rest => by
    intro C hs h g
    simp only [elementNodes, List.forall_mem_cons, List.forall_mem_append] at h
    obtain ⟨helement, ⟨hkey, hvalue⟩, hrest⟩ := h
    have hdoc := readComment hs.read helement rfl
    simp only [gather]
    refine (hs.settle (eval_complies value C hs hvalue)).bind fun t _ => ?_
    refine (HoldsIn.lift (hs.documentedItem hdoc t)).bind fun _ _ => ?_
    refine (hs.settle (eval_complies key C hs hkey)).bind fun _ _ => ?_
    exact gather_complies rest C hs hrest _

private theorem evalArms_complies : ∀ (arms : List Arm) (C : Contract), C.Fits s →
    (∀ n ∈ armNodes arms, C.admits n) → C.HoldsIn (evalArms s arms) fun _ => True
  | [] => by
    intro C _ _
    simp only [evalArms]
    exact .pure trivial
  | .case _ conditions body :: rest => by
    intro C hs h
    simp only [armNodes, List.forall_mem_append] at h
    obtain ⟨⟨hconditions, hbody⟩, hrest⟩ := h
    simp only [evalArms]
    refine (evalAll_complies conditions C hs hconditions).bind fun _ _ => ?_
    refine HoldsIn.getScope.bind fun scope hscope => ?_
    refine (HoldsIn.inScope hscope (hs.settle (eval_complies body C hs hbody))).bind fun _ _ => ?_
    exact (evalArms_complies rest C hs hrest).bind fun _ _ => .pure trivial
  | .fallback _ body :: rest => by
    intro C hs h
    simp only [armNodes, List.forall_mem_append] at h
    simp only [evalArms]
    refine HoldsIn.getScope.bind fun scope hscope => ?_
    refine (HoldsIn.inScope hscope (hs.settle (eval_complies body C hs h.1))).bind fun _ _ => ?_
    exact (evalArms_complies rest C hs h.2).bind fun _ _ => .pure trivial

private theorem assignTo_complies : ∀ (e : Expr) (C : Contract), C.Fits s →
    (∀ n ∈ exprNodes e, C.admits n) → ∀ t, C.HoldsTry (assignTo s t e) fun _ => True
  | .var _ name => by
    intro C hs _ t
    simp only [assignTo]
    split
    · exact .pure trivial
    · exact .lift (hs.bindVar name t)
  | .index _ container key => by
    intro C hs h t
    simp only [exprNodes, List.forall_mem_cons, List.forall_mem_append] at h
    obtain ⟨-, hcontainer, hkey⟩ := h
    simp only [assignTo]
    refine (HoldsTry.lift (Fits.currentOf (current_complies container C hs hcontainer)
      (hs.settle (eval_complies container C hs hcontainer)))).bind fun _ _ => ?_
    refine (hs.settling (eval_complies key C hs hkey)).bind fun _ _ => ?_
    exact assignTo_complies container C hs hcontainer _
  | .append _ container => by
    intro C hs h t
    simp only [exprNodes, List.forall_mem_cons] at h
    simp only [assignTo]
    refine (HoldsTry.lift (Fits.currentOf (current_complies container C hs h.2)
      (hs.settle (eval_complies container C hs h.2)))).bind fun _ _ => ?_
    exact assignTo_complies container C hs h.2 _
  | .array _ elements => by
    intro C hs h t
    simp only [exprNodes, List.forall_mem_cons] at h
    simp only [assignTo]
    exact destructure_complies elements C hs h.2 t 0
  | .property _ receiver name nullsafe => by
    intro C hs h t
    simp only [exprNodes, List.forall_mem_cons] at h
    simp only [assignTo]
    refine (hs.settling (eval_complies receiver C hs h.2)).bind fun r _ => ?_
    exact (HoldsTry.analysis (hs.fetchProperty r name nullsafe)).bind fun _ _ => .pure trivial
  | .staticProperty pos cls name => by
    intro C hs _ t
    simp only [assignTo]
    exact (hs.settling (hs.fetchStaticProperty pos cls name)).bind fun _ _ => .pure trivial
  | .int _ _ | .float _ _ | .string _ _ _ | .bool _ _ | .null _ | .constant _ _
  | .binary _ _ _ _ | .unary _ _ _ | .cast _ _ _ | .step _ _ _ _ | .assign _ _ _ _
  | .ternary _ _ _ _ | .elvis _ _ _ | .instanceOf _ _ _ | .clone _ _ | .methodCall _ _ _ _ _
  | .staticCall _ _ _ _ | .classConstant _ _ _ | .call _ _ _ | .dynamicCall _ _ _ | .new _ _ _
  | .closure _ _ _ _ _ _ _ | .arrow _ _ _ _ _ | .select _ _ _ => by
    intro C _ _ _
    simp only [assignTo]
    exact .throw

private theorem destructure_complies : ∀ (elements : List Element) (C : Contract), C.Fits s →
    (∀ n ∈ elementNodes elements, C.admits n) →
      ∀ t position, C.HoldsTry (destructure s t position elements) fun _ => True
  | [] => by
    intro C _ _ t position
    simp only [destructure]
    exact .pure trivial
  | .keyed _ _ key target :: rest => by
    intro C hs h t position
    simp only [elementNodes, List.forall_mem_cons, List.forall_mem_append] at h
    obtain ⟨-, ⟨hkey, htarget⟩, hrest⟩ := h
    simp only [destructure]
    refine (hs.settling (eval_complies key C hs hkey)).bind fun _ _ => ?_
    refine (assignTo_complies target C hs htarget _).bind fun _ _ => ?_
    exact destructure_complies rest C hs hrest t position
  | .plain _ _ target :: rest => by
    intro C hs h t position
    simp only [elementNodes, List.forall_mem_cons, List.forall_mem_append] at h
    obtain ⟨-, htarget, hrest⟩ := h
    simp only [destructure]
    refine (assignTo_complies target C hs htarget _).bind fun _ _ => ?_
    exact destructure_complies rest C hs hrest t _
  | .spread _ _ target :: rest => by
    intro C hs h t position
    simp only [elementNodes, List.forall_mem_cons, List.forall_mem_append] at h
    obtain ⟨-, htarget, hrest⟩ := h
    simp only [destructure]
    refine (assignTo_complies target C hs htarget _).bind fun _ _ => ?_
    exact destructure_complies rest C hs hrest t _

private theorem current_complies : ∀ (e : Expr) (C : Contract), C.Fits s →
    (∀ n ∈ exprNodes e, C.admits n) → C.HoldsIn (current s e) fun _ => True
  | .var _ name => by
    intro C _ _
    simp only [current]
    exact HoldsIn.getScope.bind fun _ _ => .pure trivial
  | .index _ container key => by
    intro C hs h
    simp only [exprNodes, List.forall_mem_cons, List.forall_mem_append] at h
    obtain ⟨-, hcontainer, hkey⟩ := h
    simp only [current]
    refine (Fits.currentOf (current_complies container C hs hcontainer)
      (hs.settle (eval_complies container C hs hcontainer))).bind fun outer _ => ?_
    cases outer with
    | none => exact .pure trivial
    | some outer => exact (hs.settle (eval_complies key C hs hkey)).bind fun _ _ => .pure trivial
  | .append _ container => by
    intro C hs h
    simp only [exprNodes, List.forall_mem_cons] at h
    simp only [current]
    exact (Fits.currentOf (current_complies container C hs h.2)
      (hs.settle (eval_complies container C hs h.2))).bind fun _ _ => .pure trivial
  | .int _ _ | .float _ _ | .string _ _ _ | .bool _ _ | .null _ | .constant _ _ | .array _ _
  | .binary _ _ _ _ | .unary _ _ _ | .cast _ _ _ | .step _ _ _ _ | .assign _ _ _ _
  | .ternary _ _ _ _ | .elvis _ _ _ | .instanceOf _ _ _ | .clone _ _ | .methodCall _ _ _ _ _
  | .property _ _ _ _ | .staticCall _ _ _ _ | .staticProperty _ _ _ | .classConstant _ _ _
  | .call _ _ _ | .dynamicCall _ _ _ | .new _ _ _ | .closure _ _ _ _ _ _ _ | .arrow _ _ _ _ _
  | .select _ _ _ => by
    intro C _ _
    simp only [current]
    exact .pure trivial

private theorem exec_complies : ∀ (stmt : Stmt) (C : Contract), C.Fits s →
    (∀ n ∈ stmtNodes stmt, C.admits n) → C.HoldsIn (exec s stmt) fun _ => True
  | .empty | .breaks _ | .continues _ => by
    intro C _ _
    simp only [exec]
    exact .pure trivial
  | .block _ body => by
    intro C hs h
    simp only [stmtNodes, List.forall_mem_cons] at h
    simp only [exec]
    exact execAll_complies body C hs h.2
  | .expr _ doc e => by
    intro C hs h
    simp only [stmtNodes, List.forall_mem_cons] at h
    have hdoc := readComment hs.read h.1 rfl
    simp only [exec]
    refine (hs.settle (eval_complies e C hs h.2)).bind fun _ _ => ?_
    exact (hs.applyDoc hdoc e).bind fun _ _ => .pure trivial
  | .conditional _ _ condition yes elseIfs no => by
    intro C hs h
    simp only [stmtNodes, List.forall_mem_cons, List.forall_mem_append] at h
    obtain ⟨-, ⟨⟨hcondition, hyes⟩, helseIfs⟩, hno⟩ := h
    simp only [exec]
    refine (hs.settle (eval_complies condition C hs hcondition)).bind fun _ _ => ?_
    refine (evalConditions_complies elseIfs C hs helseIfs).bind fun _ _ => ?_
    refine (exec_complies yes C hs hyes).branch.bind fun _ _ => ?_
    refine (elseIfBranches_complies elseIfs C hs helseIfs).bind fun _ _ => ?_
    exact (exec_complies no C hs hno).branch.bind fun _ _ => hs.joinLive _
  | .whileLoop _ condition body => by
    intro C hs h
    simp only [stmtNodes, List.forall_mem_cons, List.forall_mem_append] at h
    obtain ⟨-, hcondition, hbody⟩ := h
    simp only [exec]
    refine (hs.settle (eval_complies condition C hs hcondition)).bind fun _ _ => ?_
    exact (hs.loopOnce (exec_complies body C hs hbody)).bind fun _ _ => .pure trivial
  | .doLoop _ body condition => by
    intro C hs h
    simp only [stmtNodes, List.forall_mem_cons, List.forall_mem_append] at h
    obtain ⟨-, hbody, hcondition⟩ := h
    simp only [exec]
    refine HoldsIn.getScope.bind fun before hbefore => ?_
    refine (HoldsIn.inScope hbefore (exec_complies body C hs hbody)).bind fun r hr => ?_
    obtain ⟨terminated, after⟩ := r
    cases terminated with
    | true => exact .pure trivial
    | false =>
      -- The condition goes on in the scope that the body has left.
      refine (HoldsIn.inScope hr.2 (hs.settle (eval_complies condition C hs hcondition))).bind
        fun r hr => ?_
      exact (hs.join _).bind fun _ _ => .pure trivial
  | .forLoop _ start condition step body => by
    intro C hs h
    simp only [stmtNodes, List.forall_mem_cons, List.forall_mem_append] at h
    obtain ⟨-, ⟨⟨hstart, hcondition⟩, hstep⟩, hbody⟩ := h
    simp only [exec]
    refine (evalAll_complies start C hs hstart).bind fun _ _ => ?_
    refine (evalAll_complies condition C hs hcondition).bind fun _ _ => ?_
    refine (hs.loopOnce ?_).bind fun _ _ => .pure trivial
    refine (exec_complies body C hs hbody).bind fun _ _ => ?_
    exact (evalAll_complies step C hs hstep).bind fun _ _ => .pure trivial
  | .foreachLoop _ iterable key value body => by
    intro C hs h
    simp only [stmtNodes, List.forall_mem_cons, List.forall_mem_append] at h
    obtain ⟨-, ⟨⟨hiterable, hkey⟩, hvalue⟩, hbody⟩ := h
    simp only [exec]
    refine (hs.settle (eval_complies iterable C hs hiterable)).bind fun _ _ => ?_
    refine (hs.loopOnce ?_).bind fun _ _ => .pure trivial
    refine (hs.tolerate ?_).bind fun _ _ => exec_complies body C hs hbody
    exact (assignKey_complies key C hs hkey _).bind fun _ _ => assignTo_complies value C hs hvalue _
  | .switch _ subject cases => by
    intro C hs h
    simp only [stmtNodes, List.forall_mem_cons, List.forall_mem_append] at h
    obtain ⟨-, hsubject, hcases⟩ := h
    simp only [exec]
    refine (hs.settle (eval_complies subject C hs hsubject)).bind fun _ _ => ?_
    refine (evalTests_complies cases C hs hcases).bind fun _ _ => ?_
    refine (enterCases_complies cases C hs hcases).bind fun _ _ => ?_
    exact HoldsIn.getScope.bind fun _ _ => hs.joinLive _
  | .guarded _ _ body catches finalizer => by
    intro C hs h
    simp only [stmtNodes, List.forall_mem_cons, List.forall_mem_append] at h
    obtain ⟨-, ⟨hbody, hcatches⟩, hfinalizer⟩ := h
    simp only [exec]
    refine (execAll_complies body C hs hbody).branch.bind fun _ _ => ?_
    refine (catchBranches_complies catches C hs hcatches).bind fun _ _ => ?_
    refine (hs.joinLive _).bind fun terminated _ => ?_
    refine (exec_complies finalizer C hs hfinalizer).bind fun ended _ => ?_
    split <;> exact .pure trivial
  | .returns _ _ value => by
    intro C hs h
    simp only [stmtNodes, List.forall_mem_cons] at h
    simp only [exec]
    refine (returned_complies value C hs h.2).bind fun t _ => ?_
    exact (HoldsIn.addReturn t).bind fun _ _ => .pure trivial
  | .throws _ value => by
    intro C hs h
    simp only [stmtNodes, List.forall_mem_cons] at h
    simp only [exec]
    exact (hs.settle (eval_complies value C hs h.2)).bind fun _ _ => .pure trivial
  | .echo _ values => by
    intro C hs h
    simp only [stmtNodes, List.forall_mem_cons] at h
    simp only [exec]
    exact (evalAll_complies values C hs h.2).bind fun _ _ => .pure trivial
  | .globals _ names => by
    intro C hs _
    simp only [exec]
    exact (HoldsIn.forM names fun n _ => hs.bindVar n _).bind fun _ _ => .pure trivial
  | .statics _ vars => by
    intro C hs h
    simp only [stmtNodes, List.forall_mem_cons] at h
    simp only [exec]
    exact (bindStatics_complies vars C hs h.2).bind fun _ _ => .pure trivial
  | .includes _ path => by
    intro C hs h
    simp only [stmtNodes, List.forall_mem_cons] at h
    simp only [exec]
    exact (hs.settle (eval_complies path C hs h.2)).bind fun _ _ => .pure trivial

theorem execAll_complies : ∀ (body : List Stmt) (C : Contract), C.Fits s →
    (∀ n ∈ bodyNodes body, C.admits n) → C.HoldsIn (execAll s body) fun _ => True
  | [] => by
    intro C _ _
    simp only [execAll]
    exact .pure trivial
  | stmt :: rest => by
    intro C hs h
    simp only [bodyNodes, List.forall_mem_append] at h
    simp only [execAll]
    refine (exec_complies stmt C hs h.1).bind fun terminated _ => ?_
    cases terminated with
    | true => exact .pure trivial
    | false => exact execAll_complies rest C hs h.2

private theorem returned_complies : ∀ (value : Option Expr) (C : Contract), C.Fits s →
    (∀ n ∈ valueNodes value, C.admits n) → C.HoldsIn (returned s value) fun _ => True
  | none => by
    intro C _ _
    simp only [returned]
    exact .pure trivial
  | some e => by
    intro C hs h
    simp only [valueNodes] at h
    simp only [returned]
    exact hs.settle (eval_complies e C hs h)

private theorem assignKey_complies : ∀ (key : Option Expr) (C : Contract), C.Fits s →
    (∀ n ∈ valueNodes key, C.admits n) → ∀ t, C.HoldsTry (assignKey s t key) fun _ => True
  | none => by
    intro C _ _ t
    simp only [assignKey]
    exact .pure trivial
  | some e => by
    intro C hs h t
    simp only [valueNodes] at h
    simp only [assignKey]
    exact assignTo_complies e C hs h t

private theorem evalConditions_complies : ∀ (elseIfs : List ElseIf) (C : Contract), C.Fits s →
    (∀ n ∈ elseIfNodes elseIfs, C.admits n) → C.HoldsIn (evalConditions s elseIfs) fun _ => True
  | [] => by
    intro C _ _
    simp only [evalConditions]
    exact .pure trivial
  | .mk _ condition body :: rest => by
    intro C hs h
    simp only [elseIfNodes, List.forall_mem_append] at h
    simp only [evalConditions]
    exact (hs.settle (eval_complies condition C hs h.1.1)).bind fun _ _ =>
      evalConditions_complies rest C hs h.2

private theorem elseIfBranches_complies : ∀ (elseIfs : List ElseIf) (C : Contract), C.Fits s →
    (∀ n ∈ elseIfNodes elseIfs, C.admits n) → C.HoldsIn (elseIfBranches s elseIfs) fun _ => True
  | [] => by
    intro C _ _
    simp only [elseIfBranches]
    exact .pure trivial
  | .mk _ _ body :: rest => by
    intro C hs h
    simp only [elseIfNodes, List.forall_mem_append] at h
    simp only [elseIfBranches]
    refine (exec_complies body C hs h.1.2).branch.bind fun _ _ => ?_
    exact (elseIfBranches_complies rest C hs h.2).bind fun _ _ => .pure trivial

private theorem evalTests_complies : ∀ (cases : List Case) (C : Contract), C.Fits s →
    (∀ n ∈ caseNodes cases, C.admits n) → C.HoldsIn (evalTests s cases) fun _ => True
  | [] => by
    intro C _ _
    simp only [evalTests]
    exact .pure trivial
  | .test _ value body :: rest => by
    intro C hs h
    simp only [caseNodes, List.forall_mem_append] at h
    simp only [evalTests]
    exact (hs.settle (eval_complies value C hs h.1.1)).bind fun _ _ =>
      evalTests_complies rest C hs h.2
  | .fallback _ body :: rest => by
    intro C hs h
    simp only [caseNodes, List.forall_mem_append] at h
    simp only [evalTests]
    exact evalTests_complies rest C hs h.2

private theorem enterCases_complies : ∀ (cases : List Case) (C : Contract), C.Fits s →
    (∀ n ∈ caseNodes cases, C.admits n) → C.HoldsIn (enterCases s cases) fun _ => True
  | [] => by
    intro C _ _
    simp only [enterCases]
    exact .pure trivial
  | .test _ _ body :: rest => by
    intro C hs h
    simp only [caseNodes, List.forall_mem_append] at h
    simp only [enterCases]
    refine (Fits.throughCase (runCase_complies body C hs h.1.2)
      (runCases_complies rest C hs h.2)).branch.bind fun _ _ => ?_
    exact (enterCases_complies rest C hs h.2).bind fun _ _ => .pure trivial
  | .fallback _ body :: rest => by
    intro C hs h
    simp only [caseNodes, List.forall_mem_append] at h
    simp only [enterCases]
    refine (Fits.throughCase (runCase_complies body C hs h.1)
      (runCases_complies rest C hs h.2)).branch.bind fun _ _ => ?_
    exact (enterCases_complies rest C hs h.2).bind fun _ _ => .pure trivial

private theorem runCases_complies : ∀ (cases : List Case) (C : Contract), C.Fits s →
    (∀ n ∈ caseNodes cases, C.admits n) → C.HoldsIn (runCases s cases) fun _ => True
  | [] => by
    intro C _ _
    simp only [runCases]
    exact .pure trivial
  | .test _ _ body :: rest => by
    intro C hs h
    simp only [caseNodes, List.forall_mem_append] at h
    simp only [runCases]
    exact Fits.throughCase (runCase_complies body C hs h.1.2) (runCases_complies rest C hs h.2)
  | .fallback _ body :: rest => by
    intro C hs h
    simp only [caseNodes, List.forall_mem_append] at h
    simp only [runCases]
    exact Fits.throughCase (runCase_complies body C hs h.1) (runCases_complies rest C hs h.2)

private theorem runCase_complies : ∀ (body : List Stmt) (C : Contract), C.Fits s →
    (∀ n ∈ bodyNodes body, C.admits n) → C.HoldsIn (runCase s body) fun _ => True
  | [] => by
    intro C _ _
    simp only [runCase]
    exact .pure trivial
  | stmt :: rest => by
    intro C hs h
    simp only [bodyNodes, List.forall_mem_append] at h
    rcases isBreak_cases stmt with ⟨pos, rfl⟩ | hb
    · simp only [runCase]
      exact .pure trivial
    · rw [runCase_cons hb]
      refine (exec_complies stmt C hs h.1).bind fun terminated _ => ?_
      cases terminated with
      | true => exact .pure trivial
      | false => exact runCase_complies rest C hs h.2

private theorem catchBranches_complies : ∀ (catches : List Catch) (C : Contract), C.Fits s →
    (∀ n ∈ catchNodes catches, C.admits n) → C.HoldsIn (catchBranches s catches) fun _ => True
  | [] => by
    intro C _ _
    simp only [catchBranches]
    exact .pure trivial
  | .mk _ classes var _ body :: rest => by
    intro C hs h
    simp only [catchNodes, List.forall_mem_append] at h
    simp only [catchBranches]
    refine (hs.catchScope classes var).bind fun scope hscope => ?_
    refine (HoldsIn.branchFrom hscope (execAll_complies body C hs h.1)).bind fun _ _ => ?_
    exact (catchBranches_complies rest C hs h.2).bind fun _ _ => .pure trivial

private theorem bindStatics_complies : ∀ (vars : List StaticVar) (C : Contract), C.Fits s →
    (∀ n ∈ staticNodes vars, C.admits n) → C.HoldsIn (bindStatics s vars) fun _ => True
  | [] => by
    intro C _ _
    simp only [bindStatics]
    exact .pure trivial
  | .mk name none :: rest => by
    intro C hs h
    simp only [staticNodes, List.forall_mem_append] at h
    simp only [bindStatics]
    exact (hs.bindVar name _).bind fun _ _ => bindStatics_complies rest C hs h.2
  | .mk name (some e) :: rest => by
    intro C hs h
    simp only [staticNodes, valueNodes, List.forall_mem_append] at h
    simp only [bindStatics]
    refine (hs.settle (eval_complies e C hs h.1)).bind fun t _ => ?_
    exact (hs.bindVar name _).bind fun _ _ => bindStatics_complies rest C hs h.2

end

end PhpTypes.Inference
