import PhpTypes.Proofs.CommentOrigins
import PhpTypes.Source.Parse

/-!
# Comments of trees

Statements have several readings, and declarations take the place of their first token along. In
every reading of every rule, and so in the tree of a file, each comment belongs to a token at the
position of its node.
-/

namespace PhpTypes.Source

namespace Parser.Readings

variable {α : Type}

private theorem mem_insert {a x : α × List Token} {rs : Readings α} (h : x ∈ insert a rs) :
    x = a ∨ x ∈ rs := by
  induction rs with
  | nil => simpa [insert] using h
  | cons b rs ih =>
    rw [insert] at h
    split at h
    · simpa using h
    · split at h
      · exact .inr h
      · rcases List.mem_cons.mp h with rfl | h
        · exact .inr List.mem_cons_self
        · exact (ih h).imp_right (List.mem_cons_of_mem b)

private theorem mem_foldl_insert {x : α × List Token} {rs kept : Readings α}
    (h : x ∈ rs.foldl (fun kept a => insert a kept) kept) : x ∈ rs ∨ x ∈ kept := by
  induction rs generalizing kept with
  | nil => exact .inr h
  | cons a rs ih =>
    rcases ih h with h | h
    · exact .inl (List.mem_cons_of_mem a h)
    · rcases mem_insert h with rfl | h
      · exact .inl List.mem_cons_self
      · exact .inr h

private theorem mem_of_mem_preferred {x : α × List Token} {rs : Readings α} (h : x ∈ preferred rs) :
    x ∈ rs := by
  rcases mem_foldl_insert h with h | h
  · exact h
  · cases h

end Parser.Readings

private theorem Parser.mem_placeClauses {a x : List ElseIf × List Token}
    {rs : Readings (List ElseIf)} (h : x ∈ placeClauses a rs) : x = a ∨ x ∈ rs := by
  induction rs with
  | nil => simpa [placeClauses] using h
  | cons b rs ih =>
    rw [placeClauses] at h
    split at h
    · simpa using h
    · split at h
      · split at h
        · exact .inr h
        · exact (List.mem_cons.mp h).imp_right (List.mem_cons_of_mem b)
      · rcases List.mem_cons.mp h with rfl | h
        · exact .inr List.mem_cons_self
        · exact (ih h).imp_right (List.mem_cons_of_mem b)

namespace Origin

open PhpTypes.Source.Parser TokenParser

variable {o : Origin} {α β : Type}

namespace GivesAll

theorem ofParser {p : Parser α} {Q : α → Prop} (hp : o.Gives p Q) {ts : List Token}
    (hts : ∀ t ∈ ts, o.Has t) : o.GivesAll (.ofParser p ts) Q := by
  intro a ha
  exact hp ts hts a.1 a.2 (Option.mem_toList.mp ha)

theorem each {rs : Readings α} {P : α → Prop} {Q : β → Prop} (h : o.GivesAll rs P) {f : α → β}
    (hf : ∀ a, P a → Q (f a)) : o.GivesAll (Readings.each f rs) Q := by
  intro b hb
  obtain ⟨a, ha, rfl⟩ := List.mem_map.mp hb
  exact (h a ha).imp_left (hf a.1)

theorem andThen {rs : Readings α} {P : α → Prop} {Q : β → Prop} (h : o.GivesAll rs P)
    {f : α → List Token → Readings β}
    (hf : ∀ a ts, P a → (∀ t ∈ ts, o.Has t) → o.GivesAll (f a ts) Q) :
    o.GivesAll (Readings.andThen rs f) Q := by
  intro b hb
  obtain ⟨a, ha, hb⟩ := List.mem_flatMap.mp hb
  obtain ⟨hP, hts⟩ := h a ha
  exact hf a.1 a.2 hP hts b hb

theorem append {rs rs' : Readings α} {Q : α → Prop} (h : o.GivesAll rs Q)
    (h' : o.GivesAll rs' Q) : o.GivesAll (rs ++ rs') Q :=
  List.forall_mem_append.mpr ⟨h, h'⟩

theorem preferred {rs : Readings α} {Q : α → Prop} (h : o.GivesAll rs Q) :
    o.GivesAll (Readings.preferred rs) Q :=
  fun a ha => h a (Readings.mem_of_mem_preferred ha)

end GivesAll

namespace Obeys

variable {r : Rules} (hr : o.Obeys r)

include hr

/-! Statements. -/

section

variable {ts : List Token} (hts : ∀ t ∈ ts, o.Has t)

include hts

theorem elseIfClause :
    o.GivesAll (elseIfClause r ts) fun c => o.ExplainsAll (elseIfNodes [c]) := by
  have hhead : o.Gives (do
      let t ← keyword .elseifKw
      return (t.pos, ← parenthesized r.expr)) fun p => o.ExplainsAll (exprNodes p.2) :=
    (gives_keyword .elseifKw).bind fun t _ =>
      (gives_parenthesized hr.expr).bind fun e he => .pure he
  refine (GivesAll.ofParser hhead hts).andThen fun p rest hp hrest => ?_
  exact GivesAll.each (hr.stmt rest hrest) fun stmt hstmt => by simp [hp, hstmt]

theorem elseClause : o.GivesAll (elseClause r ts) fun stmt => o.ExplainsAll (stmtNodes stmt) :=
  (GivesAll.ofParser (gives_keyword .elseKw) hts).andThen fun _ rest _ hrest => hr.stmt rest hrest

end

theorem extendClauses (fuel : Nat) {pending : Readings (List ElseIf)}
    (h : o.GivesAll pending fun cs => o.ExplainsAll (elseIfNodes cs)) :
    o.GivesAll (extendClauses r fuel pending) fun cs => o.ExplainsAll (elseIfNodes cs) := by
  induction fuel generalizing pending with
  | zero => exact h
  | succ fuel ih =>
    cases pending with
    | nil => exact h
    | cons first pending =>
      obtain ⟨clauses, ts⟩ := first
      obtain ⟨⟨hclauses, hts⟩, hpending⟩ := List.forall_mem_cons.mp h
      have hlonger : o.GivesAll
          (Readings.each (fun c => clauses ++ [c]) (Parser.elseIfClause r ts))
          fun cs => o.ExplainsAll (elseIfNodes cs) := by
        refine (hr.elseIfClause hts).each fun c hc => ?_
        rw [explainsAll_elseIfs] at hclauses ⊢
        exact List.forall_mem_append.mpr ⟨hclauses, by simpa using hc⟩
      refine List.forall_mem_cons.mpr ⟨⟨hclauses, hts⟩, ih ?_⟩
      refine List.foldlRecOn (motive := fun rs =>
        o.GivesAll rs fun cs => o.ExplainsAll (elseIfNodes cs)) _ _ hpending ?_
      intro rs hrs a ha x hx
      rcases mem_placeClauses hx with rfl | hx
      · exact hlonger x ha
      · exact hrs x hx

theorem elseIfClauses {ts : List Token} (hts : ∀ t ∈ ts, o.Has t) :
    o.GivesAll (elseIfClauses r ts) fun cs => o.ExplainsAll (elseIfNodes cs) := by
  apply hr.extendClauses
  intro a ha
  exact (hr.elseIfClause hts).each (Q := fun cs => o.ExplainsAll (elseIfNodes cs))
    (fun _ hc => hc) a (List.mem_reverse.mp ha)

theorem conditional {ts : List Token} (hts : ∀ t ∈ ts, o.Has t) :
    o.GivesAll (conditional r ts) fun stmt => o.ExplainsAll (stmtNodes stmt) := by
  have hhead : o.Gives (do
      let t ← keyword .ifKw
      return (t.mark, ← parenthesized r.expr))
      fun p => o.Marks p.1 ∧ o.ExplainsAll (exprNodes p.2) :=
    (gives_keyword .ifKw).bind fun t ht =>
      (gives_parenthesized hr.expr).bind fun e he => .pure ⟨ht.marks, he⟩
  refine (GivesAll.ofParser hhead hts).andThen ?_
  rintro ⟨mark, condition⟩ rest ⟨hmark, hc⟩ hrest
  dsimp -zeta only
  extract_lets make bare withElseIfs withBoth withElse
  have hmake : ∀ {yes elseIfs no}, o.ExplainsAll (stmtNodes yes) →
      o.ExplainsAll (elseIfNodes elseIfs) → o.ExplainsAll (stmtNodes no) →
      o.ExplainsAll (stmtNodes (make yes elseIfs no)) := by
    intro yes elseIfs no hyes helseIfs hno
    have hnode : o.Explains (.stmt (make yes elseIfs no)) := hr.explains hmark rfl
    simpa [make, hc, hyes, helseIfs, hno] using hnode
  have hnone : o.ExplainsAll (elseIfNodes []) := by simp
  have hempty : o.ExplainsAll (stmtNodes .empty) := by simpa using explains_of_none rfl
  have hbare : o.GivesAll bare fun yes => o.ExplainsAll (stmtNodes yes) := hr.stmt rest hrest
  have hwithElseIfs : o.GivesAll withElseIfs fun p =>
      o.ExplainsAll (stmtNodes p.1) ∧ o.ExplainsAll (elseIfNodes p.2) := by
    refine (hbare.andThen fun yes ts hyes hts => ?_).preferred
    exact (hr.elseIfClauses hts).each fun cs hcs => ⟨hyes, hcs⟩
  have hwithBoth : o.GivesAll withBoth fun stmt => o.ExplainsAll (stmtNodes stmt) :=
    hwithElseIfs.andThen fun p ts hp hts =>
      (hr.elseClause hts).each fun no hno => hmake hp.1 hp.2 hno
  have hwithElse : o.GivesAll withElse fun stmt => o.ExplainsAll (stmtNodes stmt) :=
    hbare.andThen fun yes ts hyes hts =>
      (hr.elseClause hts).each fun no hno => hmake hyes hnone hno
  refine (((hwithBoth.append ?_).append hwithElse).append ?_).preferred
  · exact hwithElseIfs.each fun p hp => hmake hp.1 hp.2 hempty
  · exact hbare.each fun yes hyes => hmake hyes hnone hempty

theorem headed {head : Parser α} {P : α → Prop} (hhead : o.Gives head P) {make : α → Stmt → Stmt}
    (hmake : ∀ a body, P a → o.ExplainsAll (stmtNodes body) →
      o.ExplainsAll (stmtNodes (make a body))) {ts : List Token} (hts : ∀ t ∈ ts, o.Has t) :
    o.GivesAll (headed r head make ts) fun stmt => o.ExplainsAll (stmtNodes stmt) :=
  (GivesAll.ofParser hhead hts).andThen fun a rest ha hrest =>
    (hr.stmt rest hrest).each fun body hbody => hmake a body ha hbody

theorem whileHead : o.Gives (whileHead r) fun p => o.ExplainsAll (exprNodes p.2) :=
  (gives_keyword .whileKw).bind fun _ _ =>
    (gives_parenthesized hr.expr).bind fun _ he => .pure he

theorem exprList : o.Gives (exprList r) fun es => o.ExplainsAll (exprsNodes es) :=
  (gives_separated hr.expr .comma).weaken fun _ => explainsAll_exprs.mpr

theorem exprListUntil (closing : Symbol) :
    o.Gives (exprListUntil r closing) fun es => o.ExplainsAll (exprsNodes es) := by
  refine (gives_acceptsSymbol closing).bind fun b _ => ?_
  split
  · exact .pure (by simp)
  · exact hr.exprList.bind fun es hes => (gives_symbol closing).skip (.pure hes)

theorem forHead : o.Gives (forHead r) fun p => o.ExplainsAll (exprsNodes p.2.1) ∧
    o.ExplainsAll (exprsNodes p.2.2.1) ∧ o.ExplainsAll (exprsNodes p.2.2.2) := by
  refine (gives_keyword .forKw).bind fun t _ => (gives_symbol .lpar).skip ?_
  refine (hr.exprListUntil .semicolon).bind fun start hstart => ?_
  refine (hr.exprListUntil .semicolon).bind fun condition hcondition => ?_
  exact (hr.exprListUntil .rpar).bind fun step hstep => .pure ⟨hstart, hcondition, hstep⟩

theorem foreachTarget : o.Gives (foreachTarget r) fun p =>
    o.ExplainsAll (valueNodes p.1) ∧ o.ExplainsAll (exprNodes p.2) := by
  refine (gives_acceptsSymbol .amp).bind fun b _ => ?_
  split
  · exact hr.expr.bind fun e he => .pure ⟨by simp, he⟩
  · refine hr.expr.bind fun first hfirst => (gives_acceptsSymbol .doubleArrow).bind fun b _ => ?_
    split
    · refine (gives_acceptsSymbol .amp).skip (hr.expr.bind fun e he => ?_)
      exact .pure ⟨by simpa using hfirst, he⟩
    · exact .pure ⟨by simp, hfirst⟩

theorem foreachHead : o.Gives (foreachHead r) fun p => o.ExplainsAll (exprNodes p.2.1) ∧
    o.ExplainsAll (valueNodes p.2.2.1) ∧ o.ExplainsAll (exprNodes p.2.2.2) := by
  have hinner : o.Gives (do
      let iterable ← r.expr
      let _ ← keyword .asKw
      return (iterable, ← Parser.foreachTarget r)) fun p => o.ExplainsAll (exprNodes p.1) ∧
        o.ExplainsAll (valueNodes p.2.1) ∧ o.ExplainsAll (exprNodes p.2.2) := by
    refine hr.expr.bind fun iterable hiterable => (gives_keyword .asKw).skip ?_
    exact hr.foreachTarget.bind fun target htarget => .pure ⟨hiterable, htarget⟩
  refine (gives_keyword .foreachKw).bind fun t _ => ?_
  exact (gives_parenthesized hinner).bind fun p hp => .pure hp

theorem doLoop : o.Gives (doLoop r) fun stmt => o.ExplainsAll (stmtNodes stmt) := by
  refine (gives_keyword .doKw).bind fun t _ => hr.firstReading.bind fun body hbody => ?_
  refine (gives_keyword .whileKw).skip ((gives_parenthesized hr.expr).bind fun e he => ?_)
  refine (gives_symbol .semicolon).skip (.pure ?_)
  simpa [hbody, he] using explains_of_none rfl

omit hr in
theorem caseEnd : o.Gives caseEnd fun _ => True := by
  refine (gives_acceptsSymbol .colon).bind fun b _ => ?_
  split
  · exact .pure trivial
  · exact (gives_symbol .semicolon).skip (.pure trivial)

theorem switchCase : o.Gives (switchCase r) fun c => o.ExplainsAll (caseNodes [c]) := by
  refine gives_here.bind fun mark _ => (gives_acceptsKeyword .caseKw).bind fun b _ => ?_
  split
  · refine hr.expr.bind fun value hvalue => caseEnd.skip (hr.statements.bind fun body hbody => ?_)
    exact .pure (by simp [hvalue, hbody])
  · refine (gives_keyword .defaultKw).skip (caseEnd.skip ?_)
    exact hr.statements.bind fun body hbody => .pure (by simp [hbody])

theorem switch : o.Gives (switch r) fun stmt => o.ExplainsAll (stmtNodes stmt) := by
  refine (gives_keyword .switchKw).bind fun t _ => ?_
  refine (gives_parenthesized hr.expr).bind fun subject hsubject => (gives_symbol .lbrace).skip ?_
  refine hr.switchCase.many.bind fun cases hcases => (gives_symbol .rbrace).skip (.pure ?_)
  simpa [hsubject, explainsAll_cases.mpr hcases] using explains_of_none rfl

theorem catchClause : o.Gives (catchClause r) fun c => o.ExplainsAll (catchNodes [c]) := by
  refine (gives_keyword .catchKw).bind fun t _ => ?_
  refine Gives.bind (P := fun _ => True) (gives_parenthesized ?_) fun p _ => ?_
  · refine (gives_separated gives_name .pipe).bind fun classes _ => gives_look.bind fun next _ => ?_
    split
    · exact gives_variableName.bind fun _ _ => .pure trivial
    · exact .pure trivial
  · refine gives_here.bind fun mark _ => ?_
    exact hr.block.bind fun body hbody => .pure (by simp [hbody])

theorem guarded : o.Gives (guarded r) fun stmt => o.ExplainsAll (stmtNodes stmt) := by
  have hfinally : o.Gives (do
      let pos := (← here).pos
      return Stmt.block pos (← Parser.block r)) fun stmt => o.ExplainsAll (stmtNodes stmt) := by
    refine gives_here.bind fun mark _ => hr.block.bind fun body hbody => .pure ?_
    simpa [hbody] using explains_of_none rfl
  refine (gives_keyword .tryKw).bind fun t _ => gives_here.bind fun mark _ => ?_
  refine hr.block.bind fun body hbody => hr.catchClause.many.bind fun catches hcatches => ?_
  refine (gives_afterKeyword hfinally .finallyKw).bind fun finalizer hfinalizer => .pure ?_
  have hlast : o.ExplainsAll (stmtNodes (finalizer.getD .empty)) := by
    cases finalizer with
    | none => simpa using explains_of_none rfl
    | some stmt => exact hfinalizer stmt rfl
  simpa [hbody, explainsAll_catches.mpr hcatches, hlast] using explains_of_none rfl

theorem exprIfAny : o.Gives (exprIfAny r) fun e => o.ExplainsAll (valueNodes e) := by
  refine (gives_acceptsSymbol .semicolon).bind fun b _ => ?_
  split
  · exact .pure (by simp)
  · exact hr.expr.bind fun e he => (gives_symbol .semicolon).skip (.pure (by simpa))

theorem returns : o.Gives (returns r) fun stmt => o.ExplainsAll (stmtNodes stmt) := by
  refine (gives_keyword .returnKw).bind fun t ht => hr.exprIfAny.bind fun e he => .pure ?_
  simpa [he] using hr.explains ht.marks rfl

theorem statics : o.Gives (statics r) fun stmt => o.ExplainsAll (stmtNodes stmt) := by
  have hvariable : o.Gives (staticVariable r) fun v => o.ExplainsAll (staticNodes [v]) := by
    refine gives_variableName.bind fun name _ => ?_
    refine (gives_afterSymbol hr.expr .assign).bind fun value hvalue => .pure ?_
    simpa [explainsAll_value] using hvalue
  refine (gives_keyword .staticKw).bind fun t _ => ?_
  refine (gives_separated hvariable .comma).bind fun vars hvars => ?_
  refine (gives_symbol .semicolon).skip (.pure ?_)
  simpa [explainsAll_statics.mpr hvars] using explains_of_none rfl

theorem keywordExpr (k : Keyword) {make : Pos → Expr → Stmt}
    (hmake : ∀ pos e, o.ExplainsAll (exprNodes e) → o.ExplainsAll (stmtNodes (make pos e))) :
    o.Gives (keywordExpr r k make) fun stmt => o.ExplainsAll (stmtNodes stmt) :=
  (gives_keyword k).bind fun _ _ => hr.expr.bind fun _ he =>
    (gives_symbol .semicolon).skip (.pure (hmake _ _ he))

theorem exprStatement : o.Gives (exprStatement r) fun stmt => o.ExplainsAll (stmtNodes stmt) := by
  refine gives_here.bind fun mark hmark => hr.expr.bind fun e he => ?_
  refine (gives_symbol .semicolon).skip (.pure ?_)
  simpa [he] using hr.explains hmark rfl

theorem closedStatement :
    o.Gives (closedStatement r) fun stmt => o.ExplainsAll (stmtNodes stmt) := by
  have hincludes : ∀ pos e, o.ExplainsAll (exprNodes e) →
      o.ExplainsAll (stmtNodes (.includes pos e)) := by
    intro pos e he
    simpa [he] using explains_of_none rfl
  refine gives_look.bind fun next _ => gives_lookSecond.bind fun second _ => ?_
  split
  · refine (gives_symbol .semicolon).skip (.pure ?_)
    simpa using explains_of_none rfl
  · refine gives_here.bind fun mark _ => hr.block.bind fun body hbody => .pure ?_
    simpa [hbody] using explains_of_none rfl
  · exact hr.doLoop
  · exact hr.switch
  · exact hr.guarded
  · exact hr.returns
  · refine (gives_keyword .breakKw).bind fun t _ => hr.exprIfAny.skip (.pure ?_)
    simpa using explains_of_none rfl
  · refine (gives_keyword .continueKw).bind fun t _ => hr.exprIfAny.skip (.pure ?_)
    simpa using explains_of_none rfl
  · refine hr.keywordExpr .throwKw fun pos e he => ?_
    simpa [he] using explains_of_none rfl
  · refine (gives_keyword .echoKw).bind fun t _ => hr.exprList.bind fun es hes => ?_
    refine (gives_symbol .semicolon).skip (.pure ?_)
    simpa [hes] using explains_of_none rfl
  · refine (gives_keyword .globalKw).bind fun t _ => ?_
    refine (gives_separated gives_variableName .comma).bind fun names _ => ?_
    refine (gives_symbol .semicolon).skip (.pure ?_)
    simpa using explains_of_none rfl
  · exact hr.statics
  · exact hr.keywordExpr .includeKw hincludes
  · exact hr.keywordExpr .includeOnceKw hincludes
  · exact hr.keywordExpr .requireKw hincludes
  · exact hr.keywordExpr .requireOnceKw hincludes
  · exact hr.exprStatement

private theorem statementReadings {ts : List Token} (hts : ∀ t ∈ ts, o.Has t) :
    o.GivesAll (Parser.stmt r ts) fun stmt => o.ExplainsAll (stmtNodes stmt) := by
  unfold Parser.stmt
  split
  · exact hr.conditional hts
  · refine hr.headed hr.whileHead (fun p body hp hbody => ?_) hts
    simpa [hp, hbody] using explains_of_none rfl
  · refine hr.headed hr.forHead (fun p body hp hbody => ?_) hts
    simpa [hp, hbody] using explains_of_none rfl
  · refine hr.headed hr.foreachHead (fun p body hp hbody => ?_) hts
    simpa [hp, hbody] using explains_of_none rfl
  · exact GivesAll.ofParser hr.closedStatement hts

end Obeys

/-- All storeys of the rules keep to the origin. -/
theorem obeys_rules (o : Origin) (n : Nat) : o.Obeys (rules o.docs n) := by
  induction n with
  | zero => exact ⟨rfl, .fail, .fail, fun _ _ _ h => by cases h⟩
  | succ n ih => exact ⟨rfl, ih.expression, ih.prefixed, fun _ hts => ih.statementReadings hts⟩

/-! Declarations. -/

/-- The nodes that a member adds to its class. -/
def memberNodes : Member → List Node
  | .methodDecl m => methodNodes m
  | .propertyDecls ps => ps.flatMap propertyNodes
  | .constantDecls cs => cs.flatMap constantNodes
  | .traitUse _ => []

private theorem explainsAll_flatMap {as : List α} {nodes : α → List Node} :
    o.ExplainsAll (as.flatMap nodes) ↔ ∀ a ∈ as, o.ExplainsAll (nodes a) := by
  induction as with
  | nil => simp
  | cons a as ih => simp [ih]

namespace Obeys

variable {r : Rules} (hr : o.Obeys r)

include hr

theorem constItems {mark : Mark} (hmark : o.Marks mark) :
    o.Gives (constItems r mark) fun cs => ∀ c ∈ cs, o.ExplainsAll (constantNodes c) := by
  have hitem : o.Gives (constItem r mark) fun c => o.ExplainsAll (constantNodes c) := by
    refine gives_memberName.bind fun name _ => (gives_symbol .assign).skip ?_
    refine hr.expr.bind fun e he => .pure ?_
    simpa [constantNodes, he] using hr.explains hmark rfl
  refine (gives_keyword .constKw).skip ((gives_separated hitem .comma).bind fun cs hcs => ?_)
  exact (gives_symbol .semicolon).skip (.pure hcs)

theorem method {mark : Mark} (hmark : o.Marks mark) (mods : List Token) :
    o.Gives (method r mark mods) fun m => o.ExplainsAll (methodNodes m) := by
  refine (gives_keyword .functionKw).skip ((gives_acceptsSymbol .amp).skip ?_)
  refine gives_memberName.bind fun name _ => hr.params.bind fun ps hps => ?_
  refine gives_returnHint.bind fun hint _ => gives_here.bind fun bodyMark _ => ?_
  have hmethod : ∀ {body : Option Body}, o.ExplainsAll (bodyNodes ((body.map Body.stmts).getD [])) →
      o.ExplainsAll (methodNodes ⟨mark.pos, r.docs.at? mark.offset, name, ps, hint, body,
        mods.map modifierText⟩) := by
    intro body hbody
    simpa [methodNodes, hps, hbody] using hr.explains hmark rfl
  refine (gives_acceptsSymbol .semicolon).bind fun b _ => ?_
  split
  · exact .pure (hmethod (by simp))
  · exact hr.block.bind fun body hbody => .pure (hmethod (by simpa using hbody))

theorem properties {mark : Mark} (hmark : o.Marks mark) {mods : List Token}
    (hmods : ∀ t ∈ mods, o.Has t) :
    o.Gives (properties r mark mods) fun ps => ∀ p ∈ ps, o.ExplainsAll (propertyNodes p) := by
  refine (gives_hintAfter hmods).bind fun ⟨texts, hint⟩ _ => ?_
  dsimp only
  split
  · exact Gives.bind (P := fun _ => False) .fail fun _ h => h.elim
  · have hitem : o.Gives (do
        let name ← variableName
        return (name, ← afterSymbol .assign r.expr)) fun p => o.ExplainsAll (valueNodes p.2) := by
      refine gives_variableName.bind fun name _ => ?_
      refine (gives_afterSymbol hr.expr .assign).bind fun value hvalue => .pure ?_
      exact explainsAll_value.mpr hvalue
    refine (gives_separated hitem .comma).bind fun items hitems => ?_
    refine (gives_symbol .semicolon).skip (.pure ?_)
    intro p hp
    obtain ⟨item, hmem, rfl⟩ := List.mem_map.mp hp
    simpa [propertyNodes, hitems item hmem] using hr.explains hmark rfl

theorem member : o.Gives (member r) fun m => o.ExplainsAll (memberNodes m) := by
  refine gives_here.bind fun mark hmark => (gives_acceptsKeyword .useKw).bind fun b _ => ?_
  split
  · refine gives_nameList.bind fun names _ => (gives_symbol .semicolon).skip ?_
    exact .pure explainsAll_nil
  · refine gives_modifiers.bind fun mods hmods => gives_look.bind fun next _ => ?_
    split
    · exact (hr.method hmark mods).bind fun m hm => .pure hm
    · exact (hr.constItems hmark).bind fun cs hcs => .pure (explainsAll_flatMap.mpr hcs)
    · exact (hr.properties hmark hmods).bind fun ps hps => .pure (explainsAll_flatMap.mpr hps)

omit hr in
theorem addMember {c : ClassLike} (hc : o.ExplainsAll (classNodes c)) {m : Member}
    (hm : o.ExplainsAll (memberNodes m)) : o.ExplainsAll (classNodes (addMember c m)) := by
  simp only [classNodes, explainsAll_cons, explainsAll_append] at hc ⊢
  obtain ⟨hself, ⟨hmethods, hproperties⟩, hconstants⟩ := hc
  -- The class keeps its position and its comment, so it is explained as it was before.
  cases m with
  | methodDecl m =>
    refine ⟨hself, ⟨?_, hproperties⟩, hconstants⟩
    simpa [Parser.addMember, memberNodes, hmethods] using hm
  | propertyDecls ps =>
    refine ⟨hself, ⟨hmethods, ?_⟩, hconstants⟩
    simpa [Parser.addMember, memberNodes, hproperties] using hm
  | constantDecls cs =>
    refine ⟨hself, ⟨hmethods, hproperties⟩, ?_⟩
    simpa [Parser.addMember, memberNodes, hconstants] using hm
  | traitUse names => exact ⟨hself, ⟨hmethods, hproperties⟩, hconstants⟩

theorem classBody {c : ClassLike} (hc : o.ExplainsAll (classNodes c)) :
    o.Gives (classBody r c) fun c => o.ExplainsAll (classNodes c) := by
  refine (gives_symbol .lbrace).skip (hr.member.many.bind fun members hmembers => ?_)
  refine (gives_symbol .rbrace).skip (.pure ?_)
  exact List.foldlRecOn (motive := fun c => o.ExplainsAll (classNodes c)) members _ hc
    fun c hc m hm => addMember hc (hmembers m hm)

/-- A class without members has only its own comment. -/
theorem memberless {c : ClassLike} {mark : Mark} (hmark : o.Marks mark)
    (h : c.doc = r.docs.at? mark.offset ∧ c.pos = mark.pos) (hmethods : c.methods = [])
    (hproperties : c.properties = []) (hconstants : c.constants = []) :
    o.ExplainsAll (classNodes c) := by
  have hnode : o.Explains (.classLike c) := hr.explains hmark (by simp [Node.comment?, h])
  simpa [classNodes, hmethods, hproperties, hconstants] using hnode

theorem ordinaryClass {mark : Mark} (hmark : o.Marks mark) (mods : List Token) :
    o.Gives (ordinaryClass r mark mods) fun c => o.ExplainsAll (classNodes c) := by
  refine (gives_keyword .classKw).skip (gives_name.bind fun name _ => ?_)
  refine (gives_afterKeyword gives_name .extendsKw).bind fun parent _ => ?_
  refine (gives_afterKeyword gives_nameList .implementsKw).bind fun interfaces _ => ?_
  exact hr.classBody (hr.memberless hmark ⟨rfl, rfl⟩ rfl rfl rfl)

theorem traitClass : o.Gives (traitClass r) fun c => o.ExplainsAll (classNodes c) := by
  refine gives_here.bind fun mark hmark => (gives_keyword .traitKw).skip ?_
  exact gives_name.bind fun name _ => hr.classBody (hr.memberless hmark ⟨rfl, rfl⟩ rfl rfl rfl)

theorem interfaceClass : o.Gives (interfaceClass r) fun c => o.ExplainsAll (classNodes c) := by
  refine gives_here.bind fun mark hmark => (gives_keyword .interfaceKw).skip ?_
  refine gives_name.bind fun name _ => ?_
  refine (gives_afterKeyword gives_nameList .extendsKw).bind fun parents _ => ?_
  exact hr.classBody (hr.memberless hmark ⟨rfl, rfl⟩ rfl rfl rfl)

theorem function : o.Gives (function r) fun f => o.ExplainsAll (functionNodes f) := by
  refine gives_here.bind fun mark hmark => (gives_keyword .functionKw).skip ?_
  refine (gives_acceptsSymbol .amp).skip (gives_name.bind fun name _ => ?_)
  refine hr.params.bind fun ps hps => gives_returnHint.bind fun hint _ => ?_
  refine gives_here.bind fun bodyMark _ => hr.block.bind fun body hbody => .pure ?_
  simpa [functionNodes, hps, hbody] using hr.explains hmark rfl

theorem modified : o.Gives (modified r) fun tops => o.ExplainsAll (tops.flatMap topNodes) := by
  refine gives_here.bind fun mark hmark => gives_modifiers.bind fun mods hmods => ?_
  refine gives_look.bind fun next _ => ?_
  split
  · refine (hr.constItems hmark).bind fun cs hcs => .pure ?_
    rw [List.flatMap_map]
    exact explainsAll_flatMap.mpr hcs
  · split
    · exact (hr.ordinaryClass hmark mods).bind fun c hc => .pure (by simpa [topNodes] using hc)
    · exact .fail

theorem statement : o.Gives (statement r) fun tops => o.ExplainsAll (tops.flatMap topNodes) := by
  intro ts hts tops rest h
  obtain ⟨⟨stmt, rest'⟩, hstmt, heq⟩ := Option.map_eq_some_iff.mp h
  obtain ⟨hnodes, hrest⟩ := hr.firstReading ts hts stmt rest' hstmt
  cases heq
  refine ⟨?_, hrest⟩
  split
  · exact explainsAll_nil
  · simpa [topNodes] using hnodes

theorem top : o.Gives (top r) fun tops => o.ExplainsAll (tops.flatMap topNodes) := by
  refine gives_look.bind fun next _ => ?_
  split
  · refine (gives_keyword .namespaceKw).bind fun t _ => gives_name.bind fun name _ => ?_
    exact (gives_symbol .semicolon).skip (.pure (by simp [topNodes]))
  · have hitem : o.Gives useItem fun _ => True :=
      gives_name.bind fun _ _ => (gives_afterKeyword gives_name .asKw).bind fun _ _ => .pure trivial
    refine (gives_keyword .useKw).bind fun t _ => (gives_separated hitem .comma).bind fun _ _ => ?_
    exact (gives_symbol .semicolon).skip (.pure (by simp [topNodes]))
  · exact hr.traitClass.bind fun c hc => .pure (by simpa [topNodes] using hc)
  · exact hr.interfaceClass.bind fun c hc => .pure (by simpa [topNodes] using hc)
  · refine Gives.orElse ?_ hr.statement
    exact hr.function.bind fun f hf => .pure (by simpa [topNodes] using hf)
  · have hstarts : o.Gives startsModified fun _ => True := by
      intro ts hts b rest h
      unfold startsModified at h
      split at h <;> cases h <;> exact ⟨trivial, hts⟩
    refine hstarts.bind fun b _ => ?_
    split
    · exact hr.modified
    · exact hr.statement

theorem file : o.Gives (file r) fun f => o.ExplainsAll f.nodes := by
  refine hr.top.many.bind fun tops htops => .pure ?_
  refine explainsAll_flatMap.mpr fun t ht => ?_
  obtain ⟨ts, hts, ht⟩ := List.mem_flatten.mp ht
  exact explainsAll_flatMap.mp (htops ts hts) t ht

end Obeys

theorem parseTokens {f : File} (h : Parser.parseTokens o.docs o.tokens = some f) :
    o.ExplainsAll f.nodes := by
  unfold Parser.parseTokens TokenParser.complete at h
  split at h
  · rename_i hrun
    cases h
    exact ((o.obeys_rules _).file o.tokens (fun _ ht => ht) _ _ hrun).1
  · cases h

/-- The names in the clauses of a class have no comments. -/
theorem ExplainsAll.plain {f : File} (h : o.ExplainsAll f.nodes) : o.ExplainsAll f.plain.nodes := by
  rw [File.nodes, File.plain, List.flatMap_map]
  refine explainsAll_flatMap.mpr fun t ht => ?_
  have hnodes := explainsAll_flatMap.mp h t ht
  cases t with
  | classDecl c =>
    obtain ⟨hclass, hmembers⟩ := explainsAll_cons.mp hnodes
    exact explainsAll_cons.mpr ⟨hclass, hmembers⟩
  | _ => exact hnodes

/-- What the tree of a source is made from. -/
def ofSource (source : String) : Origin :=
  ⟨docComments source.toList, (lex source.toList).significant⟩

theorem explainsAll_of_parse {source : String} {f : File} (h : parse source = .ok f) :
    (ofSource source).ExplainsAll f.nodes := by
  unfold parse written at h
  simp only at h
  split at h
  · cases h
  · split at h
    · rename_i w hw
      cases h
      exact (parseTokens (o := ofSource source) hw).plain
    · cases h

end Origin

end PhpTypes.Source
