import PhpTypes.Proofs.Nodes
import PhpTypes.Proofs.ParserResults

/-!
# Where comments come from

The parser gives a node a doc comment by the place of a token. So every comment of a tree is the
comment that belongs to a token which stands at the position of its node.
-/

namespace PhpTypes.Source

/-- What a tree is made from: comments by their offsets, and tokens. -/
structure Origin where
  docs : DocComments
  tokens : List Token

namespace Origin

variable {o : Origin}

def Has (o : Origin) (t : Token) : Prop := t ∈ o.tokens

/-- The place of a token, or what stands for a place after all tokens. -/
def Marks (o : Origin) (mark : Mark) : Prop := mark = default ∨ ∃ t ∈ o.tokens, t.mark = mark

/-- The comment of a node, if it has one, belongs to the place at which the node stands. -/
def Explains (o : Origin) (node : Node) : Prop :=
  ∀ pos text, node.comment? = some (pos, text) →
    ∃ mark, o.Marks mark ∧ mark.pos = pos ∧ o.docs.at? mark.offset = some text

def ExplainsAll (o : Origin) (nodes : List Node) : Prop := ∀ node ∈ nodes, o.Explains node

theorem explains_of_none {node : Node} (h : node.comment? = none) : o.Explains node := by
  intro pos text hcomment
  rw [h] at hcomment
  cases hcomment

theorem explains_of_mark {node : Node} {mark : Mark} (hmark : o.Marks mark)
    (h : node.comment? = (o.docs.at? mark.offset).map fun text => (mark.pos, text)) :
    o.Explains node := by
  intro pos text hcomment
  rw [h] at hcomment
  obtain ⟨_, htext, heq⟩ := Option.map_eq_some_iff.mp hcomment
  cases heq
  exact ⟨mark, hmark, rfl, htext⟩

theorem Has.marks {t : Token} (h : o.Has t) : o.Marks t.mark := .inr ⟨t, h, rfl⟩

@[simp]
theorem explainsAll_nil : o.ExplainsAll [] := by
  intro node h
  cases h

@[simp]
theorem explainsAll_cons {node : Node} {nodes : List Node} :
    o.ExplainsAll (node :: nodes) ↔ o.Explains node ∧ o.ExplainsAll nodes :=
  List.forall_mem_cons

@[simp]
theorem explainsAll_append {ns ms : List Node} :
    o.ExplainsAll (ns ++ ms) ↔ o.ExplainsAll ns ∧ o.ExplainsAll ms :=
  List.forall_mem_append

@[simp]
theorem explains_expr (e : Expr) : o.Explains (.expr e) := explains_of_none rfl

/-! Lists of parts. -/

theorem explainsAll_exprs {es : List Expr} :
    o.ExplainsAll (exprsNodes es) ↔ ∀ e ∈ es, o.ExplainsAll (exprNodes e) := by
  induction es with
  | nil => simp
  | cons e es ih => simp [ih]

theorem explainsAll_value {value : Option Expr} :
    o.ExplainsAll (valueNodes value) ↔ ∀ e ∈ value, o.ExplainsAll (exprNodes e) := by
  cases value <;> simp

/-- The nodes of a list are those of its parts one after the other. -/
theorem explainsAll_list {α : Type} {nodes : List α → List Node} (hnil : nodes [] = [])
    (hcons : ∀ a as, nodes (a :: as) = nodes [a] ++ nodes as) {as : List α} :
    o.ExplainsAll (nodes as) ↔ ∀ a ∈ as, o.ExplainsAll (nodes [a]) := by
  induction as with
  | nil => simp [hnil]
  | cons a as ih => rw [hcons, explainsAll_append, ih, List.forall_mem_cons]

theorem explainsAll_elements {es : List Element} :
    o.ExplainsAll (elementNodes es) ↔ ∀ e ∈ es, o.ExplainsAll (elementNodes [e]) :=
  explainsAll_list rfl (by rintro (_ | _ | _) <;> simp)

theorem explainsAll_args {as : List Argument} :
    o.ExplainsAll (argNodes as) ↔ ∀ a ∈ as, o.ExplainsAll (argNodes [a]) :=
  explainsAll_list rfl (by rintro ⟨⟩; simp)

theorem explainsAll_params {ps : List Param} :
    o.ExplainsAll (paramNodes ps) ↔ ∀ p ∈ ps, o.ExplainsAll (paramNodes [p]) :=
  explainsAll_list rfl (by rintro ⟨⟩; simp)

theorem explainsAll_arms {as : List Arm} :
    o.ExplainsAll (armNodes as) ↔ ∀ a ∈ as, o.ExplainsAll (armNodes [a]) :=
  explainsAll_list rfl (by rintro (_ | _) <;> simp)

theorem explainsAll_body {body : List Stmt} :
    o.ExplainsAll (bodyNodes body) ↔ ∀ stmt ∈ body, o.ExplainsAll (stmtNodes stmt) := by
  induction body with
  | nil => simp
  | cons stmt body ih => simp [ih]

theorem explainsAll_elseIfs {cs : List ElseIf} :
    o.ExplainsAll (elseIfNodes cs) ↔ ∀ c ∈ cs, o.ExplainsAll (elseIfNodes [c]) :=
  explainsAll_list rfl (by rintro ⟨⟩; simp)

theorem explainsAll_cases {cs : List Case} :
    o.ExplainsAll (caseNodes cs) ↔ ∀ c ∈ cs, o.ExplainsAll (caseNodes [c]) :=
  explainsAll_list rfl (by rintro (_ | _) <;> simp)

theorem explainsAll_catches {cs : List Catch} :
    o.ExplainsAll (catchNodes cs) ↔ ∀ c ∈ cs, o.ExplainsAll (catchNodes [c]) :=
  explainsAll_list rfl (by rintro ⟨⟩; simp)

theorem explainsAll_statics {vars : List StaticVar} :
    o.ExplainsAll (staticNodes vars) ↔ ∀ v ∈ vars, o.ExplainsAll (staticNodes [v]) :=
  explainsAll_list rfl (by rintro ⟨⟩; simp)

/-! Parsers of the smallest parts. -/

open PhpTypes.Source.Parser TokenParser

abbrev Gives {α : Type} (o : Origin) (p : Parser α) (Q : α → Prop) : Prop :=
  TokenParser.Gives o.Has p Q

theorem gives_look : o.Gives look fun _ => True := by
  rintro ts hts _ _ ⟨⟩
  exact ⟨trivial, hts⟩

theorem gives_lookSecond : o.Gives lookSecond fun _ => True := by
  rintro ts hts _ _ ⟨⟩
  exact ⟨trivial, hts⟩

theorem gives_here : o.Gives here o.Marks := by
  rintro ts hts _ _ ⟨⟩
  refine ⟨?_, hts⟩
  cases ts with
  | nil => exact .inl rfl
  | cons t ts => exact (hts t List.mem_cons_self).marks

theorem gives_token (wanted : Terminal) : o.Gives (token wanted) o.Has := .oneOf _

theorem gives_symbol (s : Symbol) : o.Gives (symbol s) o.Has := .oneOf _

theorem gives_keyword (k : Keyword) : o.Gives (keyword k) o.Has := .oneOf _

theorem gives_acceptsSymbol (s : Symbol) : o.Gives (acceptsSymbol s) fun _ => True := .accepts _

theorem gives_acceptsKeyword (k : Keyword) : o.Gives (acceptsKeyword k) fun _ => True :=
  .accepts _

section

variable {α : Type} {p : Parser α} {Q : α → Prop} (hp : o.Gives p Q)

include hp

theorem gives_separated (s : Symbol) : o.Gives (Parser.separated p s) fun as => ∀ a ∈ as, Q a :=
  Gives.separated hp (gives_symbol s)

theorem gives_listUntil (closing : Symbol) :
    o.Gives (listUntil p closing) fun as => ∀ a ∈ as, Q a := by
  refine (gives_acceptsSymbol closing).bind fun b _ => ?_
  split
  · exact .pure (by simp)
  · refine (gives_separated hp .comma).bind fun as has => ?_
    exact (gives_acceptsSymbol .comma).skip ((gives_symbol closing).skip (.pure has))

theorem gives_parenthesized : o.Gives (parenthesized p) Q :=
  (gives_symbol .lpar).skip (hp.bind fun _ ha => (gives_symbol .rpar).skip (.pure ha))

theorem gives_afterSymbol (s : Symbol) : o.Gives (afterSymbol s p) fun a? => ∀ a ∈ a?, Q a := by
  refine (gives_acceptsSymbol s).bind fun b _ => ?_
  split
  · exact hp.bind fun a ha => .pure (by simpa using ha)
  · exact .pure (by simp)

theorem gives_afterKeyword (k : Keyword) :
    o.Gives (afterKeyword k p) fun a? => ∀ a ∈ a?, Q a := by
  refine (gives_acceptsKeyword k).bind fun b _ => ?_
  split
  · exact hp.bind fun a ha => .pure (by simpa using ha)
  · exact .pure (by simp)

end

theorem gives_name : o.Gives name fun _ => True := (gives_token .name).bind fun _ _ => .pure trivial

theorem gives_variableName : o.Gives variableName fun _ => True :=
  (gives_token .variableName).bind fun _ _ => .pure trivial

theorem gives_nameList : o.Gives nameList fun _ => True := (gives_separated gives_name .comma).any

theorem gives_memberName : o.Gives memberName fun _ => True :=
  (Gives.oneOf _).bind fun _ _ => .pure trivial

theorem gives_classRef : o.Gives classRef fun _ => True :=
  (Gives.oneOf _).bind fun _ _ => .pure trivial

theorem gives_typeName : o.Gives typeName fun _ => True :=
  (Gives.oneOf _).bind fun _ _ => .pure trivial

theorem gives_typeHint : o.Gives typeHint fun _ => True := by
  refine gives_here.bind fun mark _ => (gives_acceptsSymbol .qmark).bind fun b _ => ?_
  split
  · exact gives_typeName.bind fun _ _ => .pure trivial
  · refine gives_typeName.bind fun first _ => ?_
    refine ((gives_symbol .pipe).seqRight gives_typeName).many.bind fun others _ => ?_
    split
    · exact .pure trivial
    · exact ((gives_symbol .amp).seqRight gives_typeName).many.bind fun _ _ => .pure trivial

theorem gives_returnHint : o.Gives returnHint fun _ => True :=
  (gives_afterSymbol gives_typeHint .colon).any

theorem gives_modifiers : o.Gives modifiers fun mods => ∀ t ∈ mods, o.Has t :=
  Gives.many (.oneOf _)

theorem gives_typeHintFrom {t : Token} (ht : o.Has t) :
    o.Gives (typeHintFrom t) fun _ => True := by
  intro ts hts
  exact gives_typeHint (t :: ts) (List.forall_mem_cons.mpr ⟨ht, hts⟩)

theorem gives_hintGoesOn : o.Gives hintGoesOn fun _ => True := by
  refine gives_look.bind fun next _ => ?_
  split
  · exact .pure trivial
  · exact gives_lookSecond.bind fun _ _ => .pure trivial
  · exact .pure trivial

theorem gives_hintAfter {mods : List Token} (hmods : ∀ t ∈ mods, o.Has t) :
    o.Gives (hintAfter mods) fun _ => True := by
  refine gives_look.bind fun next _ => ?_
  extract_lets texts starts
  split
  · exact gives_typeHint.bind fun _ _ => .pure trivial
  · split
    · rename_i last hlast
      split
      · refine gives_hintGoesOn.bind fun b _ => ?_
        split
        · have hmem := hmods last (List.mem_of_getLast? hlast)
          exact (gives_typeHintFrom hmem).bind fun _ _ => .pure trivial
        · exact .pure trivial
      · exact .pure trivial
    · exact .pure trivial

/-! Expressions. -/

/-- Readings that are as described, with tokens of the origin after them. -/
def GivesAll {α : Type} (o : Origin) (rs : Readings α) (Q : α → Prop) : Prop :=
  ∀ a ∈ rs, Q a.1 ∧ ∀ t ∈ a.2, o.Has t

/-- The rules below keep to the origin. -/
structure Obeys (o : Origin) (r : Rules) : Prop where
  docs : r.docs = o.docs
  expr : o.Gives r.expr fun e => o.ExplainsAll (exprNodes e)
  unary : o.Gives r.unary fun e => o.ExplainsAll (exprNodes e)
  stmt : ∀ ts, (∀ t ∈ ts, o.Has t) →
    o.GivesAll (r.stmt ts) fun stmt => o.ExplainsAll (stmtNodes stmt)

namespace Obeys

variable {r : Rules} (hr : o.Obeys r)

include hr

/-- A node with the comment of a place that is known. -/
theorem explains {node : Node} {mark : Mark} (hmark : o.Marks mark)
    (h : node.comment? = (r.docs.at? mark.offset).map fun text => (mark.pos, text)) :
    o.Explains node := by
  rw [hr.docs] at h
  exact explains_of_mark hmark h

theorem param : o.Gives (param r) fun p => o.ExplainsAll (paramNodes [p]) := by
  refine gives_here.bind fun mark _ => gives_modifiers.bind fun mods hmods => ?_
  refine (gives_hintAfter hmods).bind fun ⟨texts, hint⟩ _ => ?_
  refine (gives_acceptsSymbol .amp).skip ((gives_acceptsSymbol .ellipsis).bind fun variadic _ => ?_)
  refine gives_variableName.bind fun name _ => ?_
  refine (gives_afterSymbol hr.expr .assign).bind fun value hvalue => ?_
  exact .pure (by simpa [explainsAll_value] using hvalue)

theorem params : o.Gives (params r) fun ps => o.ExplainsAll (paramNodes ps) :=
  (gives_symbol .lpar).skip
    ((gives_listUntil hr.param .rpar).weaken fun _ => explainsAll_params.mpr)

theorem argument : o.Gives (argument r) fun a => o.ExplainsAll (argNodes [a]) := by
  have hvalue : ∀ {pos label spread}, o.Gives (do return Argument.mk pos label spread (← r.expr))
      fun a => o.ExplainsAll (argNodes [a]) :=
    hr.expr.bind fun e he => .pure (by simpa using he)
  refine gives_here.bind fun mark _ => (gives_acceptsSymbol .ellipsis).bind fun b _ => ?_
  split
  · exact hvalue
  · refine gives_look.bind fun next _ => gives_lookSecond.bind fun second _ => ?_
    split
    · exact gives_name.bind fun label _ => (gives_symbol .colon).skip hvalue
    · exact hvalue

theorem arguments : o.Gives (arguments r) fun as => o.ExplainsAll (argNodes as) :=
  (gives_symbol .lpar).skip
    ((gives_listUntil hr.argument .rpar).weaken fun _ => explainsAll_args.mpr)

theorem argumentsIfAny :
    o.Gives (argumentsIfAny r) fun as => ∀ args ∈ as, o.ExplainsAll (argNodes args) := by
  refine gives_look.bind fun next _ => ?_
  split
  · exact hr.arguments.bind fun args hargs => .pure (by simpa using hargs)
  · exact .pure (by simp)

theorem element : o.Gives (element r) fun e => o.ExplainsAll (elementNodes [e]) := by
  refine gives_here.bind fun mark hmark => (gives_acceptsSymbol .ellipsis).bind fun b _ => ?_
  split
  · exact hr.expr.bind fun e he => .pure (by simpa [he] using hr.explains hmark rfl)
  · refine (gives_acceptsSymbol .amp).bind fun b _ => ?_
    split
    · exact hr.expr.bind fun e he => .pure (by simpa [he] using hr.explains hmark rfl)
    · refine hr.expr.bind fun first hfirst => (gives_acceptsSymbol .doubleArrow).bind fun b _ => ?_
      split
      · refine (gives_acceptsSymbol .amp).skip (hr.expr.bind fun e he => .pure ?_)
        simpa [hfirst, he] using hr.explains hmark rfl
      · exact .pure (by simpa [hfirst] using hr.explains hmark rfl)

/-- The longest reading of a statement. -/
theorem firstReading :
    o.Gives (fun ts => (r.stmt ts).head?) fun stmt => o.ExplainsAll (stmtNodes stmt) := by
  intro ts hts stmt rest h
  exact hr.stmt ts hts (stmt, rest) (List.mem_of_head? h)

theorem statements : o.Gives (statements r) fun body => o.ExplainsAll (bodyNodes body) := by
  refine hr.firstReading.many.bind fun body hbody => .pure ?_
  rw [explainsAll_body]
  exact fun stmt hstmt => hbody stmt (List.mem_filter.mp hstmt).1

theorem block : o.Gives (block r) fun body => o.ExplainsAll (bodyNodes body) :=
  (gives_symbol .lbrace).skip
    (hr.statements.bind fun _ hbody => (gives_symbol .rbrace).skip (.pure hbody))

theorem closure : o.Gives (closure r) fun e => o.ExplainsAll (exprNodes e) := by
  refine gives_here.bind fun mark _ => (gives_acceptsKeyword .staticKw).bind fun isStatic _ => ?_
  refine (gives_keyword .functionKw).skip ((gives_acceptsSymbol .amp).skip ?_)
  refine hr.params.bind fun ps hps => ?_
  have huses : o.Gives closureUses fun _ => True := by
    refine (gives_symbol .lpar).skip ?_
    have hvariable : o.Gives closureVariable fun _ => True :=
      (gives_acceptsSymbol .amp).skip gives_variableName
    refine (gives_separated hvariable .comma).bind fun uses _ => ?_
    exact (gives_acceptsSymbol .comma).skip ((gives_symbol .rpar).skip (.pure trivial))
  refine (gives_afterKeyword huses .useKw).bind fun uses _ => gives_returnHint.bind fun hint _ => ?_
  refine gives_here.bind fun bodyMark _ => hr.block.bind fun body hbody => ?_
  exact .pure (by simp [hps, hbody])

theorem arrowFunction : o.Gives (arrowFunction r) fun e => o.ExplainsAll (exprNodes e) := by
  refine gives_here.bind fun mark _ => (gives_acceptsKeyword .staticKw).bind fun isStatic _ => ?_
  refine (gives_keyword .fnKw).skip ((gives_acceptsSymbol .amp).skip ?_)
  refine hr.params.bind fun ps hps => gives_returnHint.bind fun hint _ => ?_
  refine (gives_symbol .doubleArrow).skip (hr.expr.bind fun body hbody => ?_)
  exact .pure (by simp [hps, hbody])

theorem arm : o.Gives (arm r) fun a => o.ExplainsAll (armNodes [a]) := by
  refine gives_here.bind fun mark _ => (gives_acceptsKeyword .defaultKw).bind fun b _ => ?_
  split
  · refine (gives_symbol .doubleArrow).skip (hr.expr.bind fun body hbody => ?_)
    exact .pure (by simp [hbody])
  · refine (gives_separated hr.expr .comma).bind fun conditions hconditions => ?_
    refine (gives_symbol .doubleArrow).skip (hr.expr.bind fun body hbody => ?_)
    exact .pure (by simp [explainsAll_exprs.mpr hconditions, hbody])

theorem selection : o.Gives (selection r) fun e => o.ExplainsAll (exprNodes e) := by
  refine gives_here.bind fun mark _ => (gives_keyword .matchKw).skip ?_
  refine (gives_parenthesized hr.expr).bind fun subject hsubject => ?_
  refine (gives_symbol .lbrace).skip ((gives_listUntil hr.arm .rbrace).bind fun arms harms => ?_)
  exact .pure (by simp [hsubject, explainsAll_arms.mpr harms])

theorem newInstance : o.Gives (newInstance r) fun e => o.ExplainsAll (exprNodes e) := by
  refine gives_here.bind fun mark _ => (gives_keyword .newKw).skip ?_
  refine gives_classRef.bind fun cls _ => hr.argumentsIfAny.bind fun args hargs => .pure ?_
  cases args with
  | none => simp
  | some args => simpa using hargs args rfl

theorem staticMember : o.Gives (staticMember r) fun e => o.ExplainsAll (exprNodes e) := by
  refine gives_here.bind fun mark _ => gives_classRef.bind fun cls _ => ?_
  refine (gives_symbol .doubleColon).skip (gives_look.bind fun next _ => ?_)
  split
  · exact gives_variableName.bind fun name _ => .pure (by simp)
  · refine gives_memberName.bind fun member _ => hr.argumentsIfAny.bind fun args hargs => ?_
    cases args with
    | none => exact .pure (by simp)
    | some args => exact .pure (by simpa using hargs args rfl)

theorem atom : o.Gives (atom r) fun e => o.ExplainsAll (exprNodes e) := by
  have helements : ∀ {pos closing}, o.Gives (do
      return Expr.array pos (← listUntil (Parser.element r) closing))
      fun e => o.ExplainsAll (exprNodes e) := by
    intro pos closing
    refine (gives_listUntil hr.element closing).bind fun es hes => .pure ?_
    simp [explainsAll_elements.mpr hes]
  refine gives_look.bind fun next _ => gives_lookSecond.bind fun second _ => ?_
  split
  · exact hr.staticMember
  · exact hr.staticMember
  · exact hr.staticMember
  · exact hr.closure
  · exact hr.closure
  · refine (gives_token .name).bind fun t _ => hr.arguments.bind fun args hargs => ?_
    exact .pure (by simp [hargs])
  · exact (gives_token .name).bind fun t _ => .pure (by simp)
  · refine (gives_token .variableName).bind fun t _ => hr.arguments.bind fun args hargs => ?_
    exact .pure (by simp [hargs])
  · exact (gives_token .variableName).bind fun t _ => .pure (by simp)
  · refine (gives_token .intNumber).bind fun t _ => ?_
    split
    · exact .pure (by simp)
    · exact .fail
  · exact (gives_token .floatNumber).bind fun t _ => .pure (by simp)
  · exact (gives_token .string).bind fun t _ => .pure (by simp)
  · exact (gives_keyword .trueKw).bind fun t _ => .pure (by simp)
  · exact (gives_keyword .falseKw).bind fun t _ => .pure (by simp)
  · exact (gives_keyword .nullKw).bind fun t _ => .pure (by simp)
  · exact hr.newInstance
  · exact hr.selection
  · exact (gives_symbol .lsqb).bind fun t _ => helements
  · exact (gives_keyword .arrayKw).bind fun t _ => (gives_symbol .lpar).skip helements
  · exact gives_parenthesized hr.expr
  · exact .fail

/-- A suffix adds its own parts to an operand. -/
theorem suffix (pos : Pos) : o.Gives (suffix r pos) fun f =>
    ∀ e, o.ExplainsAll (exprNodes e) → o.ExplainsAll (exprNodes (f e)) := by
  refine (gives_acceptsSymbol .lsqb).bind fun b _ => ?_
  split
  · refine (gives_acceptsSymbol .rsqb).bind fun b _ => ?_
    split
    · exact .pure fun e he => by simp [he]
    · refine hr.expr.bind fun key hkey => (gives_symbol .rsqb).skip ?_
      exact .pure fun e he => by simp [he, hkey]
  · refine (gives_acceptsSymbol .nullsafe).bind fun nullsafe _ => ?_
    extract_lets access
    have haccess : ∀ u, o.Gives (access u) fun f =>
        ∀ e, o.ExplainsAll (exprNodes e) → o.ExplainsAll (exprNodes (f e)) := by
      intro u
      refine gives_memberName.bind fun member _ => hr.argumentsIfAny.bind fun args hargs => ?_
      cases args with
      | none => exact .pure fun e he => by simp [he]
      | some args => exact .pure fun e he => by simp [he, hargs args rfl]
    split
    · exact (gives_symbol .arrow).skip (haccess ())
    · exact haccess ()

theorem postfixOperand : o.Gives (postfixOperand r) fun e => o.ExplainsAll (exprNodes e) := by
  refine gives_here.bind fun mark _ => hr.atom.bind fun first hfirst => ?_
  refine (hr.suffix mark.pos).many.bind fun suffixes hsuffixes => .pure ?_
  exact List.foldlRecOn (motive := fun e => o.ExplainsAll (exprNodes e)) suffixes _ hfirst
    fun e he f hf => hsuffixes f hf e he

section

variable (pos : Pos) {e : Expr} (he : o.ExplainsAll (exprNodes e))

include he

theorem powerRest : o.Gives (powerRest r pos e) fun e => o.ExplainsAll (exprNodes e) := by
  have hpower : ∀ {e}, o.ExplainsAll (exprNodes e) → o.Gives (do
      if ← acceptsSymbol .pow then return .binary pos .pow e (← r.unary) else return e)
      fun e => o.ExplainsAll (exprNodes e) := by
    intro e he
    refine (gives_acceptsSymbol .pow).bind fun b _ => ?_
    split
    · exact hr.unary.bind fun right hright => .pure (by simp [he, hright])
    · exact .pure he
  refine (gives_acceptsSymbol .inc).bind fun b _ => ?_
  split
  · exact hpower (by simp [he])
  · refine (gives_acceptsSymbol .dec).bind fun b _ => ?_
    split
    · exact hpower (by simp [he])
    · exact hpower he

omit hr in
theorem instanceOfRest :
    o.Gives (instanceOfRest pos e) fun e => o.ExplainsAll (exprNodes e) := by
  refine (gives_acceptsKeyword .instanceofKw).bind fun b _ => ?_
  split
  · exact gives_classRef.bind fun cls _ => .pure (by simp [he])
  · exact .pure he

end

theorem prefixed : o.Gives (Parser.unary r) fun e => o.ExplainsAll (exprNodes e) := by
  refine gives_here.bind fun mark _ => gives_look.bind fun next _ => ?_
  split
  · refine (gives_token .castOperator).bind fun t _ => hr.unary.bind fun e he => ?_
    exact .pure (by simp [he])
  · refine (gives_keyword .cloneKw).skip (hr.unary.bind fun e he => ?_)
    exact .pure (by simp [he])
  · refine (gives_symbol .inc).skip (hr.postfixOperand.bind fun e he => ?_)
    exact .pure (by simp [he])
  · refine (gives_symbol .dec).skip (hr.postfixOperand.bind fun e he => ?_)
    exact .pure (by simp [he])
  · rename_i t _ _ _ _
    split
    · refine (gives_token t).skip (hr.unary.bind fun e he => ?_)
      exact .pure (by simp [he])
    · exact hr.postfixOperand.bind fun e he => hr.powerRest mark.pos he
  · exact .fail

theorem operand : o.Gives (operand r) fun p => o.ExplainsAll (exprNodes p.2) := by
  refine gives_here.bind fun mark _ => hr.prefixed.bind fun e he => ?_
  exact (instanceOfRest mark.pos he).bind fun e he => .pure he

omit hr in
theorem operatorOf (ops : List (Symbol × BinaryOp)) :
    o.Gives (operatorOf ops) fun _ => True := by
  refine gives_look.bind fun next _ => ?_
  split
  · rename_i s
    split
    · exact (gives_symbol s).skip (.pure trivial)
    · exact .fail
  · exact .fail

theorem chains (levels : List (List (Symbol × BinaryOp))) {p : Pos × Expr}
    (hp : o.ExplainsAll (exprNodes p.2)) :
    o.Gives (chains r levels p) fun e => o.ExplainsAll (exprNodes e) := by
  induction levels generalizing p with
  | nil => exact .pure hp
  | cons ops tighter ih =>
    refine (ih hp).bind fun first hfirst => ?_
    have hlink : o.Gives (do
        let op ← Parser.operatorOf ops
        return (op, ← Parser.chains r tighter (← Parser.operand r)))
        fun link => o.ExplainsAll (exprNodes link.2) := by
      refine (operatorOf ops).bind fun op _ => hr.operand.bind fun next hnext => ?_
      exact (ih hnext).bind fun e he => .pure he
    refine hlink.many.bind fun links hlinks => .pure ?_
    refine List.foldlRecOn (motive := fun e => o.ExplainsAll (exprNodes e)) links _ hfirst ?_
    intro left hleft link hlink
    simp [hleft, hlinks link hlink]

omit hr in
theorem coalesceChain {first : Pos × Expr} {rest : List (Pos × Expr)}
    (hfirst : o.ExplainsAll (exprNodes first.2))
    (hrest : ∀ p ∈ rest, o.ExplainsAll (exprNodes p.2)) :
    o.ExplainsAll (exprNodes (coalesceChain first rest)) := by
  induction rest generalizing first with
  | nil => exact hfirst
  | cons next rest ih =>
    rw [List.forall_mem_cons] at hrest
    simp [Parser.coalesceChain, hfirst, ih hrest.1 hrest.2]

section

variable (pos : Pos) {e : Expr} (he : o.ExplainsAll (exprNodes e))

include he

theorem coalesceRest : o.Gives (coalesceRest r pos e) fun e => o.ExplainsAll (exprNodes e) := by
  refine (hr.chains levels he).bind fun first hfirst => ?_
  refine Gives.bind (P := fun rest => ∀ p ∈ rest, o.ExplainsAll (exprNodes p.2)) ?_
    fun rest hrest => .pure (coalesceChain hfirst hrest)
  refine Gives.many ((gives_symbol .coalesce).skip ?_)
  refine hr.operand.bind fun next hnext => ?_
  exact (hr.chains levels hnext).bind fun e he => .pure he

theorem ternaryRest : o.Gives (ternaryRest r pos e) fun e => o.ExplainsAll (exprNodes e) := by
  refine (hr.coalesceRest pos he).bind fun condition hcondition => ?_
  refine (gives_acceptsSymbol .qmark).bind fun b _ => ?_
  split
  · refine (gives_acceptsSymbol .colon).bind fun b _ => ?_
    split
    · exact hr.expr.bind fun no hno => .pure (by simp [hcondition, hno])
    · refine hr.expr.bind fun yes hyes => (gives_symbol .colon).skip ?_
      exact hr.expr.bind fun no hno => .pure (by simp [hcondition, hyes, hno])
  · exact .pure hcondition

theorem assignmentRest :
    o.Gives (assignmentRest r pos e) fun e => o.ExplainsAll (exprNodes e) := by
  refine (gives_acceptsSymbol .assign).bind fun b _ => ?_
  split
  · refine (gives_acceptsSymbol .amp).skip (hr.expr.bind fun value hvalue => ?_)
    exact .pure (by simp [he, hvalue])
  · refine gives_look.bind fun next _ => ?_
    split
    · refine (gives_token .compoundAssign).bind fun t _ => ?_
      split
      · exact hr.expr.bind fun value hvalue => .pure (by simp [he, hvalue])
      · exact .fail
    · refine (hr.powerRest pos he).bind fun power hpower => ?_
      exact (instanceOfRest pos hpower).bind fun e he => hr.ternaryRest pos he

end

theorem expression : o.Gives (Parser.expr r) fun e => o.ExplainsAll (exprNodes e) := by
  refine gives_look.bind fun next _ => gives_lookSecond.bind fun second _ => ?_
  split
  · exact hr.arrowFunction
  · exact hr.arrowFunction
  · split
    · exact hr.operand.bind fun p hp => hr.ternaryRest p.1 hp
    · refine gives_here.bind fun mark _ => hr.postfixOperand.bind fun e he => ?_
      exact hr.assignmentRest mark.pos he
  · exact .fail

end Obeys

end Origin

end PhpTypes.Source
