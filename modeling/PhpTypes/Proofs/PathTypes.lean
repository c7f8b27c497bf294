import PhpTypes.Proofs.Joins
import PhpTypes.Proofs.Postconditions

/-!
# Types along paths

On a single path through assignments of literals and variables, every variable that is bound has one
type. Literals and variables are evaluated without any effect, to types that cover those on a path.
-/

namespace PhpTypes.Inference

open Source

mutual

/-- The type of a literal: a number, a string, a truth value, null, or an array of literals. -/
def literalType? : Expr → Option Ty
  | .int _ n => some ((Ty.ofNumber? (.int n)).getD (.float none))
  | .float _ x => some (.float (some x.value))
  | .string _ value interpolated => some (.string (if interpolated then none else some value))
  | .bool _ _ => some .boolean
  | .null _ => some .null
  | .unary _ op operand => (literalType? operand).map (Ty.unary op)
  | .array _ elements => (literalShape? .empty elements).map Gathered.type
  | _ => none

def literalShape? (g : Gathered) : List Element → Option Gathered
  | [] => some g
  | .plain _ none value :: rest => do
    let t ← literalType? value
    literalShape? (g.addPlain (.of none t)) rest
  | .keyed _ none key value :: rest => do
    let t ← literalType? value
    let k ← literalType? key
    literalShape? (g.addKeyed (.of none t) k) rest
  | _ => none

end

/-- The type of a literal, or of a variable if it is bound. -/
def operandType? (s : Site) (env : Scope) : Expr → Option Ty
  | .var _ name => if name == "this" then some s.thisType else env.get? name
  | e => literalType? e

def isOperand : Expr → Bool
  | .var _ _ => true
  | e => (literalType? e).isSome

/-- The variables after a simple statement, unless it reads one that is not bound. -/
def scopeAfter? (s : Site) (env : Scope) : Stmt → Option Scope
  | .expr _ _ (.assign _ none (.var _ x) e) => (operandType? s env e).map (env.set x)
  | _ => some env

/-- The variables at the end of a path. -/
def pathScope? (s : Site) (env : Scope) (es : List Stmt) : Option Scope :=
  es.foldlM (scopeAfter? s) env

def returnType? (s : Site) (env : Scope) : Option Expr → Option Ty
  | none => some .null
  | some e => operandType? s env e

/-- A doc comment that gives a variable no type. -/
def isQuiet (doc : Option String) (x : String) : Bool :=
  match Doc.Block.parse doc with
  | .ok block => (block.varTag? (some x)).all fun tag => tag.typeExpr.isEmpty
  | .error _ => false

/-- An assignment of a literal or a variable to a variable. -/
def isPlainAssign (doc : Option String) : Expr → Bool
  | .assign _ none (.var _ x) e => x != "this" && isOperand e && isQuiet doc x
  | _ => false

mutual

/-- Statements made of assignments of literals and variables, branches, loops of `while`, `return`
and `throw`. A `break` may stand directly in a case. -/
def isBasic : Stmt → Bool
  | .empty => true
  | .block _ body => areBasic body
  | .expr _ doc e => isPlainAssign doc e
  | .conditional _ _ condition yes elseIfs no =>
    isOperand condition && isBasic yes && basicElseIfs elseIfs && isBasic no
  | .whileLoop _ condition body => isOperand condition && isBasic body
  | .switch _ subject cases => isOperand subject && basicCases cases
  | .returns _ _ value => value.all isOperand
  | .throws _ value => isOperand value
  | _ => false

def areBasic : List Stmt → Bool
  | [] => true
  | stmt :: rest => isBasic stmt && areBasic rest

def basicElseIfs : List ElseIf → Bool
  | [] => true
  | .mk _ condition body :: rest => isOperand condition && isBasic body && basicElseIfs rest

def basicCases : List Case → Bool
  | [] => true
  | .test _ value body :: rest => isOperand value && basicCase body && basicCases rest
  | .fallback _ body :: rest => basicCase body && basicCases rest

def basicCase : List Stmt → Bool
  | [] => true
  | .breaks _ :: rest => basicCase rest
  | stmt :: rest => isBasic stmt && basicCase rest

end

/-! Operands. -/

variable {s : Site}

theorem settle_pure (t : Ty) : settle (pure t) = pure t := rfl

mutual

/-- Literals are evaluated without any effect. -/
theorem eval_literal : ∀ {e : Expr} {t : Ty}, literalType? e = some t → eval s e = pure t
  | .int _ _, t, h | .float _ _, t, h | .string _ _ _, t, h | .bool _ _, t, h | .null _, t, h => by
    simp only [literalType?, Option.some.injEq] at h
    subst h
    simp only [eval]
  | .unary _ op operand, t, h => by
    simp only [literalType?, Option.map_eq_some_iff] at h
    obtain ⟨u, hu, rfl⟩ := h
    rw [eval, eval_literal hu, settle_pure]
    rfl
  | .array _ elements, t, h => by
    simp only [literalType?, Option.map_eq_some_iff] at h
    obtain ⟨shape, hshape, rfl⟩ := h
    rw [eval, gather_literal hshape]
    rfl
  | .var _ _, _, h | .constant _ _, _, h | .binary _ _ _ _, _, h | .cast _ _ _, _, h
  | .step _ _ _ _, _, h | .assign _ _ _ _, _, h | .ternary _ _ _ _, _, h
  | .elvis _ _ _, _, h | .instanceOf _ _ _, _, h | .clone _ _, _, h
  | .methodCall _ _ _ _ _, _, h | .property _ _ _ _, _, h | .index _ _ _, _, h
  | .append _ _, _, h | .staticCall _ _ _ _, _, h | .staticProperty _ _ _, _, h
  | .classConstant _ _ _, _, h | .call _ _ _, _, h | .dynamicCall _ _ _, _, h
  | .new _ _ _, _, h | .closure _ _ _ _ _ _ _, _, h | .arrow _ _ _ _ _, _, h
  | .select _ _ _, _, h => by simp only [literalType?, reduceCtorEq] at h

private theorem gather_literal : ∀ {elements : List Element} {shape shape' : Gathered},
    literalShape? shape elements = some shape' → gather s shape elements = pure shape'
  | [], shape, shape', h => by
    simp only [literalShape?, Option.some.injEq] at h
    rw [gather, h]
  | .plain _ none value :: rest, shape, shape', h => by
    simp only [literalShape?, Option.bind_eq_bind, Option.bind_eq_some_iff] at h
    obtain ⟨t, ht, hrest⟩ := h
    rw [gather, eval_literal ht, settle_pure, ← gather_literal hrest]
    rfl
  | .keyed _ none key value :: rest, shape, shape', h => by
    simp only [literalShape?, Option.bind_eq_bind, Option.bind_eq_some_iff] at h
    obtain ⟨t, ht, k, hk, hrest⟩ := h
    rw [gather, eval_literal ht, eval_literal hk, settle_pure, settle_pure,
      ← gather_literal hrest]
    rfl
  | .plain _ (some _) _ :: _, _, _, h | .keyed _ (some _) _ _ :: _, _, _, h
  | .spread _ _ _ :: _, _, _, h => by simp only [literalShape?, reduceCtorEq] at h

end

theorem isOperand_cases {e : Expr} (he : isOperand e = true) :
    (∃ pos name, e = .var pos name) ∨
      ∃ t, literalType? e = some t ∧ ∀ env, operandType? s env e = some t := by
  unfold isOperand at he
  split at he
  · exact .inl ⟨_, _, rfl⟩
  · rename_i hvar
    obtain ⟨t, ht⟩ := Option.isSome_iff_exists.mp he
    refine .inr ⟨t, ht, fun env => ?_⟩
    rw [operandType?, ht]
    exact hvar

/-- An operand is evaluated without any effect, and its type covers the type that it has on a
path. -/
theorem eval_operand {e : Expr} (he : isOperand e = true) (f : Frame) :
    Ensures False (settle (eval s e)) f fun t g =>
      g = f ∧ ∀ env u, f.scope.Covers env → operandType? s env e = some u → t.Covers u := by
  rcases isOperand_cases he with ⟨pos, name, rfl⟩ | ⟨t, ht, htype⟩
  · simp only [eval, variableType]
    apply Ensures.settle
    apply Ensures.tryLift
    cases hthis : name == "this" with
    | true =>
      refine .pure ⟨rfl, fun env u _ hu => ?_⟩
      rw [operandType?, hthis] at hu
      cases hu
      exact .refl _
    | false =>
      refine .bind (.getScope (.pure ⟨rfl, fun env u henv hu => ?_⟩))
      rw [operandType?, hthis] at hu
      obtain ⟨t, ht, hcov⟩ := henv name u hu
      rw [Scope.get, ht]
      exact hcov
  · rw [eval_literal ht, settle_pure]
    refine .pure ⟨rfl, fun env u _ hu => ?_⟩
    rw [htype env] at hu
    cases hu
    exact .refl _

end PhpTypes.Inference
