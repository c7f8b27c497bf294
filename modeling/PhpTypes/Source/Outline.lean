import PhpTypes.Source.Tree

/-!
Outlines: what a tree says, without its positions and doc comments. Two declarations of a class are
alike if they have the same outline and stand in contexts with the same names.
-/

namespace PhpTypes.Source

inductive Outline where
  | nothing
  | word (text : String)
  | number (n : Nat)
  | float (bits : UInt64)
  | flag (b : Bool)
  | pair (first rest : Outline)
deriving DecidableEq

namespace Outline

def ofList (parts : List Outline) : Outline := parts.foldr pair nothing

def node (kind : String) (parts : List Outline) : Outline := pair (word kind) (ofList parts)

def ofOption : Option Outline → Outline
  | none => nothing
  | some o => pair o nothing

def words (texts : List String) : Outline := ofList (texts.map word)

end Outline

open Outline

def HintKind.outline : HintKind → Outline
  | .union => word "union"
  | .nullable => word "nullable"
  | .intersection => word "intersection"

def hintOutline (hint : Option TypeHint) : Outline :=
  ofOption (hint.map fun h => node "hint" [h.kind.outline, words h.names])

def ClassRef.outline : ClassRef → Outline
  | .name n => word n
  | .var _ n => node "var" [word n]

mutual

def Expr.outline : Expr → Outline
  | .var _ n => node "var" [word n]
  | .int _ v => node "int" [number v]
  | .float _ v => node "float" [float v.value.toBits]
  | .string _ v i => node "string" [word v, flag i]
  | .bool _ b => node "bool" [flag b]
  | .null _ => node "null" []
  | .constant _ n => node "constant" [word n]
  | .array _ es => node "array" [elementsOutline es]
  | .binary _ op l r => node "binary" [word op.symbol, l.outline, r.outline]
  | .unary _ op x => node "unary" [word op.symbol, x.outline]
  | .cast _ t x => node "cast" [word t.name, x.outline]
  | .step _ inc before x => node "step" [flag inc, flag before, x.outline]
  | .assign _ op t v =>
    node "assign" [ofOption (op.map fun o => word o.symbol), t.outline, v.outline]
  | .ternary _ c y n => node "ternary" [c.outline, y.outline, n.outline]
  | .elvis _ c n => node "elvis" [c.outline, n.outline]
  | .instanceOf _ x c => node "instanceof" [x.outline, c.outline]
  | .clone _ x => node "clone" [x.outline]
  | .methodCall _ o n as ns =>
    node "method" [o.outline, word n, argumentsOutline as, flag ns]
  | .property _ o n ns => node "property" [o.outline, word n, flag ns]
  | .index _ o i => node "index" [o.outline, i.outline]
  | .append _ o => node "append" [o.outline]
  | .staticCall _ c n as => node "static method" [c.outline, word n, argumentsOutline as]
  | .staticProperty _ c n => node "static property" [c.outline, word n]
  | .classConstant _ c n => node "class constant" [c.outline, word n]
  | .call _ n as => node "call" [word n, argumentsOutline as]
  | .dynamicCall _ n as => node "dynamic call" [word n, argumentsOutline as]
  | .new _ c as => node "new" [c.outline, argumentsOutline as]
  | .closure _ st ps us h _ b =>
    node "closure" [flag st, paramsOutline ps, words us, hintOutline h, stmtsOutline b]
  | .arrow _ st ps h b => node "arrow" [flag st, paramsOutline ps, hintOutline h, b.outline]
  | .select _ s arms => node "match" [s.outline, armsOutline arms]

def exprsOutline : List Expr → Outline
  | [] => nothing
  | e :: es => pair e.outline (exprsOutline es)

def optionalOutline : Option Expr → Outline
  | none => nothing
  | some e => pair e.outline nothing

def Element.outline : Element → Outline
  | .keyed _ _ k v => node "keyed" [k.outline, v.outline]
  | .plain _ _ v => node "plain" [v.outline]
  | .spread _ _ v => node "spread" [v.outline]

def elementsOutline : List Element → Outline
  | [] => nothing
  | e :: es => pair e.outline (elementsOutline es)

def argumentsOutline : List Argument → Outline
  | [] => nothing
  | .mk _ n s v :: as =>
    pair (node "argument" [ofOption (n.map word), flag s, v.outline]) (argumentsOutline as)

def paramsOutline : List Param → Outline
  | [] => nothing
  | .mk _ n h d v ms :: ps =>
    pair (node "param" [word n, hintOutline h, optionalOutline d, flag v, words ms])
      (paramsOutline ps)

def armsOutline : List Arm → Outline
  | [] => nothing
  | .case _ cs b :: arms =>
    pair (node "case" [exprsOutline cs, b.outline]) (armsOutline arms)
  | .fallback _ b :: arms => pair (node "default" [b.outline]) (armsOutline arms)

def Stmt.outline : Stmt → Outline
  | .empty => nothing
  | .block _ b => node "block" [stmtsOutline b]
  | .expr _ _ e => node "expression" [e.outline]
  | .conditional _ _ c y es n =>
    node "if" [c.outline, y.outline, elseIfsOutline es, n.outline]
  | .whileLoop _ c b => node "while" [c.outline, b.outline]
  | .doLoop _ b c => node "do" [b.outline, c.outline]
  | .forLoop _ i c s b =>
    node "for" [exprsOutline i, exprsOutline c, exprsOutline s, b.outline]
  | .foreachLoop _ i k v b =>
    node "foreach" [i.outline, optionalOutline k, v.outline, b.outline]
  | .switch _ s cs => node "switch" [s.outline, casesOutline cs]
  | .guarded _ _ b cs f => node "try" [stmtsOutline b, catchesOutline cs, f.outline]
  | .returns _ _ v => node "return" [optionalOutline v]
  | .breaks _ => node "break" []
  | .continues _ => node "continue" []
  | .throws _ v => node "throw" [v.outline]
  | .echo _ es => node "echo" [exprsOutline es]
  | .globals _ ns => node "global" [words ns]
  | .statics _ vs => node "static" [staticsOutline vs]
  | .includes _ e => node "include" [e.outline]

def stmtsOutline : List Stmt → Outline
  | [] => nothing
  | s :: ss => pair s.outline (stmtsOutline ss)

def elseIfsOutline : List ElseIf → Outline
  | [] => nothing
  | .mk _ c b :: es => pair (node "elseif" [c.outline, b.outline]) (elseIfsOutline es)

def casesOutline : List Case → Outline
  | [] => nothing
  | .test _ v b :: cs => pair (node "case" [v.outline, stmtsOutline b]) (casesOutline cs)
  | .fallback _ b :: cs => pair (node "default" [stmtsOutline b]) (casesOutline cs)

def catchesOutline : List Catch → Outline
  | [] => nothing
  | .mk _ types v _ b :: cs =>
    pair (node "catch" [words types, ofOption (v.map word), stmtsOutline b]) (catchesOutline cs)

def staticsOutline : List StaticVar → Outline
  | [] => nothing
  | .mk n d :: vs => pair (node "static" [word n, optionalOutline d]) (staticsOutline vs)

end

def Method.outline (m : Method) : Outline :=
  node "method" [word m.name, paramsOutline m.params, hintOutline m.hint,
    ofOption (m.body.map fun b => stmtsOutline b.stmts), words m.modifiers]

def Property.outline (p : Property) : Outline :=
  node "property" [word p.name, hintOutline p.hint, optionalOutline p.defaultValue,
    words p.modifiers]

def Constant.outline (c : Constant) : Outline := node "constant" [word c.name, c.value.outline]

def ClassKind.outline : ClassKind → Outline
  | .ordinary => word "class"
  | .trait => word "trait"
  | .interface => word "interface"

/-- All of a class but its name and context. -/
def ClassLike.outline (c : ClassLike) : Outline :=
  ofList [c.kind.outline, ofOption (c.parent.map word), words c.interfaces, words c.traits,
    ofList (c.methods.map Method.outline), ofList (c.properties.map Property.outline),
    ofList (c.constants.map Constant.outline), words c.modifiers]

/-- The order in which aliases were given does not count. -/
def Context.alike (a b : Context) : Bool := a.spaceName == b.spaceName && a.uses.agrees b.uses

def ClassLike.alike (a b : ClassLike) : Bool :=
  a.name == b.name && a.outline == b.outline && a.context.alike b.context

theorem ClassLike.alike_self (c : ClassLike) : c.alike c = true := by
  simp [alike, Context.alike]

theorem ClassLike.fullName_of_alike {a b : ClassLike} (h : a.alike b = true) :
    a.fullName = b.fullName := by
  simp only [alike, Context.alike, Bool.and_eq_true, beq_iff_eq] at h
  simp only [fullName, Context.qualified, h.1.1, h.2.1]

end PhpTypes.Source
