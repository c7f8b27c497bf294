import PhpTypes.Source.Token

/-!
The grammar of PHP source as data. No rule starts with itself, so what may come next is found by
opening rules a bounded number of times; it tells which token of a source is the first that no file
can have there.
-/

namespace PhpTypes.Source

inductive Rule where
  | top | useItem | nameList | classBody | member | propertyItem | constItem | modifier
  | params | param | returnHint | typeHint | typeName
  | stmt | block | exprList | target | switchCase | catchClause | staticVar
  | expr | operators | chain (level : Nat) | operand | unary | prefixed | simple | atom
  | arguments | argument | elements | element | arms | arm | closureVar | memberName | classRef
deriving DecidableEq

inductive Phrase where
  | empty
  | terminal (t : Terminal)
  | rule (r : Rule)
  | seq (a b : Phrase)
  | alt (a b : Phrase)
  | many (a : Phrase)
deriving DecidableEq

namespace Phrase

def seqOf : List Phrase → Phrase
  | [] => .empty
  | [p] => p
  | p :: ps => .seq p (seqOf ps)

/-- One of the phrases, of which there is at least one. -/
def oneOf : Phrase → List Phrase → Phrase
  | p, [] => p
  | p, q :: ps => .alt p (oneOf q ps)

def opt (p : Phrase) : Phrase := .alt p .empty

def sym (s : Symbol) : Phrase := .terminal (.symbol s)

def kw (k : Keyword) : Phrase := .terminal (.keyword k)

def symbolOf (s : Symbol) (ss : List Symbol) : Phrase := oneOf (sym s) (ss.map sym)

def keywordOf (k : Keyword) (ks : List Keyword) : Phrase := oneOf (kw k) (ks.map kw)

def separatedBy (s : Symbol) (p : Phrase) : Phrase := seqOf [p, .many (.seq (sym s) p)]

/-- Items separated by commas, with a comma allowed after the last. -/
def commaList (p : Phrase) : Phrase := .seq (separatedBy .comma p) (opt (sym .comma))

def inParens (p : Phrase) : Phrase := seqOf [sym .lpar, p, sym .rpar]

def parameters : Phrase := inParens (opt (.rule .params))

/-- A value after an equals sign, or nothing. -/
def initializer : Phrase := opt (.seq (sym .assign) (.rule .expr))

end Phrase

open Phrase

/-- The operators of each level that chains to the left, loosest first. -/
def chainLevels : List Phrase :=
  [sym .or, sym .and, sym .pipe, sym .caret, sym .amp,
   symbolOf .identical [.notIdentical, .eq, .ne, .spaceship], symbolOf .lt [.gt, .le, .ge],
   symbolOf .shl [.shr], sym .dot, symbolOf .plus [.minus], symbolOf .star [.slash, .percent]]

/-- What may follow an operand on the level of a chain. -/
def chainTail (level : Nat) : Phrase :=
  match chainLevels[level]? with
  | some ops => .many (.seq ops (.rule (.chain (level + 1))))
  | none => .empty

/-- What may follow an operand: a chain on each level, from the tightest to the loosest. -/
def chainTails : Phrase :=
  seqOf ((List.range chainLevels.length).reverse.map chainTail)

/-- The suffixes of an operand: a member access, a call of a method or an index. -/
def suffixes : Phrase :=
  .many (.alt
    (seqOf [symbolOf .arrow [.nullsafe], .rule .memberName, opt (.rule .arguments)])
    (seqOf [sym .lsqb, opt (.rule .expr), sym .rsqb]))

def staticAccess : Phrase :=
  .seq (sym .doubleColon)
    (.alt (.terminal .variableName) (.seq (.rule .memberName) (opt (.rule .arguments))))

def powerTail : Phrase :=
  .seq (opt (symbolOf .inc [.dec])) (opt (.seq (sym .pow) (.rule .unary)))

/-- A closure after the word `static` or without it. -/
def closureTail : Phrase :=
  seqOf [kw .functionKw, opt (sym .amp), parameters,
    opt (.seq (kw .useKw) (inParens (commaList (.rule .closureVar)))), opt (.rule .returnHint),
    .rule .block]

def arrowTail : Phrase :=
  seqOf [kw .fnKw, opt (sym .amp), parameters, opt (.rule .returnHint), sym .doubleArrow,
    .rule .expr]

def keywordExprPhrase (k : Keyword) (ks : List Keyword) : Phrase :=
  seqOf [keywordOf k ks, .rule .expr, sym .semicolon]

/-- A head in parentheses after a keyword, and a statement. -/
def headedPhrase (k : Keyword) (head : Phrase) : Phrase :=
  seqOf [kw k, inParens head, .rule .stmt]

def caseBody : Phrase := .seq (symbolOf .colon [.semicolon]) (.many (.rule .stmt))

def constants : Phrase :=
  seqOf [.many (.rule .modifier), kw .constKw, separatedBy .comma (.rule .constItem),
    sym .semicolon]

def Rule.body : Rule → Phrase
  | .top =>
    oneOf (seqOf [kw .namespaceKw, .terminal .name, sym .semicolon])
      [seqOf [kw .useKw, separatedBy .comma (.rule .useItem), sym .semicolon],
       seqOf [.many (keywordOf .abstractKw [.finalKw, .readonlyKw]), kw .classKw,
         .terminal .name, opt (.seq (kw .extendsKw) (.terminal .name)),
         opt (.seq (kw .implementsKw) (.rule .nameList)), .rule .classBody],
       seqOf [kw .traitKw, .terminal .name, .rule .classBody],
       seqOf [kw .interfaceKw, .terminal .name, opt (.seq (kw .extendsKw) (.rule .nameList)),
         .rule .classBody],
       seqOf [kw .functionKw, opt (sym .amp), .terminal .name, parameters,
         opt (.rule .returnHint), .rule .block],
       constants, .rule .stmt]
  | .useItem => .seq (.terminal .name) (opt (.seq (kw .asKw) (.terminal .name)))
  | .nameList => separatedBy .comma (.terminal .name)
  | .classBody => seqOf [sym .lbrace, .many (.rule .member), sym .rbrace]
  | .member =>
    oneOf (seqOf [.many (.rule .modifier), kw .functionKw, opt (sym .amp), .rule .memberName,
        parameters, opt (.rule .returnHint), .alt (.rule .block) (sym .semicolon)])
      [seqOf [.rule .modifier, .many (.rule .modifier), opt (.rule .typeHint),
         separatedBy .comma (.rule .propertyItem), sym .semicolon],
       constants,
       seqOf [kw .useKw, .rule .nameList, sym .semicolon]]
  | .propertyItem => .seq (.terminal .variableName) initializer
  | .constItem => seqOf [.rule .memberName, sym .assign, .rule .expr]
  | .modifier =>
    keywordOf .publicKw
      [.protectedKw, .privateKw, .staticKw, .abstractKw, .finalKw, .readonlyKw, .varKw]
  | .params => commaList (.rule .param)
  | .param =>
    seqOf [.many (.rule .modifier), opt (.rule .typeHint), opt (sym .amp), opt (sym .ellipsis),
      .terminal .variableName, initializer]
  | .returnHint => .seq (sym .colon) (.rule .typeHint)
  | .typeHint =>
    .alt (.seq (sym .qmark) (.rule .typeName))
      (.seq (.rule .typeName)
        (.alt (.many (.seq (sym .pipe) (.rule .typeName)))
          (.many (.seq (sym .amp) (.rule .typeName)))))
  | .typeName =>
    .alt (.terminal .name) (keywordOf .arrayKw [.staticKw, .nullKw, .falseKw, .trueKw])
  | .stmt =>
    oneOf (.rule .block)
      [seqOf [kw .ifKw, inParens (.rule .expr), .rule .stmt,
         .many (seqOf [kw .elseifKw, inParens (.rule .expr), .rule .stmt]),
         opt (.seq (kw .elseKw) (.rule .stmt))],
       headedPhrase .whileKw (.rule .expr),
       seqOf [kw .doKw, .rule .stmt, kw .whileKw, inParens (.rule .expr), sym .semicolon],
       headedPhrase .forKw
         (seqOf [opt (.rule .exprList), sym .semicolon, opt (.rule .exprList), sym .semicolon,
           opt (.rule .exprList)]),
       headedPhrase .foreachKw (seqOf [.rule .expr, kw .asKw, .rule .target]),
       seqOf [kw .switchKw, inParens (.rule .expr), sym .lbrace, .many (.rule .switchCase),
         sym .rbrace],
       seqOf [kw .tryKw, .rule .block, .many (.rule .catchClause),
         opt (.seq (kw .finallyKw) (.rule .block))],
       seqOf [keywordOf .returnKw [.breakKw, .continueKw], opt (.rule .expr), sym .semicolon],
       seqOf [kw .echoKw, .rule .exprList, sym .semicolon],
       seqOf [kw .globalKw, separatedBy .comma (.terminal .variableName), sym .semicolon],
       seqOf [kw .staticKw, separatedBy .comma (.rule .staticVar), sym .semicolon],
       keywordExprPhrase .throwKw [.includeKw, .includeOnceKw, .requireKw, .requireOnceKw],
       .seq (.rule .expr) (sym .semicolon),
       sym .semicolon]
  | .block => seqOf [sym .lbrace, .many (.rule .stmt), sym .rbrace]
  | .exprList => separatedBy .comma (.rule .expr)
  | .target =>
    .alt (.seq (sym .amp) (.rule .expr))
      (.seq (.rule .expr) (opt (seqOf [sym .doubleArrow, opt (sym .amp), .rule .expr])))
  | .switchCase =>
    .alt (seqOf [kw .caseKw, .rule .expr, caseBody]) (.seq (kw .defaultKw) caseBody)
  | .catchClause =>
    seqOf [kw .catchKw,
      inParens (.seq (separatedBy .pipe (.terminal .name)) (opt (.terminal .variableName))),
      .rule .block]
  | .staticVar => .seq (.terminal .variableName) initializer
  | .expr =>
    oneOf (.seq (opt (kw .staticKw)) arrowTail)
      [.seq (.rule .prefixed) (.rule .operators),
       .seq (.rule .simple)
         (oneOf (seqOf [sym .assign, opt (sym .amp), .rule .expr])
           [.seq (.terminal .compoundAssign) (.rule .expr), .seq powerTail (.rule .operators)])]
  | .operators =>
    seqOf [opt (.seq (kw .instanceofKw) (.rule .classRef)), chainTails,
      .many (.seq (sym .coalesce) (.rule (.chain 0))),
      opt (.seq (sym .qmark) (.seq (opt (.rule .expr)) (.seq (sym .colon) (.rule .expr))))]
  | .chain level =>
    match chainLevels[level]? with
    | some _ => .seq (.rule (.chain (level + 1))) (chainTail level)
    | none => .rule .operand
  | .operand => .seq (.rule .unary) (opt (.seq (kw .instanceofKw) (.rule .classRef)))
  | .unary => .alt (.rule .prefixed) (.seq (.rule .simple) powerTail)
  | .prefixed =>
    .alt
      (.seq (oneOf (symbolOf .bang [.minus, .plus, .tilde, .at])
        [.terminal .castOperator, kw .cloneKw, kw .printKw]) (.rule .unary))
      (.seq (symbolOf .inc [.dec]) (.rule .simple))
  | .simple => .seq (.rule .atom) suffixes
  | .atom =>
    oneOf (.seq (.alt (.terminal .name) (.terminal .variableName))
        (opt (.alt (.rule .arguments) staticAccess)))
      [.terminal .intNumber, .terminal .floatNumber, .terminal .string,
       keywordOf .trueKw [.falseKw, .nullKw],
       .seq (kw .staticKw) (.alt staticAccess closureTail),
       closureTail,
       seqOf [sym .lsqb, opt (.rule .elements), sym .rsqb],
       .seq (kw .arrayKw) (inParens (opt (.rule .elements))),
       seqOf [kw .newKw, .rule .classRef, opt (.rule .arguments)],
       seqOf [kw .matchKw, inParens (.rule .expr), sym .lbrace, opt (.rule .arms), sym .rbrace],
       inParens (.rule .expr)]
  | .arguments => inParens (opt (commaList (.rule .argument)))
  | .argument =>
    .alt (.seq (opt (sym .ellipsis)) (.rule .expr))
      (seqOf [.terminal .name, sym .colon, .rule .expr])
  | .elements => commaList (.rule .element)
  | .element =>
    oneOf (.seq (.rule .expr) (opt (seqOf [sym .doubleArrow, opt (sym .amp), .rule .expr])))
      [.seq (symbolOf .amp [.ellipsis]) (.rule .expr)]
  | .arms => commaList (.rule .arm)
  | .arm =>
    .seq (.alt (kw .defaultKw) (.rule .exprList)) (.seq (sym .doubleArrow) (.rule .expr))
  | .closureVar => .seq (opt (sym .amp)) (.terminal .variableName)
  | .memberName =>
    .alt (.terminal .name)
      (keywordOf .classKw
        [.defaultKw, .matchKw, .newKw, .arrayKw, .staticKw, .fnKw, .trueKw, .falseKw, .nullKw,
         .publicKw, .privateKw, .protectedKw, .varKw])
  | .classRef => oneOf (.terminal .name) [.terminal .variableName, kw .staticKw]

/-- The terminals that a phrase can start with, each with what has to follow it, and whether the
phrase can be empty. -/
structure Openings where
  starts : List (Terminal × List Phrase)
  nullable : Bool

def Phrase.openings (rules : Rule → Openings) : Phrase → Openings
  | .empty => ⟨[], true⟩
  | .terminal t => ⟨[(t, [])], false⟩
  | .rule r => rules r
  | .seq a b =>
    let first := a.openings rules
    let starts := first.starts.map fun (t, rest) => (t, rest ++ [b])
    if first.nullable then
      let second := b.openings rules
      ⟨starts ++ second.starts, second.nullable⟩
    else ⟨starts, false⟩
  | .alt a b =>
    let first := a.openings rules
    let second := b.openings rules
    ⟨first.starts ++ second.starts, first.nullable || second.nullable⟩
  | .many a => ⟨(a.openings rules).starts.map fun (t, rest) => (t, rest ++ [.many a]), true⟩

/-- Opens rules at most so many times, one inside the other. -/
def Rule.openings : Nat → Rule → Openings
  | 0, _ => ⟨[], false⟩
  | depth + 1, r => r.body.openings (Rule.openings depth)

/-- More than the rules that can stand at the start of one another. -/
def openingDepth : Nat := 40

/-- The tokens that can follow a prefix of a file, each with what has to come after it, given what
has to come after the prefix. -/
def nextOf : List Phrase → List (Terminal × List Phrase)
  | [] => []
  | p :: rest =>
    let o := p.openings (Rule.openings openingDepth)
    o.starts.map (fun (t, inner) => (t, inner ++ rest)) ++ if o.nullable then nextOf rest else []

/-- Whether nothing more has to come. -/
def canEnd (rest : List Phrase) : Bool :=
  rest.all fun p => (p.openings (Rule.openings openingDepth)).nullable

/-- The first token that cannot be there, with the terminals that can, or what can come after all
tokens. -/
inductive Verdict where
  | unexpected (t : Token) (expected : List Terminal)
  | ended (complete : Bool) (expected : List Terminal)

/-- Reads tokens, given all that may have to come after the ones before. -/
def judge : List (List Phrase) → List Token → Verdict
  | pending, [] => .ended (pending.any canEnd) ((pending.flatMap nextOf).map Prod.fst).eraseDups
  | pending, t :: rest =>
    let next := pending.flatMap nextOf
    match (next.filter (·.1 == t.terminal)).map Prod.snd with
    | [] => .unexpected t (next.map Prod.fst).eraseDups
    | pending => judge pending.eraseDups rest

/-- A file is any number of declarations and statements. -/
def judgeFile (ts : List Token) : Verdict := judge [[.many (.rule .top)]] ts

end PhpTypes.Source
