import PhpTypes.Source.Grammar
import PhpTypes.Source.Parser.Decl

/-!
From text to tree. A text that has no tree is diagnosed: the first token that no file can have
there, or else a character that starts no token, or else an early end, or else an integer literal
without a value.
-/

namespace PhpTypes.Source

inductive SyntaxError where
  | badCharacter (c : Char) (pos : Pos)
  | unexpected (text : String) (terminal : Terminal) (pos : Pos) (expected : List Terminal)
  | earlyEnd (expected : List Terminal)
  | badInt (e : BadInt)

def Pos.text (p : Pos) : String := toString p.line ++ ":" ++ toString p.column

def SyntaxError.message : SyntaxError → String
  | .badCharacter c pos =>
    "词法错误：意外字符 '" ++ c.toString ++ "' at " ++ pos.text
  | .unexpected text terminal pos _ =>
    "语法错误：意外 token '" ++ text ++ "' (类型 " ++ terminal.label ++ ") at " ++ pos.text
  | .earlyEnd _ => "语法错误：文件意外结束"
  | .badInt e => "AST 转换失败（int_lit）: " ++ e.message

/-- The names of terminals in order. -/
def expectedText (ts : List Terminal) : String :=
  "期望：" ++ Text.quotedList ((ts.map Terminal.label).mergeSort fun a b => decide (a ≤ b))

def SyntaxError.hint : SyntaxError → String
  | .badCharacter _ _ => expectedText Terminal.significant
  | .unexpected _ _ _ expected => expectedText expected
  | .earlyEnd expected => expectedText expected
  | .badInt _ => ""

/-- The first integer literal without a value. -/
def firstBadInt (ts : List Token) : Option BadInt :=
  ts.findSome? fun t =>
    if t.terminal = .intNumber then
      match readInt t.text.toList with
      | .ok _ => none
      | .error e => some e
    else none

/-- Why a list of tokens, up to the end of a text or to a bad character, has no tree. -/
def diagnose (ts : List Token) (failure : Option (Char × Mark)) : SyntaxError :=
  match judgeFile ts, failure with
  | .unexpected t expected, _ => .unexpected t.text t.terminal t.pos expected
  | .ended _ _, some (c, mark) => .badCharacter c mark.pos
  | .ended false expected, none => .earlyEnd expected
  | .ended true expected, none =>
    match firstBadInt ts with
    | some e => .badInt e
    | none => .earlyEnd expected

def Lexed.significant (l : Lexed) : List Token := l.tokens.filter fun t => !t.terminal.isTrivia

/-- The tree of a text, with the names of classes in the clauses of a class as they are written. -/
def written (source : String) : Except SyntaxError File :=
  let cs := source.toList
  let lexed := lex cs
  let ts := lexed.significant
  match lexed.failure with
  | some _ => .error (diagnose ts lexed.failure)
  | none =>
    match Parser.parseTokens (docComments cs) ts with
    | some file => .ok file
    | none => .error (diagnose ts none)

/-- The class with the names in its clauses without leading separators. -/
def ClassLike.plain (c : ClassLike) : ClassLike :=
  { c with
    parent := c.parent.map plainName
    interfaces := c.interfaces.map plainName
    traits := c.traits.map plainName }

def Top.plain : Top → Top
  | .classDecl c => .classDecl c.plain
  | t => t

def File.plain (f : File) : File := ⟨f.tops.map Top.plain⟩

def parse (source : String) : Except SyntaxError File := (written source).map File.plain

end PhpTypes.Source
