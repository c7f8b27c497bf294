import PhpTypes.Source.Tree

/-!
Tokens of PHP source. A terminal is a keyword, a fixed symbol, or a class of texts such as names and
numbers; white space, tags and comments are tokens too, which the parser leaves out.
-/

namespace PhpTypes.Source

inductive Keyword where
  | includeOnceKw | requireOnceKw | implementsKw | instanceofKw | interfaceKw | namespaceKw
  | protectedKw | abstractKw | continueKw | functionKw | readonlyKw | defaultKw | extendsKw
  | finallyKw | foreachKw | includeKw | privateKw | requireKw | elseifKw | globalKw | publicKw
  | returnKw | staticKw | switchKw | arrayKw | breakKw | catchKw | classKw | cloneKw | constKw
  | falseKw | finalKw | matchKw | printKw | throwKw | traitKw | whileKw | caseKw | echoKw
  | elseKw | nullKw | trueKw | forKw | newKw | tryKw | useKw | varKw | asKw | doKw | fnKw | ifKw
deriving DecidableEq

def Keyword.all : List Keyword :=
  [.includeOnceKw, .requireOnceKw, .implementsKw, .instanceofKw, .interfaceKw, .namespaceKw,
   .protectedKw, .abstractKw, .continueKw, .functionKw, .readonlyKw, .defaultKw, .extendsKw,
   .finallyKw, .foreachKw, .includeKw, .privateKw, .requireKw, .elseifKw, .globalKw, .publicKw,
   .returnKw, .staticKw, .switchKw, .arrayKw, .breakKw, .catchKw, .classKw, .cloneKw, .constKw,
   .falseKw, .finalKw, .matchKw, .printKw, .throwKw, .traitKw, .whileKw, .caseKw, .echoKw,
   .elseKw, .nullKw, .trueKw, .forKw, .newKw, .tryKw, .useKw, .varKw, .asKw, .doKw, .fnKw, .ifKw]

def Keyword.text : Keyword → String
  | .includeOnceKw => "include_once"
  | .requireOnceKw => "require_once"
  | .implementsKw => "implements"
  | .instanceofKw => "instanceof"
  | .interfaceKw => "interface"
  | .namespaceKw => "namespace"
  | .protectedKw => "protected"
  | .abstractKw => "abstract"
  | .continueKw => "continue"
  | .functionKw => "function"
  | .readonlyKw => "readonly"
  | .defaultKw => "default"
  | .extendsKw => "extends"
  | .finallyKw => "finally"
  | .foreachKw => "foreach"
  | .includeKw => "include"
  | .privateKw => "private"
  | .requireKw => "require"
  | .elseifKw => "elseif"
  | .globalKw => "global"
  | .publicKw => "public"
  | .returnKw => "return"
  | .staticKw => "static"
  | .switchKw => "switch"
  | .arrayKw => "array"
  | .breakKw => "break"
  | .catchKw => "catch"
  | .classKw => "class"
  | .cloneKw => "clone"
  | .constKw => "const"
  | .falseKw => "false"
  | .finalKw => "final"
  | .matchKw => "match"
  | .printKw => "print"
  | .throwKw => "throw"
  | .traitKw => "trait"
  | .whileKw => "while"
  | .caseKw => "case"
  | .echoKw => "echo"
  | .elseKw => "else"
  | .nullKw => "null"
  | .trueKw => "true"
  | .forKw => "for"
  | .newKw => "new"
  | .tryKw => "try"
  | .useKw => "use"
  | .varKw => "var"
  | .asKw => "as"
  | .doKw => "do"
  | .fnKw => "fn"
  | .ifKw => "if"

/-- Symbols, longer ones first. -/
inductive Symbol where
  | ellipsis | identical | notIdentical | nullsafe | spaceship | and | dec | eq | ge | inc | le
  | ne | or | pow | shl | shr | doubleArrow | coalesce | arrow | doubleColon | amp | assign | at
  | bang | caret | colon | comma | dot | gt | lbrace | lpar | lsqb | lt | minus | percent | pipe
  | plus | qmark | rbrace | rpar | rsqb | semicolon | slash | star | tilde
deriving DecidableEq

def Symbol.all : List Symbol :=
  [.ellipsis, .identical, .notIdentical, .nullsafe, .spaceship, .and, .dec, .eq, .ge, .inc, .le,
   .ne, .or, .pow, .shl, .shr, .doubleArrow, .coalesce, .arrow, .doubleColon, .amp, .assign, .at,
   .bang, .caret, .colon, .comma, .dot, .gt, .lbrace, .lpar, .lsqb, .lt, .minus, .percent, .pipe,
   .plus, .qmark, .rbrace, .rpar, .rsqb, .semicolon, .slash, .star, .tilde]

def Symbol.text : Symbol → String
  | .ellipsis => "..."
  | .identical => "==="
  | .notIdentical => "!=="
  | .nullsafe => "?->"
  | .spaceship => "<=>"
  | .and => "&&"
  | .dec => "--"
  | .eq => "=="
  | .ge => ">="
  | .inc => "++"
  | .le => "<="
  | .ne => "!="
  | .or => "||"
  | .pow => "**"
  | .shl => "<<"
  | .shr => ">>"
  | .doubleArrow => "=>"
  | .coalesce => "??"
  | .arrow => "->"
  | .doubleColon => "::"
  | .amp => "&"
  | .assign => "="
  | .at => "@"
  | .bang => "!"
  | .caret => "^"
  | .colon => ":"
  | .comma => ","
  | .dot => "."
  | .gt => ">"
  | .lbrace => "\x7b"
  | .lpar => "("
  | .lsqb => "["
  | .lt => "<"
  | .minus => "-"
  | .percent => "%"
  | .pipe => "|"
  | .plus => "+"
  | .qmark => "?"
  | .rbrace => "\x7d"
  | .rpar => ")"
  | .rsqb => "]"
  | .semicolon => ";"
  | .slash => "/"
  | .star => "*"
  | .tilde => "~"

/-- The name of a symbol in messages. -/
def Symbol.label : Symbol → String
  | .ellipsis => "ELLIPSIS"
  | .identical => "IDENTICAL"
  | .notIdentical => "NOT_IDENTICAL"
  | .nullsafe => "NULLSAFE"
  | .spaceship => "SPACESHIP"
  | .and => "AND"
  | .dec => "DEC"
  | .eq => "EQ"
  | .ge => "GE"
  | .inc => "INC"
  | .le => "LE"
  | .ne => "NE"
  | .or => "OR"
  | .pow => "POW"
  | .shl => "SHL"
  | .shr => "SHR"
  | .doubleArrow => "__ANON_0"
  | .coalesce => "__ANON_1"
  | .arrow => "__ANON_2"
  | .doubleColon => "__ANON_3"
  | .amp => "AMP"
  | .assign => "ASSIGN"
  | .at => "AT"
  | .bang => "BANG"
  | .caret => "CARET"
  | .colon => "COLON"
  | .comma => "COMMA"
  | .dot => "DOT"
  | .gt => "GT"
  | .lbrace => "LBRACE"
  | .lpar => "LPAR"
  | .lsqb => "LSQB"
  | .lt => "LT"
  | .minus => "MINUS"
  | .percent => "PERCENT"
  | .pipe => "PIPE"
  | .plus => "PLUS"
  | .qmark => "QMARK"
  | .rbrace => "RBRACE"
  | .rpar => "RPAR"
  | .rsqb => "RSQB"
  | .semicolon => "SEMICOLON"
  | .slash => "SLASH"
  | .star => "STAR"
  | .tilde => "TILDE"

inductive Terminal where
  | keyword (k : Keyword)
  | symbol (s : Symbol)
  | castOperator | floatNumber | name | string | intNumber | variableName | compoundAssign
  | whitespace | openTag | closeTag | lineComment | blockComment
deriving DecidableEq

/-- The name of a terminal in messages. -/
def Terminal.label : Terminal → String
  | .keyword k => k.text.toUpper
  | .symbol s => s.label
  | .castOperator => "CAST"
  | .floatNumber => "FLOAT_NUMBER"
  | .name => "NAME"
  | .string => "STRING"
  | .intNumber => "INT_NUMBER"
  | .variableName => "VARIABLE"
  | .compoundAssign => "COMPOUND_ASSIGN"
  | .whitespace => "WS"
  | .openTag => "OPEN_TAG"
  | .closeTag => "CLOSE_TAG"
  | .lineComment => "LINE_COMMENT"
  | .blockComment => "BLOCK_COMMENT"

/-- Terminals that the parser does not see. -/
def Terminal.isTrivia : Terminal → Bool
  | .whitespace => true
  | .openTag => true
  | .closeTag => true
  | .lineComment => true
  | .blockComment => true
  | _ => false

/-- All terminals that the parser sees. -/
def Terminal.significant : List Terminal :=
  Keyword.all.map .keyword ++ Symbol.all.map .symbol ++
    [.castOperator, .floatNumber, .name, .string, .intNumber, .variableName, .compoundAssign]

/-- A place in a source: the number of characters before it, and its line and column. -/
structure Mark where
  offset : Nat
  pos : Pos
deriving DecidableEq, Inhabited

def Mark.start : Mark := ⟨0, ⟨1, 1⟩⟩

/-- The place after one more character. Only a line feed starts a new line. -/
def Mark.step (m : Mark) (c : Char) : Mark :=
  if c = '\n' then ⟨m.offset + 1, ⟨m.pos.line + 1, 1⟩⟩
  else ⟨m.offset + 1, ⟨m.pos.line, m.pos.column + 1⟩⟩

def Mark.advance (m : Mark) (cs : List Char) : Mark := cs.foldl Mark.step m

structure Token where
  terminal : Terminal
  text : String
  mark : Mark

def Token.pos (t : Token) : Pos := t.mark.pos

end PhpTypes.Source
