import PhpTypes.Source.Outline
import PhpTypes.Source.Parse

/-!
# Texts of expressions

How an expression is written down: its words one after the other, with parentheses around each
operand that binds less tightly than its place demands. A source with such a text has just those
words as its tokens.
-/

namespace PhpTypes.Source

/-! Words. -/

/-- What a token says, wherever it stands. -/
structure Word where
  terminal : Terminal
  text : String

def Token.word (t : Token) : Word := ⟨t.terminal, t.text⟩

def Symbol.word (s : Symbol) : Word := ⟨.symbol s, s.text⟩

def BinaryOp.sign : BinaryOp → Symbol
  | .or => .or
  | .and => .and
  | .bitOr => .pipe
  | .bitXor => .caret
  | .bitAnd => .amp
  | .identical => .identical
  | .notIdentical => .notIdentical
  | .equal => .eq
  | .notEqual => .ne
  | .spaceship => .spaceship
  | .less => .lt
  | .greater => .gt
  | .lessEqual => .le
  | .greaterEqual => .ge
  | .shiftLeft => .shl
  | .shiftRight => .shr
  | .concat => .dot
  | .add => .plus
  | .sub => .minus
  | .mul => .star
  | .div => .slash
  | .mod => .percent
  | .pow => .pow
  | .coalesce => .coalesce

def UnaryOp.word : UnaryOp → Word
  | .not => Symbol.bang.word
  | .minus => Symbol.minus.word
  | .plus => Symbol.plus.word
  | .bitNot => Symbol.tilde.word
  | .silence => Symbol.at.word
  | .print => ⟨.keyword .printKw, Keyword.printKw.text⟩

/-! Levels. What binds more tightly has a higher level. -/

def BinaryOp.level : BinaryOp → Nat
  | .coalesce => 1
  | .or => 2
  | .and => 3
  | .bitOr => 4
  | .bitXor => 5
  | .bitAnd => 6
  | .identical | .notIdentical | .equal | .notEqual | .spaceship => 7
  | .less | .greater | .lessEqual | .greaterEqual => 8
  | .shiftLeft | .shiftRight => 9
  | .concat => 10
  | .add | .sub => 11
  | .mul | .div | .mod => 12
  | .pow => 14

/-- The level that the left operand needs. `??` and `**` do not chain to the left, and what stands
before `**` has no operator at all. -/
def BinaryOp.leftLevel : BinaryOp → Nat
  | .coalesce => 2
  | .pow => 15
  | op => op.level

/-- The level that the right operand needs. `??` chains to the right, and `**` takes what has an
operator in front. -/
def BinaryOp.rightLevel : BinaryOp → Nat
  | .coalesce => 1
  | .pow => 13
  | op => op.level + 1

def Expr.level : Expr → Nat
  | .ternary _ _ _ _ | .elvis _ _ _ => 0
  | .binary _ op _ _ => op.level
  | .unary _ _ _ => 13
  | _ => 15

/-! Texts. -/

/-- The characters of a text in single quotes. -/
def escaped (cs : List Char) : List Char :=
  cs.flatMap fun c => if c == '\\' || c == Text.apostrophe then ['\\', c] else [c]

def singleQuoted (s : String) : String :=
  String.ofList (Text.apostrophe :: (escaped s.toList ++ [Text.apostrophe]))

def enclosed (ws : List Word) (enclose : Bool) : List Word :=
  if enclose then Symbol.lpar.word :: (ws ++ [Symbol.rpar.word]) else ws

/-- The words of an expression of the kinds that are written here. -/
@[simp]
def Expr.words : Expr → List Word
  | .int _ n => [⟨.intNumber, toString n⟩]
  | .var _ x => [⟨.variableName, "$" ++ x⟩]
  | .string _ s _ => [⟨.string, singleQuoted s⟩]
  | .unary _ op x => op.word :: enclosed x.words (x.level < 13)
  | .binary _ op l r =>
    enclosed l.words (l.level < op.leftLevel) ++
      op.sign.word :: enclosed r.words (r.level < op.rightLevel)
  | .ternary _ c y n =>
    enclosed c.words (c.level < 1) ++
      Symbol.qmark.word :: (y.words ++ Symbol.colon.word :: n.words)
  | .elvis _ c n =>
    enclosed c.words (c.level < 1) ++ Symbol.qmark.word :: Symbol.colon.word :: n.words
  | _ => []

/-- The words of an expression where a level is needed. -/
def Expr.wordsAt (e : Expr) (level : Nat) : List Word := enclosed e.words (e.level < level)

def Expr.text (e : Expr) : String := " ".intercalate (e.words.map Word.text)

/-- A source that returns the value of an expression. -/
def returnSource (e : Expr) : String := "<?php return " ++ e.text ++ ";"

/-! The first terminal that takes something. -/

private theorem firstMatch_eq {cs : List Char} {t : Terminal} {before after : List Terminal}
    {n : Nat} (horder : Terminal.order = before ++ t :: after)
    (hbefore : ∀ u ∈ before, u.matchLength cs = 0) (ht : t.matchLength cs = n) (hn : n ≠ 0) :
    firstMatch cs = some (t.refine (cs.take n), n) := by
  have hnone : before.findSome? (fun u =>
      let n := u.matchLength cs
      if n = 0 then none else some (u.refine (cs.take n), n)) = none := by
    rw [List.findSome?_eq_none_iff]
    intro u hu
    simp [hbefore u hu]
  rw [firstMatch, horder, List.findSome?_append, hnone, Option.none_or, List.findSome?_cons]
  simp [ht, hn]

/-- The classes of texts that are tried after casts and before what has a fixed text. -/
def textClasses : List Terminal :=
  [.floatNumber, .name, .string, .intNumber, .variableName, .blockComment, .lineComment,
   .whitespace, .openTag]

private theorem order_eq : Terminal.order =
    Terminal.castOperator ::
      (textClasses ++ ([Terminal.compoundAssign, .closeTag] ++ Symbol.all.map .symbol)) := rfl

private theorem firstMatch_class {cs : List Char} {t : Terminal} {before after : List Terminal}
    {n : Nat} (hsplit : textClasses = before ++ t :: after) (hcast : castLength cs = 0)
    (hbefore : ∀ u ∈ before, u.matchLength cs = 0) (ht : t.matchLength cs = n) (hn : n ≠ 0) :
    firstMatch cs = some (t.refine (cs.take n), n) := by
  have horder : Terminal.order = (Terminal.castOperator :: before) ++
      t :: (after ++ ([Terminal.compoundAssign, .closeTag] ++ Symbol.all.map .symbol)) := by
    rw [order_eq, hsplit, List.append_assoc]
    rfl
  apply firstMatch_eq horder _ ht hn
  rw [List.forall_mem_cons]
  exact ⟨hcast, hbefore⟩

section

variable {c : Char} {cs : List Char}

private theorem castLength_eq_zero (h : c ≠ '(') : castLength (c :: cs) = 0 := by
  unfold castLength
  split
  · rename_i heq
    cases heq
    exact (h rfl).elim
  · rfl

private theorem digitsLength_eq_zero (h : Text.isDigit c = false) : digitsLength (c :: cs) = 0 := by
  simp [digitsLength, h]

private theorem floatLength_eq_zero (h : Text.isDigit c = false) : floatLength (c :: cs) = 0 := by
  simp [floatLength, digitsLength_eq_zero h]

private theorem relativeNameLength_eq_zero (h : isNameStart c = false) :
    relativeNameLength (c :: cs) = 0 := by
  simp [relativeNameLength, wordLength, h]

private theorem nameLength_eq_zero (hc : c ≠ '\\') (h : isNameStart c = false) :
    nameLength (c :: cs) = 0 := by
  unfold nameLength
  split
  · rename_i heq
    cases heq
    exact (hc rfl).elim
  · exact relativeNameLength_eq_zero h

private theorem stringLength_eq_zero (h : isQuote c = false) : stringLength (c :: cs) = 0 := by
  simp [stringLength, h]

private theorem radixLength_eq_zero (h : c ≠ '0') : radixLength (c :: cs) = 0 := by
  unfold radixLength
  split
  · rename_i heq
    cases heq
    exact (h rfl).elim
  · rfl

private theorem intLength_eq_zero (h : Text.isDigit c = false) : intLength (c :: cs) = 0 := by
  have hzero : c ≠ '0' := by
    rintro rfl
    revert h
    decide
  simp [intLength, radixLength_eq_zero hzero, digitsLength_eq_zero h]

private theorem variableLength_eq_zero (h : c ≠ '$') : variableLength (c :: cs) = 0 := by
  unfold variableLength
  split
  · rename_i heq
    cases heq
    exact (h rfl).elim
  · rfl

private theorem runLength_eq_zero {p : Char → Bool} (h : p c = false) :
    runLength p (c :: cs) = 0 := by
  simp [runLength, h]

private theorem openTagLength_eq_zero {d : Char} (h : foldCase c ≠ '<' ∨ foldCase d ≠ '?') :
    openTagLength (c :: d :: cs) = 0 := by
  rw [openTagLength, if_neg]
  intro htag
  have hchars := congrArg String.toList (beq_iff_eq.mp htag)
  simp [foldCaseText] at hchars
  rcases h with h | h
  · exact h hchars.1
  · exact h hchars.2.1

private theorem blockCommentLength_eq_zero {d : Char} (h : c ≠ '/' ∨ d ≠ '*') :
    blockCommentLength (c :: d :: cs) = 0 := by
  unfold blockCommentLength
  split
  · rename_i heq
    cases heq
    simp at h
  · rfl

private theorem lineCommentLength_eq_zero {d : Char} (hc : c ≠ '#') (h : c ≠ '/' ∨ d ≠ '/') :
    lineCommentLength (c :: d :: cs) = 0 := by
  unfold lineCommentLength
  split
  · rename_i heq
    cases heq
    exact (hc rfl).elim
  · rename_i heq
    cases heq
    simp at h
  · rfl

end

/-! Symbols. -/

/-- Neither text starts with the other. -/
def apart (a b : List Char) : Bool := !a.isPrefixOf b && !b.isPrefixOf a

private theorem fixedLength_of_apart {a b : List Char} (h : apart a b = true) (rest : List Char) :
    fixedLength a (b ++ rest) = 0 := by
  rw [fixedLength, if_neg]
  intro hprefix
  simp only [apart, Bool.and_eq_true, Bool.not_eq_true', ← Bool.not_eq_true,
    List.isPrefixOf_iff_prefix] at h hprefix
  rcases List.prefix_or_prefix_of_prefix hprefix (List.prefix_append b rest) with hab | hba
  · exact h.1 hab
  · exact h.2 hba

/-- What ends a word. -/
def wordEnds : List Char := [' ', ';']

/-- What each member of a list of characters has is checked member by member: a decision of the
quantifier itself may go through all characters that there are. -/
theorem forall_mem_of_all {cs : List Char} {p : Char → Prop} [DecidablePred p]
    (h : cs.all (fun c => decide (p c)) = true) : ∀ c ∈ cs, p c := by
  simpa using h

private theorem symbols_apart : Symbol.all.Pairwise fun s' s =>
    wordEnds.all (fun c => apart s'.text.toList (s.text.toList ++ [c])) = true := by
  decide +kernel

private theorem marks_apart :
    ∀ s ∈ Symbol.all, ∀ text ∈ ['?', '>'] :: compoundTexts.map String.toList,
    wordEnds.all (fun c => apart text (s.text.toList ++ [c])) = true := by
  decide +kernel

/-- The first two characters of a text that starts with a symbol, and with nothing else but perhaps
a cast. -/
def opensSymbol : List Char → Bool
  | c :: d :: _ =>
    !isNameStart c && !Text.isDigit c && !isQuote c && c != '$' && c != '\\' && !isLayout c &&
      c != '#' && (c != '/' || (d != '/' && d != '*')) && (foldCase c != '<' || foldCase d != '?')
  | _ => false

private theorem opensSymbol_text : ∀ s ∈ Symbol.all,
    wordEnds.all (fun c => opensSymbol (s.text.toList ++ [c])) = true := by
  decide +kernel

theorem Symbol.mem_all (s : Symbol) : s ∈ Symbol.all := by cases s <;> decide

theorem Symbol.text_ne_nil (s : Symbol) : s.text.toList ≠ [] := by cases s <;> decide

private theorem matchLength_of_opensSymbol {cs : List Char} (h : opensSymbol cs = true)
    (rest : List Char) : ∀ u ∈ textClasses, u.matchLength (cs ++ rest) = 0 := by
  match cs, h with
  | c :: d :: cs, h =>
    simp only [opensSymbol, Bool.and_eq_true, Bool.or_eq_true, Bool.not_eq_true', bne_iff_ne,
      ne_eq] at h
    obtain ⟨⟨⟨⟨⟨⟨⟨⟨hname, hdigit⟩, hquote⟩, hdollar⟩, hseparator⟩, hlayout⟩, hhash⟩, hslash⟩,
      htag⟩ := h
    have hblock : c ≠ '/' ∨ d ≠ '*' := hslash.imp_right And.right
    have hline : c ≠ '/' ∨ d ≠ '/' := hslash.imp_right And.left
    simp only [textClasses, List.cons_append, List.forall_mem_cons, Terminal.matchLength,
      List.not_mem_nil, false_imp_iff, implies_true, and_true]
    exact ⟨floatLength_eq_zero hdigit, nameLength_eq_zero hseparator hname,
      stringLength_eq_zero hquote, intLength_eq_zero hdigit, variableLength_eq_zero hdollar,
      blockCommentLength_eq_zero hblock, lineCommentLength_eq_zero hhash hline,
      runLength_eq_zero hlayout, openTagLength_eq_zero htag⟩

private theorem compoundLength_eq_zero {cs : List Char}
    (h : ∀ text ∈ compoundTexts, fixedLength text.toList cs = 0) : compoundLength cs = 0 := by
  have hnone : (compoundTexts.map fun t => fixedLength t.toList cs).find? (· != 0) = none := by
    rw [List.find?_eq_none]
    intro n hn
    obtain ⟨text, htext, rfl⟩ := List.mem_map.mp hn
    simp [h text htext]
  rw [compoundLength, hnone]
  rfl

private theorem fixedLength_self (text rest : List Char) :
    fixedLength text (text ++ rest) = text.length :=
  if_pos (List.isPrefixOf_iff_prefix.mpr (List.prefix_append text rest))

/-- A symbol that ends there and starts no cast is found as a whole. -/
theorem firstMatch_symbol (s : Symbol) {c : Char} (hc : c ∈ wordEnds) {rest : List Char}
    (hcast : castLength (s.text.toList ++ c :: rest) = 0) :
    firstMatch (s.text.toList ++ c :: rest) = some (.symbol s, s.text.toList.length) := by
  obtain ⟨before, after, hall⟩ := List.append_of_mem s.mem_all
  have hsplit : s.text.toList ++ c :: rest = (s.text.toList ++ [c]) ++ rest := by simp
  have hopens := List.all_eq_true.mp (opensSymbol_text s s.mem_all) c hc
  have hclasses := matchLength_of_opensSymbol hopens rest
  have hmarks : ∀ text ∈ ['?', '>'] :: compoundTexts.map String.toList,
      fixedLength text (s.text.toList ++ c :: rest) = 0 := by
    intro text htext
    rw [hsplit]
    have hapart := List.all_eq_true.mp (marks_apart s s.mem_all text htext) c hc
    exact fixedLength_of_apart hapart rest
  have hbefore : ∀ s' ∈ before, fixedLength s'.text.toList (s.text.toList ++ c :: rest) = 0 := by
    intro s' hs'
    have hpairs := symbols_apart
    rw [hall, List.pairwise_append] at hpairs
    have hapart := List.all_eq_true.mp (hpairs.2.2 s' hs' s (by simp)) c hc
    rw [hsplit]
    exact fixedLength_of_apart hapart rest
  have horder : Terminal.order =
      (Terminal.castOperator :: (textClasses ++ [Terminal.compoundAssign, .closeTag] ++
        before.map .symbol)) ++ Terminal.symbol s :: after.map .symbol := by
    rw [order_eq, hall]
    simp
  have hzero : s.text.toList.length ≠ 0 := by
    simpa using s.text_ne_nil
  refine firstMatch_eq horder ?_ (fixedLength_self _ _) hzero
  rw [← hsplit] at hclasses
  rw [List.forall_mem_cons, List.forall_mem_map] at hmarks
  simp only [List.forall_mem_append, List.forall_mem_map, List.forall_mem_cons]
  exact ⟨hcast, ⟨hclasses, compoundLength_eq_zero hmarks.2, hmarks.1, by simp⟩, hbefore⟩

/-! Words of expressions. -/

/-- What starts a word is no blank, and no letter that could belong to a cast. -/
def startsWord (c : Char) : Bool := !Text.isBlank c && !(foldCase c).isLower

/-- A word ends before a semicolon, or before a space and another word. -/
inductive WordEnd : List Char → Prop where
  | semicolon (cs : List Char) : WordEnd (';' :: cs)
  | space {c : Char} (cs : List Char) : startsWord c = true → WordEnd (' ' :: c :: cs)

/-- A word is found in a text wherever it ends. -/
structure Word.Lexable (w : Word) : Prop where
  starts : ∃ c cs, w.text.toList = c :: cs ∧ startsWord c = true
  found : ∀ {rest}, WordEnd rest →
    firstMatch (w.text.toList ++ rest) = some (w.terminal, w.text.toList.length)
  shown : w.terminal.isTrivia = false

theorem WordEnd.head {rest : List Char} (h : WordEnd rest) :
    ∃ c ∈ wordEnds, ∃ cs, rest = c :: cs := by
  cases h with
  | semicolon cs => exact ⟨';', by decide, cs, rfl⟩
  | space cs _ => exact ⟨' ', by decide, _, rfl⟩

/-- A cast needs a word after the parenthesis. -/
theorem castLength_of_takeWhile {rest : List Char}
    (h : (rest.drop (runLength Text.isBlank rest)).takeWhile (fun c => (foldCase c).isLower) = []) :
    castLength ('(' :: rest) = 0 := by
  have hwords : castWords.contains (foldCaseText []) = false := by decide
  simp only [castLength, h, hwords, Bool.false_and]
  rfl

private theorem castLength_lpar {rest : List Char} (h : WordEnd rest) :
    castLength ('(' :: rest) = 0 := by
  apply castLength_of_takeWhile
  cases h with
  | semicolon cs => rfl
  | @space c cs hc =>
    simp only [startsWord, Bool.and_eq_true, Bool.not_eq_true'] at hc
    have hblank : runLength Text.isBlank (' ' :: c :: cs) = 1 := by
      have hspace : Text.isBlank ' ' = true := by decide
      simp [runLength, hspace, hc.1]
    rw [hblank]
    simp [hc.2]

private theorem startsWord_symbol :
    ∀ s ∈ Symbol.all, s.text.toList.head?.all startsWord = true := by
  decide

private theorem lpar_of_head : ∀ s ∈ Symbol.all, s.text.toList.head? = some '(' →
    s.text.toList = ['('] := by
  decide

theorem Symbol.lexable (s : Symbol) : s.word.Lexable := by
  obtain ⟨c, cs, hcs⟩ := List.exists_cons_of_ne_nil s.text_ne_nil
  constructor
  · have hstarts := startsWord_symbol s s.mem_all
    rw [hcs] at hstarts
    exact ⟨c, cs, hcs, hstarts⟩
  · intro rest hrest
    obtain ⟨d, hd, ds, hds⟩ := hrest.head
    have hcast : castLength (s.text.toList ++ rest) = 0 := by
      by_cases hc : c = '('
      · have hlpar : s.text.toList = ['('] := lpar_of_head s s.mem_all (by simp [hcs, hc])
        rw [hlpar]
        exact castLength_lpar hrest
      · rw [hcs]
        exact castLength_eq_zero hc
    rw [hds] at hcast ⊢
    exact firstMatch_symbol s hd hcast
  · rfl

/-! Variables. -/

/-- The name of a variable, without its dollar. -/
inductive NameChars : List Char → Prop where
  | mk {c : Char} {cs : List Char} :
    isNameStart c = true → (∀ d ∈ cs, isNameRest d = true) → NameChars (c :: cs)

private theorem not_isNameRest_of_wordEnds : ∀ c ∈ wordEnds, isNameRest c = false :=
  forall_mem_of_all (by decide)

theorem runLength_append {p : Char → Bool} {cs rest : List Char} (h : ∀ d ∈ cs, p d = true)
    (hrest : ∀ c ∈ rest.head?, p c = false) : runLength p (cs ++ rest) = cs.length := by
  have hstop : rest.takeWhile p = [] := by
    cases rest with
    | nil => rfl
    | cons c rest => exact List.takeWhile_cons_of_neg (by simp [hrest c rfl])
  rw [runLength, List.takeWhile_append_of_pos h, hstop, List.append_nil]

private theorem variableLength_append {cs : List Char} (h : NameChars cs) {c : Char}
    (hc : c ∈ wordEnds)
    (rest : List Char) : variableLength ('$' :: (cs ++ c :: rest)) = cs.length + 1 := by
  obtain ⟨hstart, hrest⟩ := h
  rename_i d ds
  have hrun : runLength isNameRest (ds ++ c :: rest) = ds.length :=
    runLength_append hrest (by simpa using not_isNameRest_of_wordEnds c hc)
  have hword : wordLength (d :: ds ++ c :: rest) = ds.length + 1 := by
    rw [List.cons_append, wordLength, if_pos hstart, hrun, Nat.add_comm]
  rw [variableLength, hword, List.length_cons]
  simp only [beq_iff_eq, Nat.add_eq_zero_iff, Nat.succ_ne_self, and_false, if_false]
  omega

private theorem variable_lexable {x : String} (h : NameChars x.toList) :
    (Word.mk .variableName ("$" ++ x)).Lexable := by
  have htext : ("$" ++ x).toList = '$' :: x.toList := by simp
  constructor
  · exact ⟨'$', x.toList, htext, by decide⟩
  · intro rest hrest
    obtain ⟨c, hc, cs, rfl⟩ := hrest.head
    have hsplit : textClasses = [Terminal.floatNumber, .name, .string, .intNumber] ++
        Terminal.variableName :: [.blockComment, .lineComment, .whitespace, .openTag] := rfl
    rw [htext, List.length_cons, List.cons_append]
    have hcast : castLength ('$' :: (x.toList ++ c :: cs)) = 0 := castLength_eq_zero (by decide)
    apply firstMatch_class hsplit hcast _ (variableLength_append h hc cs) (Nat.succ_ne_zero _)
    simp only [List.forall_mem_cons, Terminal.matchLength]
    exact ⟨floatLength_eq_zero (by decide), nameLength_eq_zero (by decide) (by decide),
      stringLength_eq_zero (by decide), intLength_eq_zero (by decide), by simp⟩
  · rfl

/-! Integers. -/

def digitChars : List Char := ['0', '1', '2', '3', '4', '5', '6', '7', '8', '9']

theorem exists_digitChar {base n : Nat} (hbase : 1 < base) :
    ∀ c ∈ Nat.toDigits base n, ∃ d < base, c = d.digitChar := by
  induction n using Nat.strongRecOn with
  | _ n ih =>
    by_cases h : n < base
    · rw [Nat.toDigits_of_lt_base h, List.forall_mem_singleton]
      exact ⟨n, h, rfl⟩
    · have hlast : n % base < base := Nat.mod_lt n (by omega)
      rw [Nat.toDigits_of_base_le hbase (by omega), List.forall_mem_append,
        List.forall_mem_singleton]
      exact ⟨ih (n / base) (Nat.div_lt_self (by omega) hbase), _, hlast, rfl⟩

theorem mem_digitChars {base n : Nat} (hbase : 1 < base) (hten : base ≤ 10) :
    ∀ c ∈ Nat.toDigits base n, c ∈ digitChars := by
  have hdigit : ∀ d < 10, d.digitChar ∈ digitChars := by decide
  intro c hc
  obtain ⟨d, hd, rfl⟩ := exists_digitChar hbase c hc
  exact hdigit d (by omega)

theorem isDigit_of_digitChars : ∀ c ∈ digitChars, Text.isDigit c = true :=
  forall_mem_of_all (by decide)

/-- The letters that announce another base. -/
def baseLetters : List Char := ['x', 'X', 'b', 'B']

/-- Nothing follows that goes on with a number or makes it a float. -/
def EndsNumber (rest : List Char) : Prop :=
  ∀ c ∈ rest.head?, isDigitOrGap c = false ∧ c ∉ ['.', 'e', 'E']

theorem endsNumber_nil : EndsNumber [] := by simp [EndsNumber]

section

variable {d : Char} {ds rest : List Char}

private theorem digitsLength_append (hd : Text.isDigit d = true)
    (hds : ∀ c ∈ ds, isDigitOrGap c = true)
    (hrest : EndsNumber rest) : digitsLength (d :: (ds ++ rest)) = ds.length + 1 := by
  have hstop : ∀ c ∈ rest.head?, isDigitOrGap c = false := fun c hc => (hrest c hc).1
  rw [digitsLength, if_pos hd, runLength_append hds hstop, Nat.add_comm]

theorem floatLength_digits (hd : Text.isDigit d = true) (hds : ∀ c ∈ ds, isDigitOrGap c = true)
    (hrest : EndsNumber rest) : floatLength (d :: (ds ++ rest)) = 0 := by
  have hdrop : (d :: (ds ++ rest)).drop (ds.length + 1) = rest := by simp
  simp only [floatLength, digitsLength_append hd hds hrest, hdrop]
  cases rest with
  | nil => simp [exponentLength]
  | cons c rest =>
    have hc := (hrest c rfl).2
    simp only [List.mem_cons, List.not_mem_nil, or_false, not_or] at hc
    have hexponent : exponentLength (c :: rest) = 0 := by simp [exponentLength, hc]
    simp [hexponent, hc.1]

private theorem radixLength_of_letter {b : Char} (h : b ∉ baseLetters) (a : Char) (cs : List Char) :
    radixLength (a :: b :: cs) = 0 := by
  by_cases ha : a = '0'
  · simp only [baseLetters, List.mem_cons, List.not_mem_nil, or_false, not_or] at h
    simp [ha, radixLength, h]
  · exact radixLength_eq_zero ha

private theorem radixLength_digits (hds : ∀ c ∈ ds, isDigitOrGap c = true)
    (hletter : ∀ c ∈ rest.head?, c ∉ baseLetters) : radixLength (d :: (ds ++ rest)) = 0 := by
  have hletters : ∀ b ∈ baseLetters, isDigitOrGap b = false := forall_mem_of_all (by decide)
  cases ds with
  | cons b ds =>
    apply radixLength_of_letter
    intro hb
    have hdigit := hds b List.mem_cons_self
    rw [hletters b hb] at hdigit
    cases hdigit
  | nil =>
    cases rest with
    | nil => simp [radixLength]
    | cons b rest => exact radixLength_of_letter (hletter b rfl) d rest

theorem intLength_digits (hd : Text.isDigit d = true) (hds : ∀ c ∈ ds, isDigitOrGap c = true)
    (hrest : EndsNumber rest) (hletter : ∀ c ∈ rest.head?, c ∉ baseLetters) :
    intLength (d :: (ds ++ rest)) = ds.length + 1 := by
  simp [intLength, radixLength_digits hds hletter, digitsLength_append hd hds hrest]

end

/-- What starts with a digit and is no float is an integer. -/
theorem firstMatch_number {d : Char} {cs : List Char} {n : Nat} (hd : d ∈ digitChars)
    (hfloat : floatLength (d :: cs) = 0) (hint : intLength (d :: cs) = n) (hn : n ≠ 0) :
    firstMatch (d :: cs) = some (.intNumber, n) := by
  have hfirst : ∀ d ∈ digitChars, d ≠ '(' ∧ d ≠ '\\' ∧ isNameStart d = false ∧
      isQuote d = false := forall_mem_of_all (by decide)
  obtain ⟨hlpar, hseparator, hname, hquote⟩ := hfirst d hd
  have hsplit : textClasses = [Terminal.floatNumber, .name, .string] ++ Terminal.intNumber ::
      [.variableName, .blockComment, .lineComment, .whitespace, .openTag] := rfl
  apply firstMatch_class hsplit (castLength_eq_zero hlpar) _ hint hn
  simp only [List.forall_mem_cons, Terminal.matchLength]
  exact ⟨hfloat, nameLength_eq_zero hseparator hname, stringLength_eq_zero hquote, by simp⟩

/-- Only zero starts with the digit zero. -/
theorem toDigits_head_ne_zero {n : Nat} (hn : 0 < n) : (Nat.toDigits 10 n).head? ≠ some '0' := by
  have hdigit : ∀ d < 10, 0 < d → d.digitChar ≠ '0' := by decide
  induction n using Nat.strongRecOn with
  | _ n ih =>
    by_cases h : n < 10
    · rw [Nat.toDigits_of_lt_base h]
      simpa using hdigit n h hn
    · have hfirst := ih (n / 10) (by omega) (by omega)
      have hne : Nat.toDigits 10 (n / 10) ≠ [] := Nat.toDigits_ne_nil
      obtain ⟨d, ds, hds⟩ := List.exists_cons_of_ne_nil hne
      rw [hds] at hfirst
      rw [Nat.toDigits_of_base_le (by omega) (by omega), hds]
      exact hfirst

theorem readInt_decimal {cs : List Char} {n : Nat} (h : withoutGaps cs = Nat.toDigits 10 n) :
    readInt cs = .ok n := by
  simp only [readInt, h]
  split
  · rename_i letter rest hzero
    have hn : ¬ 0 < n := by
      intro hn
      apply toDigits_head_ne_zero hn
      rw [hzero]
      rfl
    obtain rfl : n = 0 := by omega
    cases hzero
  · rw [Text.readDigits_toDigits n]

private theorem int_lexable (n : Nat) : (Word.mk .intNumber (toString n)).Lexable := by
  have htext : (toString n).toList = Nat.toDigits 10 n := Nat.toList_repr
  obtain ⟨d, ds, hds⟩ := List.exists_cons_of_ne_nil (Nat.toDigits_ne_nil (n := n) (b := 10))
  have hdigits : ∀ c ∈ d :: ds, c ∈ digitChars := hds ▸ mem_digitChars (by decide) (by decide)
  have hd : d ∈ digitChars := hdigits d List.mem_cons_self
  have hgo : ∀ c ∈ ds, isDigitOrGap c = true := by
    intro c hc
    simp [isDigitOrGap, isDigit_of_digitChars c (hdigits c (List.mem_cons_of_mem d hc))]
  have hstarts : ∀ d ∈ digitChars, startsWord d = true := forall_mem_of_all (by decide)
  constructor
  · exact ⟨d, ds, htext.trans hds, hstarts d hd⟩
  · intro rest hrest
    obtain ⟨c, hc, cs, rfl⟩ := hrest.head
    have hends : ∀ c ∈ wordEnds, (isDigitOrGap c = false ∧ c ∉ ['.', 'e', 'E']) ∧
        c ∉ baseLetters := forall_mem_of_all (by decide)
    have hend : EndsNumber (c :: cs) := by simpa [EndsNumber] using (hends c hc).1
    have hdigit := isDigit_of_digitChars d hd
    have hint := intLength_digits hdigit hgo hend (by simpa using (hends c hc).2)
    rw [htext, hds]
    exact firstMatch_number hd (floatLength_digits hdigit hgo hend) hint (Nat.succ_ne_zero _)
  · rfl

/-! Quoted texts. -/

/-- The text with a backslash in front of each special character. -/
def escapedBy (special : Char → Bool) (cs : List Char) : List Char :=
  cs.flatMap fun c => if special c then ['\\', c] else [c]

theorem escapedBy_special {special : Char → Bool} {c : Char} (h : special c = true)
    (cs : List Char) : escapedBy special (c :: cs) = '\\' :: c :: escapedBy special cs := by
  simp [escapedBy, h]

theorem escapedBy_plain {special : Char → Bool} {c : Char} (h : special c = false)
    (cs : List Char) : escapedBy special (c :: cs) = c :: escapedBy special cs := by
  simp [escapedBy, h]

/-- What is special in single quotes. -/
def isSingleSpecial (c : Char) : Bool := c == '\\' || c == Text.apostrophe

private theorem escaped_eq (cs : List Char) : escaped cs = escapedBy isSingleSpecial cs := rfl

private theorem stringBodyLength_cons {quote c : Char} (hc : c ≠ '\\') (cs : List Char) :
    stringBodyLength quote (c :: cs) =
      if c = quote then some 1 else (stringBodyLength quote cs).map (· + 1) := by
  rw [stringBodyLength]
  · exact fun h _ => hc h
  · exact fun _ _ h _ => hc h

/-- Where backslashes and quotes are special, the first quote that is not escaped is the last
one. -/
theorem stringBodyLength_escapedBy {special : Char → Bool} {quote : Char} (hquote : quote ≠ '\\')
    (hspecial : special '\\' = true) (hspecial' : special quote = true) (cs rest : List Char) :
    stringBodyLength quote (escapedBy special cs ++ quote :: rest) =
      some ((escapedBy special cs).length + 1) := by
  induction cs with
  | nil => exact (stringBodyLength_cons hquote rest).trans (if_pos rfl)
  | cons c cs ih =>
    cases hc : special c with
    | true =>
      rw [escapedBy_special hc, List.cons_append, List.cons_append, stringBodyLength, ih]
      rfl
    | false =>
      have hne : c ≠ '\\' ∧ c ≠ quote := by
        constructor <;> rintro rfl <;> simp_all
      rw [escapedBy_plain hc, List.cons_append, stringBodyLength_cons hne.1, if_neg hne.2, ih]
      rfl

/-- What starts with a quote and has an end is a string. -/
theorem firstMatch_quoted {quote : Char} (hquote : isQuote quote = true) {cs : List Char} {n : Nat}
    (h : stringBodyLength quote cs = some n) :
    firstMatch (quote :: cs) = some (.string, n + 1) := by
  have hquotes : ∀ q ∈ ['"', Text.apostrophe], q ≠ '(' ∧ Text.isDigit q = false ∧ q ≠ '\\' ∧
      isNameStart q = false := forall_mem_of_all (by decide)
  have hmem : quote ∈ ['"', Text.apostrophe] := by
    rw [isQuote, Bool.or_eq_true, beq_iff_eq, beq_iff_eq] at hquote
    rcases hquote with hquote | hquote
    · simp [hquote]
    · have hapostrophe : quote = Text.apostrophe := by
        rw [← Char.ofNat_toNat quote, hquote, Text.apostrophe]
      simp [hapostrophe]
  obtain ⟨hlpar, hdigit, hseparator, hname⟩ := hquotes quote hmem
  have hsplit : textClasses = [Terminal.floatNumber, .name] ++ Terminal.string ::
      [.intNumber, .variableName, .blockComment, .lineComment, .whitespace, .openTag] := rfl
  have hstring : Terminal.string.matchLength (quote :: cs) = n + 1 := by
    simp [Terminal.matchLength, stringLength, hquote, h]
  apply firstMatch_class hsplit (castLength_eq_zero hlpar) _ hstring (Nat.succ_ne_zero n)
  simp only [List.forall_mem_cons, Terminal.matchLength]
  exact ⟨floatLength_eq_zero hdigit, nameLength_eq_zero hseparator hname, by simp⟩

private theorem unescapeSingle_cons {c : Char} (hc : c ≠ '\\') (cs : List Char) :
    unescapeSingle (c :: cs) = c :: unescapeSingle cs := by
  rw [unescapeSingle]
  exact fun _ _ h _ => hc h

private theorem unescapeSingle_escaped (cs : List Char) : unescapeSingle (escaped cs) = cs := by
  rw [escaped_eq]
  induction cs with
  | nil => rfl
  | cons c cs ih =>
    cases hc : isSingleSpecial c with
    | true =>
      have hknown : (c == '\\' || c == Text.apostrophe) = true := hc
      rw [escapedBy_special hc, unescapeSingle, if_pos hknown, ih]
    | false =>
      have hne : c ≠ '\\' := by
        rintro rfl
        cases hc
      rw [escapedBy_plain hc, unescapeSingle_cons hne, ih]

theorem toList_singleQuoted (s : String) :
    (singleQuoted s).toList = Text.apostrophe :: (escaped s.toList ++ [Text.apostrophe]) := by
  rw [singleQuoted, String.toList_ofList]

theorem unquote_singleQuoted (s : String) : unquote (singleQuoted s).toList = (s, false) := by
  have hquote : (Text.apostrophe == '"') = false := by decide
  simp [toList_singleQuoted, unquote, hquote, unescapeSingle_escaped]

theorem firstMatch_singleQuoted (s : String) (rest : List Char) :
    firstMatch ((singleQuoted s).toList ++ rest) =
      some (.string, (singleQuoted s).toList.length) := by
  have hbody : stringBodyLength Text.apostrophe (escaped s.toList ++ Text.apostrophe :: rest) =
      some ((escaped s.toList).length + 1) :=
    stringBodyLength_escapedBy (by decide) (by decide) (by decide) s.toList rest
  rw [toList_singleQuoted, List.cons_append, List.append_assoc, List.singleton_append,
    firstMatch_quoted (by decide) hbody, List.length_cons, List.length_append,
    List.length_singleton]

private theorem string_lexable (s : String) : (Word.mk .string (singleQuoted s)).Lexable := by
  constructor
  · exact ⟨_, _, toList_singleQuoted s, by decide⟩
  · exact fun {rest} _ => firstMatch_singleQuoted s rest
  · rfl

/-! Expressions. -/

/-- The expressions that are written here: integers, variables and texts in single quotes, with
binary operators, operators in front and choices. -/
inductive Plain : Expr → Prop where
  | int (pos : Pos) (n : Nat) : Plain (.int pos n)
  | var (pos : Pos) {x : String} : NameChars x.toList → Plain (.var pos x)
  | string (pos : Pos) (s : String) : Plain (.string pos s false)
  | unary (pos : Pos) {op : UnaryOp} {x : Expr} : op ≠ .print → Plain x → Plain (.unary pos op x)
  | binary (pos : Pos) (op : BinaryOp) {l r : Expr} :
    Plain l → Plain r → Plain (.binary pos op l r)
  | ternary (pos : Pos) {c y n : Expr} : Plain c → Plain y → Plain n → Plain (.ternary pos c y n)
  | elvis (pos : Pos) {c n : Expr} : Plain c → Plain n → Plain (.elvis pos c n)

theorem UnaryOp.word_eq {op : UnaryOp} (h : op ≠ .print) : ∃ s : Symbol, op.word = s.word := by
  cases op with
  | print => exact (h rfl).elim
  | _ => exact ⟨_, rfl⟩

private theorem forall_mem_enclosed {P : Word → Prop} {ws : List Word} (hl : P Symbol.lpar.word)
    (hr : P Symbol.rpar.word) (h : ∀ w ∈ ws, P w) (enclose : Bool) :
    ∀ w ∈ enclosed ws enclose, P w := by
  cases enclose with
  | false => exact h
  | true => simpa [enclosed, List.forall_mem_append, hl, hr, or_imp, forall_and] using h

theorem Plain.lexable {e : Expr} (h : Plain e) : ∀ w ∈ e.words, w.Lexable := by
  have henclosed : ∀ {ws : List Word} (enclose : Bool), (∀ w ∈ ws, w.Lexable) →
      ∀ w ∈ enclosed ws enclose, w.Lexable := fun enclose hws =>
    forall_mem_enclosed (Symbol.lexable _) (Symbol.lexable _) hws enclose
  induction h with
  | int pos n => simpa [Expr.words] using int_lexable n
  | var pos hx => simpa [Expr.words] using variable_lexable hx
  | string pos s => simpa [Expr.words] using string_lexable s
  | unary pos hop _ ih =>
    obtain ⟨s, hs⟩ := UnaryOp.word_eq hop
    rw [Expr.words, List.forall_mem_cons, hs]
    exact ⟨s.lexable, henclosed _ ih⟩
  | binary pos op _ _ ihl ihr =>
    rw [Expr.words, List.forall_mem_append, List.forall_mem_cons]
    exact ⟨henclosed _ ihl, op.sign.lexable, henclosed _ ihr⟩
  | ternary pos _ _ _ ihc ihy ihn =>
    simp only [Expr.words, List.forall_mem_append, List.forall_mem_cons]
    exact ⟨henclosed _ ihc, Symbol.lexable _, ihy, Symbol.lexable _, ihn⟩
  | elvis pos _ _ ihc ihn =>
    simp only [Expr.words, List.forall_mem_append, List.forall_mem_cons]
    exact ⟨henclosed _ ihc, Symbol.lexable _, Symbol.lexable _, ihn⟩

theorem Expr.words_ne_nil {e : Expr} (h : Plain e) : e.words ≠ [] := by
  cases h <;> simp [Expr.words]

/-! The tokens of a source. -/

private theorem lexFrom_append {mark : Mark} {w rest : List Char} {t : Terminal} (hne : w ≠ [])
    (h : firstMatch (w ++ rest) = some (t, w.length)) :
    lexFrom mark (w ++ rest) =
      (lexFrom (mark.advance w) rest).cons ⟨t, String.ofList w, mark⟩ := by
  obtain ⟨c, w, rfl⟩ := List.exists_cons_of_ne_nil hne
  rw [List.cons_append] at h ⊢
  rw [lexFrom]
  split
  · rename_i hnone
    rw [h] at hnone
    cases hnone
  · rename_i hsome
    rw [h] at hsome
    cases hsome
    simp

theorem lex_single {cs : List Char} {t : Terminal} (hne : cs ≠ [])
    (h : firstMatch cs = some (t, cs.length)) :
    lex cs = ⟨[⟨t, String.ofList cs, .start⟩], none⟩ := by
  have hfound : firstMatch (cs ++ []) = some (t, cs.length) := by rwa [List.append_nil]
  have hlex : lexFrom .start (cs ++ []) =
      (lexFrom (Mark.start.advance cs) []).cons ⟨t, String.ofList cs, .start⟩ :=
    lexFrom_append hne hfound
  rw [List.append_nil, lexFrom] at hlex
  exact hlex

/-- A text has just some words as its tokens, apart from trivia. -/
def LexesAs (cs : List Char) (ws : List Word) : Prop :=
  ∀ mark, (lexFrom mark cs).failure = none ∧ (lexFrom mark cs).significant.map Token.word = ws

private theorem lexesAs_nil : LexesAs [] [] := by
  intro mark
  simp [lexFrom, Lexed.significant]

theorem LexesAs.trivia {w rest : List Char} {t : Terminal} {ws : List Word} (hne : w ≠ [])
    (h : firstMatch (w ++ rest) = some (t, w.length)) (ht : t.isTrivia = true)
    (hrest : LexesAs rest ws) : LexesAs (w ++ rest) ws := by
  intro mark
  obtain ⟨hfailure, hwords⟩ := hrest (mark.advance w)
  rw [lexFrom_append hne h]
  simp only [Lexed.significant, Lexed.cons] at hwords ⊢
  simpa [ht] using ⟨hfailure, hwords⟩

theorem LexesAs.shown {w rest : List Char} {t : Terminal} {ws : List Word} (hne : w ≠ [])
    (h : firstMatch (w ++ rest) = some (t, w.length)) (ht : t.isTrivia = false)
    (hrest : LexesAs rest ws) : LexesAs (w ++ rest) (⟨t, String.ofList w⟩ :: ws) := by
  intro mark
  obtain ⟨hfailure, hwords⟩ := hrest (mark.advance w)
  rw [lexFrom_append hne h]
  simp only [Lexed.significant, Lexed.cons] at hwords ⊢
  simpa [ht, Token.word] using ⟨hfailure, hwords⟩

theorem LexesAs.word {w : Word} {rest : List Char} {ws : List Word} (hw : w.Lexable)
    (hend : WordEnd rest) (hrest : LexesAs rest ws) :
    LexesAs (w.text.toList ++ rest) (w :: ws) := by
  obtain ⟨c, cs, hcs, -⟩ := hw.starts
  have hwords := LexesAs.shown (by simp [hcs]) (hw.found hend) hw.shown hrest
  rwa [String.ofList_toList] at hwords

private theorem isLayout_of_startsWord {c : Char} (h : startsWord c = true) :
    isLayout c = false := by
  have hblank : ∀ n ∈ [0x20, 0x09, 0x0c, 0x0d, 0x0a], Text.isBlank (Char.ofNat n) = true := by
    decide
  cases hlayout : isLayout c with
  | false => rfl
  | true =>
    have hmem := hblank c.toNat (List.contains_iff_mem.mp hlayout)
    rw [Char.ofNat_toNat] at hmem
    simp [startsWord, hmem] at h

private theorem firstMatch_space {c : Char} (h : isLayout c = false) (cs : List Char) :
    firstMatch (' ' :: c :: cs) = some (.whitespace, 1) := by
  have hsplit : textClasses = [Terminal.floatNumber, .name, .string, .intNumber, .variableName,
      .blockComment, .lineComment] ++ Terminal.whitespace :: [.openTag] := rfl
  have hspace : runLength isLayout (' ' :: c :: cs) = 1 := by
    have hlayout : isLayout ' ' = true := by decide
    simp [runLength, hlayout, h]
  apply firstMatch_class hsplit (castLength_eq_zero (by decide)) _ hspace Nat.one_ne_zero
  simp only [List.forall_mem_cons, Terminal.matchLength]
  exact ⟨floatLength_eq_zero (by decide), nameLength_eq_zero (by decide) (by decide),
    stringLength_eq_zero (by decide), intLength_eq_zero (by decide),
    variableLength_eq_zero (by decide), blockCommentLength_eq_zero (.inl (by decide)),
    lineCommentLength_eq_zero (by decide) (.inl (by decide)), by simp⟩

private theorem lexesAs_semicolon : LexesAs [';'] [Symbol.semicolon.word] := by
  have hfound : firstMatch ([';'] ++ []) = some (.symbol .semicolon, 1) := by decide
  exact LexesAs.shown (by simp) hfound rfl lexesAs_nil

/-- Words with a space between two, and a semicolon after the last. -/
def spaced (ws : List Word) : List Char := (" ".intercalate (ws.map Word.text)).toList ++ [';']

private theorem spaced_cons_cons (w v : Word) (ws : List Word) :
    spaced (w :: v :: ws) = w.text.toList ++ ' ' :: spaced (v :: ws) := by
  simp [spaced]

private theorem spaced_head {w : Word} {c : Char} {cs : List Char} (h : w.text.toList = c :: cs)
    (ws : List Word) : ∃ ds, spaced (w :: ws) = c :: ds := by
  cases ws with
  | nil => exact ⟨cs ++ [';'], by simp [spaced, h]⟩
  | cons v ws => exact ⟨_, by rw [spaced_cons_cons, h, List.cons_append]⟩

private theorem lexesAs_spaced {w : Word} {ws : List Word} (h : ∀ v ∈ w :: ws, v.Lexable) :
    LexesAs (spaced (w :: ws)) (w :: ws ++ [Symbol.semicolon.word]) := by
  induction ws generalizing w with
  | nil =>
    have htext : spaced [w] = w.text.toList ++ [';'] := by simp [spaced]
    rw [htext]
    exact lexesAs_semicolon.word (h w (by simp)) (.semicolon [])
  | cons v ws ih =>
    rw [List.forall_mem_cons] at h
    obtain ⟨c, cs, hcs, hc⟩ := (h.2 v (by simp)).starts
    obtain ⟨ds, hds⟩ := spaced_head hcs ws
    have hwords := ih h.2
    rw [spaced_cons_cons]
    rw [hds] at hwords ⊢
    have hfound := firstMatch_space (isLayout_of_startsWord hc) ds
    have hspace := LexesAs.trivia (w := [' ']) (by simp) hfound rfl hwords
    exact hspace.word h.1 (.space ds hc)

private theorem firstMatch_openTag (rest : List Char) :
    firstMatch ("<?php".toList ++ rest) = some (.openTag, 5) := by
  have hsplit : textClasses = [Terminal.floatNumber, .name, .string, .intNumber, .variableName,
      .blockComment, .lineComment, .whitespace] ++ Terminal.openTag :: [] := rfl
  have htag : openTagLength ("<?php".toList ++ rest) = 5 := by rfl
  apply firstMatch_class hsplit (castLength_eq_zero (by decide)) _ htag (by decide)
  simp only [List.forall_mem_cons, Terminal.matchLength]
  exact ⟨floatLength_eq_zero (by decide), nameLength_eq_zero (by decide) (by decide),
    stringLength_eq_zero (by decide), intLength_eq_zero (by decide),
    variableLength_eq_zero (by decide), blockCommentLength_eq_zero (.inl (by decide)),
    lineCommentLength_eq_zero (by decide) (.inl (by decide)), runLength_eq_zero (by decide),
    by simp⟩

private theorem firstMatch_return (rest : List Char) :
    firstMatch ("return".toList ++ ' ' :: rest) = some (.keyword .returnKw, 6) := by
  have hsplit : textClasses = [Terminal.floatNumber] ++ Terminal.name :: [.string, .intNumber,
      .variableName, .blockComment, .lineComment, .whitespace, .openTag] := rfl
  have hcast : castLength ("return".toList ++ ' ' :: rest) = 0 := castLength_eq_zero (by decide)
  have hbefore : ∀ u ∈ [Terminal.floatNumber],
      u.matchLength ("return".toList ++ ' ' :: rest) = 0 := by
    simp only [List.forall_mem_cons, Terminal.matchLength]
    exact ⟨floatLength_eq_zero (by decide), by simp⟩
  have hname : Terminal.name.matchLength ("return".toList ++ ' ' :: rest) = 6 := by rfl
  have hkeyword : Terminal.name.refine (("return".toList ++ ' ' :: rest).take 6) =
      .keyword .returnKw := by
    have htake : ("return".toList ++ ' ' :: rest).take 6 = "return".toList := by rfl
    rw [htake]
    decide
  rw [firstMatch_class hsplit hcast hbefore hname (by decide), hkeyword]

/-- The first token is the keyword, and the others are the words of the expression and a
semicolon. -/
theorem lex_returnSource {e : Expr} (h : Plain e) :
    (lex (returnSource e).toList).failure = none ∧
      ∃ ts, (lex (returnSource e).toList).significant =
          ⟨.keyword .returnKw, "return", ⟨6, ⟨1, 7⟩⟩⟩ :: ts ∧
        ts.map Token.word = e.words ++ [Symbol.semicolon.word] := by
  obtain ⟨w, ws, hws⟩ := List.exists_cons_of_ne_nil (Expr.words_ne_nil h)
  have hlexable := h.lexable
  rw [hws] at hlexable
  obtain ⟨c, cs, hcs, hc⟩ := (hlexable w (by simp)).starts
  obtain ⟨ds, hds⟩ := spaced_head hcs ws
  have hsource : (returnSource e).toList =
      "<?php".toList ++ ([' '] ++ ("return".toList ++ ([' '] ++ spaced (w :: ws)))) := by
    simp [returnSource, Expr.text, spaced, hws]
  have hspace : firstMatch ([' '] ++ spaced (w :: ws)) = some (.whitespace, 1) := by
    rw [hds]
    exact firstMatch_space (isLayout_of_startsWord hc) ds
  have hfirst : firstMatch ([' '] ++ ("return".toList ++ ([' '] ++ spaced (w :: ws)))) =
      some (.whitespace, 1) := firstMatch_space (by decide) _
  have hreturn : firstMatch ("return".toList ++ ([' '] ++ spaced (w :: ws))) =
      some (.keyword .returnKw, 6) := firstMatch_return _
  have hmark : (Mark.start.advance "<?php".toList).advance [' '] = ⟨6, ⟨1, 7⟩⟩ := by decide
  rw [lex, hsource, lexFrom_append (by decide) (firstMatch_openTag _),
    lexFrom_append (by decide) hfirst, hmark, lexFrom_append (by decide) hreturn,
    lexFrom_append (by decide) hspace, hws]
  obtain ⟨hfailure, hwords⟩ := lexesAs_spaced hlexable
    ((Mark.advance ⟨6, ⟨1, 7⟩⟩ "return".toList).advance [' '])
  have htext : String.ofList "return".toList = "return" := String.ofList_toList
  refine ⟨hfailure, _, ?_, hwords⟩
  rw [htext]
  rfl

end PhpTypes.Source
