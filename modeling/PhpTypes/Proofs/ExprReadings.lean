import PhpTypes.Proofs.CommentTokens
import PhpTypes.Proofs.ExprTexts
import PhpTypes.Proofs.ParserRuns

/-!
# Readings of expressions

An expression is read back from its words: operands are read first and then extended level by level,
and what follows an operand that needs no parentheses extends it on no level that binds more tightly
than its place. So a source that returns an expression has the tree of that expression.
-/

namespace PhpTypes.Source

open TokenParser PhpTypes.Source.Parser

/-! Single tokens. -/

private theorem token_run {t : Token} {wanted : Terminal} (h : t.terminal = wanted)
    (rest : List Token) : token wanted (t :: rest) = some (t, rest) := by
  rw [token, Parser.oneOf, oneOf_run]
  simp [h]

private theorem token_run_none {ts : List Token} {wanted : Terminal}
    (h : ∀ t ∈ ts.head?, t.terminal ≠ wanted) : token wanted ts = none := by
  rw [token, Parser.oneOf, oneOf_run_none]
  simpa using h

private theorem accepts_run_wanted {t : Token} {wanted : Terminal} (h : t.terminal = wanted)
    (rest : List Token) : Parser.accepts wanted (t :: rest) = some (true, rest) := by
  rw [Parser.accepts, accepts_run]
  simp [h]

private theorem accepts_run_other {ts : List Token} {wanted : Terminal}
    (h : ∀ t ∈ ts.head?, t.terminal ≠ wanted) : Parser.accepts wanted ts = some (false, ts) := by
  rw [Parser.accepts, accepts_run_false]
  simpa using h

private theorem look_bind {α : Type} (next : Option Terminal → Parser α) (t : Token)
    (ts : List Token) : (look >>= next) (t :: ts) = next (some t.terminal) (t :: ts) := rfl

private theorem lookSecond_bind {α : Type} (next : Option Terminal → Parser α) (t : Token)
    (ts : List Token) :
    (lookSecond >>= next) (t :: ts) = next (ts.head?.map Token.terminal) (t :: ts) := by
  cases ts <;> rfl

private theorem here_bind {α : Type} (next : Mark → Parser α) (t : Token) (ts : List Token) :
    (here >>= next) (t :: ts) = next t.mark (t :: ts) := rfl

/-! Tokens with given words. -/

/-- The tokens up to `rest` have the given words. -/
def Spelt : List Word → List Token → List Token → Prop
  | [], ts, rest => ts = rest
  | w :: ws, ts, rest => ∃ t us, ts = t :: us ∧ t.word = w ∧ Spelt ws us rest

private theorem spelt_append {ws vs : List Word} {ts rest : List Token} :
    Spelt (ws ++ vs) ts rest ↔ ∃ mid, Spelt ws ts mid ∧ Spelt vs mid rest := by
  induction ws generalizing ts with
  | nil => simp [Spelt]
  | cons w ws ih =>
    simp only [List.cons_append, Spelt, ih]
    constructor
    · intro ⟨t, us, hts, ht, mid, hws, hvs⟩
      exact ⟨mid, ⟨t, us, hts, ht, hws⟩, hvs⟩
    · intro ⟨mid, ⟨t, us, hts, ht, hws⟩, hvs⟩
      exact ⟨t, us, hts, ht, mid, hws, hvs⟩

private theorem spelt_map (ts rest : List Token) : Spelt (ts.map Token.word) (ts ++ rest) rest := by
  induction ts with
  | nil => rfl
  | cons t ts ih => exact ⟨t, ts ++ rest, rfl, rfl, ih⟩

theorem Spelt.length_eq {ws : List Word} {ts rest : List Token} (h : Spelt ws ts rest) :
    ts.length = ws.length + rest.length := by
  induction ws generalizing ts with
  | nil => simpa [Spelt] using congrArg List.length h
  | cons w ws ih =>
    obtain ⟨t, us, rfl, -, hws⟩ := h
    rw [List.length_cons, List.length_cons, ih hws]
    omega

private theorem spelt_enclosed {ws : List Word} {ts rest : List Token}
    (h : Spelt (enclosed ws true) ts rest) :
    ∃ t us v, ts = t :: us ∧ t.terminal = .symbol .lpar ∧ Spelt ws us (v :: rest) ∧
      v.terminal = .symbol .rpar := by
  obtain ⟨t, us, rfl, ht, hrest⟩ := h
  obtain ⟨mid, hws, v, vs, rfl, hv, hvs⟩ := spelt_append.mp hrest
  cases hvs
  exact ⟨t, us, v, rfl, congrArg Word.terminal ht, hws, congrArg Word.terminal hv⟩

/-! What ends an expression. -/

/-- The lowest level of the expressions that end before a symbol. -/
def stopLevel : Symbol → Option Nat
  | .rpar | .colon | .semicolon => some 0
  | .qmark => some 1
  | .coalesce => some 2
  | .or => some 3
  | .and => some 4
  | .pipe => some 5
  | .caret => some 6
  | .amp => some 7
  | .identical | .notIdentical | .eq | .ne | .spaceship => some 8
  | .lt | .gt | .le | .ge => some 9
  | .shl | .shr => some 10
  | .dot => some 11
  | .plus | .minus => some 12
  | .star | .slash | .percent => some 13
  | .pow => some 15
  | _ => none

private theorem stopLevel_sign (op : BinaryOp) : stopLevel op.sign = some (op.level + 1) := by
  cases op <;> rfl

/-- The next token ends an expression of the given level. -/
def Stops (level : Nat) (ts : List Token) : Prop :=
  ∃ t us s, ts = t :: us ∧ t.terminal = .symbol s ∧ ∃ k, stopLevel s = some k ∧ k ≤ level

theorem Stops.mono {k l : Nat} {ts : List Token} (h : Stops k ts) (hkl : k ≤ l) : Stops l ts := by
  obtain ⟨t, us, s, hts, ht, j, hj, hle⟩ := h
  exact ⟨t, us, s, hts, ht, j, hj, Nat.le_trans hle hkl⟩

private theorem stops_of_word {t : Token} {s : Symbol} {k : Nat} (ht : t.word = s.word)
    (hs : stopLevel s = some k) (ts : List Token) : Stops k (t :: ts) :=
  ⟨t, ts, s, rfl, congrArg Word.terminal ht, k, hs, Nat.le_refl k⟩

theorem Stops.symbol_ne {k : Nat} {t : Token} {ts : List Token} (h : Stops k (t :: ts)) {s : Symbol}
    (hs : ∀ j, stopLevel s = some j → k < j) : t.terminal ≠ .symbol s := by
  obtain ⟨_, _, s', ⟨⟩, ht, j, hj, hle⟩ := h
  intro hts
  rw [ht] at hts
  cases hts
  have := hs j hj
  omega

theorem Stops.token {k : Nat} {ts : List Token} (h : Stops k ts) {s : Symbol}
    (hs : ∀ j, stopLevel s = some j → k < j) : ∀ t ∈ ts.head?, t.terminal ≠ .symbol s := by
  intro t ht
  cases ts with
  | nil => cases ht
  | cons u us =>
    cases ht
    exact h.symbol_ne hs

theorem Stops.symbol {k : Nat} {ts : List Token} (h : Stops k ts) {s : Symbol}
    (hs : ∀ j, stopLevel s = some j → k < j) : Parser.symbol s ts = none :=
  token_run_none (h.token hs)

theorem Stops.acceptsSymbol {k : Nat} {ts : List Token} (h : Stops k ts) {s : Symbol}
    (hs : ∀ j, stopLevel s = some j → k < j) : Parser.acceptsSymbol s ts = some (false, ts) :=
  accepts_run_other (h.token hs)

theorem Stops.acceptsKeyword {k : Nat} {ts : List Token} (h : Stops k ts) (w : Keyword) :
    Parser.acceptsKeyword w ts = some (false, ts) := by
  obtain ⟨t, us, s, rfl, ht, -⟩ := h
  exact accepts_run_other (by simp [ht])

/-! Operands without operators. -/

/-- A parser reads an expression, up to positions, and stops before `rest`. -/
def ReadsAs (p : Parser Expr) (ts : List Token) (e : Expr) (rest : List Token) : Prop :=
  ∃ e', p ts = some (e', rest) ∧ e'.outline = e.outline

private theorem suffix_run_none {k : Nat} {ts : List Token} (h : Stops k ts) (r : Rules)
    (pos : Pos) : suffix r pos ts = none := by
  have hlsqb : Parser.acceptsSymbol .lsqb ts = some (false, ts) :=
    h.acceptsSymbol (by simp [stopLevel])
  have hnullsafe : Parser.acceptsSymbol .nullsafe ts = some (false, ts) :=
    h.acceptsSymbol (by simp [stopLevel])
  have harrow : Parser.symbol .arrow ts = none := h.symbol (by simp [stopLevel])
  rw [suffix, bind_run hlsqb]
  simp only [Bool.false_eq_true, if_false]
  rw [bind_run hnullsafe]
  simp only [Bool.not_false, if_true]
  exact bind_run_none harrow

private theorem postfixOperand_run {r : Rules} {ts rest : List Token} {e : Expr}
    (hatom : atom r ts = some (e, rest)) {k : Nat} (h : Stops k rest) :
    postfixOperand r ts = some (e, rest) := by
  have hnone := Repeats.stop (suffix_run_none h r ((ts.head?.map Token.mark).getD default).pos)
  rw [postfixOperand, bind_run (rfl : here ts = _), bind_run hatom, Parser.many,
    bind_run hnone.many]
  rfl

private theorem withoutGaps_toDigits (n : Nat) :
    withoutGaps (Nat.toDigits 10 n) = Nat.toDigits 10 n := by
  have hgap : ∀ c ∈ digitChars, (c != '_') = true := forall_mem_of_all (by decide)
  rw [withoutGaps, List.filter_eq_self]
  intro c hc
  exact hgap c (mem_digitChars (by decide) (by decide) c hc)

private theorem readInt_toString (n : Nat) : readInt (toString n).toList = .ok n := by
  have htext : (toString n).toList = Nat.toDigits 10 n := Nat.toList_repr
  rw [htext]
  exact readInt_decimal (withoutGaps_toDigits n)

private theorem atom_int {r : Rules} {t : Token} {n : Nat} (ht : t.word = ⟨.intNumber, toString n⟩)
    (rest : List Token) : atom r (t :: rest) = some (.int t.pos n, rest) := by
  have hterminal : t.terminal = .intNumber := congrArg Word.terminal ht
  have htext : t.text = toString n := congrArg Word.text ht
  have htoken : token .intNumber (t :: rest) = some (t, rest) := token_run hterminal rest
  rw [atom, look_bind, lookSecond_bind]
  simp only [hterminal]
  rw [intLiteral, bind_run htoken, htext, readInt_toString]
  rfl

private theorem atom_string {r : Rules} {t : Token} {s : String}
    (ht : t.word = ⟨.string, singleQuoted s⟩)
    (rest : List Token) : atom r (t :: rest) = some (.string t.pos s false, rest) := by
  have hterminal : t.terminal = .string := congrArg Word.terminal ht
  have htext : t.text = singleQuoted s := congrArg Word.text ht
  have htoken : token .string (t :: rest) = some (t, rest) := token_run hterminal rest
  rw [atom, look_bind, lookSecond_bind]
  simp only [hterminal]
  rw [stringLiteral, bind_run htoken, htext, unquote_singleQuoted]
  rfl

private theorem atom_var {r : Rules} {t : Token} {x : String}
    (ht : t.word = ⟨.variableName, "$" ++ x⟩) {rest : List Token} {k : Nat} (h : Stops k rest) :
    atom r (t :: rest) = some (.var t.pos x, rest) := by
  have hterminal : t.terminal = .variableName := congrArg Word.terminal ht
  have htext : t.text = "$" ++ x := congrArg Word.text ht
  have hname : variableText t.text = x := by simp [htext, variableText]
  have htoken : token .variableName (t :: rest) = some (t, rest) := token_run hterminal rest
  rw [atom, look_bind, lookSecond_bind]
  obtain ⟨u, us, s, rfl, hu, -⟩ := id h
  have hcolon : s ≠ .doubleColon := by
    rintro rfl
    exact h.symbol_ne (by simp [stopLevel]) hu
  have hlpar : s ≠ .lpar := by
    rintro rfl
    exact h.symbol_ne (by simp [stopLevel]) hu
  simp only [List.head?_cons, Option.map_some, hterminal, hu, Option.some.injEq,
    Terminal.symbol.injEq, hcolon, hlpar, imp_self]
  rw [bind_run htoken, hname]
  rfl

/-- The rules read back every expression of at most so many words: one that stands where any level
will do, and one that stands after an operator. -/
structure Reads (m : Nat) (r : Rules) : Prop where
  expr : ∀ {e : Expr} {ts rest : List Token}, Plain e → e.words.length ≤ m →
    Spelt e.words ts rest → Stops 0 rest → ReadsAs r.expr ts e rest
  unary : ∀ {e : Expr} {ts rest : List Token}, Plain e → (e.wordsAt 13).length ≤ m →
    Spelt (e.wordsAt 13) ts rest → Stops 13 rest → ReadsAs r.unary ts e rest

section

variable {m : Nat} {r : Rules} {e : Expr} {ts rest : List Token}

private theorem Expr.wordsAt_of_le {level : Nat} (h : level ≤ e.level) :
    e.wordsAt level = e.words := by
  have hlt : ¬ e.level < level := by omega
  simp [Expr.wordsAt, enclosed, hlt]

private theorem Expr.wordsAt_of_lt {level : Nat} (h : e.level < level) :
    e.wordsAt level = enclosed e.words true := by
  simp [Expr.wordsAt, h]

private theorem length_enclosed (ws : List Word) : (enclosed ws true).length = ws.length + 2 := by
  simp [enclosed]

private theorem atom_enclosed (hr : Reads m r) (he : Plain e) (hm : e.words.length ≤ m)
    (h : Spelt (enclosed e.words true) ts rest) : ReadsAs (atom r) ts e rest := by
  obtain ⟨t, us, v, rfl, ht, hws, hv⟩ := spelt_enclosed h
  have hstops : Stops 0 (v :: rest) := ⟨v, rest, .rpar, rfl, hv, 0, rfl, Nat.le_refl 0⟩
  obtain ⟨e', hrun, houtline⟩ := hr.expr he hm hws hstops
  have hlpar : Parser.symbol .lpar (t :: us) = some (t, us) := token_run ht us
  have hrpar : Parser.symbol .rpar (v :: rest) = some (v, rest) := token_run hv rest
  refine ⟨e', ?_, houtline⟩
  rw [atom, look_bind, lookSecond_bind]
  simp only [ht]
  rw [parenthesized, bind_run hlpar, bind_run hrun, bind_run hrpar]
  rfl

/-- The terminals that start an operand without operators. -/
def operandStarts : List Terminal := [.intNumber, .variableName, .string, .symbol .lpar]

/-- How the tokens of an operand start: with an operator, or with what an assignment could have as
its target. -/
inductive Opens (r : Rules) : List Token → Prop where
  | operator {t : Token} {us : List Token} {s : Symbol} :
    t.terminal = .symbol s → startsPrefixed (.symbol s) = true → Opens r (t :: us)
  | target {t : Token} {us mid : List Token} {p : Expr} {k : Nat} :
    t.terminal ∈ operandStarts → postfixOperand r (t :: us) = some (p, mid) → Stops k mid →
    Opens r (t :: us)

private theorem Plain.eq_of_level (he : Plain e) (h : 15 ≤ e.level) :
    (∃ pos n, e = .int pos n) ∨ (∃ pos x, e = .var pos x) ∨ ∃ pos s, e = .string pos s false := by
  cases he with
  | int pos n => exact .inl ⟨pos, n, rfl⟩
  | @var pos x hx => exact .inr (.inl ⟨pos, x, rfl⟩)
  | string pos s => exact .inr (.inr ⟨pos, s, rfl⟩)
  | unary | ternary | elvis => simp [Expr.level] at h
  | binary pos op => cases op <;> simp [Expr.level, BinaryOp.level] at h

private theorem operand_starts (he : Plain e) (h : Spelt (e.wordsAt 15) ts rest) :
    ∃ t us, ts = t :: us ∧ t.terminal ∈ operandStarts := by
  have hfirst : ∃ w ws, e.wordsAt 15 = w :: ws ∧ w.terminal ∈ operandStarts := by
    by_cases hlevel : e.level < 15
    · rw [Expr.wordsAt_of_lt hlevel]
      exact ⟨_, _, rfl, by decide⟩
    · rw [Expr.wordsAt_of_le (by omega)]
      obtain ⟨pos, n, rfl⟩ | ⟨pos, x, rfl⟩ | ⟨pos, s, rfl⟩ := he.eq_of_level (by omega)
      all_goals exact ⟨_, _, rfl, by simp [operandStarts]⟩
  obtain ⟨w, ws, hws, hw⟩ := hfirst
  rw [hws] at h
  obtain ⟨t, us, rfl, rfl, -⟩ := h
  exact ⟨t, us, rfl, hw⟩

private theorem atom_reads (hr : Reads m r) (he : Plain e) (hm : (e.wordsAt 15).length ≤ m + 1)
    (h : Spelt (e.wordsAt 15) ts rest) {k : Nat} (hrest : Stops k rest) :
    ReadsAs (atom r) ts e rest := by
  by_cases hlevel : e.level < 15
  · rw [Expr.wordsAt_of_lt hlevel] at h hm
    rw [length_enclosed] at hm
    exact atom_enclosed hr he (by omega) h
  · rw [Expr.wordsAt_of_le (by omega)] at h
    obtain ⟨pos, n, rfl⟩ | ⟨pos, x, rfl⟩ | ⟨pos, s, rfl⟩ := he.eq_of_level (by omega)
    all_goals
      obtain ⟨t, us, rfl, ht, hus⟩ := h
      cases hus
    · exact ⟨_, atom_int ht rest, rfl⟩
    · exact ⟨_, atom_var ht hrest, rfl⟩
    · exact ⟨_, atom_string ht rest, rfl⟩

private theorem postfixOperand_reads (hr : Reads m r) (he : Plain e)
    (hm : (e.wordsAt 15).length ≤ m + 1)
    (h : Spelt (e.wordsAt 15) ts rest) {k : Nat} (hrest : Stops k rest) :
    ReadsAs (postfixOperand r) ts e rest := by
  obtain ⟨e', hrun, houtline⟩ := atom_reads hr he hm h hrest
  exact ⟨e', postfixOperand_run hrun hrest, houtline⟩

/-! Operators in front, and powers. -/

private theorem powerRest_eq {k : Nat} (h : Stops k ts) (pos : Pos) (e : Expr) :
    powerRest r pos e ts = (do
      if ← acceptsSymbol .pow then return Expr.binary pos .pow e (← r.unary) else return e) ts := by
  have hinc : Parser.acceptsSymbol .inc ts = some (false, ts) :=
    h.acceptsSymbol (by simp [stopLevel])
  have hdec : Parser.acceptsSymbol .dec ts = some (false, ts) :=
    h.acceptsSymbol (by simp [stopLevel])
  rw [powerRest, bind_run hinc]
  simp only [Bool.false_eq_true, if_false]
  rw [bind_run hdec]
  simp only [Bool.false_eq_true, if_false]
  rfl

private theorem powerRest_run {k : Nat} (h : Stops k rest) (hk : k < 15) (pos : Pos) (e : Expr) :
    powerRest r pos e rest = some (e, rest) := by
  have hpow : Parser.acceptsSymbol .pow rest = some (false, rest) :=
    h.acceptsSymbol (by simpa [stopLevel] using hk)
  rw [powerRest_eq h, bind_run hpow]
  rfl

private theorem powerRest_pow {t : Token} {us : List Token} {e' x : Expr}
    (ht : t.terminal = .symbol .pow) (hrun : r.unary us = some (x, rest)) (pos : Pos) :
    powerRest r pos e' (t :: us) = some (.binary pos .pow e' x, rest) := by
  have hstops : Stops 15 (t :: us) := ⟨t, us, .pow, rfl, ht, 15, rfl, Nat.le_refl 15⟩
  have hpow : Parser.acceptsSymbol .pow (t :: us) = some (true, us) := accepts_run_wanted ht us
  rw [powerRest_eq hstops, bind_run hpow]
  simp only [if_true]
  rw [bind_run hrun]
  rfl

/-- After an operand without operators, the rest of an operand is what may follow it. -/
theorem unary_target {t : Token} {us : List Token} (ht : t.terminal ∈ operandStarts) :
    unary r (t :: us) = (do powerRest r t.pos (← postfixOperand r)) (t :: us) := by
  rw [unary, here_bind, look_bind]
  simp only [operandStarts, List.mem_cons, List.not_mem_nil, or_false] at ht
  rcases ht with ht | ht | ht | ht <;> simp only [ht] <;> rfl

private theorem unary_operator {t : Token} {us : List Token} {op : UnaryOp} {x : Expr} {s : Symbol}
    (ht : t.terminal = .symbol s) (hop : prefixOp? (.symbol s) = some op)
    (hrun : r.unary us = some (x, rest)) :
    unary r (t :: us) = some (.unary t.pos op x, rest) := by
  have htoken : token (.symbol s) (t :: us) = some (t, us) := token_run ht us
  rw [unary, here_bind, look_bind]
  simp only [ht]
  cases s <;> cases hop <;> exact (bind_run htoken).trans ((bind_run hrun).trans rfl)

private theorem UnaryOp.word_prefix {op : UnaryOp} (h : op ≠ .print) :
    ∃ s : Symbol, op.word = s.word ∧ prefixOp? (.symbol s) = some op := by
  cases op with
  | print => exact (h rfl).elim
  | _ => exact ⟨_, rfl, rfl⟩

private theorem words_unary (pos : Pos) (op : UnaryOp) (x : Expr) :
    (Expr.unary pos op x).words = op.word :: x.wordsAt 13 := by
  rw [Expr.words]
  rfl

private theorem words_binary (pos : Pos) (op : BinaryOp) (x y : Expr) :
    (Expr.binary pos op x y).words =
      x.wordsAt op.leftLevel ++ op.sign.word :: y.wordsAt op.rightLevel := by
  rw [Expr.words]
  rfl

/-- What is not a power and has no operator in front is written the same before a power and after
an operator. -/
theorem wordsAt_unary (he : Plain e) :
    (∃ pos op x, op ≠ .print ∧ Plain x ∧ e = .unary pos op x) ∨
      (∃ pos x y, Plain x ∧ Plain y ∧ e = .binary pos .pow x y) ∨ e.wordsAt 13 = e.wordsAt 15 := by
  cases he with
  | unary pos hop hx => exact .inl ⟨_, _, _, hop, hx, rfl⟩
  | binary pos op hx hy =>
    by_cases hop : op = .pow
    · subst hop
      exact .inr (.inl ⟨_, _, _, hx, hy, rfl⟩)
    · have hlevel : op.level < 13 := by
        cases op with
        | pow => exact (hop rfl).elim
        | _ => decide
      right
      right
      rw [Expr.wordsAt_of_lt hlevel, Expr.wordsAt_of_lt (Nat.lt_of_lt_of_le hlevel (by decide))]
  | _ => exact .inr (.inr rfl)

private theorem unary_reads (hr : Reads m r) (he : Plain e) (hm : (e.wordsAt 13).length ≤ m + 1)
    (h : Spelt (e.wordsAt 13) ts rest) (hrest : Stops 13 rest) :
    ReadsAs (unary r) ts e rest ∧ Opens r ts := by
  rcases wordsAt_unary he with ⟨pos, op, x, hop, hx, rfl⟩ | ⟨pos, x, y, hx, hy, rfl⟩ | hsame
  · rw [Expr.wordsAt_of_le (Nat.le_refl 13), words_unary] at h hm
    rw [List.length_cons] at hm
    obtain ⟨s, hword, hprefix⟩ := UnaryOp.word_prefix hop
    obtain ⟨t, us, rfl, ht, hus⟩ := h
    have hterminal : t.terminal = .symbol s := congrArg Word.terminal (ht.trans hword)
    obtain ⟨x', hrun, houtline⟩ := hr.unary hx (by omega) hus hrest
    refine ⟨⟨_, unary_operator hterminal hprefix hrun, ?_⟩, .operator hterminal ?_⟩
    · simp [Expr.outline, houtline]
    · simp [startsPrefixed, hprefix]
  · have hlevel : 13 ≤ (Expr.binary pos .pow x y).level := by simp [Expr.level, BinaryOp.level]
    rw [Expr.wordsAt_of_le hlevel, words_binary] at h hm
    simp only [BinaryOp.leftLevel, BinaryOp.rightLevel] at h hm
    rw [List.length_append, List.length_cons] at hm
    obtain ⟨mid, hleft, t, us, rfl, ht, hright⟩ := spelt_append.mp h
    have hstops : Stops 15 (t :: us) := stops_of_word ht rfl us
    obtain ⟨x', hrun, houtline⟩ := postfixOperand_reads hr hx (by omega) hleft hstops
    obtain ⟨y', hrun', houtline'⟩ := hr.unary hy (by omega) hright hrest
    obtain ⟨v, vs, rfl, hv⟩ := operand_starts hx hleft
    refine ⟨⟨.binary v.pos .pow x' y', ?_, ?_⟩, .target hv hrun hstops⟩
    · rw [unary_target hv, bind_run hrun, powerRest_pow (congrArg Word.terminal ht) hrun']
    · simp [Expr.outline, houtline, houtline']
  · rw [hsame] at h hm
    obtain ⟨e', hrun, houtline⟩ := postfixOperand_reads hr he hm h hrest
    obtain ⟨v, vs, rfl, hv⟩ := operand_starts he h
    refine ⟨⟨e', ?_, houtline⟩, .target hv hrun hrest⟩
    rw [unary_target hv, bind_run hrun, powerRest_run hrest (by decide)]

private theorem instanceOfRest_run {k : Nat} (h : Stops k rest) (pos : Pos) (e : Expr) :
    instanceOfRest pos e rest = some (e, rest) := by
  rw [instanceOfRest, bind_run (h.acceptsKeyword .instanceofKw)]
  rfl

private theorem operand_run {e' : Expr} (h : unary r ts = some (e', rest)) {k : Nat}
    (hrest : Stops k rest) : ∃ pos, operand r ts = some ((pos, e'), rest) := by
  refine ⟨((ts.head?.map Token.mark).getD default).pos, ?_⟩
  rw [operand, bind_run (rfl : here ts = _), bind_run h, bind_run (instanceOfRest_run hrest _ _)]
  rfl

/-! What extends an operand. -/

/-- An expression is read as an operand and what extends it. -/
def Extends (r : Rules) (extend : Pos → Expr → Parser Expr) (ts : List Token) (e : Expr)
    (rest : List Token) : Prop :=
  Opens r ts ∧ ∃ pos first mid, operand r ts = some ((pos, first), mid) ∧
    ReadsAs (extend pos first) mid e rest

private theorem expr_operator {t : Token} {us : List Token} {s : Symbol}
    (ht : t.terminal = .symbol s) (hs : startsPrefixed (.symbol s) = true) :
    expr r (t :: us) = (do let (pos, e) ← operand r; ternaryRest r pos e) (t :: us) := by
  rw [expr, look_bind, lookSecond_bind]
  simp only [ht, hs, if_true]

private theorem expr_target {t : Token} {us mid : List Token} {p : Expr}
    (ht : t.terminal ∈ operandStarts)
    (hp : postfixOperand r (t :: us) = some (p, mid)) {k : Nat} (hmid : Stops k mid) :
    expr r (t :: us) = (do let (pos, e) ← operand r; ternaryRest r pos e) (t :: us) := by
  have hassign : Parser.acceptsSymbol .assign mid = some (false, mid) :=
    hmid.acceptsSymbol (by simp [stopLevel])
  have hexpr : expr r (t :: us) = assignmentRest r t.pos p mid := by
    rw [expr, look_bind, lookSecond_bind]
    simp only [operandStarts, List.mem_cons, List.not_mem_nil, or_false] at ht
    rcases ht with ht | ht | ht | ht <;>
      simp only [ht] <;> exact (bind_run rfl).trans (bind_run hp)
  have hrest : assignmentRest r t.pos p mid =
      (do ternaryRest r t.pos (← instanceOfRest t.pos (← powerRest r t.pos p))) mid := by
    obtain ⟨u, vs, s, rfl, hu, -⟩ := hmid
    rw [assignmentRest, bind_run hassign]
    simp only [Bool.false_eq_true, if_false]
    rw [look_bind]
    simp only [hu]
  rw [hexpr, hrest, operand]
  simp only [bind_assoc, pure_bind]
  rw [here_bind, bind_congr_run (unary_target ht), bind_assoc, bind_run hp]
  rfl

theorem Extends.expr (h : Extends r (ternaryRest r) ts e rest) : ReadsAs (expr r) ts e rest := by
  obtain ⟨hopens, pos, first, mid, hfirst, e', hrun, houtline⟩ := h
  have heq : Parser.expr r ts = (do let (pos, e) ← operand r; ternaryRest r pos e) ts := by
    cases hopens with
    | operator ht hs => exact expr_operator ht hs
    | target ht hp hmid => exact expr_target ht hp hmid
  refine ⟨e', ?_, houtline⟩
  rw [heq]
  exact (bind_run hfirst).trans hrun

/-! Chains to the left. -/

/-- The operators of one level, all of which chain to the left. -/
structure IsLevel (k : Nat) (ops : List (Symbol × BinaryOp)) : Prop where
  range : 1 < k ∧ k < 13
  left : ∀ op : BinaryOp, op.level = k →
    op.leftLevel = k ∧ op.rightLevel = k + 1 ∧ ops.lookup op.sign = some op
  stops : ∀ s op, ops.lookup s = some op → stopLevel s = some (k + 1)

/-- The levels from a given one to the tightest that chains to the left. -/
inductive LevelsFrom : Nat → List (List (Symbol × BinaryOp)) → Prop where
  | tightest : LevelsFrom 13 []
  | level {k : Nat} {ops : List (Symbol × BinaryOp)} {tighter : List (List (Symbol × BinaryOp))} :
    IsLevel k ops → LevelsFrom (k + 1) tighter → LevelsFrom k (ops :: tighter)

private theorem mem_levels {op : BinaryOp} (h : 1 < op.level ∧ op.level < 13) :
    (op.sign, op) ∈ levels.flatten := by
  cases op with
  | coalesce | pow => simp [BinaryOp.level] at h
  | _ => decide

private theorem isLevel_of_table {k : Nat} {ops : List (Symbol × BinaryOp)} (hk : 1 < k ∧ k < 13)
    (hall : ∀ p ∈ levels.flatten, p.2.level = k →
      p.2.leftLevel = k ∧ p.2.rightLevel = k + 1 ∧ ops.lookup p.1 = some p.2)
    (hops : ∀ p ∈ ops, p.1 = p.2.sign ∧ p.2.level = k) : IsLevel k ops := by
  refine ⟨hk, ?_, ?_⟩
  · rintro op rfl
    exact hall _ (mem_levels hk) rfl
  · intro s op hlookup
    obtain ⟨before, after, hsplit, -⟩ := List.lookup_eq_some_iff.mp hlookup
    have hentry : s = op.sign ∧ op.level = k := hops (s, op) (by simp [hsplit])
    rw [hentry.1, stopLevel_sign, hentry.2]

private theorem levelsFrom_levels : LevelsFrom 2 levels := by
  repeat refine .level (isLevel_of_table (by decide) (by decide) (by decide)) ?_
  exact .tightest

/-- One operator of a level, and its right operand. -/
def link (r : Rules) (ops : List (Symbol × BinaryOp)) (tighter : List (List (Symbol × BinaryOp))) :
    Parser (BinaryOp × Expr) := do
  let op ← operatorOf ops
  return (op, ← chains r tighter (← operand r))

def joinLeft (pos : Pos) (first : Expr) (links : List (BinaryOp × Expr)) : Expr :=
  links.foldl (fun left p => .binary pos p.1 left p.2) first

private theorem chains_cons (ops : List (Symbol × BinaryOp))
    (tighter : List (List (Symbol × BinaryOp))) (pos : Pos) (e : Expr) :
    chains r (ops :: tighter) (pos, e) = do
      let first ← chains r tighter (pos, e)
      let links ← Parser.many (link r ops tighter)
      return joinLeft pos first links := rfl

private theorem operatorOf_run {ops : List (Symbol × BinaryOp)} {t : Token} {op : BinaryOp}
    (ht : t.terminal = .symbol op.sign) (hop : ops.lookup op.sign = some op) (us : List Token) :
    operatorOf ops (t :: us) = some (op, us) := by
  have hsymbol : Parser.symbol op.sign (t :: us) = some (t, us) := token_run ht us
  rw [operatorOf, look_bind]
  simp only [ht, hop]
  rw [bind_run hsymbol]
  rfl

private theorem operatorOf_run_none {k : Nat} {ops : List (Symbol × BinaryOp)}
    (hops : IsLevel k ops) (h : Stops k ts) : operatorOf ops ts = none := by
  obtain ⟨t, us, s, rfl, ht, j, hj, hle⟩ := h
  rw [operatorOf, look_bind]
  simp only [ht]
  cases hlookup : ops.lookup s with
  | none => rfl
  | some op =>
    have hstop := hops.stops s op hlookup
    rw [hj, Option.some.injEq] at hstop
    omega

private theorem link_run_none {k : Nat} {ops : List (Symbol × BinaryOp)}
    {tighter : List (List (Symbol × BinaryOp))} (hops : IsLevel k ops) (h : Stops k ts) :
    link r ops tighter ts = none := by
  rw [link, bind_run_none (operatorOf_run_none hops h)]

private theorem link_run {ops : List (Symbol × BinaryOp)}
    {tighter : List (List (Symbol × BinaryOp))}
    {t : Token} {us mid : List Token} {op : BinaryOp} {pos : Pos} {first y : Expr}
    (ht : t.terminal = .symbol op.sign) (hop : ops.lookup op.sign = some op)
    (hfirst : operand r us = some ((pos, first), mid))
    (hrun : chains r tighter (pos, first) mid = some (y, rest)) :
    link r ops tighter (t :: us) = some ((op, y), rest) := by
  rw [link, bind_run (operatorOf_run ht hop us), bind_run hfirst, bind_run hrun]
  rfl

private theorem joinLeft_append (pos : Pos) (first : Expr) (links : List (BinaryOp × Expr))
    (op : BinaryOp) (y : Expr) :
    joinLeft pos first (links ++ [(op, y)]) = .binary pos op (joinLeft pos first links) y := by
  simp [joinLeft]

/-- An operand of the next level is read, and then links that make the expression of it. What
follows may go on with further links. -/
def Linked (r : Rules) (ops : List (Symbol × BinaryOp)) (tighter : List (List (Symbol × BinaryOp)))
    (ts : List Token) (e : Expr) (after : List Token) : Prop :=
  Opens r ts ∧ ∃ pos first mid x mid' links,
    operand r ts = some ((pos, first), mid) ∧
    chains r tighter (pos, first) mid = some (x, mid') ∧
    (∀ {more rest}, Repeats (link r ops tighter) after more rest →
      Repeats (link r ops tighter) mid' (links ++ more) rest) ∧
    (joinLeft pos x links).outline = e.outline

/-- Another level demands parentheses around the same expressions, except those of the level. -/
theorem wordsAt_succ {k : Nat} (h : e.level ≠ k) : e.wordsAt k = e.wordsAt (k + 1) := by
  have hiff : (e.level < k) = (e.level < k + 1) := by
    apply propext
    omega
  simp only [Expr.wordsAt, hiff]

/-- What holds of all expressions but those of one level of binary operators, and passes from the
operands of these to them, holds of all. -/
theorem Plain.level_induction {k : Nat} (hk : 0 < k ∧ k < 13)
    {motive : (e : Expr) → Plain e → Prop}
    (other : ∀ e (he : Plain e), e.level ≠ k → motive e he)
    (binary : ∀ pos op x y (hx : Plain x) (hy : Plain y), op.level = k → motive x hx →
      motive y hy → motive (.binary pos op x y) (.binary pos op hx hy))
    (e : Expr) (he : Plain e) : motive e he := by
  have hatom : 15 ≠ k := by omega
  have hprefix : 13 ≠ k := by omega
  have hchoice : 0 ≠ k := by omega
  induction he with
  | int pos n => exact other _ (.int pos n) hatom
  | var pos hx => exact other _ (.var pos hx) hatom
  | string pos s => exact other _ (.string pos s) hatom
  | unary pos hop hx => exact other _ (.unary pos hop hx) hprefix
  | ternary pos hc hy hn => exact other _ (.ternary pos hc hy hn) hchoice
  | elvis pos hc hn => exact other _ (.elvis pos hc hn) hchoice
  | binary pos op hx hy ihx ihy =>
    by_cases hop : op.level = k
    · exact binary _ _ _ _ hx hy hop ihx ihy
    · exact other _ (.binary pos op hx hy) hop

private theorem linked_of_tighter {ops : List (Symbol × BinaryOp)}
    {tighter : List (List (Symbol × BinaryOp))}
    (h : Extends r (fun pos first => chains r tighter (pos, first)) ts e rest) :
    Linked r ops tighter ts e rest := by
  obtain ⟨hopens, pos, first, mid, hfirst, e', hrun, houtline⟩ := h
  exact ⟨hopens, pos, first, mid, e', rest, [], hfirst, hrun, fun hmore => hmore, houtline⟩

private theorem linked_reads {k : Nat} {ops : List (Symbol × BinaryOp)}
    {tighter : List (List (Symbol × BinaryOp))} (hops : IsLevel k ops)
    (htighter : ∀ {e ts rest}, Plain e → (e.wordsAt (k + 1)).length ≤ m + 1 →
      Spelt (e.wordsAt (k + 1)) ts rest → Stops (k + 1) rest →
      Extends r (fun pos first => chains r tighter (pos, first)) ts e rest)
    (he : Plain e) : ∀ rest, (e.wordsAt k).length ≤ m + 1 → Spelt (e.wordsAt k) ts rest →
      Stops (k + 1) rest → Linked r ops tighter ts e rest := by
  have hrange : 0 < k ∧ k < 13 := ⟨Nat.lt_of_succ_lt hops.range.1, hops.range.2⟩
  -- Left operands stay on the level: the links that they are read with come first.
  induction e, he using Plain.level_induction hrange with
  | other e he hlevel =>
    intro rest hm h hrest
    rw [wordsAt_succ hlevel] at hm h
    exact linked_of_tighter (htighter he hm h hrest)
  | binary pos op x y hx hy hlevel ihx _ =>
    intro rest hm h hrest
    obtain ⟨hleft, hright, hlookup⟩ := hops.left op hlevel
    have hle : k ≤ (Expr.binary pos op x y).level := Nat.le_of_eq hlevel.symm
    rw [Expr.wordsAt_of_le hle, words_binary, hleft, hright] at h hm
    rw [List.length_append, List.length_cons] at hm
    obtain ⟨mid, hleftWords, t, us, rfl, ht, hrightWords⟩ := spelt_append.mp h
    have hstops : Stops (k + 1) (t :: us) := by
      apply stops_of_word ht
      rw [stopLevel_sign, hlevel]
    obtain ⟨hopens, pos', first, mid, x', mid', links, hfirst, hrun, hlinks, hx'⟩ :=
      ihx _ (by omega) hleftWords hstops
    obtain ⟨-, posy, firsty, midy, hfirsty, y', hruny, hy'⟩ :=
      htighter hy (by omega) hrightWords hrest
    have hlink := link_run (congrArg Word.terminal ht) hlookup hfirsty hruny
    have hshorter : rest.length < (t :: us).length := by
      have := hrightWords.length_eq
      rw [List.length_cons]
      omega
    refine ⟨hopens, pos', first, mid, x', mid', links ++ [(op, y')], hfirst, hrun, ?_, ?_⟩
    · intro more after hmore
      rw [List.append_assoc]
      exact hlinks (.next hlink hshorter hmore)
    · rw [joinLeft_append]
      simp [Expr.outline, hx', hy']

private theorem chains_reads (hr : Reads m r) {k : Nat} {ls : List (List (Symbol × BinaryOp))}
    (hls : LevelsFrom k ls) {e : Expr} {ts rest : List Token} (he : Plain e)
    (hm : (e.wordsAt k).length ≤ m + 1) (h : Spelt (e.wordsAt k) ts rest) (hrest : Stops k rest) :
    Extends r (fun pos first => chains r ls (pos, first)) ts e rest := by
  induction hls generalizing e ts rest with
  | tightest =>
    obtain ⟨⟨e', hrun, houtline⟩, hopens⟩ := unary_reads hr he hm h hrest
    obtain ⟨pos, hfirst⟩ := operand_run hrun hrest
    exact ⟨hopens, pos, e', rest, hfirst, e', rfl, houtline⟩
  | @level k ops tighter hops _ ih =>
    obtain ⟨hopens, pos, first, mid, x, mid', links, hfirst, hrun, hlinks, houtline⟩ :=
      linked_reads hops ih he rest hm h (hrest.mono (Nat.le_succ k))
    have hrepeats := hlinks (.stop (link_run_none hops hrest))
    rw [List.append_nil] at hrepeats
    refine ⟨hopens, pos, first, mid, hfirst, joinLeft pos x links, ?_, houtline⟩
    change chains r (ops :: tighter) (pos, first) mid = _
    rw [chains_cons, bind_run hrun, Parser.many, bind_run hrepeats.many]
    rfl

/-! Alternatives to null, which chain to the right. -/

def coalesceLink (r : Rules) : Parser (Pos × Expr) := do
  let _ ← symbol .coalesce
  let (next, e) ← operand r
  return (next, ← chains r levels (next, e))

private theorem coalesceRest_eq (pos : Pos) (e : Expr) : coalesceRest r pos e = do
    let first ← chains r levels (pos, e)
    let links ← Parser.many (coalesceLink r)
    return coalesceChain (pos, first) links := rfl

private theorem coalesceLink_run {t : Token} {us mid : List Token} {pos : Pos} {first x : Expr}
    (ht : t.terminal = .symbol .coalesce) (hfirst : operand r us = some ((pos, first), mid))
    (hrun : chains r levels (pos, first) mid = some (x, rest)) :
    coalesceLink r (t :: us) = some ((pos, x), rest) := by
  have hsymbol : Parser.symbol .coalesce (t :: us) = some (t, us) := token_run ht us
  rw [coalesceLink, bind_run hsymbol, bind_run hfirst]
  exact bind_run hrun

/-- An operand of the levels that chain to the left is read, and then links that make the expression
of it. -/
def Coalesced (r : Rules) (ts : List Token) (e : Expr) (rest : List Token) : Prop :=
  Opens r ts ∧ ∃ pos first mid x mid' links,
    operand r ts = some ((pos, first), mid) ∧
    chains r levels (pos, first) mid = some (x, mid') ∧ mid'.length ≤ ts.length ∧
    Repeats (coalesceLink r) mid' links rest ∧
    (coalesceChain (pos, x) links).outline = e.outline

private theorem coalesced_reads (hr : Reads m r) (hrest : Stops 1 rest) (he : Plain e) :
    ∀ ts, (e.wordsAt 1).length ≤ m + 1 → Spelt (e.wordsAt 1) ts rest →
      Coalesced r ts e rest := by
  have hrange : 0 < 1 ∧ 1 < 13 := by decide
  -- Right operands stay on the level: the links that they are read with come last.
  induction e, he using Plain.level_induction hrange with
  | other e he hlevel =>
    intro ts hm h
    rw [wordsAt_succ hlevel] at hm h
    obtain ⟨hopens, pos, first, mid, hfirst, e', hrun, houtline⟩ :=
      chains_reads hr levelsFrom_levels he hm h (hrest.mono (by decide))
    have hlength := h.length_eq
    have hstop : coalesceLink r rest = none := bind_run_none (hrest.symbol (by simp [stopLevel]))
    exact ⟨hopens, pos, first, mid, e', rest, [], hfirst, hrun, by omega, .stop hstop, houtline⟩
  | binary pos op x y hx hy hlevel _ ihy =>
    intro ts hm h
    obtain rfl : op = .coalesce := by
      cases op with
      | coalesce => rfl
      | _ => cases hlevel
    rw [Expr.wordsAt_of_le (Nat.le_refl 1), words_binary] at h hm
    simp only [BinaryOp.leftLevel, BinaryOp.rightLevel] at h hm
    rw [List.length_append, List.length_cons] at hm
    obtain ⟨mid, hleft, t, us, rfl, ht, hright⟩ := spelt_append.mp h
    have hstops : Stops 2 (t :: us) := stops_of_word ht rfl us
    obtain ⟨hopens, pos', first, mid, hfirst, x', hrun, hx'⟩ :=
      chains_reads hr levelsFrom_levels hx (by omega) hleft hstops
    obtain ⟨-, posy, firsty, midy, y', midy', links, hfirsty, hruny, hlength, hlinks, hy'⟩ :=
      ihy us (by omega) hright
    have hlink := coalesceLink_run (congrArg Word.terminal ht) hfirsty hruny
    have hleftLength := hleft.length_eq
    refine ⟨hopens, pos', first, mid, x', t :: us, (posy, y') :: links, hfirst, hrun, by omega,
      .next hlink (Nat.lt_succ_of_le hlength) hlinks, ?_⟩
    simp [coalesceChain, Expr.outline, hx', hy']

private theorem coalesceRest_reads (hr : Reads m r) (he : Plain e)
    (hm : (e.wordsAt 1).length ≤ m + 1) (h : Spelt (e.wordsAt 1) ts rest) (hrest : Stops 1 rest) :
    Extends r (coalesceRest r) ts e rest := by
  obtain ⟨hopens, pos, first, mid, x, mid', links, hfirst, hrun, -, hlinks, houtline⟩ :=
    coalesced_reads hr hrest he ts hm h
  refine ⟨hopens, pos, first, mid, hfirst, coalesceChain (pos, x) links, ?_, houtline⟩
  rw [coalesceRest_eq, bind_run hrun, Parser.many, bind_run hlinks.many]
  rfl

/-! Choices. -/

/-- What an expression cannot start with, since it ends what stands before. -/
def endings : List Terminal := [.symbol .colon, .symbol .semicolon]

private theorem words_starts (he : Plain e) : ∃ w ws, e.words = w :: ws ∧ w.terminal ∉ endings := by
  have henclosed : ∀ {x : Expr} {vs : List Word} (level : Nat),
      (∃ w ws, x.words = w :: ws ∧ w.terminal ∉ endings) →
      ∃ w ws, x.wordsAt level ++ vs = w :: ws ∧ w.terminal ∉ endings := by
    intro x vs level ⟨w, ws, hws, hw⟩
    by_cases hlevel : x.level < level
    · rw [Expr.wordsAt_of_lt hlevel]
      exact ⟨_, _, rfl, by decide⟩
    · rw [Expr.wordsAt_of_le (by omega), hws]
      exact ⟨w, ws ++ vs, rfl, hw⟩
  induction he with
  | int | var | string => exact ⟨_, _, rfl, by simp [endings]⟩
  | @unary pos op x hop _ _ =>
    refine ⟨op.word, x.wordsAt 13, words_unary pos op x, ?_⟩
    cases op <;> decide
  | binary pos op _ _ ihx _ =>
    rw [words_binary]
    exact henclosed op.leftLevel ihx
  | ternary pos _ _ _ ihc _ _ =>
    rw [Expr.words]
    exact henclosed 1 ihc
  | elvis pos _ _ ihc _ =>
    rw [Expr.words]
    exact henclosed 1 ihc

theorem Spelt.not_ending (he : Plain e) (h : Spelt e.words ts rest) {s : Symbol}
    (hs : .symbol s ∈ endings) : acceptsSymbol s ts = some (false, ts) := by
  obtain ⟨w, ws, hws, hw⟩ := words_starts he
  rw [hws] at h
  obtain ⟨t, us, rfl, rfl, -⟩ := h
  apply accepts_run_other
  intro u hu heq
  cases hu
  rw [← heq] at hs
  exact hw hs

private theorem words_ternary (pos : Pos) (c y n : Expr) : (Expr.ternary pos c y n).words =
    c.wordsAt 1 ++ Symbol.qmark.word :: (y.words ++ Symbol.colon.word :: n.words) := by
  rw [Expr.words]
  rfl

private theorem words_elvis (pos : Pos) (c n : Expr) : (Expr.elvis pos c n).words =
    c.wordsAt 1 ++ Symbol.qmark.word :: Symbol.colon.word :: n.words := by
  rw [Expr.words]
  rfl

/-- Without a question mark there is no choice. -/
theorem ternaryRest_run {pos : Pos} {first e' : Expr}
    (h : coalesceRest r pos first ts = some (e', rest)) (hrest : Stops 0 rest) :
    ternaryRest r pos first ts = some (e', rest) := by
  have hqmark : Parser.acceptsSymbol .qmark rest = some (false, rest) :=
    hrest.acceptsSymbol (by simp [stopLevel])
  rw [ternaryRest, bind_run h, bind_run hqmark]
  rfl

private theorem ternaryRest_reads (hr : Reads m r) (he : Plain e) (hm : e.words.length ≤ m + 1)
    (h : Spelt e.words ts rest) (hrest : Stops 0 rest) :
    Extends r (ternaryRest r) ts e rest := by
  by_cases hlevel : 1 ≤ e.level
  · rw [← Expr.wordsAt_of_le hlevel] at h hm
    obtain ⟨hopens, pos, first, mid, hfirst, e', hrun, houtline⟩ :=
      coalesceRest_reads hr he hm h (hrest.mono (by decide))
    exact ⟨hopens, pos, first, mid, hfirst, e', ternaryRest_run hrun hrest, houtline⟩
  · cases he with
    | int | var | string | unary => simp [Expr.level] at hlevel
    | binary pos op => cases op <;> simp [Expr.level, BinaryOp.level] at hlevel
    | @ternary pos c y n hc hy hn =>
      rw [words_ternary] at h hm
      simp only [List.length_append, List.length_cons] at hm
      obtain ⟨mid, hcond, t, us, rfl, ht, hbranches⟩ := spelt_append.mp h
      obtain ⟨mid, hyes, v, vs, rfl, hv, hno⟩ := spelt_append.mp hbranches
      obtain ⟨hopens, pos', first, mid, hfirst, c', hrun, hc'⟩ :=
        coalesceRest_reads hr hc (by omega) hcond (stops_of_word ht rfl us)
      obtain ⟨y', hruny, hy'⟩ := hr.expr hy (by omega) hyes (stops_of_word hv rfl vs)
      obtain ⟨n', hrunn, hn'⟩ := hr.expr hn (by omega) hno hrest
      have hqmark : Parser.acceptsSymbol .qmark (t :: us) = some (true, us) :=
        accepts_run_wanted (congrArg Word.terminal ht) us
      have hshort : Parser.acceptsSymbol .colon us = some (false, us) :=
        hyes.not_ending hy (by decide)
      have hcolon : Parser.symbol .colon (v :: vs) = some (v, vs) :=
        token_run (congrArg Word.terminal hv) vs
      refine ⟨hopens, pos', first, mid, hfirst, .ternary pos' c' y' n', ?_, ?_⟩
      · rw [ternaryRest, bind_run hrun, bind_run hqmark, if_pos rfl, bind_run hshort]
        simp only [Bool.false_eq_true, if_false]
        rw [bind_run hruny, bind_run hcolon, bind_run hrunn]
        rfl
      · simp [Expr.outline, hc', hy', hn']
    | @elvis pos c n hc hn =>
      rw [words_elvis] at h hm
      simp only [List.length_append, List.length_cons] at hm
      obtain ⟨mid, hcond, t, us, rfl, ht, v, vs, rfl, hv, hno⟩ := spelt_append.mp h
      obtain ⟨hopens, pos', first, mid, hfirst, c', hrun, hc'⟩ :=
        coalesceRest_reads hr hc (by omega) hcond (stops_of_word ht rfl _)
      obtain ⟨n', hrunn, hn'⟩ := hr.expr hn (by omega) hno hrest
      have hqmark : Parser.acceptsSymbol .qmark (t :: v :: vs) = some (true, v :: vs) :=
        accepts_run_wanted (congrArg Word.terminal ht) _
      have hshort : Parser.acceptsSymbol .colon (v :: vs) = some (true, vs) :=
        accepts_run_wanted (congrArg Word.terminal hv) vs
      refine ⟨hopens, pos', first, mid, hfirst, .elvis pos' c' n', ?_, ?_⟩
      · rw [ternaryRest, bind_run hrun, bind_run hqmark, if_pos rfl, bind_run hshort, if_pos rfl,
          bind_run hrunn]
        rfl
      · simp [Expr.outline, hc', hn']

end

private theorem wordsAt_ne_nil {e : Expr} (he : Plain e) (level : Nat) : e.wordsAt level ≠ [] := by
  by_cases hlevel : e.level < level
  · rw [Expr.wordsAt_of_lt hlevel]
    simp [enclosed]
  · rw [Expr.wordsAt_of_le (by omega)]
    exact Expr.words_ne_nil he

private theorem reads_succ {m : Nat} {r : Rules} (hr : Reads m r) (docs : DocComments)
    (stmt : List Token → List (Stmt × List Token)) :
    Reads (m + 1) ⟨docs, Parser.expr r, Parser.unary r, stmt⟩ where
  expr he hm h hrest := (ternaryRest_reads hr he hm h hrest).expr
  unary he hm h hrest := (unary_reads hr he hm h hrest).1

private theorem reads_rules (docs : DocComments) (n : Nat) : Reads n (rules docs n) := by
  induction n with
  | zero =>
    constructor
    · intro e ts rest he hm
      exact absurd (List.length_eq_zero_iff.mp (Nat.le_zero.mp hm)) (Expr.words_ne_nil he)
    · intro e ts rest he hm
      exact absurd (List.length_eq_zero_iff.mp (Nat.le_zero.mp hm)) (wordsAt_ne_nil he 13)
  | succ n ih => exact reads_succ ih docs _

/-! Sources that return an expression. -/

private theorem docComments_returnSource (e : Expr) :
    (docComments (returnSource e).toList).at? 6 = none := by
  cases hat : (docComments (returnSource e).toList).at? 6 with
  | none => rfl
  | some text =>
    obtain ⟨_, _, hentries, -⟩ := List.lookup_eq_some_iff.mp hat
    have hmem : (6, text) ∈ docsFrom 0 0 (returnSource e).toList := by
      change (6, text) ∈ (docComments (returnSource e).toList).entries
      simp [hentries]
    -- No comment starts in the tag, and one that starts after it leads to a later place.
    have hskip : docsFrom 0 0 (returnSource e).toList =
        docsFrom 6 0 ((returnSource e).toList.drop 6) := by
      simp [returnSource, docsFrom, docLength]
    rw [hskip] at hmem
    obtain ⟨before, body, rest, -, -, hplace, -⟩ := mem_docsFrom hmem
    have hlength : 0 < (docText body).length := by simp [docText]
    omega

private theorem returns_reads {m : Nat} {r : Rules} (hr : Reads m r) {e : Expr} (he : Plain e)
    (hm : e.words.length ≤ m) {t : Token} (ht : t.terminal = .keyword .returnKw) {ts : List Token}
    (h : Spelt (e.words ++ [Symbol.semicolon.word]) ts []) :
    ∃ e', Parser.stmt r (t :: ts) =
        [(.returns t.pos (r.docs.at? t.mark.offset) (some e'), [])] ∧
      e'.outline = e.outline := by
  obtain ⟨mid, hwords, v, vs, rfl, hv, hvs⟩ := spelt_append.mp h
  cases hvs
  obtain ⟨e', hrun, houtline⟩ := hr.expr he hm hwords (stops_of_word hv rfl [])
  have hempty : Parser.acceptsSymbol .semicolon ts = some (false, ts) :=
    hwords.not_ending he (by decide)
  have hsemicolon : Parser.symbol .semicolon [v] = some (v, []) :=
    token_run (congrArg Word.terminal hv) []
  have hreturn : Parser.keyword .returnKw (t :: ts) = some (t, ts) := token_run ht ts
  have hvalue : exprIfAny r ts = some (some e', []) := by
    rw [exprIfAny, bind_run hempty]
    simp only [Bool.false_eq_true, if_false]
    rw [bind_run hrun, bind_run hsemicolon]
    rfl
  have hclosed : closedStatement r (t :: ts) =
      some (.returns t.pos (r.docs.at? t.mark.offset) (some e'), []) := by
    rw [closedStatement, look_bind,
      lookSecond_bind]
    simp only [ht]
    rw [returns, bind_run hreturn, bind_run hvalue]
    rfl
  refine ⟨e', ?_, houtline⟩
  simp only [Parser.stmt, List.head?_cons, Option.map_some, ht, Readings.ofParser, hclosed]
  rfl

private theorem docs_rules (docs : DocComments) (n : Nat) : (rules docs n).docs = docs := by
  cases n <;> rfl

private theorem top_return {docs : DocComments} {n : Nat} {t : Token} {ts : List Token} {s : Stmt}
    (ht : t.terminal = .keyword .returnKw)
    (hrun : Parser.stmt (rules docs n) (t :: ts) = [(s, [])]) (hs : s.isEmpty = false) :
    top (rules docs (n + 1)) (t :: ts) = some ([.stmt s], []) := by
  have hmodified : startsModified (t :: ts) = some (false, t :: ts) := by
    have hreturn : isModifier (.keyword .returnKw) = false := by decide
    simp [startsModified, hreturn, ht]
  rw [top, look_bind]
  simp only [ht]
  rw [bind_run hmodified]
  simp [statement, rules, hrun, hs]

private theorem parseTokens_return (docs : DocComments) {e : Expr} (he : Plain e) {t : Token}
    (ht : t.terminal = .keyword .returnKw) {ts : List Token}
    (h : Spelt (e.words ++ [Symbol.semicolon.word]) ts []) :
    ∃ e', parseTokens docs (t :: ts) =
        some ⟨[.stmt (.returns t.pos (docs.at? t.mark.offset) (some e'))]⟩ ∧
      e'.outline = e.outline := by
  have hlength := h.length_eq
  rw [List.length_append, List.length_singleton] at hlength
  have hwords : e.words.length ≤ 2 * (t :: ts).length + 1 := by
    rw [List.length_cons]
    omega
  obtain ⟨e', hrun, houtline⟩ := returns_reads (reads_rules docs _) he hwords ht h
  rw [docs_rules] at hrun
  have htops : Repeats (top (rules docs (2 * (t :: ts).length + 2))) (t :: ts) [[_]] [] :=
    .next (top_return ht hrun rfl) (Nat.succ_pos _) (.stop rfl)
  refine ⟨e', ?_, houtline⟩
  rw [parseTokens, complete_eq_some_iff, file, Parser.many, bind_run htops.many]
  rfl

/-- A source that returns an expression, written with no more parentheses than its levels demand,
has one statement, and that returns the expression. -/
theorem parse_returnSource {e : Expr} (h : Plain e) :
    ∃ e', parse (returnSource e) = .ok ⟨[.stmt (.returns ⟨1, 7⟩ none (some e'))]⟩ ∧
      e'.outline = e.outline := by
  obtain ⟨hfailure, ts, htokens, hwords⟩ := lex_returnSource h
  have hspelt := spelt_map ts []
  rw [hwords, List.append_nil] at hspelt
  have hreturn : Terminal.keyword .returnKw = .keyword .returnKw := rfl
  obtain ⟨e', hrun, houtline⟩ :=
    parseTokens_return (docComments (returnSource e).toList) (t := ⟨_, "return", ⟨6, ⟨1, 7⟩⟩⟩) h
      hreturn hspelt
  refine ⟨e', ?_, houtline⟩
  rw [docComments_returnSource] at hrun
  simp only [parse, written, hfailure, htokens, hrun]
  rfl

/-- An expression in which signs, powers, a difference of differences and both kinds of choices
meet. -/
def mixedExpr : Expr :=
  let a := Expr.var default "a"
  let int := Expr.int default
  .ternary default
    (.binary default .coalesce
      (.binary default .and (.unary default .not a)
        (.binary default .concat
          (.binary default .sub (int 1) (.binary default .sub (int 2) (int 3)))
          (.string default "it's" false)))
      (.binary default .pow (.unary default .minus (.var default "b"))
        (.binary default .pow (int 2) (.unary default .minus (int 3)))))
    (.elvis default a (int 0))
    (int 7)

private theorem mixedExpr_plain : Plain mixedExpr := by
  have hname : ∀ c : Char, isNameStart c = true → NameChars [c] := fun c hc => .mk hc (by simp)
  have ha : Plain (.var default "a") := .var default (hname 'a' (by decide))
  have hb : Plain (.var default "b") := .var default (hname 'b' (by decide))
  have hint : ∀ n, Plain (.int default n) := .int default
  have hleft : Plain (.binary default .concat
      (.binary default .sub (.int default 1)
        (.binary default .sub (.int default 2) (.int default 3)))
      (.string default "it's" false)) :=
    .binary _ _ (.binary _ _ (hint 1) (.binary _ _ (hint 2) (hint 3))) (.string _ _)
  have hpower : Plain (.binary default .pow (.unary default .minus (.var default "b"))
      (.binary default .pow (.int default 2) (.unary default .minus (.int default 3)))) :=
    .binary _ _ (.unary _ (by decide) hb) (.binary _ _ (hint 2) (.unary _ (by decide) (hint 3)))
  exact .ternary _ (.binary _ _ (.binary _ _ (.unary _ (by decide) ha) hleft) hpower)
    (.elvis _ ha (hint 0)) (hint 7)

theorem mixedExpr_returned :
    returnSource mixedExpr = "<?php return ! $a && 1 - ( 2 - 3 ) . 'it\\'s' ?? " ++
      "( - $b ) ** 2 ** - 3 ? $a ? : 0 : 7;" ∧
    ∃ e', parse (returnSource mixedExpr) = .ok ⟨[.stmt (.returns ⟨1, 7⟩ none (some e'))]⟩ ∧
      e'.outline = mixedExpr.outline :=
  ⟨by decide, parse_returnSource mixedExpr_plain⟩

end PhpTypes.Source
