import Mathlib.Algebra.Group.Nat.Even
import PhpTypes.Proofs.LiteralTexts
import PhpTypes.Proofs.Tokenization

/-!
# Interpolation

In double quotes a dollar before a name or a brace opens a variable, and so does a brace before a
dollar. Escapes are read from the left, a backslash with the character after it, so that an opening
is escaped just if an odd number of backslashes stands before it. Unescaping agrees with that. The
test for interpolation looks back by one character only, and passes over an opening after two
backslashes, too.
-/

namespace PhpTypes.Source

/-! Openings. -/

/-- Two characters that open a variable in double quotes. -/
inductive OpensVariable : Char → Char → Prop where
  | letter {d : Char} : d.isAlpha = true → OpensVariable '$' d
  | underscore : OpensVariable '$' '_'
  | brace : OpensVariable '$' '\x7b'
  | braced : OpensVariable '\x7b' '$'

private theorem opensVariable_iff {c d : Char} : OpensVariable c d ↔ isInterpolated c d = true := by
  constructor
  · intro h
    cases h with
    | letter hd => simp [isInterpolated, hd]
    | underscore => decide
    | brace => decide
    | braced => decide
  · intro h
    simp only [isInterpolated, Bool.or_eq_true, Bool.and_eq_true, beq_iff_eq] at h
    rcases h with ⟨rfl, (hd | rfl) | rfl⟩ | ⟨rfl, rfl⟩
    · exact .letter hd
    · exact .underscore
    · exact .brace
    · exact .braced

theorem OpensVariable.ne_backslash {c d : Char} (h : OpensVariable c d) : c ≠ '\\' := by
  cases h <;> decide

/-- The number of backslashes at the end of a text. -/
def backslashesAtEnd (cs : List Char) : Nat := (cs.rtakeWhile (· == '\\')).length

/-- A text opens a variable somewhere, and the number of backslashes directly before has a
property. -/
def OpensAfter (P : Nat → Prop) (body : List Char) : Prop :=
  ∃ before c d after,
    body = before ++ c :: d :: after ∧ OpensVariable c d ∧ P (backslashesAtEnd before)

private theorem backslashesAtEnd_snoc (cs : List Char) (c : Char) :
    backslashesAtEnd (cs ++ [c]) = if c = '\\' then backslashesAtEnd cs + 1 else 0 := by
  by_cases hc : c = '\\'
  · simp [backslashesAtEnd, hc]
  · simp [backslashesAtEnd, hc]

private theorem backslashesAtEnd_eq_zero_iff {cs : List Char} :
    backslashesAtEnd cs = 0 ↔ cs.getLast? ≠ some '\\' := by
  induction cs using List.reverseRecOn with
  | nil => simp [backslashesAtEnd]
  | append_singleton cs c =>
    by_cases hc : c = '\\'
    · simp [backslashesAtEnd_snoc, hc]
    · simp [backslashesAtEnd_snoc, hc]

/-! The test for interpolation. -/

/-- The test goes through a text with what came before it in mind. -/
theorem interpolates_iff (prior cs : List Char) :
    interpolates (prior.getLast? == some '\\') cs = true ↔
      ∃ before c d after, cs = before ++ c :: d :: after ∧ OpensVariable c d ∧
        backslashesAtEnd (prior ++ before) = 0 := by
  induction cs generalizing prior with
  | nil => simp [interpolates]
  | cons c cs ih =>
    have hlast : (c == '\\') = ((prior ++ [c]).getLast? == some '\\') := by
      rw [List.getLast?_concat]
      rfl
    have hhere : (!(prior.getLast? == some '\\') && cs.head?.any (isInterpolated c)) = true ↔
        ∃ d after, cs = d :: after ∧ OpensVariable c d ∧ backslashesAtEnd prior = 0 := by
      rw [backslashesAtEnd_eq_zero_iff]
      cases cs with
      | nil => simp
      | cons d after => simp [opensVariable_iff, and_comm]
    rw [interpolates_cons, Bool.or_eq_true, hhere, hlast, ih]
    constructor
    · intro h
      rcases h with ⟨d, after, hcs, hopens, hzero⟩ | ⟨before, c', d, after, hcs, hopens, hzero⟩
      · exact ⟨[], c, d, after, by rw [hcs, List.nil_append], hopens, by rwa [List.append_nil]⟩
      · rw [List.append_assoc] at hzero
        exact ⟨c :: before, c', d, after, by rw [hcs, List.cons_append], hopens, hzero⟩
    · intro h
      obtain ⟨before, c', d, after, hcs, hopens, hzero⟩ := h
      cases before with
      | nil =>
        rw [List.append_nil] at hzero
        obtain ⟨rfl, hrest⟩ := List.cons.inj hcs
        exact .inl ⟨d, after, hrest, hopens, hzero⟩
      | cons b before =>
        obtain ⟨rfl, hrest⟩ := List.cons.inj hcs
        refine .inr ⟨before, c', d, after, hrest, hopens, ?_⟩
        rwa [List.append_assoc]

private theorem interpolates_body (body : List Char) :
    interpolates false body = true ↔ OpensAfter (· = 0) body :=
  interpolates_iff [] body

/-- An even number of backslashes is none, or two and more. -/
theorem opensAfter_even_iff {body : List Char} :
    OpensAfter Even body ↔ OpensAfter (· = 0) body ∨ OpensAfter (fun n => Even n ∧ n ≠ 0) body := by
  constructor
  · intro h
    obtain ⟨before, c, d, after, hbody, hopens, heven⟩ := h
    by_cases hzero : backslashesAtEnd before = 0
    · exact .inl ⟨before, c, d, after, hbody, hopens, hzero⟩
    · exact .inr ⟨before, c, d, after, hbody, hopens, heven, hzero⟩
  · intro h
    rcases h with ⟨before, c, d, after, hbody, hopens, hzero⟩ |
      ⟨before, c, d, after, hbody, hopens, heven, -⟩
    · refine ⟨before, c, d, after, hbody, hopens, ?_⟩
      rw [hzero]
      exact Even.zero
    · exact ⟨before, c, d, after, hbody, hopens, heven⟩

/-! Escapes from the left. -/

/-- Whether a text ends with the backslash of an escape, where an escape is a backslash with the
character after it. -/
def endsInEscape (cs : List Char) : Bool :=
  cs.foldl (fun inEscape c => !inEscape && c == '\\') false

private theorem endsInEscape_snoc (cs : List Char) (c : Char) :
    endsInEscape (cs ++ [c]) = (!endsInEscape cs && c == '\\') := by
  rw [endsInEscape, List.foldl_append]
  rfl

private theorem endsInEscape_pair (c : Char) (cs : List Char) :
    endsInEscape ('\\' :: c :: cs) = endsInEscape cs := rfl

private theorem endsInEscape_plain {c : Char} (h : c ≠ '\\') (cs : List Char) :
    endsInEscape (c :: cs) = endsInEscape cs := by
  have hc : (c == '\\') = false := beq_eq_false_iff_ne.mpr h
  rw [endsInEscape, List.foldl_cons, hc]
  rfl

private theorem endsInEscape_iff {cs : List Char} :
    endsInEscape cs = false ↔ Even (backslashesAtEnd cs) := by
  induction cs using List.reverseRecOn with
  | nil => exact iff_of_true rfl Even.zero
  | append_singleton cs c ih =>
    rw [endsInEscape_snoc, backslashesAtEnd_snoc]
    by_cases hc : c = '\\'
    · rw [if_pos hc, Nat.even_add_one, ← ih]
      simp [hc]
    · simp [hc]

/-- Unescaping starts anew after a text that does not end in an escape. -/
theorem unescapeDouble_append {before : List Char} (h : endsInEscape before = false)
    (rest : List Char) :
    unescapeDouble (before ++ rest) = unescapeDouble before ++ unescapeDouble rest := by
  fun_induction unescapeDouble before with
  | case1 cs ih =>
    rw [endsInEscape_pair] at h
    rw [List.cons_append, List.cons_append, unescapeDouble, ih h, List.cons_append,
      List.cons_append]
  | case2 c cs hc v hv ih =>
    rw [endsInEscape_pair] at h
    rw [List.cons_append, List.cons_append, unescapeDouble, hv]
    · simp only [ih h, List.cons_append]
    · exact hc
  | case3 c cs hc hv ih =>
    rw [endsInEscape_pair] at h
    rw [List.cons_append, List.cons_append, unescapeDouble, hv]
    · simp only [ih h, List.cons_append]
    · exact hc
  | case4 c cs hline hpair ih =>
    have hc : c ≠ '\\' := by
      intro hc
      cases cs with
      | nil =>
        subst hc
        cases h
      | cons d cs => exact hpair d cs hc rfl
    rw [endsInEscape_plain hc] at h
    rw [List.cons_append, unescapeDouble_plain hc, ih h, List.cons_append]
  | case5 => rfl

/-- An opening after an even number of backslashes stands for itself. -/
theorem unescapeDouble_opening {before after : List Char} {c d : Char} (h : OpensVariable c d)
    (heven : Even (backslashesAtEnd before)) :
    unescapeDouble (before ++ c :: d :: after) =
      unescapeDouble before ++ c :: unescapeDouble (d :: after) := by
  rw [unescapeDouble_append (endsInEscape_iff.mpr heven), unescapeDouble_plain h.ne_backslash]

/-! The strings of a source. -/

private theorem stringBodyLength_take {quote : Char} {cs : List Char} {n : Nat}
    (h : stringBodyLength quote cs = some n) : ∃ body, cs.take n = body ++ [quote] := by
  fun_induction stringBodyLength quote cs generalizing n with
  | case1 => cases h
  | case2 => cases h
  | case3 d cs ih =>
    obtain ⟨m, hm, rfl⟩ := Option.map_eq_some_iff.mp h
    obtain ⟨body, hbody⟩ := ih hm
    exact ⟨'\\' :: d :: body, by simp [hbody]⟩
  | case4 cs =>
    cases h
    exact ⟨[], rfl⟩
  | case5 c cs _ _ _ ih =>
    obtain ⟨m, hm, rfl⟩ := Option.map_eq_some_iff.mp h
    obtain ⟨body, hbody⟩ := ih hm
    exact ⟨c :: body, by simp [hbody]⟩

private theorem stringLength_take {cs : List Char} (h : 0 < stringLength cs) :
    ∃ quote body, isQuote quote = true ∧
      cs.take (stringLength cs) = quote :: (body ++ [quote]) := by
  cases cs with
  | nil => exact absurd h (Nat.lt_irrefl 0)
  | cons quote cs =>
    by_cases hquote : isQuote quote = true
    · cases hlength : stringBodyLength quote cs with
      | none => simp [stringLength, hlength] at h
      | some n =>
        have htotal : stringLength (quote :: cs) = n + 1 := by
          simp [stringLength, hquote, hlength]
        obtain ⟨body, hbody⟩ := stringBodyLength_take hlength
        exact ⟨quote, body, hquote, by rw [htotal, List.take_succ_cons, hbody]⟩
    · simp [stringLength, hquote] at h

/-- A string of a source has a quote at each end. -/
theorem string_quoted {source : List Char} {t : Token} (ht : t ∈ (lex source).tokens)
    (hstring : t.terminal = .string) :
    ∃ quote body, isQuote quote = true ∧ t.text.toList = quote :: (body ++ [quote]) := by
  obtain ⟨before, after, hsplit⟩ := List.append_of_mem ht
  obtain ⟨rest, n, -, -, hfirst, htext, -⟩ := lexFrom_token hsplit
  obtain ⟨s, hwins, rfl, hrefine⟩ := wins_of_firstMatch hfirst
  have hs : s = .string := by
    rw [hstring] at hrefine
    have hnot : ∀ k, s.refine (rest.take (s.matchLength rest)) ≠ .keyword k := by
      intro k
      rw [← hrefine]
      exact Terminal.noConfusion
    rw [Terminal.refine_of_not_keyword hnot] at hrefine
    exact hrefine.symm
  subst hs
  rw [htext, String.toList_ofList]
  exact stringLength_take hwins.1

/-- A string in double quotes is taken to interpolate just if it has an opening with no backslash
before it. It has an opening that is not escaped if this is so, or if an opening stands after two or
more backslashes, even in number. The value of the string has every opening of both kinds for
itself. -/
theorem doubleQuoted_interpolation {source : List Char} {t : Token}
    (ht : t ∈ (lex source).tokens) (hstring : t.terminal = .string)
    (hquote : t.text.toList.head? = some '"') :
    ∃ body, t.text.toList = '"' :: (body ++ ['"']) ∧
      ((unquote t.text.toList).2 = true ↔ OpensAfter (· = 0) body) ∧
      (OpensAfter Even body ↔
        (unquote t.text.toList).2 = true ∨ OpensAfter (fun n => Even n ∧ n ≠ 0) body) ∧
      ∀ before c d after, body = before ++ c :: d :: after → OpensVariable c d →
        Even (backslashesAtEnd before) →
        (unquote t.text.toList).1 =
          String.ofList (unescapeDouble before ++ c :: unescapeDouble (d :: after)) := by
  obtain ⟨quote, body, -, htext⟩ := string_quoted ht hstring
  have hquote' : quote = '"' := by
    rw [htext] at hquote
    exact Option.some.inj hquote
  subst hquote'
  have hunquote : unquote t.text.toList =
      (String.ofList (unescapeDouble body), interpolates false body) := by
    simp [htext, unquote]
  have hreported : (unquote t.text.toList).2 = true ↔ OpensAfter (· = 0) body := by
    rw [hunquote]
    exact interpolates_body body
  refine ⟨body, htext, hreported, ?_, ?_⟩
  · rw [hreported]
    exact opensAfter_even_iff
  · intro before c d after hbody hopens heven
    rw [hunquote, hbody, unescapeDouble_opening hopens heven]

/-- The body of a string: three backslashes before a variable, which is escaped, and then a variable
in a brace. -/
def bracedBody : List Char := ['\\', '\\', '\\', '$', 'a', '\x7b', '$', 'b']

private theorem lex_quotedBody (body : List Char)
    (h : stringBodyLength '"' (body ++ ['"']) = some (body.length + 1)) :
    lex ('"' :: (body ++ ['"'])) =
      ⟨[⟨.string, String.ofList ('"' :: (body ++ ['"'])), .start⟩], none⟩ := by
  have hfound := firstMatch_quoted (by decide) h
  exact lex_single (List.cons_ne_nil _ _) (by simpa using hfound)

theorem bracedBody_interpolates :
    lex ('"' :: (bracedBody ++ ['"'])) =
      ⟨[⟨.string, String.ofList ('"' :: (bracedBody ++ ['"'])), .start⟩], none⟩ ∧
    OpensAfter Even bracedBody ∧ (unquote ('"' :: (bracedBody ++ ['"']))).2 = true := by
  have hlex := lex_quotedBody bracedBody (by decide)
  have htoken : (⟨.string, String.ofList ('"' :: (bracedBody ++ ['"'])), .start⟩ : Token) ∈
      (lex ('"' :: (bracedBody ++ ['"']))).tokens := by
    rw [hlex]
    exact List.mem_singleton_self _
  obtain ⟨body, htext, hreported, heven, -⟩ :=
    doubleQuoted_interpolation htoken rfl (by rw [String.toList_ofList]; rfl)
  rw [String.toList_ofList] at htext hreported heven
  have hbody : body = bracedBody :=
    List.append_cancel_right (List.cons.inj htext).2.symm
  subst hbody
  have hopens : OpensAfter (· = 0) bracedBody :=
    ⟨['\\', '\\', '\\', '$', 'a'], '\x7b', '$', ['b'], rfl, .braced, by decide⟩
  exact ⟨hlex, heven.mpr (.inl (hreported.mpr hopens)), hreported.mpr hopens⟩

/-- The body of a string: two backslashes, which stand for one, before a variable. -/
def pairedBody : List Char := ['\\', '\\', '$', 'x']

/-- The variable after a pair of backslashes is not escaped, but it is not found. -/
theorem pairedBody_missed :
    lex ('"' :: (pairedBody ++ ['"'])) =
      ⟨[⟨.string, String.ofList ('"' :: (pairedBody ++ ['"'])), .start⟩], none⟩ ∧
    OpensAfter Even pairedBody ∧
    unquote ('"' :: (pairedBody ++ ['"'])) = (String.ofList ['\\', '$', 'x'], false) := by
  refine ⟨lex_quotedBody pairedBody (by decide), ?_, by decide⟩
  exact ⟨['\\', '\\'], '$', 'x', [], rfl, .letter (by decide), by decide⟩

end PhpTypes.Source
