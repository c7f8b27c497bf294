import PhpTypes.Source.Lexer

/-!
# Lexemes

The tokens of a source stand one after the other, without gaps. So every character of the source
either starts a token or stands inside of one, and no two tokens have the same position. A slash
stands inside of strings and comments only.
-/

namespace PhpTypes.Source

/-! Places. -/

private theorem Mark.advance_cons (m : Mark) (c : Char) (cs : List Char) :
    m.advance (c :: cs) = (m.step c).advance cs := rfl

theorem Mark.advance_append (m : Mark) (cs ds : List Char) :
    m.advance (cs ++ ds) = (m.advance cs).advance ds := List.foldl_append

theorem Mark.offset_advance (m : Mark) (cs : List Char) :
    (m.advance cs).offset = m.offset + cs.length := by
  induction cs generalizing m with
  | nil => rfl
  | cons c cs ih =>
    have hstep : (m.step c).offset = m.offset + 1 := by
      unfold Mark.step
      split <;> rfl
    rw [Mark.advance_cons, ih, hstep, List.length_cons]
    omega

/-- An earlier line, or an earlier column of the same line. -/
def Pos.Before (p q : Pos) : Prop := p.line < q.line ∨ (p.line = q.line ∧ p.column < q.column)

theorem Pos.Before.trans {p q r : Pos} (hpq : p.Before q) (hqr : q.Before r) : p.Before r := by
  unfold Pos.Before at *
  omega

theorem Pos.Before.ne {p q : Pos} (h : p.Before q) : p ≠ q := by
  rintro rfl
  unfold Pos.Before at h
  omega

private theorem Mark.before_advance (m : Mark) {cs : List Char} (h : cs ≠ []) :
    m.pos.Before (m.advance cs).pos := by
  induction cs generalizing m with
  | nil => exact (h rfl).elim
  | cons c cs ih =>
    have hstep : m.pos.Before (m.step c).pos := by
      unfold Mark.step
      split
      · exact .inl (Nat.lt_succ_self _)
      · exact .inr ⟨rfl, Nat.lt_succ_self _⟩
    by_cases hcs : cs = []
    · subst hcs
      exact hstep
    · exact hstep.trans (ih (m.step c) hcs)

/-! Tokens one after the other. -/

/-- The tokens of a text that starts at a place. -/
inductive Lexes : Mark → List Char → List Token → Prop where
  | done {mark : Mark} : Lexes mark [] []
  | next {mark : Mark} {c : Char} {cs : List Char} {t : Terminal} {n : Nat} {ts : List Token} :
    firstMatch (c :: cs) = some (t, n) →
    Lexes (mark.advance ((c :: cs).take n)) ((c :: cs).drop n) ts →
    Lexes mark (c :: cs) (⟨t, String.ofList ((c :: cs).take n), mark⟩ :: ts)

theorem lexFrom_lexes {mark : Mark} {cs : List Char} (h : (lexFrom mark cs).failure = none) :
    Lexes mark cs (lexFrom mark cs).tokens := by
  fun_induction lexFrom mark cs with
  | case1 mark => exact .done
  | case2 mark c rest hnone => cases h
  | case3 mark c rest t n hmatch _ lexeme ih => exact .next hmatch (ih h)

namespace Lexes

variable {mark : Mark} {cs : List Char} {ts : List Token}

/-- A token is what matches first at its place. -/
theorem starts (h : Lexes mark cs ts) {t : Token} (ht : t ∈ ts) :
    ∃ before rest n, cs = before ++ rest ∧ rest ≠ [] ∧ t.mark = mark.advance before ∧
      firstMatch rest = some (t.terminal, n) ∧ t.text = String.ofList (rest.take n) := by
  induction h with
  | done => cases ht
  | @next mark c cs terminal n ts hmatch _ ih =>
    rcases List.mem_cons.mp ht with rfl | ht
    · exact ⟨[], c :: cs, n, rfl, by simp, rfl, hmatch, rfl⟩
    · obtain ⟨before, rest, k, hcs, hne, hmark, hfirst, htext⟩ := ih ht
      refine ⟨(c :: cs).take n ++ before, rest, k, ?_, hne, ?_, hfirst, htext⟩
      · rw [List.append_assoc, ← hcs, List.take_append_drop]
      · rw [hmark, Mark.advance_append]

theorem text_ne_nil (h : Lexes mark cs ts) {t : Token} (ht : t ∈ ts) : t.text.toList ≠ [] := by
  obtain ⟨before, rest, n, -, hne, -, hfirst, htext⟩ := h.starts ht
  obtain ⟨c, rest, rfl⟩ := List.exists_cons_of_ne_nil hne
  have hpos := firstMatch_pos hfirst
  simp only [htext, String.toList_ofList, ne_eq, List.take_eq_nil_iff, List.cons_ne_nil, or_false]
  omega

end Lexes

/-- A token ends before another one starts. -/
def Token.Precedes (t u : Token) : Prop :=
  ∃ between, u.mark = t.mark.advance (t.text.toList ++ between)

/-- A place stands inside of a token, after its start. -/
def Token.Encloses (t : Token) (place : Nat) : Prop :=
  t.mark.offset < place ∧ place < t.mark.offset + t.text.toList.length

namespace Lexes

variable {mark : Mark} {cs : List Char} {ts : List Token}

theorem ordered (h : Lexes mark cs ts) : ts.Pairwise Token.Precedes := by
  induction h with
  | done => exact .nil
  | @next mark c cs terminal n ts hmatch hrest ih =>
    refine .cons (fun u hu => ?_) ih
    obtain ⟨before, _, _, _, _, hmark, _⟩ := hrest.starts hu
    refine ⟨before, ?_⟩
    rw [hmark, Mark.advance_append, String.toList_ofList]

/-- Two tokens are in order, in one way or the other. -/
theorem precedes_or (h : Lexes mark cs ts) {t u : Token} (ht : t ∈ ts) (hu : u ∈ ts) :
    t = u ∨ t.Precedes u ∨ u.Precedes t := by
  have hordered := h.ordered
  clear h
  induction hordered with
  | nil => cases ht
  | @cons a ts ha _ ih =>
    rcases List.mem_cons.mp ht with rfl | ht'
    · rcases List.mem_cons.mp hu with rfl | hu'
      · exact .inl rfl
      · exact .inr (.inl (ha u hu'))
    · rcases List.mem_cons.mp hu with rfl | hu'
      · exact .inr (.inr (ha t ht'))
      · exact ih ht' hu'

/-- A token is known by its position. -/
theorem eq_of_pos (h : Lexes mark cs ts) {t u : Token} (ht : t ∈ ts) (hu : u ∈ ts)
    (hpos : t.pos = u.pos) : t = u := by
  have hbefore : ∀ {t u : Token}, t ∈ ts → t.Precedes u → t.pos ≠ u.pos := by
    rintro t u ht ⟨between, hmark⟩
    have hne : t.text.toList ++ between ≠ [] := by simp [h.text_ne_nil ht]
    have hadvance := t.mark.before_advance hne
    rw [← hmark] at hadvance
    exact hadvance.ne
  rcases h.precedes_or ht hu with heq | hlt | hlt
  · exact heq
  · exact (hbefore ht hlt hpos).elim
  · exact (hbefore hu hlt hpos.symm).elim

/-- No token stands at a place inside of another one. -/
theorem not_encloses (h : Lexes mark cs ts) {t u : Token} (ht : t ∈ ts) (hu : u ∈ ts) :
    ¬ t.Encloses u.mark.offset := by
  have hend : ∀ {t u : Token}, t.Precedes u →
      t.mark.offset + t.text.toList.length ≤ u.mark.offset := by
    rintro t u ⟨between, hmark⟩
    rw [hmark, Mark.offset_advance, List.length_append]
    omega
  rintro ⟨hlt, hgt⟩
  rcases h.precedes_or ht hu with rfl | hlt' | hlt'
  · omega
  · have := hend hlt'
    omega
  · have := hend hlt'
    omega

/-- Every place up to the end is the place of a token or inside of one. -/
theorem covers (h : Lexes mark cs ts) {k : Nat} (hk : k < cs.length) :
    (∃ t ∈ ts, t.mark.offset = mark.offset + k) ∨ ∃ t ∈ ts, t.Encloses (mark.offset + k) := by
  induction h generalizing k with
  | done => simp at hk
  | @next mark c cs terminal n ts hmatch hrest ih =>
    by_cases hzero : k = 0
    · subst hzero
      exact .inl ⟨_, List.mem_cons_self, rfl⟩
    · have hlength := List.length_take (i := n) (l := c :: cs)
      by_cases hn : k < n
      · refine .inr ⟨_, List.mem_cons_self, ?_⟩
        simp only [Token.Encloses, String.toList_ofList]
        omega
      · have hdrop : k - n < ((c :: cs).drop n).length := by
          rw [List.length_drop]
          omega
        have hoffset : (mark.advance ((c :: cs).take n)).offset + (k - n) = mark.offset + k := by
          rw [Mark.offset_advance]
          omega
        have hrest := ih hdrop
        rw [hoffset] at hrest
        rcases hrest with ⟨t, ht, hmark⟩ | ⟨t, ht, hmark⟩
        · exact .inl ⟨t, List.mem_cons_of_mem _ ht, hmark⟩
        · exact .inr ⟨t, List.mem_cons_of_mem _ ht, hmark⟩

end Lexes

/-! Slashes. -/

/-- No slash among the first characters. -/
def Clear (n : Nat) (cs : List Char) : Prop := '/' ∉ cs.take n

private theorem clear_zero (cs : List Char) : Clear 0 cs := by simp [Clear]

theorem Clear.add {m n : Nat} {cs : List Char} (h : Clear m cs) (h' : Clear n (cs.drop m)) :
    Clear (m + n) cs := by
  unfold Clear
  rw [List.take_add, List.mem_append]
  exact not_or.mpr ⟨h, h'⟩

theorem Clear.cons {n : Nat} {c : Char} {cs : List Char} (hc : c ≠ '/') (h : Clear n cs) :
    Clear (1 + n) (c :: cs) := by
  unfold Clear
  rw [Nat.add_comm, List.take_succ_cons, List.mem_cons]
  exact not_or.mpr ⟨hc.symm, h⟩

/-- A character of a kind to which the slash does not belong. -/
theorem Clear.cons_of {p : Char → Bool} (hp : p '/' = false) {n : Nat} {c : Char} {cs : List Char}
    (hc : p c = true) (h : Clear n cs) : Clear (1 + n) (c :: cs) := by
  refine .cons ?_ h
  rintro rfl
  rw [hp] at hc
  cases hc

private theorem clear_run {p : Char → Bool} (hp : p '/' = false) (cs : List Char) :
    Clear (runLength p cs) cs := by
  have htake : cs.take (runLength p cs) = cs.takeWhile p :=
    (List.prefix_iff_eq_take.mp (List.takeWhile_prefix p)).symm
  unfold Clear
  rw [htake]
  intro hmem
  have hslash := List.all_eq_true.mp List.all_takeWhile _ hmem
  rw [hp] at hslash
  cases hslash

private theorem clear_word (cs : List Char) : Clear (wordLength cs) cs := by
  cases cs with
  | nil => exact clear_zero _
  | cons c cs =>
    rw [wordLength]
    split
    · rename_i hc
      exact .cons_of (by decide) hc (clear_run (by decide) cs)
    · exact clear_zero _

private theorem clear_path (fuel : Nat) (cs : List Char) : Clear (pathLength fuel cs) cs := by
  induction fuel generalizing cs with
  | zero => exact clear_zero _
  | succ fuel ih =>
    unfold pathLength
    split
    · rename_i rest
      simp only
      split
      · exact clear_zero _
      · rw [Nat.add_assoc]
        exact .cons (by decide) ((clear_word rest).add (ih _))
    · exact clear_zero _

private theorem clear_relativeName (cs : List Char) : Clear (relativeNameLength cs) cs := by
  unfold relativeNameLength
  simp only
  split
  · exact clear_zero _
  · exact (clear_word cs).add (clear_path _ _)

private theorem clear_name (cs : List Char) : Clear (nameLength cs) cs := by
  unfold nameLength
  split
  · simp only
    split
    · exact clear_zero _
    · exact .cons (by decide) (clear_relativeName _)
  · exact clear_relativeName _

private theorem clear_variable (cs : List Char) : Clear (variableLength cs) cs := by
  unfold variableLength
  split
  · simp only
    split
    · exact clear_zero _
    · exact .cons (by decide) (clear_word _)
  · exact clear_zero _

private theorem clear_digits (cs : List Char) : Clear (digitsLength cs) cs := by
  cases cs with
  | nil => exact clear_zero _
  | cons c cs =>
    rw [digitsLength]
    split
    · rename_i hc
      exact .cons_of (by decide) hc (clear_run (by decide) cs)
    · exact clear_zero _

private theorem clear_sign (cs : List Char) : Clear (match cs with
    | c :: _ => if c == '+' || c == '-' then 1 else 0
    | [] => 0) cs := by
  split
  · rename_i c cs
    split
    · rename_i hc
      exact .cons_of (p := fun c => c == '+' || c == '-') (n := 0) (by decide) hc (clear_zero cs)
    · exact clear_zero _
  · exact clear_zero _

private theorem clear_exponent (cs : List Char) : Clear (exponentLength cs) cs := by
  unfold exponentLength
  split
  · rename_i e cs
    extract_lets sign n
    split
    · rename_i he
      split
      · exact clear_zero _
      · rw [Nat.add_assoc]
        exact .cons_of (p := fun c => c == 'e' || c == 'E') (by decide) he
          ((clear_sign cs).add (clear_run (by decide) _))
    · exact clear_zero _
  · exact clear_zero _

private theorem clear_fraction {cs : List Char} {n : Nat}
    (hn : n = match cs with | '.' :: rest => digitsLength rest | _ => 0) (h : n ≠ 0) :
    Clear (1 + n) cs := by
  split at hn
  · rw [hn]
    exact .cons (by decide) (clear_digits _)
  · exact absurd hn h

private theorem clear_float (cs : List Char) : Clear (floatLength cs) cs := by
  unfold floatLength
  extract_lets whole tail part e
  split
  · exact clear_zero _
  · split
    · split
      · exact clear_zero _
      · exact (clear_digits cs).add (clear_exponent tail)
    · rename_i hpart
      have hfraction : Clear (1 + part) tail := clear_fraction rfl (by simpa using hpart)
      rw [Nat.add_assoc whole, Nat.add_assoc whole]
      exact (clear_digits cs).add (hfraction.add (clear_exponent _))

private theorem clear_radix (cs : List Char) : Clear (radixLength cs) cs := by
  unfold radixLength
  split
  · rename_i letter rest
    extract_lets n
    split
    · exact clear_zero _
    · rename_i hn
      have hrest : Clear (1 + n) (letter :: rest) := by
        simp only [n] at hn ⊢
        split
        · rename_i hx
          exact .cons_of (p := fun c => c == 'x' || c == 'X') (by decide) hx
            (clear_run (by decide) rest)
        · rename_i hx
          rw [if_neg hx] at hn
          split
          · rename_i hb
            exact .cons_of (p := fun c => c == 'b' || c == 'B') (by decide) hb
              (clear_run (by decide) rest)
          · rename_i hb
            rw [if_neg hb] at hn
            exact absurd rfl hn
      rw [show 2 + n = 1 + (1 + n) by omega]
      exact .cons (by decide) hrest
  · exact clear_zero _

private theorem clear_int (cs : List Char) : Clear (intLength cs) cs := by
  unfold intLength
  extract_lets n
  split
  · exact clear_digits cs
  · exact clear_radix cs

private theorem clear_cast (cs : List Char) : Clear (castLength cs) cs := by
  unfold castLength
  split
  · rename_i rest
    extract_lets before inner word tail after
    split
    · rename_i hcast
      have hclosing : Clear (1 + 0) (tail.drop after) := by
        have hhead : (tail.drop after).head? = some ')' := by
          simpa using (Bool.and_eq_true_iff.mp hcast).2
        obtain ⟨end', htail⟩ := List.head?_eq_some_iff.mp hhead
        rw [htail]
        exact .cons (by decide) (clear_zero _)
      have hword : Clear word.length inner := clear_run (by decide) inner
      rw [show before + word.length + after + 2 =
        1 + (before + (word.length + (after + (1 + 0)))) by omega]
      exact .cons (by decide) ((clear_run (by decide) rest).add
        (hword.add ((clear_run (by decide) tail).add hclosing)))
    · exact clear_zero _
  · exact clear_zero _

private theorem clear_openTag (cs : List Char) : Clear (openTagLength cs) cs := by
  unfold openTagLength
  split
  · rename_i htag
    intro hmem
    have hletters : (cs.take 5).map foldCase = "<?php".toList := by
      rw [← beq_iff_eq.mp htag, foldCaseText, String.toList_ofList]
    have hslash : foldCase '/' ∈ "<?php".toList := hletters ▸ List.mem_map_of_mem hmem
    exact absurd hslash (by decide)
  · exact clear_zero _

/-! Terminals. -/

private theorem clear_fixed {text cs : List Char} (h : '/' ∉ text.tail) :
    '/' ∉ (cs.take (fixedLength text cs)).tail := by
  unfold fixedLength
  split
  · rename_i hprefix
    rw [← List.prefix_iff_eq_take.mp (List.isPrefixOf_iff_prefix.mp hprefix)]
    exact h
  · simp

private theorem clear_compound (cs : List Char) : '/' ∉ (cs.take (compoundLength cs)).tail := by
  have htexts : ∀ text ∈ compoundTexts, '/' ∉ text.toList.tail := by decide
  unfold compoundLength
  cases hfind : (compoundTexts.map fun t => fixedLength t.toList cs).find? (· != 0) with
  | none => simp
  | some n =>
    obtain ⟨text, htext, rfl⟩ := List.mem_map.mp (List.mem_of_find?_eq_some hfind)
    exact clear_fixed (htexts text htext)

private theorem Symbol.slash_not_mem_tail (s : Symbol) : '/' ∉ s.text.toList.tail := by
  cases s <;> decide

theorem Clear.tail {n : Nat} {cs : List Char} (h : Clear n cs) : '/' ∉ (cs.take n).tail :=
  fun hmem => h (List.mem_of_mem_tail hmem)

/-- The terminals inside of which a slash can stand. -/
def Terminal.isLong : Terminal → Bool
  | .string => true
  | .lineComment => true
  | .blockComment => true
  | _ => false

theorem Terminal.slash_not_mem_tail {t : Terminal} (h : t.isLong = false) (cs : List Char) :
    '/' ∉ (cs.take (t.matchLength cs)).tail := by
  cases t with
  | keyword k => simp [matchLength]
  | symbol s => exact clear_fixed s.slash_not_mem_tail
  | castOperator => exact (clear_cast cs).tail
  | floatNumber => exact (clear_float cs).tail
  | name => exact (clear_name cs).tail
  | string => cases h
  | intNumber => exact (clear_int cs).tail
  | variableName => exact (clear_variable cs).tail
  | compoundAssign => exact clear_compound cs
  | whitespace => exact (clear_run (by decide) cs).tail
  | openTag => exact (clear_openTag cs).tail
  | closeTag => exact clear_fixed (by decide)
  | lineComment => cases h
  | blockComment => cases h

theorem Terminal.refine_of_isLong {t : Terminal} (h : t.isLong = true) (lexeme : List Char) :
    t.refine lexeme = t := by
  cases t with
  | name => cases h
  | _ => rfl

/-- A slash that stands inside of a lexeme stands in a string or in a comment. -/
theorem isLong_of_slash {cs : List Char} {t : Terminal} {n : Nat}
    (h : firstMatch cs = some (t, n)) (hslash : '/' ∈ (cs.take n).tail) : t.isLong = true := by
  obtain ⟨s, -, hs⟩ := List.exists_of_findSome?_eq_some h
  simp only at hs
  split at hs
  · cases hs
  · cases hs
    cases hlong : s.isLong with
    | false => exact (s.slash_not_mem_tail hlong cs hslash).elim
    | true => rwa [Terminal.refine_of_isLong hlong]

/-- At the start of a comment nothing else matches before. -/
theorem firstMatch_comment {cs : List Char} {n : Nat} (h : commentBodyLength cs = some n) :
    firstMatch ('/' :: '*' :: cs) = some (.blockComment, n + 2) := by
  have hothers : ∀ t ∈ [Terminal.castOperator, .floatNumber, .name, .string, .intNumber,
      .variableName], t.matchLength ('/' :: '*' :: cs) = 0 := by
    simp only [List.forall_mem_cons]
    exact ⟨rfl, rfl, rfl, rfl, rfl, rfl, by simp⟩
  have hcomment : Terminal.matchLength .blockComment ('/' :: '*' :: cs) = n + 2 := by
    simp [Terminal.matchLength, blockCommentLength, h]
  simp only [List.forall_mem_cons] at hothers
  simp [firstMatch, Terminal.order, hothers, hcomment, Terminal.refine]

end PhpTypes.Source
