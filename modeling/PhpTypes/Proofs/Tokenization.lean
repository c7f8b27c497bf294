import Mathlib.Data.List.DropRight
import Mathlib.Data.List.Forall2
import PhpTypes.Proofs.ExprTexts
import PhpTypes.Proofs.Lexemes

/-!
# Tokenization

Lexing loses nothing. The texts of the tokens, side by side, are the source, or the part of it that
comes before the first place where no terminal takes anything. Every token has the place where it
stands, counted from the text before it, and a name is a keyword just if it spells one when case is
ignored. These properties leave no choice: only one list of tokens has them.
-/

namespace PhpTypes.Source

/-! Places. -/

/-- The place after a text: its length, the number of its line feeds, and the number of characters
after the last of them. Lines and columns count from one. -/
def Mark.after (before : List Char) : Mark :=
  ⟨before.length, ⟨1 + before.count '\n', 1 + (before.rtakeWhile (· != '\n')).length⟩⟩

theorem Mark.step_after (before : List Char) (c : Char) :
    (Mark.after before).step c = Mark.after (before ++ [c]) := by
  by_cases hc : c = '\n'
  · subst hc
    simp [Mark.step, Mark.after, Nat.add_assoc]
  · simp [Mark.step, Mark.after, hc, Nat.add_assoc]

theorem Mark.advance_start (before : List Char) :
    Mark.start.advance before = Mark.after before := by
  induction before using List.reverseRecOn with
  | nil => rfl
  | append_singleton before c ih =>
    rw [Mark.advance_append, ih]
    exact Mark.step_after before c

example : Mark.start.advance ['a', '\n', 'b', 'c'] = ⟨4, ⟨2, 3⟩⟩ := rfl

/-! Keywords. -/

/-- A character is a letter in one of its cases: it is that letter or its capital, or a letter
outside of ASCII that has the same small or the same capital letter. -/
inductive CaseOf : Char → Char → Prop where
  | small (d : Char) : CaseOf d d
  | capital (d : Char) : CaseOf d.toUpper d
  | longS : CaseOf (Char.ofNat 0x17f) 's'
  | kelvinSign : CaseOf (Char.ofNat 0x212a) 'k'
  | dottedI : CaseOf (Char.ofNat 0x130) 'i'
  | dotlessI : CaseOf (Char.ofNat 0x131) 'i'

/-- A text is a keyword when case is ignored. -/
def Keyword.SpelledBy (k : Keyword) (text : List Char) : Prop :=
  List.Forall₂ CaseOf text k.text.toList

/-- The letters of keywords. -/
def keywordLetters : List Char := "abcdefghijklmnopqrstuvwxyz_".toList

theorem Keyword.mem_keywordLetters (k : Keyword) : ∀ d ∈ k.text.toList, d ∈ keywordLetters := by
  have hall : k.text.toList.all (keywordLetters.contains ·) = true := by cases k <;> decide
  intro d hd
  exact List.contains_iff_mem.mp (List.all_eq_true.mp hall d hd)

private theorem eq_or_eq_of_toLower (c : Char) : c = c.toLower ∨ c = c.toLower.toUpper := by
  have hcapitals : ∀ n ∈ List.range' 65 26,
      Char.ofNat n = (Char.ofNat n).toLower.toUpper := by decide
  by_cases hupper : 65 ≤ c.toNat ∧ c.toNat ≤ 90
  · have hmem : c.toNat ∈ List.range' 65 26 := by
      rw [List.mem_range'_1]
      omega
    have hcapital := hcapitals c.toNat hmem
    rw [Char.ofNat_toNat] at hcapital
    exact .inr hcapital
  · have hsame : c.toLower = c := by
      apply dif_neg
      intro h
      exact hupper ⟨UInt32.le_iff_toNat_le.mp h.1, UInt32.le_iff_toNat_le.mp h.2⟩
    exact .inl hsame.symm

private theorem caseOf_foldCase (c : Char) : CaseOf c (foldCase c) := by
  have hcode : ∀ {n : Nat}, (c.toNat == n) = true → c = Char.ofNat n := by
    intro n hn
    rw [← beq_iff_eq.mp hn, Char.ofNat_toNat]
  unfold foldCase
  split
  · rename_i hs
    rw [hcode hs]
    exact .longS
  · split
    · rename_i hk
      rw [hcode hk]
      exact .kelvinSign
    · split
      · rename_i hi
        rcases Bool.or_eq_true_iff.mp hi with hi | hi
        · rw [hcode hi]
          exact .dottedI
        · rw [hcode hi]
          exact .dotlessI
      · rcases eq_or_eq_of_toLower c with hsmall | hcapital
        · rw [← hsmall]
          exact .small c
        · nth_rewrite 1 [hcapital]
          exact .capital c.toLower

private theorem foldCase_of_caseOf {c d : Char} (hd : d ∈ keywordLetters) (h : CaseOf c d) :
    foldCase c = d := by
  have hletters : ∀ d ∈ keywordLetters, foldCase d = d ∧ foldCase d.toUpper = d :=
    forall_mem_of_all (by decide)
  cases h with
  | small => exact (hletters _ hd).1
  | capital => exact (hletters _ hd).2
  | longS => decide
  | kelvinSign => decide
  | dottedI => decide
  | dotlessI => decide

private theorem forall₂_caseOf_iff {text ds : List Char} (hds : ∀ d ∈ ds, d ∈ keywordLetters) :
    List.Forall₂ CaseOf text ds ↔ text.map foldCase = ds := by
  constructor
  · intro h
    induction h with
    | nil => rfl
    | cons hcase _ ih =>
      rw [List.forall_mem_cons] at hds
      rw [List.map_cons, foldCase_of_caseOf hds.1 hcase, ih hds.2]
  · intro h
    subst h
    rw [List.forall₂_map_right_iff]
    exact List.forall₂_same.mpr fun c _ => caseOf_foldCase c

private theorem spelledBy_iff {k : Keyword} {text : List Char} :
    k.SpelledBy text ↔ foldCaseText text = k.text := by
  rw [Keyword.SpelledBy, forall₂_caseOf_iff k.mem_keywordLetters, foldCaseText]
  constructor
  · intro h
    rw [h, String.ofList_toList]
  · intro h
    rw [← h, String.toList_ofList]

private theorem keyword?_text (k : Keyword) : keyword? k.text.toList = some k := by
  cases k <;> decide +kernel

private theorem keyword?_eq_some_iff {text : List Char} {k : Keyword} :
    keyword? text = some k ↔ k.SpelledBy text := by
  rw [spelledBy_iff]
  constructor
  · intro h
    have hfound := List.find?_some h
    exact (beq_iff_eq.mp hfound).symm
  · intro h
    have hself : foldCaseText k.text.toList = k.text :=
      spelledBy_iff.mp (List.forall₂_same.mpr fun d _ => .small d)
    have hsame : keyword? text = keyword? k.text.toList := by
      unfold keyword?
      rw [h, hself]
    rw [hsame, keyword?_text]

/-! What matches at a place. -/

/-- A terminal is the first in the order that takes something of a text. -/
def Terminal.Wins (s : Terminal) (cs : List Char) : Prop :=
  0 < s.matchLength cs ∧
    ∃ earlier later, Terminal.order = earlier ++ s :: later ∧ ∀ e ∈ earlier, e.matchLength cs = 0

theorem Terminal.wins_iff {s : Terminal} {cs : List Char} :
    s.Wins cs ↔ Terminal.order.find? (fun t => 0 < t.matchLength cs) = some s := by
  simp [Wins, List.find?_eq_some_iff_append]

theorem Terminal.Wins.unique {s s' : Terminal} {cs : List Char} (h : s.Wins cs) (h' : s'.Wins cs) :
    s = s' :=
  Option.some.inj ((wins_iff.mp h).symm.trans (wins_iff.mp h'))

theorem wins_of_firstMatch {cs : List Char} {t : Terminal} {n : Nat}
    (h : firstMatch cs = some (t, n)) :
    ∃ s : Terminal, s.Wins cs ∧ n = s.matchLength cs ∧ t = s.refine (cs.take n) := by
  obtain ⟨earlier, s, later, horder, hs, hearlier⟩ := List.findSome?_eq_some_iff.mp h
  have hnone : ∀ e ∈ earlier, e.matchLength cs = 0 := by
    intro e he
    simpa using hearlier e he
  have hsome : s.matchLength cs ≠ 0 := by
    intro hzero
    simp [hzero] at hs
  simp only [hsome, if_false, Option.some.injEq, Prod.mk.injEq] at hs
  obtain ⟨hrefine, hlength⟩ := hs
  subst hlength
  exact ⟨s, ⟨Nat.pos_of_ne_zero hsome, earlier, later, horder, hnone⟩, rfl, hrefine.symm⟩

private theorem firstMatch_eq_none_iff {cs : List Char} :
    firstMatch cs = none ↔ ∀ s : Terminal, s.matchLength cs = 0 := by
  have hmem : ∀ s : Terminal, s ∈ Terminal.order ∨ s.matchLength cs = 0 := by
    intro s
    cases s with
    | keyword k => exact .inr rfl
    | symbol s => exact .inl (List.mem_append_right _ (List.mem_map_of_mem s.mem_all))
    | _ => exact .inl (List.mem_append_left _ (by decide))
  have hall : firstMatch cs = none ↔ ∀ s ∈ Terminal.order, s.matchLength cs = 0 := by
    simp [firstMatch]
  rw [hall]
  constructor
  · intro h s
    rcases hmem s with hs | hs
    · exact h s hs
    · exact hs
  · intro h s _
    exact h s

theorem Terminal.refine_eq_keyword_iff {s : Terminal} {cs text : List Char} {k : Keyword}
    (h : s.Wins cs) : s.refine text = .keyword k ↔ s = .name ∧ k.SpelledBy text := by
  cases s with
  | name =>
    rw [← keyword?_eq_some_iff, refine]
    cases keyword? text <;> simp
  | keyword k => exact absurd h.1 (Nat.lt_irrefl 0)
  | _ => simp [refine]

theorem Terminal.refine_of_not_keyword {s : Terminal} {text : List Char}
    (h : ∀ k, s.refine text ≠ .keyword k) : s.refine text = s := by
  cases s with
  | name =>
    rw [refine] at h ⊢
    cases hk : keyword? text with
    | none => rfl
    | some k =>
      rw [hk] at h
      exact absurd rfl (h k)
  | _ => rfl

/-! Tokens. -/

/-- The texts of tokens, side by side. -/
def lexemes (ts : List Token) : List Char := ts.flatMap fun t => t.text.toList

private theorem lexemes_cons (t : Token) (ts : List Token) :
    lexemes (t :: ts) = t.text.toList ++ lexemes ts := List.flatMap_cons

/-- A token that belongs to a place, with a text before it and a text from there on. -/
structure Token.Belongs (t : Token) (before rest : List Char) : Prop where
  text_ne : t.text ≠ ""
  mark_eq : t.mark = Mark.after before
  /-- Its text is what the first terminal takes. A name that spells a keyword is that keyword, and
  any other token has the terminal that matched. -/
  matched : ∃ s : Terminal, s.Wins rest ∧ t.text.toList = rest.take (s.matchLength rest) ∧
    (∀ k, t.terminal = .keyword k ↔ s = .name ∧ k.SpelledBy t.text.toList) ∧
    ((∀ k, t.terminal ≠ .keyword k) → t.terminal = s)

/-- A place leaves no choice of a token. -/
theorem Token.Belongs.unique {t t' : Token} {before rest : List Char} (h : t.Belongs before rest)
    (h' : t'.Belongs before rest) : t = t' := by
  obtain ⟨s, hwins, htext, hkeyword, hother⟩ := h.matched
  obtain ⟨s', hwins', htext', hkeyword', hother'⟩ := h'.matched
  have hs := hwins.unique hwins'
  subst hs
  have htexts : t.text = t'.text := String.toList_injective (htext.trans htext'.symm)
  have hterminals : t.terminal = t'.terminal := by
    rw [← htexts] at hkeyword'
    by_cases hk : ∃ k, t.terminal = .keyword k
    · obtain ⟨k, hk⟩ := hk
      rw [hk, (hkeyword' k).mpr ((hkeyword k).mp hk)]
    · rw [not_exists] at hk
      have hk' : ∀ k, t'.terminal ≠ .keyword k :=
        fun k hk' => hk k ((hkeyword k).mpr ((hkeyword' k).mp hk'))
      rw [hother hk, hother' hk']
  have hmarks := h.mark_eq.trans h'.mark_eq.symm
  cases t
  cases t'
  simp_all

/-- A token of a text stands after the texts of the tokens before it. -/
theorem lexFrom_token {mark : Mark} {cs : List Char} {before after : List Token} {t : Token}
    (h : (lexFrom mark cs).tokens = before ++ t :: after) :
    ∃ rest n, cs = lexemes before ++ rest ∧ rest ≠ [] ∧ firstMatch rest = some (t.terminal, n) ∧
      t.text = String.ofList (rest.take n) ∧ t.mark = mark.advance (lexemes before) := by
  fun_induction lexFrom mark cs generalizing before with
  | case1 mark => simp at h
  | case2 mark c rest hnone => simp at h
  | case3 mark c rest terminal n hmatch _ lexeme =>
    rename_i ih
    cases before with
    | nil =>
      have ht : t = ⟨terminal, String.ofList lexeme, mark⟩ := (List.cons.inj h).1.symm
      subst ht
      exact ⟨c :: rest, n, rfl, List.cons_ne_nil c rest, hmatch, rfl, rfl⟩
    | cons u before =>
      obtain ⟨hu, htail⟩ := List.cons.inj h
      obtain ⟨rest', n', hsplit, hne, hfirst, htext, hmark⟩ := ih htail
      have hlexeme : u.text.toList = lexeme := by rw [← hu, String.toList_ofList]
      refine ⟨rest', n', ?_, hne, hfirst, htext, ?_⟩
      · rw [lexemes_cons, hlexeme, List.append_assoc, ← hsplit, List.take_append_drop]
      · rw [lexemes_cons, hlexeme, Mark.advance_append, hmark]

/-- Lexing stops at the end of a text, or where nothing matches. -/
theorem lexFrom_stops (mark : Mark) (cs : List Char) :
    ∃ rest, cs = lexemes (lexFrom mark cs).tokens ++ rest ∧
      (rest ≠ [] → firstMatch rest = none) ∧
      (lexFrom mark cs).failure =
        rest.head?.map fun c => (c, mark.advance (lexemes (lexFrom mark cs).tokens)) := by
  fun_induction lexFrom mark cs with
  | case1 mark => exact ⟨[], rfl, by simp, rfl⟩
  | case2 mark c rest hnone => exact ⟨c :: rest, rfl, fun _ => hnone, rfl⟩
  | case3 mark c rest terminal n hmatch _ lexeme ih =>
    obtain ⟨rest', hsplit, hstops, hfailure⟩ := ih
    refine ⟨rest', ?_, hstops, ?_⟩
    · rw [Lexed.cons, lexemes_cons, String.toList_ofList, List.append_assoc, ← hsplit,
        List.take_append_drop]
    · rw [Lexed.cons, lexemes_cons, String.toList_ofList, hfailure]
      simp only [Mark.advance_append]

private theorem lex_belongs {source : List Char} {before after : List Token} {t : Token}
    (h : (lex source).tokens = before ++ t :: after) :
    ∃ rest, source = lexemes before ++ rest ∧ t.Belongs (lexemes before) rest := by
  obtain ⟨rest, n, hsplit, hne, hfirst, htext, hmark⟩ := lexFrom_token h
  obtain ⟨s, hwins, rfl, hterminal⟩ := wins_of_firstMatch hfirst
  have hlexeme : t.text.toList = rest.take (s.matchLength rest) := by
    rw [htext, String.toList_ofList]
  rw [← hlexeme] at hterminal
  refine ⟨rest, hsplit, ?_, ?_, s, hwins, hlexeme, ?_, ?_⟩
  · intro hempty
    rw [hempty] at hlexeme
    have hpos := hwins.1
    rcases List.take_eq_nil_iff.mp hlexeme.symm with hzero | hnil
    · omega
    · exact hne hnil
  · rw [hmark, Mark.advance_start]
  · intro k
    rw [hterminal]
    exact Terminal.refine_eq_keyword_iff hwins
  · intro hnot
    rw [hterminal] at hnot ⊢
    exact Terminal.refine_of_not_keyword hnot

/-- What lexing owes to a source. -/
structure Lexed.Tokenizes (l : Lexed) (source : List Char) : Prop where
  /-- Every token belongs to the place after the tokens before it. -/
  token : ∀ before t after, l.tokens = before ++ t :: after →
    ∃ rest, source = lexemes before ++ rest ∧ t.Belongs (lexemes before) rest
  /-- The tokens go on to the end of the source, or to a character at which no terminal takes
  anything. -/
  ending : (l.failure = none ∧ source = lexemes l.tokens) ∨
    ∃ c rest, l.failure = some (c, Mark.after (lexemes l.tokens)) ∧
      source = lexemes l.tokens ++ c :: rest ∧ ∀ s : Terminal, s.matchLength (c :: rest) = 0

private theorem lex_tokenizes (source : List Char) : (lex source).Tokenizes source := by
  constructor
  · intro before t after h
    exact lex_belongs h
  · obtain ⟨rest, hsplit, hstops, hfailure⟩ := lexFrom_stops .start source
    cases rest with
    | nil =>
      rw [List.append_nil] at hsplit
      exact .inl ⟨hfailure, hsplit⟩
    | cons c rest =>
      rw [Mark.advance_start] at hfailure
      exact .inr ⟨c, rest, hfailure, hsplit,
        firstMatch_eq_none_iff.mp (hstops (List.cons_ne_nil c rest))⟩

namespace Lexed.Tokenizes

variable {source : List Char} {l l' : Lexed}

/-- After the last token there is no place for another one. -/
theorem not_belongs (h : l.Tokenizes source) {rest : List Char} {t : Token}
    (hsplit : source = lexemes l.tokens ++ rest) : ¬ t.Belongs (lexemes l.tokens) rest := by
  intro hbelongs
  obtain ⟨s, hwins, htext, -⟩ := hbelongs.matched
  rcases h.ending with ⟨-, hend⟩ | ⟨c, rest', -, hend, hzero⟩
  · have hnil : rest = [] := by
      rw [hsplit] at hend
      exact List.append_right_eq_self.mp hend
    rw [hnil, List.take_nil, String.toList_eq_nil_iff] at htext
    exact hbelongs.text_ne htext
  · have hrest : rest = c :: rest' := List.append_cancel_left (hsplit.symm.trans hend)
    have hpos := hwins.1
    rw [hrest, hzero s] at hpos
    omega

theorem rest_unique (h : l.Tokenizes source) (h' : l'.Tokenizes source) (before : List Token)
    {ts ts' : List Token} (hl : l.tokens = before ++ ts) (hl' : l'.tokens = before ++ ts') :
    ts = ts' := by
  -- Both go on with the same token, or with none.
  induction ts generalizing before ts' with
  | nil =>
    cases ts' with
    | nil => rfl
    | cons t' ts' =>
      obtain ⟨rest, hsplit, hbelongs⟩ := h'.token _ _ _ hl'
      rw [List.append_nil] at hl
      rw [← hl] at hsplit hbelongs
      exact absurd hbelongs (h.not_belongs hsplit)
  | cons t ts ih =>
    obtain ⟨rest, hsplit, hbelongs⟩ := h.token _ _ _ hl
    cases ts' with
    | nil =>
      rw [List.append_nil] at hl'
      rw [← hl'] at hsplit hbelongs
      exact absurd hbelongs (h'.not_belongs hsplit)
    | cons t' ts' =>
      obtain ⟨rest', hsplit', hbelongs'⟩ := h'.token _ _ _ hl'
      have hrest : rest = rest' := List.append_cancel_left (hsplit.symm.trans hsplit')
      rw [← hrest] at hbelongs'
      have ht := hbelongs.unique hbelongs'
      rw [← ht] at hl' ⊢
      rw [ih (before ++ [t]) (by simpa using hl) (by simpa using hl')]

theorem unique (h : l.Tokenizes source) (h' : l'.Tokenizes source) : l = l' := by
  have htokens : l.tokens = l'.tokens := h.rest_unique h' [] rfl rfl
  have hfailure : l.failure = l'.failure := by
    have hend := h'.ending
    rw [← htokens] at hend
    rcases h.ending with ⟨hnone, hsource⟩ | ⟨c, rest, hsome, hsource, -⟩
    · rcases hend with ⟨hnone', -⟩ | ⟨c', rest', -, hsource', -⟩
      · rw [hnone, hnone']
      · rw [hsource'] at hsource
        simp at hsource
    · rcases hend with ⟨-, hsource'⟩ | ⟨c', rest', hsome', hsource', -⟩
      · rw [hsource] at hsource'
        simp at hsource'
      · have hrest := List.append_cancel_left (hsource.symm.trans hsource')
        rw [hsome, hsome', (List.cons.inj hrest).1]
  cases l
  cases l'
  simp_all

end Lexed.Tokenizes

/-- Lexing ends for every source, and what it gives is the one result that loses nothing of the
source and in which every token has the text, the terminal and the place that it must have. -/
theorem lex_eq_iff (source : List Char) (l : Lexed) : lex source = l ↔ l.Tokenizes source := by
  constructor
  · intro h
    subst h
    exact lex_tokenizes source
  · intro h
    exact (lex_tokenizes source).unique h

end PhpTypes.Source
