import PhpTypes.Proofs.TypeEnds
import PhpTypes.Proofs.TypeReadings

/-!
# Brackets and operators of type expressions

A type expression closes each bracket that it opens, and it neither starts nor ends with an
operator. Both hold of the tokens of every derivation, and of every text without quotes that spells
these tokens.
-/

namespace PhpTypes.Doc

/-! Balanced lists. -/

/-- No start of the list closes more than it opens, and the whole list closes all that it opens. -/
structure Balanced {α : Type} (step : α → Int) (as : List α) : Prop where
  closed : nesting step as = 0
  starts : ∀ us, us <+: as → 0 ≤ nesting step us

namespace Balanced

variable {α : Type} {step : α → Int} {as bs : List α}

theorem append (ha : Balanced step as) (hb : Balanced step bs) : Balanced step (as ++ bs) := by
  constructor
  · rw [nesting_append, ha.closed, hb.closed]
    rfl
  · intro us hus
    rcases List.prefix_or_prefix_of_prefix hus (List.prefix_append as bs) with hstart | hstart
    · exact ha.starts us hstart
    · obtain ⟨vs, rfl⟩ := hstart
      have hvs := hb.starts vs ((List.prefix_append_right_inj as).mp hus)
      rw [nesting_append, ha.closed]
      omega

theorem of_flat (h : ∀ a ∈ as, step a = 0) : Balanced step as := by
  have hflat : ∀ us : List α, (∀ a ∈ us, step a = 0) → nesting step us = 0 := by
    intro us hus
    induction us with
    | nil => rfl
    | cons a us ih =>
      rw [List.forall_mem_cons] at hus
      rw [nesting, hus.1, ih hus.2]
      rfl
  constructor
  · exact hflat as h
  · intro us hus
    exact Int.le_of_eq (hflat us fun a ha => h a (hus.subset ha)).symm

theorem bracketed {left right : α} (h : Balanced step as) (hleft : step left = 1)
    (hright : step right = -1) : Balanced step (left :: (as ++ [right])) := by
  constructor
  · rw [nesting, nesting_append, h.closed, hleft, nesting, nesting, hright]
    rfl
  · intro us hus
    rcases List.prefix_cons_iff.mp hus with rfl | ⟨vs, rfl, hvs⟩
    · exact Int.le_refl 0
    · rw [nesting, hleft]
      rcases List.prefix_concat_iff.mp hvs with rfl | hinside
      · rw [nesting_append, h.closed, nesting, nesting, hright]
        decide
      · have hrises := h.starts vs hinside
        omega

end Balanced

/-! Brackets of derivations. -/

def TypeToken.bracketStep : TypeToken → Int
  | .lt | .lbrace | .lpar => 1
  | .gt | .rbrace | .rpar => -1
  | _ => 0

/-- The separators of a symbol are no brackets. -/
def Nonterminal.Flat : Nonterminal → Prop
  | .others separator part => separator.bracketStep = 0 ∧ part.Flat
  | _ => True

private theorem balanced_ifAny {t : TypeToken} (h : t.bracketStep = 0) (present : Bool) :
    Balanced TypeToken.bracketStep (t.ifAny present) := by
  apply Balanced.of_flat
  cases present with
  | false => simp [TypeToken.ifAny]
  | true => simpa [TypeToken.ifAny] using h

theorem Derivation.balanced {c : Nonterminal} (d : Derivation c) (hc : c.Flat) :
    Balanced TypeToken.bracketStep d.tokens := by
  have hplain (t : TypeToken) (ht : t.bracketStep = 0) : Balanced TypeToken.bracketStep [t] :=
    .of_flat (by simpa using ht)
  induction d with
  | union first more ihfirst ihmore =>
    exact (ihfirst trivial).append (ihmore ⟨rfl, trivial⟩)
  | intersection first more ihfirst ihmore =>
    exact (ihfirst trivial).append (ihmore ⟨rfl, trivial⟩)
  | primary t ih => exact ih trivial
  | listOf t ih => exact (ih trivial).append ((hplain .lsqb rfl).append (hplain .rsqb rfl))
  | atom t ih => exact ih trivial
  | nullable t ih => exact (hplain .qmark rfl).append (ih trivial)
  | named name => exact hplain (.name name) rfl
  | generic name first more ihfirst ihmore =>
    have hinside := (ihfirst trivial).append (ihmore ⟨rfl, trivial⟩)
    exact (hplain (.name name) rfl).append (hinside.bracketed rfl rfl)
  | emptyShape name =>
    have hinside : Balanced TypeToken.bracketStep [] := .of_flat (by simp)
    exact (hplain (.name name) rfl).append (hinside.bracketed rfl rfl)
  | shape name body ih =>
    exact (hplain (.name name) rfl).append ((ih trivial).bracketed rfl rfl)
  | parens t ih => exact (ih trivial).bracketed rfl rfl
  | items first more trailing ihfirst ihmore =>
    have hitems := (ihfirst trivial).append (ihmore ⟨rfl, trivial⟩)
    exact hitems.append (balanced_ifAny (t := .comma) rfl trailing)
  | keyed key isOptional t ihkey iht =>
    have hkey := (ihkey trivial).append (balanced_ifAny (t := .qmark) rfl isOptional)
    exact hkey.append ((hplain .colon rfl).append (iht trivial))
  | value t ih => exact ih trivial
  | nameKey name => exact hplain (.name name) rfl
  | intKey n => exact hplain (.int n) rfl
  | stringKey text => exact hplain (.string text) rfl
  | noOther => exact .of_flat (by simp [tokens])
  | @other separator part next more ihnext ihmore =>
    exact (hplain separator hc.1).append ((ihnext hc.2).append (ihmore hc))

/-! Operators at the ends of derivations. -/

def TypeToken.isOperator : TypeToken → Bool
  | .bar | .amp => true
  | _ => false

def StartsPlain (ts : List TypeToken) : Prop := ∃ t rest, ts = t :: rest ∧ t.isOperator = false

def EndsPlain (ts : List TypeToken) : Prop := ∃ front t, ts = front ++ [t] ∧ t.isOperator = false

theorem StartsPlain.append {ts : List TypeToken} (h : StartsPlain ts) (us : List TypeToken) :
    StartsPlain (ts ++ us) := by
  obtain ⟨t, rest, rfl, ht⟩ := h
  exact ⟨t, rest ++ us, rfl, ht⟩

theorem EndsPlain.prepend {ts : List TypeToken} (h : EndsPlain ts) (us : List TypeToken) :
    EndsPlain (us ++ ts) := by
  obtain ⟨front, t, rfl, ht⟩ := h
  exact ⟨us ++ front, t, (List.append_assoc us front [t]).symm, ht⟩

/-- What the tokens of a symbol have at their ends, for the symbols that stand for types. -/
def Nonterminal.Edged : Nonterminal → List TypeToken → Prop
  | .union, ts | .intersection, ts | .listed, ts | .primary, ts | .atom, ts =>
    StartsPlain ts ∧ EndsPlain ts
  | .others _ .intersection, ts | .others _ .listed, ts => ts = [] ∨ EndsPlain ts
  | _, _ => True

private theorem endsPlain_append {ts us : List TypeToken} (hts : EndsPlain ts)
    (hus : us = [] ∨ EndsPlain us) : EndsPlain (ts ++ us) := by
  rcases hus with rfl | hus
  · rwa [List.append_nil]
  · exact hus.prepend ts

theorem Derivation.edged {c : Nonterminal} (d : Derivation c) : c.Edged d.tokens := by
  induction d with
  | union first more ihfirst ihmore =>
    exact ⟨ihfirst.1.append more.tokens, endsPlain_append ihfirst.2 ihmore⟩
  | intersection first more ihfirst ihmore =>
    exact ⟨ihfirst.1.append more.tokens, endsPlain_append ihfirst.2 ihmore⟩
  | primary t ih => exact ih
  | listOf t ih => exact ⟨ih.1.append _, t.tokens ++ [.lsqb], .rsqb, by simp [tokens], rfl⟩
  | atom t ih => exact ih
  | nullable t ih => exact ⟨⟨.qmark, t.tokens, rfl, rfl⟩, ih.2.prepend [.qmark]⟩
  | named name => exact ⟨⟨.name name, [], rfl, rfl⟩, [], .name name, rfl, rfl⟩
  | generic name first more _ _ =>
    exact ⟨⟨.name name, _, rfl, rfl⟩,
      .name name :: .lt :: (first.tokens ++ more.tokens), .gt, rfl, rfl⟩
  | emptyShape name => exact ⟨⟨.name name, _, rfl, rfl⟩, [.name name, .lbrace], .rbrace, rfl, rfl⟩
  | shape name body _ =>
    exact ⟨⟨.name name, _, rfl, rfl⟩, .name name :: .lbrace :: body.tokens, .rbrace, rfl, rfl⟩
  | parens t _ => exact ⟨⟨.lpar, _, rfl, rfl⟩, .lpar :: t.tokens, .rpar, rfl, rfl⟩
  | @noOther separator part =>
    cases part with
    | intersection | listed => exact .inl rfl
    | _ => trivial
  | @other separator part next more ihnext ihmore =>
    cases part with
    | intersection | listed => exact .inr ((endsPlain_append ihnext.2 ihmore).prepend [separator])
    | _ => trivial
  | _ => trivial

/-! Marks in texts. -/

private theorem mark_apart {c : Char} {t : TypeToken} (h : punctuation? c = some t) :
    extendsToken c = false ∧ kindOf c = .punctuation ∧ bracketStep c = t.bracketStep ∧
      joins (some c) = t.isOperator := by
  unfold punctuation? at h
  split at h <;> cases h <;> decide

/-- A mark inside a token is all of it, outside of quoted texts. -/
theorem Lexeme.eq_mark {t m : TypeToken} {w : List Char} {c : Char} (h : Lexeme t w)
    (ht : t.kind ≠ .string) (hc : c ∈ w) (hm : punctuation? c = some m) : t = m := by
  obtain ⟨hextends, hkind, -⟩ := mark_apart hm
  obtain ⟨d, w, rfl, hd⟩ := h.head
  rcases List.mem_cons.mp hc with rfl | hc
  · obtain ⟨e, he, hmark⟩ := h.single (hd.symm.trans hkind)
    cases he
    exact Option.some.inj (hmark.symm.trans hm)
  · rw [h.tail ht c hc] at hextends
    cases hextends

theorem mark_of_bracketStep {c : Char} (h : bracketStep c ≠ 0) : ∃ t, punctuation? c = some t := by
  have hbracket : c ∈ ['<', '\x7b', '(', '>', '\x7d', ')'] := by
    by_contra hne
    simp only [List.mem_cons, List.not_mem_nil, or_false, not_or] at hne
    apply h
    simp [bracketStep, opens, closes, hne]
  simp only [List.mem_cons, List.not_mem_nil, or_false] at hbracket
  rcases hbracket with rfl | rfl | rfl | rfl | rfl | rfl <;> exact ⟨_, rfl⟩

private theorem Lexeme.bracketStep_eq_zero {t : TypeToken} {w : List Char} (h : Lexeme t w)
    (ht : t.kind ≠ .string) (hmark : t.kind ≠ .punctuation) : ∀ c ∈ w, bracketStep c = 0 := by
  intro c hc
  by_contra hstep
  obtain ⟨m, hm⟩ := mark_of_bracketStep hstep
  rw [h.eq_mark ht hc hm] at hmark
  exact hmark (punctuation?_kind hm)

/-- A start of a token leads as deep as none or all of it. -/
theorem Lexeme.nesting_start {t : TypeToken} {w u : List Char} (h : Lexeme t w)
    (ht : t.kind ≠ .string) (hu : u <+: w) :
    ∃ us, us <+: [t] ∧ nesting bracketStep u = nesting TypeToken.bracketStep us := by
  by_cases hmark : t.kind = .punctuation
  · obtain ⟨c, rfl, hc⟩ := h.single hmark
    rcases List.prefix_cons_iff.mp hu with rfl | ⟨v, rfl, hv⟩
    · exact ⟨[], List.nil_prefix, rfl⟩
    · rw [List.prefix_nil.mp hv]
      exact ⟨[t], List.prefix_refl [t], by simp [nesting, (mark_apart hc).2.2.1]⟩
  · have hflat : ∀ c ∈ u, bracketStep c = 0 :=
      fun c hc => h.bracketStep_eq_zero ht hmark c (hu.subset hc)
    exact ⟨[], List.nil_prefix, (Balanced.of_flat hflat).closed⟩

private theorem Lexeme.nesting_eq {t : TypeToken} {w : List Char} (h : Lexeme t w)
    (ht : t.kind ≠ .string) : nesting bracketStep w = t.bracketStep := by
  by_cases hmark : t.kind = .punctuation
  · obtain ⟨c, rfl, hc⟩ := h.single hmark
    simp [nesting, (mark_apart hc).2.2.1]
  · have hstep : t.bracketStep = 0 := by
      cases t with
      | name | int | string => rfl
      | _ => exact (hmark rfl).elim
    rw [hstep, (Balanced.of_flat (h.bracketStep_eq_zero ht hmark)).closed]

private theorem Lexeme.joins_isOperator {t : TypeToken} {w : List Char} {c : Char} (h : Lexeme t w)
    (ht : t.kind ≠ .string) (hc : c ∈ w) (hjoins : joins (some c) = true) :
    t.isOperator = true := by
  obtain ⟨m, hm⟩ : ∃ m, punctuation? c = some m := by
    simp only [joins, Bool.or_eq_true, beq_iff_eq, Option.some.injEq] at hjoins
    rcases hjoins with rfl | rfl
    · exact ⟨.bar, rfl⟩
    · exact ⟨.amp, rfl⟩
  rw [h.eq_mark ht hc hm, ← (mark_apart hm).2.2.2, hjoins]

/-! Texts without quotes. -/

theorem Spells.kind_ne_string {cs : List Char} {ts : List TypeToken} (h : Spells cs ts)
    (hquotes : ∀ quote ∈ ['"', Text.apostrophe], quote ∉ cs) : ∀ t ∈ ts, t.kind ≠ .string := by
  induction h with
  | nil => simp
  | gap _ _ ih =>
    exact ih fun quote hquote hmem => hquotes quote hquote (List.mem_cons_of_mem _ hmem)
  | @token t w rest ts hlongest _ ih =>
    rw [List.forall_mem_cons]
    constructor
    · intro hkind
      obtain ⟨quote, body, hquote, -, rfl, -⟩ := hlongest.lexeme.quoted hkind
      exact hquotes quote hquote (by simp)
    · exact ih fun quote hquote hmem => hquotes quote hquote (List.mem_append_right w hmem)

section

variable {cs : List Char} {ts : List TypeToken} (h : Spells cs ts)
  (hts : ∀ t ∈ ts, t.kind ≠ .string)

include h hts

private theorem Spells.nesting_eq : nesting bracketStep cs = nesting TypeToken.bracketStep ts := by
  induction h with
  | nil => rfl
  | gap hgap _ ih =>
    rw [nesting, bracketStep_of_blank (blank_of_isGap hgap), ih hts, Int.zero_add]
  | token hlongest _ ih =>
    rw [List.forall_mem_cons] at hts
    rw [nesting_append, nesting, hlongest.lexeme.nesting_eq hts.1, ih hts.2]

private theorem Spells.nesting_start {u : List Char} (hu : u <+: cs) :
    ∃ us, us <+: ts ∧ nesting bracketStep u = nesting TypeToken.bracketStep us := by
  induction h generalizing u with
  | nil =>
    rw [List.prefix_nil.mp hu]
    exact ⟨[], List.nil_prefix, rfl⟩
  | gap hgap _ ih =>
    rcases List.prefix_cons_iff.mp hu with rfl | ⟨v, rfl, hv⟩
    · exact ⟨[], List.nil_prefix, rfl⟩
    · rw [nesting, bracketStep_of_blank (blank_of_isGap hgap), Int.zero_add]
      exact ih hts hv
  | @token t w rest ts hlongest _ ih =>
    rw [List.forall_mem_cons] at hts
    rcases List.prefix_or_prefix_of_prefix hu (List.prefix_append w rest) with hstart | hstart
    · obtain ⟨us, hus, hnesting⟩ := hlongest.lexeme.nesting_start hts.1 hstart
      exact ⟨us, hus.trans (List.prefix_append [t] ts), hnesting⟩
    · obtain ⟨v, rfl⟩ := hstart
      obtain ⟨us, hus, hnesting⟩ := ih hts.2 ((List.prefix_append_right_inj w).mp hu)
      apply Exists.intro (t :: us)
      rw [nesting_append, nesting, hlongest.lexeme.nesting_eq hts.1, hnesting]
      exact ⟨(List.prefix_cons_inj t).mpr hus, rfl⟩

theorem Spells.balanced (hbalanced : Balanced TypeToken.bracketStep ts) :
    Balanced bracketStep cs := by
  constructor
  · rw [h.nesting_eq hts, hbalanced.closed]
  · intro u hu
    obtain ⟨us, hus, hnesting⟩ := h.nesting_start hts hu
    rw [hnesting]
    exact hbalanced.starts us hus

theorem Spells.first_operator (hjoins : joins (Text.trimStart cs).head? = true) :
    ∃ t ∈ ts.head?, t.isOperator = true := by
  induction h with
  | nil => cases hjoins
  | gap hgap _ ih => exact ih hts (by rwa [trimStart_blank (blank_of_isGap hgap)] at hjoins)
  | @token t w rest ts hlongest _ _ =>
    obtain ⟨c, w, rfl, -⟩ := hlongest.lexeme.head
    have hblank : Text.isBlank c = false := not_blank_of_edgesToken hlongest.lexeme.head_edgesToken
    rw [List.cons_append, trimStart_of_head (by simpa using hblank)] at hjoins
    have ht : t.kind ≠ .string := hts t List.mem_cons_self
    exact ⟨t, rfl, hlongest.lexeme.joins_isOperator ht List.mem_cons_self hjoins⟩

theorem Spells.last_operator (hjoins : joins (Text.trimEnd cs).getLast? = true) :
    ∃ t ∈ ts.getLast?, t.isOperator = true := by
  induction h with
  | nil => cases hjoins
  | @gap c cs ts hgap _ ih =>
    have hgone : Text.trimEnd [c] = [] := by
      simp [Text.trimEnd, blank_of_isGap hgap]
    rw [← List.singleton_append, getLast?_trimEnd_append, hgone, List.getLast?_nil,
      Option.or_none] at hjoins
    exact ih hts hjoins
  | @token t w rest ts hlongest hrest ih =>
    rw [List.forall_mem_cons] at hts
    rw [getLast?_trimEnd_append, hlongest.lexeme.trimEnd] at hjoins
    cases hlast : (Text.trimEnd rest).getLast? with
    | some d =>
      rw [hlast] at hjoins ih
      obtain ⟨u, hu, hoperator⟩ := ih hts.2 hjoins
      apply Exists.intro u
      rw [List.getLast?_cons, Option.mem_def.mp hu]
      exact ⟨rfl, hoperator⟩
    | none =>
      -- Nothing but white space follows, so this token is the last one.
      have hnone : ts = [] := by
        have hempty := hrest.trimEnd
        rw [List.getLast?_eq_none_iff.mp hlast, ← typeTokens_eq_some_iff] at hempty
        exact (Option.some.inj hempty).symm
      rw [hlast, Option.none_or] at hjoins
      obtain ⟨c, hc⟩ : ∃ c, w.getLast? = some c := by
        cases hw : w.getLast? with
        | none =>
          rw [hw] at hjoins
          cases hjoins
        | some c => exact ⟨c, rfl⟩
      rw [hc] at hjoins
      rw [hnone]
      exact ⟨t, rfl, hlongest.lexeme.joins_isOperator hts.1 (List.mem_of_getLast? hc) hjoins⟩

end

end PhpTypes.Doc
