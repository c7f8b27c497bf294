import PhpTypes.Proofs.TypeLexemes
import PhpTypes.Text.Blank

/-!
# Spacing of type expressions

Where one token of a type expression ends: no character goes on with a token but those of names and
digits. White space at the ends of a text changes none of its tokens.
-/

namespace PhpTypes.Doc

/-! The end of a token. -/

/-- The characters that can make a token longer. -/
def extendsToken (c : Char) : Bool := goesOnPart c || c == '\\' || Text.isDigit c

theorem goesOnPart_of_startsPart {c : Char} (h : startsPart c = true) : goesOnPart c = true := by
  have hascii : c.toNat < 128 := (startsPart_range h).2
  rw [startsPart, Bool.or_eq_true] at h
  rw [goesOnPart, Text.isWord, if_pos hascii, Char.isAlphanum]
  rcases h with h | h <;> simp [h]

theorem NamePart.extends {part : List Char} (h : NamePart part) :
    ∀ c ∈ part, extendsToken c = true := by
  obtain ⟨hc, hcs⟩ := h
  rw [List.forall_mem_cons]
  constructor
  · simp [extendsToken, goesOnPart_of_startsPart hc]
  · intro d hd
    simp [extendsToken, hcs d hd]

theorem NamePath.extends {path : List Char} (h : NamePath path) :
    ∀ c ∈ path, extendsToken c = true := by
  induction h with
  | last hpart => exact hpart.extends
  | cons hpart _ ih =>
    intro c hc
    rcases List.mem_append.mp hc with hc | hc
    · exact hpart.extends c hc
    · rcases List.mem_cons.mp hc with rfl | hc
      · decide
      · exact ih c hc

/-- After its first character a token that is no quoted text holds only characters that make it
longer. -/
theorem Lexeme.tail {t : TypeToken} {w : List Char} (h : Lexeme t w) (ht : t.kind ≠ .string) :
    ∀ c ∈ w.tail, extendsToken c = true := by
  cases hkind : t.kind with
  | name =>
    obtain ⟨⟨hfront, hpath⟩, -⟩ := h.nameText hkind
    have hextends := hpath.extends
    simp only [nameFronts, List.mem_cons, List.not_mem_nil, or_false] at hfront
    intro c hc
    rcases hfront with rfl | rfl | rfl | rfl
    · exact hextends c (List.mem_of_mem_tail hc)
    · exact hextends c hc
    · exact hextends c hc
    · rcases List.mem_cons.mp hc with rfl | hc
      · decide
      · exact hextends c hc
  | int =>
    obtain ⟨⟨minus, ds, rfl, hminus, -, hds⟩, -⟩ := h.intText hkind
    have hextends : ∀ c ∈ ds, extendsToken c = true := by
      intro c hc
      simp [extendsToken, hds c hc]
    simp only [List.mem_cons, List.not_mem_nil, or_false] at hminus
    intro c hc
    rcases hminus with rfl | rfl
    · exact hextends c (List.mem_of_mem_tail hc)
    · exact hextends c hc
  | string => exact (ht hkind).elim
  | punctuation =>
    obtain ⟨_, rfl, -⟩ := h.single hkind
    simp

/-- A quoted text ends at its second quote. -/
theorem Lexeme.quoted_append {t u : TypeToken} {w v : List Char} (ht : t.kind = .string)
    (h : Lexeme t w) (hu : Lexeme u (w ++ v)) : v = [] := by
  obtain ⟨quote, body, -, hbody, rfl, -⟩ := h.quoted ht
  have hkind : u.kind = .string := (Lexeme.kind_eq h hu).symm.trans ht
  obtain ⟨quote', body', -, hbody', htext, -⟩ := hu.quoted hkind
  obtain ⟨rfl, htext⟩ := List.cons.inj htext
  by_contra hv
  -- The quote that ends the shorter text would stand inside the longer one.
  obtain ⟨v, d, rfl⟩ := (List.eq_nil_or_concat v).resolve_left hv
  have hbodies : (body ++ quote :: v) ++ [d] = body' ++ [quote] := by
    simpa using htext
  have hinside : body ++ quote :: v = body' := List.append_inj_left' hbodies rfl
  exact hbody' (hinside ▸ by simp)

/-- Nothing follows that makes a token longer. -/
def Delimited (rest : List Char) : Prop := ∀ c ∈ rest.head?, extendsToken c = false

theorem Lexeme.longest {t : TypeToken} {w rest : List Char} (h : Lexeme t w)
    (hrest : Delimited rest) : Longest t w rest := by
  constructor
  · exact h
  · intro u v huv hne t' ht'
    by_cases hstring : t.kind = .string
    · exact hne (h.quoted_append hstring ht')
    · obtain ⟨c, u, rfl⟩ := List.exists_cons_of_ne_nil hne
      obtain ⟨a, w, rfl, -⟩ := h.head
      have hkind : t'.kind ≠ .string := fun hk => hstring ((h.kind_eq ht').trans hk)
      have hextends : extendsToken c = true := ht'.tail hkind c (by simp)
      rw [hrest c (by simp [huv])] at hextends
      cases hextends

/-! White space at the ends. -/

theorem trimStart_blank {c : Char} (h : Text.isBlank c = true) (cs : List Char) :
    Text.trimStart (c :: cs) = Text.trimStart cs :=
  List.dropWhile_cons_of_pos h

theorem trimStart_of_head {cs : List Char} (h : ∀ c ∈ cs.head?, Text.isBlank c = false) :
    Text.trimStart cs = cs := by
  cases cs with
  | nil => rfl
  | cons c cs => exact List.dropWhile_cons_of_neg (by simp [h c rfl])

theorem trimEnd_of_last {cs : List Char} (h : ∀ c ∈ cs.getLast?, Text.isBlank c = false) :
    Text.trimEnd cs = cs := by
  have hreverse : Text.trimStart cs.reverse = cs.reverse :=
    trimStart_of_head (by rwa [List.head?_reverse])
  rw [Text.trimStart] at hreverse
  rw [Text.trimEnd, hreverse, List.reverse_reverse]

theorem trimEnd_prefix (cs : List Char) : Text.trimEnd cs <+: cs := by
  have hsuffix : List.dropWhile Text.isBlank cs.reverse <:+ cs.reverse := List.dropWhile_suffix _
  rwa [← List.reverse_prefix, List.reverse_reverse] at hsuffix

/-- The code points of white space. -/
def blankCodes : List Nat := Text.blankRanges.flatMap fun r => List.range' r.1 (r.2 + 1 - r.1)

theorem mem_blankCodes {c : Char} (h : Text.isBlank c = true) : c.toNat ∈ blankCodes := by
  obtain ⟨r, hr, hlow, hhigh⟩ := (Text.inRanges_iff _ _).mp h
  apply List.mem_flatMap.mpr ⟨r, hr, _⟩
  rw [List.mem_range'_1]
  omega

/-- The characters that can start or end a token. -/
def edgesToken (c : Char) : Bool :=
  extendsToken c || c == '$' || c == '"' || c == Text.apostrophe || (punctuation? c).isSome

private theorem edgesToken_of_blankCodes : ∀ n ∈ blankCodes, edgesToken (Char.ofNat n) = false := by
  decide +kernel

theorem not_blank_of_edgesToken {c : Char} (h : edgesToken c = true) : Text.isBlank c = false := by
  by_contra hblank
  have hmem := mem_blankCodes (Bool.of_not_eq_false hblank)
  have hedge := edgesToken_of_blankCodes c.toNat hmem
  rw [Char.ofNat_toNat, h] at hedge
  cases hedge

private theorem kindOf_edgesToken {c : Char} (h : kindOf c ≠ .punctuation) :
    edgesToken c = true := by
  by_contra hedge
  simp only [edgesToken, extendsToken, Bool.or_eq_true, not_or, Bool.not_eq_true,
    beq_eq_false_iff_ne]
    at hedge
  obtain ⟨⟨⟨⟨⟨⟨hpart, hseparator⟩, hdigit⟩, hdollar⟩, hquote⟩, hapostrophe⟩, -⟩ := hedge
  have hstart : startsPart c = false := by
    by_contra hstart
    rw [goesOnPart_of_startsPart (Bool.of_not_eq_false hstart)] at hpart
    cases hpart
  have hminus : c ≠ '-' := by
    intro hminus
    simp [goesOnPart, hminus] at hpart
  simp [kindOf, hstart, hdollar, hseparator, hdigit, hminus, hquote, hapostrophe] at h

theorem Lexeme.head_edgesToken {t : TypeToken} {c : Char} {cs : List Char}
    (h : Lexeme t (c :: cs)) : edgesToken c = true := by
  obtain ⟨_, _, ⟨⟩, hkind⟩ := h.head
  by_cases hpunctuation : kindOf c = .punctuation
  · obtain ⟨d, hd, hd'⟩ := h.single (hkind.symm.trans hpunctuation)
    cases hd
    simp [edgesToken, hd']
  · exact kindOf_edgesToken hpunctuation

private theorem Lexeme.last_edgesToken {t : TypeToken} {cs : List Char} {c : Char}
    (h : Lexeme t (cs ++ [c])) : edgesToken c = true := by
  by_cases hstring : t.kind = .string
  · obtain ⟨quote, body, hquote, -, htext, -⟩ := h.quoted hstring
    have hlast : c = quote := by
      have := List.append_inj_right' (htext.trans (List.cons_append ..).symm) rfl
      exact List.head_eq_of_cons_eq this
    simp only [List.mem_cons, List.not_mem_nil, or_false] at hquote
    rcases hquote with rfl | rfl <;> rw [hlast] <;> decide
  · cases cs with
    | nil => exact h.head_edgesToken
    | cons d cs =>
      have hextends : extendsToken c = true := h.tail hstring c (by simp)
      simp [edgesToken, hextends]

theorem blank_of_isGap {c : Char} (h : isGap c = true) : Text.isBlank c = true := by
  have hcodes : ∀ n ∈ [0x20, 0x09, 0x0c, 0x0d, 0x0a], Text.isBlank (Char.ofNat n) = true := by
    decide
  have hblank := hcodes c.toNat (List.contains_iff_mem.mp h)
  rwa [Char.ofNat_toNat] at hblank

theorem Spells.trimStart {cs : List Char} {ts : List TypeToken} (h : Spells cs ts) :
    Spells (Text.trimStart cs) ts := by
  induction h with
  | nil => exact .nil
  | gap hgap _ ih => rwa [trimStart_blank (blank_of_isGap hgap)]
  | @token t w rest ts hlongest hrest _ =>
    obtain ⟨c, w, rfl, -⟩ := hlongest.lexeme.head
    have hblank : Text.isBlank c = false := not_blank_of_edgesToken hlongest.lexeme.head_edgesToken
    rw [trimStart_of_head (by simpa using hblank)]
    exact .token hlongest hrest

theorem trimEnd_append (cs ds : List Char) :
    Text.trimEnd (cs ++ ds) =
      if Text.trimEnd ds = [] then Text.trimEnd cs else cs ++ Text.trimEnd ds := by
  simp only [Text.trimEnd, List.reverse_append, List.dropWhile_append, List.reverse_eq_nil_iff]
  by_cases h : List.dropWhile Text.isBlank ds.reverse = []
  · simp [h]
  · simp [h]

/-- A token does not end in white space. -/
theorem Lexeme.trimEnd {t : TypeToken} {w : List Char} (h : Lexeme t w) : Text.trimEnd w = w := by
  apply trimEnd_of_last
  intro c hc
  obtain ⟨v, rfl⟩ := List.getLast?_eq_some_iff.mp hc
  exact not_blank_of_edgesToken h.last_edgesToken

theorem Longest.trimEnd {t : TypeToken} {w rest : List Char} (h : Longest t w rest) :
    Longest t w (Text.trimEnd rest) := by
  constructor
  · exact h.lexeme
  · intro u v huv
    obtain ⟨tail, htail⟩ := trimEnd_prefix rest
    apply h.stops u (v ++ tail)
    rw [← htail, huv, List.append_assoc]

theorem Spells.trimEnd {cs : List Char} {ts : List TypeToken} (h : Spells cs ts) :
    Spells (Text.trimEnd cs) ts := by
  induction h with
  | nil => exact .nil
  | @gap c cs ts hgap _ ih =>
    rw [← List.singleton_append, trimEnd_append]
    split
    · rename_i hempty
      rw [hempty] at ih
      have hgone : Text.trimEnd [c] = [] := by
        simp [Text.trimEnd, blank_of_isGap hgap]
      rwa [hgone]
    · exact .gap hgap ih
  | @token t w rest ts hlongest _ ih =>
    have hkept : Text.trimEnd (w ++ rest) = w ++ Text.trimEnd rest := by
      rw [trimEnd_append, hlongest.lexeme.trimEnd]
      split
      · rename_i hempty
        rw [hempty, List.append_nil]
      · rfl
    rw [hkept]
    exact .token hlongest.trimEnd ih

/-- A text spells the same tokens without the white space at its ends. -/
theorem Spells.trim {cs : List Char} {ts : List TypeToken} (h : Spells cs ts) :
    Spells (Text.trim cs) ts :=
  h.trimStart.trimEnd

end PhpTypes.Doc
