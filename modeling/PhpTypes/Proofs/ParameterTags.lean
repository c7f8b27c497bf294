import PhpTypes.Proofs.TagTexts
import PhpTypes.Proofs.TypeBrackets

/-!
# Tags of parameters

A parameter tag with a type expression, a variable and a description is split into these three, if
white space outside the brackets of the type stands only next to its operators. A mark for a
reference breaks this: it is taken for an operator, so the variable becomes a part of the type.
-/

namespace PhpTypes.Doc

/-! Types in a line. -/

/-- Outside of brackets, white space stands only next to operators. -/
def Spaced (cs : List Char) : Prop :=
  ∀ u c v, cs = u ++ c :: v → Text.isBlank c = true → nesting bracketStep u = 0 →
    joins (Text.trimEnd u).getLast? = true ∨ joins (Text.trimStart v).head? = true

/-- White space can be looked for position by position. -/
theorem spaced_iff {cs : List Char} : Spaced cs ↔ ∀ i, ∀ h : i < cs.length,
    Text.isBlank cs[i] = true → nesting bracketStep (cs.take i) = 0 →
      joins (Text.trimEnd (cs.take i)).getLast? = true ∨
        joins (Text.trimStart (cs.drop (i + 1))).head? = true := by
  constructor
  · intro hspaced i hi
    apply hspaced (cs.take i) cs[i] (cs.drop (i + 1))
    rw [← List.drop_eq_getElem_cons hi, List.take_append_drop]
  · intro hspaced u c v hcs
    subst hcs
    have hi : u.length < (u ++ c :: v).length := by simp
    simpa using hspaced u.length hi

instance (cs : List Char) : Decidable (Spaced cs) := decidable_of_iff' _ spaced_iff

/-- What a line needs to know about the type expression in it. -/
structure Fits (cs : List Char) : Prop where
  nonempty : cs ≠ []
  balanced : Balanced bracketStep cs
  spaced : Spaced cs
  first : joins (Text.trimStart cs).head? = false
  last : joins (Text.trimEnd cs).getLast? = false

private theorem fits_of_parse {cs : List Char} (hexpr : (TypeExpr.parse? cs).isSome = true)
    (hquotes : ∀ quote ∈ ['"', Text.apostrophe], quote ∉ cs) (hspaced : Spaced cs) : Fits cs := by
  obtain ⟨e, he⟩ := Option.isSome_iff_exists.mp hexpr
  obtain ⟨d, hspells, -⟩ := parse?_eq_some_iff.mp he
  have hts := hspells.kind_ne_string hquotes
  obtain ⟨⟨t, rest, hfirst, ht⟩, front, t', hlast, ht'⟩ := d.edged
  constructor
  · intro hnil
    rw [hnil, parse?_nil] at he
    cases he
  · exact hspells.balanced hts (d.balanced trivial)
  · exact hspaced
  · by_contra hjoins
    obtain ⟨u, hu, hoperator⟩ := hspells.first_operator hts (Bool.of_not_eq_false hjoins)
    rw [hfirst] at hu
    cases hu
    rw [ht] at hoperator
    cases hoperator
  · by_contra hjoins
    obtain ⟨u, hu, hoperator⟩ := hspells.last_operator hts (Bool.of_not_eq_false hjoins)
    rw [hlast, List.getLast?_concat] at hu
    cases hu
    rw [ht'] at hoperator
    cases hoperator

namespace Fits

variable {cs : List Char}

theorem head_not_blank (h : Fits cs) : ∀ c ∈ cs.head?, Text.isBlank c = false := by
  intro c hc
  obtain ⟨v, rfl⟩ := List.head?_eq_some_iff.mp hc
  by_contra hblank
  rw [Bool.not_eq_false] at hblank
  have hfirst := h.first
  rw [trimStart_blank hblank] at hfirst
  rcases h.spaced [] c v rfl hblank rfl with hbefore | hafter
  · cases hbefore
  · rw [hfirst] at hafter
    cases hafter

/-- The type does not end inside of a type expression, whatever follows. -/
theorem passes (h : Fits cs) (rest : List Char) : Passes [] 0 cs rest := by
  intro u c v hcs hends
  have hstart : u <+: cs := ⟨c :: v, hcs.symm⟩
  have houtside : nesting bracketStep u = 0 := by
    have hdepth := hends.outside
    have hnonneg := h.balanced.starts u hstart
    omega
  rcases h.spaced u c v hcs hends.blank houtside with hbefore | hafter
  · have hlast := hends.last
    rw [List.append_nil, ← getLast?_trimEnd, hbefore] at hlast
    cases hlast
  · have hnext := hends.next
    rw [head?_trimStart_append] at hnext
    cases hv : (Text.trimStart v).head? with
    | none =>
      rw [hv] at hafter
      cases hafter
    | some d =>
      rw [hv] at hnext hafter
      rw [Option.some_or, hafter] at hnext
      cases hnext

theorem endsAt (h : Fits cs) {c : Char} {rest : List Char} (hc : Text.isBlank c = true)
    (hrest : joins (Text.trimStart rest).head? = false) :
    EndsAt cs.reverse (nesting bracketStep cs) c rest := by
  constructor
  · exact hc
  · exact Int.le_of_eq h.balanced.closed
  · exact hrest
  · rw [← getLast?_trimEnd]
    exact h.last

end Fits

/-! Word characters. -/

private theorem not_word_of_mark {c : Char} {t : TypeToken} (h : punctuation? c = some t) :
    Text.isWord c = false := by
  unfold punctuation? at h
  split at h <;> cases h <;> decide

private theorem bracketStep_of_word {c : Char} (h : Text.isWord c = true) : bracketStep c = 0 := by
  by_contra hstep
  obtain ⟨t, ht⟩ := mark_of_bracketStep hstep
  rw [not_word_of_mark ht] at h
  cases h

private theorem not_joins_of_word {c : Char} (h : Text.isWord c = true) :
    joins (some c) = false := by
  by_contra hjoins
  rw [Bool.not_eq_false, joins, Bool.or_eq_true, beq_iff_eq, beq_iff_eq] at hjoins
  rcases hjoins with hbar | hamp
  · cases hbar
    cases h
  · cases hamp
    cases h

/-- A description is no variable. -/
theorem splitVariable_of_word {cs : List Char} (h : ∀ c ∈ cs.head?, Text.isWord c = true) :
    splitVariable cs = none := by
  cases cs with
  | nil => rfl
  | cons c cs =>
    have hc : Text.isWord c = true := h c rfl
    have hne : ∀ d : Char, Text.isWord d = false → c ≠ d := by
      intro d hd heq
      rw [heq, hd] at hc
      cases hc
    have hamp := hne '&' (by decide)
    have hdot := hne '.' (by decide)
    have hdollar := hne '$' (by decide)
    simp [splitVariable, hamp, hdot, hdollar]

/-! Lines of parameters. -/

/-- A variable after its marks. -/
def markedVariable (marks v : List Char) : List Char := marks ++ '$' :: v

/-- The line of a parameter tag. -/
def paramLine (typeExpr marks v description : List Char) : List Char :=
  '@' :: ("param".toList ++
    ' ' :: (typeExpr ++ ' ' :: markedVariable marks v ++ ' ' :: description))

/-- What may stand before the variable of a parameter that is not passed by reference. -/
def plainMarks : List (List Char) := [[], ['.', '.', '.']]

/-- What may stand before the variable of a parameter that is passed by reference. -/
def referenceMarks : List (List Char) := [['&'], ['&', '.', '.', '.']]

private theorem trimEnd_append_space {cs : List Char}
    (hcs : ∀ c ∈ cs.getLast?, Text.isBlank c = false)
    (ds : List Char) : Text.trimEnd (cs ++ ' ' :: ds) = cs ++ spaced (Text.trimEnd ds) := by
  have hspace : Text.trimEnd (' ' :: ds) = spaced (Text.trimEnd ds) := by
    rw [← List.singleton_append, trimEnd_append]
    split
    · rename_i hnil
      rw [hnil]
      rfl
    · rename_i hne
      rw [spaced, if_neg (by simpa using hne)]
      rfl
  rw [trimEnd_append, hspace]
  split
  · rename_i hnil
    rw [hnil, List.append_nil, trimEnd_of_last hcs]
  · rfl

section

variable {typeExpr marks v : List Char} (htype : Fits typeExpr) (hne : v ≠ [])
  (hv : ∀ c ∈ v, Text.isWord c = true)

include hne hv in
private theorem getLast_markedVariable (cs marks : List Char) :
    ∃ c, Text.isWord c = true ∧ (cs ++ ' ' :: markedVariable marks v).getLast? = some c := by
  obtain ⟨d, v, rfl⟩ := List.exists_cons_of_ne_nil hne
  obtain ⟨c, hc⟩ : ∃ c, (d :: v).getLast? = some c := ⟨_, List.getLast?_cons⟩
  apply Exists.intro c
  rw [markedVariable, ← List.cons_append, ← List.append_assoc, List.getLast?_append_cons,
    List.getLast?_cons_cons]
  exact ⟨hv c (List.mem_of_getLast? hc), hc⟩

include htype hne hv in
private theorem parse_paramLine (marks description : List Char) :
    Tag.parse (paramLine typeExpr marks v description) =
      .ok (typedTag "param"
        (typeExpr ++ ' ' :: markedVariable marks v ++ spaced (Text.trimEnd description))) := by
  have hword : ∀ c ∈ "param".toList, isTagChar c = true := by
    simp [isTagChar, Text.isWord]
  have hnext : ∀ c ∈
      (' ' :: (typeExpr ++ ' ' :: markedVariable marks v ++ ' ' :: description)).head?,
        isTagChar c = false := by
    intro c hc
    cases hc
    decide
  have hname : Text.lower "param" = "param" := by decide +kernel
  have hstart : ∀ c ∈ (typeExpr ++ ' ' :: markedVariable marks v ++ ' ' :: description).head?,
      Text.isBlank c = false := by
    obtain ⟨d, ds, hds⟩ := List.exists_cons_of_ne_nil htype.nonempty
    have hd := htype.head_not_blank
    rw [hds] at hd ⊢
    exact hd
  have hend : ∀ c ∈ (typeExpr ++ ' ' :: markedVariable marks v).getLast?,
      Text.isBlank c = false := by
    intro c hc
    obtain ⟨d, hd, hlast⟩ := getLast_markedVariable hne hv typeExpr marks
    rw [hlast] at hc
    cases hc
    exact not_blank_of_word hd
  rw [paramLine, parse_append (by decide) hword hnext, hname, Text.trim,
    trimStart_blank (by decide), trimStart_of_head hstart, trimEnd_append_space hend, tagOf,
    if_pos (by decide)]

private theorem trimmed_trimEnd {cs : List Char} (h : ∀ c ∈ cs.head?, Text.isWord c = true) :
    Trimmed (Text.trimEnd cs) :=
  ⟨fun c hc => not_blank_of_word (h c (mem_head_of_trimEnd hc)), not_blank_of_last_trimEnd cs⟩

include hne hv in
private theorem splitVariable_plainMarks (hmarks : marks ∈ plainMarks) {description : List Char}
    (hdescription : Trimmed description) :
    splitVariable (markedVariable marks v ++ spaced description) = some (v, description) := by
  have hplain := splitVariable_spaced hne hv hdescription
  simp only [plainMarks, List.mem_cons, List.not_mem_nil, or_false] at hmarks
  rcases hmarks with rfl | rfl
  · exact hplain
  · exact hplain

include htype in
/-- Without a mark for a reference the type ends before the variable. -/
theorem splits_plainMarks (hmarks : marks ∈ plainMarks) (v rest : List Char) :
    Splits typeExpr (' ' :: (markedVariable marks v ++ rest)) ∧
      Text.trimStart (' ' :: (markedVariable marks v ++ rest)) =
        markedVariable marks v ++ rest := by
  have hstart : Text.trimStart (markedVariable marks v ++ rest) = markedVariable marks v ++ rest ∧
      joins (markedVariable marks v ++ rest).head? = false := by
    simp only [plainMarks, List.mem_cons, List.not_mem_nil, or_false] at hmarks
    rcases hmarks with rfl | rfl <;> exact ⟨rfl, rfl⟩
  constructor
  · constructor
    · exact htype.passes _
    · intro c cs hcs
      obtain ⟨rfl, rfl⟩ := List.cons.inj hcs
      exact htype.endsAt (by decide) (by rw [hstart.1, hstart.2])
  · rw [trimStart_blank (by decide), hstart.1]

include hv in
private theorem markedVariable_chars (hmarks : marks ∈ referenceMarks) :
    ∀ c ∈ markedVariable marks v, Text.isBlank c = false ∧ bracketStep c = 0 := by
  have hword : ∀ c ∈ v, Text.isBlank c = false ∧ bracketStep c = 0 :=
    fun c hc => ⟨not_blank_of_word (hv c hc), bracketStep_of_word (hv c hc)⟩
  have hamp : Text.isBlank '&' = false ∧ bracketStep '&' = 0 := by decide
  have hdot : Text.isBlank '.' = false ∧ bracketStep '.' = 0 := by decide
  have hdollar : Text.isBlank '$' = false ∧ bracketStep '$' = 0 := by decide
  simp only [referenceMarks, List.mem_cons, List.not_mem_nil, or_false] at hmarks
  rcases hmarks with rfl | rfl
  · simp only [markedVariable, List.cons_append, List.nil_append, List.forall_mem_cons]
    exact ⟨hamp, hdollar, hword⟩
  · simp only [markedVariable, List.cons_append, List.nil_append, List.forall_mem_cons]
    exact ⟨hamp, hdot, hdot, hdot, hdollar, hword⟩

include htype hne hv in
/-- A mark for a reference is taken for an operator, and the type goes on behind it. -/
theorem splits_referenceMarks (hmarks : marks ∈ referenceMarks) {description : List Char}
    (hdescription : ∀ c ∈ description.head?, Text.isWord c = true) :
    Splits (typeExpr ++ ' ' :: markedVariable marks v) (spaced description) := by
  have hchars := markedVariable_chars hv hmarks
  have hoperator (rest : List Char) :
      joins (Text.trimStart (markedVariable marks v ++ rest)).head? = true := by
    simp only [referenceMarks, List.mem_cons, List.not_mem_nil, or_false] at hmarks
    rcases hmarks with rfl | rfl <;> rfl
  constructor
  · apply (htype.passes _).append
    rw [passes_cons]
    constructor
    · intro hends
      have hnext := hends.next
      rw [hoperator] at hnext
      cases hnext
    · exact passes_of_not_blank _ _ (fun c hc => (hchars c hc).1) _
  · intro c cs hcs
    cases description with
    | nil => cases hcs
    | cons d ds =>
      obtain ⟨rfl, rfl⟩ := List.cons.inj hcs
      have hd : Text.isWord d = true := hdescription d rfl
      obtain ⟨e, he, hlast⟩ := getLast_markedVariable hne hv typeExpr marks
      constructor
      · decide
      · have hflat : nesting bracketStep (markedVariable marks v) = 0 :=
          (Balanced.of_flat fun c hc => (hchars c hc).2).closed
        rw [nesting_append, nesting, htype.balanced.closed, hflat]
        decide
      · rw [trimStart_of_head (by simpa using not_blank_of_word hd)]
        exact not_joins_of_word hd
      · have hblank := not_blank_of_word he
        rw [← getLast?_trimEnd, trimEnd_of_last (by simpa [hlast] using hblank), hlast]
        exact not_joins_of_word he

end

/-- A parameter tag of a type expression without quotes gives the type, the variable and the
description back, also after three dots. After a mark for a reference the variable and its marks
are the end of the type, and no variable is found but the one that such a type starts with. -/
theorem paramLine_read {typeExpr v description : List Char}
    (hexpr : (TypeExpr.parse? typeExpr).isSome = true)
    (hquotes : ∀ quote ∈ ['"', Text.apostrophe], quote ∉ typeExpr) (hspaced : Spaced typeExpr)
    (hne : v ≠ []) (hv : ∀ c ∈ v, Text.isWord c = true)
    (hdescription : ∀ c ∈ description.head?, Text.isWord c = true) :
    (∀ marks ∈ plainMarks, Tag.parse (paramLine typeExpr marks v description) =
      .ok ⟨"param", String.ofList typeExpr, some (String.ofList v),
        String.ofList (Text.trimEnd description)⟩) ∧
    ∀ marks ∈ referenceMarks,
      (typeExpr.head? ≠ some '$' → Tag.parse (paramLine typeExpr marks v description) =
        .ok ⟨"param", String.ofList (typeExpr ++ ' ' :: markedVariable marks v), none,
          String.ofList (Text.trimEnd description)⟩) ∧
      ∀ name, typeExpr = '$' :: name → Tag.parse (paramLine typeExpr marks v description) =
        .ok ⟨"param", "", some (String.ofList (name ++ ' ' :: markedVariable marks v)),
          String.ofList (Text.trimEnd description)⟩ := by
  have htype : Fits typeExpr := fits_of_parse hexpr hquotes hspaced
  have hhead : ∀ c ∈ (Text.trimEnd description).head?, Text.isWord c = true :=
    fun c hc => hdescription c (mem_head_of_trimEnd hc)
  have htrimmed := trimmed_trimEnd hdescription
  constructor
  · intro marks hmarks
    obtain ⟨hsplits, hstart⟩ :=
      splits_plainMarks htype hmarks v (spaced (Text.trimEnd description))
    have hfound := splitVariable_plainMarks hne hv hmarks htrimmed
    rw [← hstart] at hfound
    rw [parse_paramLine htype hne hv, List.append_assoc, List.cons_append,
      typedTag_variable "param" hsplits hfound, htrimmed.trim_eq]
  · intro marks hmarks
    have hsplits := splits_referenceMarks htype hne hv hmarks hhead
    have hstart : Text.trimStart (spaced (Text.trimEnd description)) =
        Text.trimEnd description := by
      rw [trimStart_spaced, trimStart_of_head htrimmed.first]
    have hnone : splitVariable (Text.trimStart (spaced (Text.trimEnd description))) = none := by
      rw [hstart]
      exact splitVariable_of_word hhead
    rw [parse_paramLine htype hne hv]
    constructor
    · intro hdollar
      have hfirst : (typeExpr ++ ' ' :: markedVariable marks v).head? ≠ some '$' := by
        obtain ⟨c, cs, hcs⟩ := List.exists_cons_of_ne_nil htype.nonempty
        rw [hcs] at hdollar ⊢
        exact hdollar
      rw [typedTag_plain "param" hsplits hnone hfirst, hstart, htrimmed.trim_eq]
    · intro name htypeExpr
      subst htypeExpr
      rw [List.cons_append] at hsplits ⊢
      rw [typedTag_dollar "param" hsplits hnone, hstart, htrimmed.trim_eq]

/-- The dots are gone from the variable of a type over two lines, but with an ampersand it would be
a part of that type. -/
theorem paramLine_read_union :
    Tag.parse (paramLine "int |\n array<string, A>".toList "...".toList ['x'] "or | not ".toList) =
        .ok ⟨"param", "int |\n array<string, A>", some "x", "or | not"⟩ ∧
      Tag.parse (paramLine "int |\n array<string, A>".toList ['&'] ['x'] "or | not ".toList) =
        .ok ⟨"param", "int |\n array<string, A> &$x", none, "or | not"⟩ := by
  have hexpr : (TypeExpr.parse? "int |\n array<string, A>".toList).isSome = true := by
    decide +kernel
  have hquotes : ∀ quote ∈ ['"', Text.apostrophe], quote ∉ "int |\n array<string, A>".toList := by
    simp [Text.apostrophe]
  have hv : ∀ c ∈ ['x'], Text.isWord c = true := List.forall_mem_singleton.mpr (by decide)
  have hdescription : ∀ c ∈ "or | not ".toList.head?, Text.isWord c = true := by
    intro c hc
    cases hc
    decide
  have hread := paramLine_read hexpr hquotes (by decide +kernel) (by decide) hv hdescription
  exact ⟨hread.1 _ (by decide), (hread.2 _ (by decide)).1 (by decide)⟩

/-- The type and the variable of `@param int &$v d` are not found. -/
theorem paramLine_reference :
    Tag.parse (paramLine "int".toList ['&'] ['v'] ['d']) = .ok ⟨"param", "int &$v", none, "d"⟩ ∧
      Tag.parse (paramLine "int".toList ['&'] ['v'] ['d']) ≠
        .ok ⟨"param", "int", some "v", "d"⟩ := by
  have hread : Tag.parse (paramLine "int".toList ['&'] ['v'] ['d']) =
      .ok ⟨"param", "int &$v", none, "d"⟩ := by
    rfl
  rw [hread]
  simp

end PhpTypes.Doc
