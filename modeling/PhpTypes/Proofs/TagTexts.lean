import PhpTypes.Proofs.TypeEnds
import PhpTypes.Proofs.TypeTexts

/-!
# Texts of tags

The text of a tag that was read from a line is read as that tag again. Spaces are single in the text
and the marks before a variable are gone, but the type still ends where it ended in the line.
-/

namespace PhpTypes

namespace Text

/-! Lower forms in ASCII. -/

/-- Only the sign for kelvin is shifted into ASCII, and no character is shifted out of Unicode. -/
theorem caseShifts_targets : ∀ s ∈ caseShifts,
    (s.first = 8490 ∧ s.last = 8490 ∧ s.shift = -8383) ∨
      (128 ≤ (s.first : Int) + s.shift ∧ (s.last : Int) + s.shift < 0xd800) ∨
      (0xdfff < (s.first : Int) + s.shift ∧ (s.last : Int) + s.shift < 0x110000) := by
  decide +kernel

private theorem toNat_ofNat {n : Nat} (h : n.isValidChar) : (Char.ofNat n).toNat = n := by
  rw [Char.ofNat, dif_pos h]
  rfl

private theorem lowerChar_eq_k {c : Char} (hc : 128 ≤ c.toNat) (h : (lowerChar c).toNat < 128) :
    lowerChar c = 'k' := by
  rw [lowerChar, if_neg (by omega)] at h ⊢
  split at h
  · rename_i s hs
    have hcovers : s.covers c.toNat = true :=
      List.find?_some (p := fun s : CaseShift => s.covers c.toNat) hs
    simp only [CaseShift.covers, Bool.and_eq_true, decide_eq_true_eq] at hcovers
    obtain ⟨⟨hfirst, hlast⟩, -⟩ := hcovers
    rcases caseShifts_targets s (List.mem_of_find?_eq_some hs) with ⟨hk, hk', hshift⟩ | hlow | hhigh
    · have hcode : c.toNat = 8490 := by omega
      rw [hcode, hshift]
      rfl
    · rw [toNat_ofNat (.inl (by omega))] at h
      omega
    · rw [toNat_ofNat (.inr (by omega))] at h
      omega
  · omega

/-- The characters of a lower form that are in ASCII come from characters in ASCII, or they are
letters that also come from elsewhere. -/
theorem mem_lowerFrom {d : Char} {before cs : List Char} (h : d ∈ lowerFrom before cs)
    (hascii : d.toNat < 128) :
    d ∈ ['i', 'k'] ∨ ∃ c ∈ cs, c.toNat < 128 ∧ lowerChar c = d := by
  induction cs generalizing before with
  | nil => cases h
  | cons c cs ih =>
    rw [lowerFrom, List.mem_append] at h
    rcases h with h | h
    · split at h
      · rw [List.mem_singleton] at h
        subst h
        split at hascii <;> exact absurd hascii (by decide)
      · split at h
        · rw [List.mem_cons, List.mem_singleton] at h
          rcases h with rfl | rfl
          · exact .inl List.mem_cons_self
          · exact absurd hascii (by decide)
        · rw [List.mem_singleton] at h
          subst h
          by_cases hc : c.toNat < 128
          · exact .inr ⟨c, List.mem_cons_self, hc, rfl⟩
          · rw [lowerChar_eq_k (by omega) hascii]
            exact .inl (by decide)
    · rcases ih h with hletter | ⟨c', hc', hlower⟩
      · exact .inl hletter
      · exact .inr ⟨c', List.mem_cons_of_mem c hc', hlower⟩

private theorem lowerFrom_eq_self {cs : List Char} (h : ∀ c ∈ cs, c.toNat < 128 ∧ lowerChar c = c)
    (before : List Char) : lowerFrom before cs = cs := by
  induction cs generalizing before with
  | nil => rfl
  | cons c cs ih =>
    rw [List.forall_mem_cons] at h
    obtain ⟨⟨hascii, hlower⟩, hcs⟩ := h
    have hne : ∀ d : Char, 128 ≤ d.toNat → (c == d) = false := by
      intro d hd
      rw [beq_eq_false_iff_ne]
      intro heq
      rw [heq] at hascii
      omega
    rw [lowerFrom, hne 'Σ' (by decide), hne 'İ' (by decide), ih hcs, hlower]
    rfl

private theorem lower_eq_self {s : String} (h : ∀ c ∈ s.toList, c.toNat < 128 ∧ lowerChar c = c) :
    lower s = s := by
  rw [lower, lowerChars, lowerFrom_eq_self h, String.ofList_toList]

private theorem lower_ne_empty {s : String} (h : s ≠ "") : lower s ≠ "" := by
  obtain ⟨c, cs, hcs⟩ := List.exists_cons_of_ne_nil (mt String.toList_eq_nil_iff.mp h)
  rw [lower, lowerChars, hcs, lowerFrom, ne_eq, String.ofList_eq_empty_iff]
  split
  · simp
  · split <;> simp

end Text

namespace Doc

/-! Names of tags. -/

private theorem tagChar_lower : ∀ n < 128, isTagChar (Char.ofNat n) = true →
    isTagChar (Text.lowerChar (Char.ofNat n)) = true ∧
      Text.lowerChar (Text.lowerChar (Char.ofNat n)) = Text.lowerChar (Char.ofNat n) := by
  decide +kernel

private theorem tagChar_of_mem_lower {word : String} (hword : ∀ c ∈ word.toList, isTagChar c = true)
    {d : Char} (hd : d ∈ (Text.lower word).toList) (hascii : d.toNat < 128) :
    isTagChar d = true ∧ Text.lowerChar d = d := by
  rw [Text.lower, String.toList_ofList] at hd
  rcases Text.mem_lowerFrom hd hascii with hletter | ⟨c, hc, hcascii, rfl⟩
  · simp only [List.mem_cons, List.not_mem_nil, or_false] at hletter
    rcases hletter with rfl | rfl <;> decide
  · have hlower := tagChar_lower c.toNat hcascii
    rw [Char.ofNat_toNat] at hlower
    exact hlower (hword c hc)

/-! Lines of tags. -/

private theorem takeWhile_append_stop {p : Char → Bool} {cs rest : List Char}
    (hcs : ∀ c ∈ cs, p c = true)
    (hrest : ∀ c ∈ rest.head?, p c = false) : (cs ++ rest).takeWhile p = cs := by
  rw [List.takeWhile_append_of_pos hcs]
  cases rest with
  | nil => simp
  | cons c rest => rw [List.takeWhile_cons_of_neg (by simp [hrest c rfl]), List.append_nil]

/-- The tag of a name and of the text after it. -/
def tagOf (name : String) (rest : List Char) : Tag :=
  if typedTags.contains name then typedTag name rest else ⟨name, "", none, String.ofList rest⟩

private theorem tagOf_name (name : String) (rest : List Char) : (tagOf name rest).name = name := by
  rw [tagOf]
  split
  · simp only [typedTag]
    split
    · rfl
    · split <;> rfl
  · rfl

theorem parse_append {word : String} {tail : List Char} (hne : word ≠ "")
    (hword : ∀ c ∈ word.toList, isTagChar c = true)
    (htail : ∀ c ∈ tail.head?, isTagChar c = false) :
    Tag.parse ('@' :: (word.toList ++ tail)) = .ok (tagOf (Text.lower word) (Text.trim tail)) := by
  have htake : (word.toList ++ tail).takeWhile isTagChar = word.toList :=
    takeWhile_append_stop hword htail
  have hdrop : ('@' :: (word.toList ++ tail)).drop (1 + word.toList.length) = tail := by
    rw [Nat.add_comm, List.drop_succ_cons, List.drop_left]
  have hchars : word.toList ≠ [] := by simpa using hne
  simp only [Tag.parse, List.drop_succ_cons, List.drop_zero, htake, hdrop, tagOf,
    List.isEmpty_iff, if_neg hchars, String.ofList_toList]
  split <;> rfl

private theorem exists_of_parse {cs : List Char} {t : Tag} (h : Tag.parse ('@' :: cs) = .ok t) :
    ∃ word tail, word ≠ "" ∧ (∀ c ∈ word.toList, isTagChar c = true) ∧
      t = tagOf (Text.lower word) (Text.trim tail) := by
  have hcs : cs.takeWhile isTagChar ++ cs.dropWhile isTagChar = cs :=
    List.takeWhile_append_dropWhile
  have hchars : (String.ofList (cs.takeWhile isTagChar)).toList = cs.takeWhile isTagChar :=
    String.toList_ofList
  have hword : ∀ c ∈ (String.ofList (cs.takeWhile isTagChar)).toList, isTagChar c = true := by
    rw [hchars]
    exact fun c hc => List.mem_takeWhile_imp hc
  have hne : String.ofList (cs.takeWhile isTagChar) ≠ "" := by
    intro hempty
    rw [hempty] at hchars
    simp [Tag.parse, ← hchars] at h
  have htail : ∀ c ∈ (cs.dropWhile isTagChar).head?, isTagChar c = false := by
    intro c hc
    have hstop := List.head?_dropWhile_not isTagChar cs
    rw [Option.mem_def] at hc
    rwa [hc] at hstop
  have hparse := parse_append hne hword htail
  rw [hchars, hcs, h] at hparse
  exact ⟨_, _, hne, hword, Except.ok.inj hparse⟩

/-! The text of a tag. -/

/-- A variable with its dollar, or nothing where there is no name. -/
def variableChars (v : Option String) : List Char :=
  match v with
  | some v => if v.isEmpty then [] else '$' :: v.toList
  | none => []

/-- What the text of a tag has after the name. -/
def Tag.tailChars (t : Tag) : List Char :=
  spaced t.typeExpr.toList ++ (spaced (variableChars t.variableName) ++ spaced t.description.toList)

private theorem flatMap_space_filter (parts : List String) :
    ((parts.filter fun p => !p.isEmpty).map String.toList).flatMap ([' '] ++ ·) =
      parts.flatMap fun p => spaced p.toList := by
  induction parts with
  | nil => rfl
  | cons p parts ih =>
    rw [List.flatMap_cons, ← ih]
    cases hp : p.isEmpty with
    | true =>
      have hchars : p.toList = [] := by simpa using hp
      rw [List.filter_cons_of_neg (by simp [hp]), hchars]
      rfl
    | false =>
      have hchars : p.toList.isEmpty = false := by simpa using hp
      rw [List.filter_cons_of_pos (by simp [hp]), List.map_cons, List.flatMap_cons, spaced, hchars]
      rfl

private theorem toList_text (t : Tag) : t.text.toList = '@' :: (t.name.toList ++ t.tailChars) := by
  obtain ⟨name, typeExpr, named, description⟩ := t
  have hjoin (parts : List String) :
      (" ".intercalate ((("@" ++ name) :: parts).filter fun p => !p.isEmpty)).toList =
        '@' :: (name.toList ++ parts.flatMap fun p => spaced p.toList) := by
    rw [String.toList_intercalate, List.filter_cons_of_pos (by simp), List.map_cons]
    have hspace : " ".toList = [' '] := rfl
    rw [hspace, intercalate_cons, flatMap_space_filter, String.toList_append]
    rfl
  rw [Tag.text, hjoin]
  cases named with
  | none => simp [Tag.tailChars, variableChars]
  | some v =>
    cases hv : v.isEmpty with
    | true => simp [Tag.tailChars, variableChars, hv]
    | false => simp [Tag.tailChars, variableChars, hv]

/-! Parts with single spaces between them. -/

private theorem spaced_append {cs ds : List Char} (h : cs = [] → ds = []) :
    spaced cs ++ spaced ds = spaced (cs ++ spaced ds) := by
  cases cs with
  | nil =>
    rw [h rfl]
    rfl
  | cons c cs => rfl

private theorem eq_of_mem_head_spaced {cs : List Char} {c : Char} (h : c ∈ (spaced cs).head?) :
    c = ' ' := by
  cases cs with
  | nil => cases h
  | cons d ds =>
    cases h
    rfl

private theorem Trimmed.trim_spaced {cs : List Char} (h : Trimmed cs) :
    Text.trim (spaced cs) = cs := by
  rw [Text.trim, trimStart_spaced]
  exact h.trim_eq

private theorem Trimmed.append_spaced {cs ds : List Char} (hcs : Trimmed cs) (hds : Trimmed ds)
    (h : cs = [] → ds = []) : Trimmed (cs ++ spaced ds) := by
  cases ds with
  | nil =>
    rw [show cs ++ spaced [] = cs from List.append_nil cs]
    exact hcs
  | cons d ds =>
    obtain ⟨c, cs, rfl⟩ := List.exists_cons_of_ne_nil fun hnil => nomatch h hnil
    constructor
    · exact hcs.first
    · rw [spaced, List.isEmpty_cons, if_neg (by simp), List.getLast?_append_cons,
        List.getLast?_cons_cons]
      exact hds.last

/-- What is left of a trimmed text has no white space at its end. -/
theorem Trimmed.trimStart_right {cs ds : List Char} (h : Trimmed (cs ++ ds)) :
    Trimmed (Text.trimStart ds) := by
  constructor
  · exact not_blank_of_head_trimStart ds
  · intro c hc
    obtain ⟨blanks, hblanks⟩ : Text.trimStart ds <:+ ds := List.dropWhile_suffix _
    apply h.last
    rw [← hblanks, List.getLast?_append, List.getLast?_append, Option.mem_def.mp hc]
    rfl

/-! Variables. -/

theorem not_blank_of_word {c : Char} (h : Text.isWord c = true) : Text.isBlank c = false := by
  have hcodes : ∀ n ∈ blankCodes, Text.isWord (Char.ofNat n) = false := by decide +kernel
  by_contra hblank
  have hword := hcodes c.toNat (mem_blankCodes (Bool.of_not_eq_false hblank))
  rw [Char.ofNat_toNat, h] at hword
  cases hword

private theorem splitVariable_name {cs v rest : List Char} (h : splitVariable cs = some (v, rest)) :
    v ≠ [] ∧ ∀ c ∈ v, Text.isWord c = true := by
  simp only [splitVariable] at h
  split at h
  · rename_i name _
    split at h
    · cases h
    · rename_i hne
      obtain ⟨rfl, -⟩ := Prod.mk.inj (Option.some.inj h)
      exact ⟨fun hnil => hne (by rw [hnil]; rfl), fun c hc => List.mem_takeWhile_imp hc⟩
  · cases h

theorem splitVariable_spaced {v description : List Char} (hne : v ≠ [])
    (hv : ∀ c ∈ v, Text.isWord c = true) (hdescription : Trimmed description) :
    splitVariable ('$' :: (v ++ spaced description)) = some (v, description) := by
  have hstop : ∀ c ∈ (spaced description).head?, Text.isWord c = false := by
    intro c hc
    rw [eq_of_mem_head_spaced hc]
    decide
  have hname : (v ++ spaced description).takeWhile Text.isWord = v :=
    takeWhile_append_stop hv hstop
  have htrim : Text.trimStart (spaced description) = description := by
    rw [trimStart_spaced, trimStart_of_head hdescription.first]
  simp [splitVariable, hname, hne, htrim]

/-! What a split line gives. -/

section

variable {taken rest : List Char} (name : String)

theorem typedTag_variable {v description : List Char} (h : Splits taken rest)
    (hfound : splitVariable (Text.trimStart rest) = some (v, description)) :
    typedTag name (taken ++ rest) =
      ⟨name, String.ofList taken, some (String.ofList v),
        String.ofList (Text.trim description)⟩ := by
  simp only [typedTag, h.splitType_eq, hfound]

theorem typedTag_dollar {v : List Char} (h : Splits ('$' :: v) rest)
    (hnone : splitVariable (Text.trimStart rest) = none) :
    typedTag name ('$' :: v ++ rest) =
      ⟨name, "", some (String.ofList v), String.ofList (Text.trim (Text.trimStart rest))⟩ := by
  simp only [typedTag, h.splitType_eq, hnone]

theorem typedTag_plain (h : Splits taken rest)
    (hnone : splitVariable (Text.trimStart rest) = none) (hdollar : taken.head? ≠ some '$') :
    typedTag name (taken ++ rest) =
      ⟨name, String.ofList taken, none, String.ofList (Text.trim (Text.trimStart rest))⟩ := by
  simp only [typedTag, h.splitType_eq, hnone]
  split
  · exact (hdollar rfl).elim
  · rfl

end

/-! Reading again. -/

/-- A type and what is printed after it are split where they were put together. -/
theorem Splits.again {taken rest rest' : List Char} (h : Splits taken rest)
    (hwhole : Trimmed (taken ++ rest)) (hrest' : Trimmed rest') (hempty : rest = [] → rest' = [])
    (hjoins : joins rest'.head? = false) :
    Splits taken (Doc.spaced rest') ∧ Text.trimStart (Doc.spaced rest') = rest' ∧
      Text.trim (Doc.spaced taken ++ Doc.spaced rest') = taken ++ Doc.spaced rest' := by
  have hstart : Text.trimStart rest' = rest' := trimStart_of_head hrest'.first
  have hnil : taken = [] → rest' = [] := by
    intro htaken
    apply hempty
    by_contra hrest
    exact h.taken_ne_nil hwhole hrest htaken
  apply And.intro
  · exact h.spaced hempty (by rwa [hstart])
  apply And.intro
  · rw [trimStart_spaced, hstart]
  · rw [spaced_append hnil]
    exact ((h.trimmed hwhole).append_spaced hrest' hnil).trim_spaced

private theorem typedTag_again {name : String} {cs : List Char} (hcs : Trimmed cs)
    (hvariable : (typedTag name cs).variableName ≠ some "") :
    typedTag name (Text.trim (typedTag name cs).tailChars) = typedTag name cs := by
  obtain ⟨taken, rest, rfl, hsplit⟩ := exists_splits cs
  cases hfound : splitVariable (Text.trimStart rest) with
  | some found =>
    obtain ⟨v, description⟩ := found
    obtain ⟨hne, hword⟩ := splitVariable_name hfound
    have hdescription : Trimmed (Text.trim description) := trimmed_trim description
    have hv : Trimmed ('$' :: v) := by
      constructor
      · simp
        decide
      · intro c hc
        obtain ⟨d, v, rfl⟩ := List.exists_cons_of_ne_nil hne
        rw [List.getLast?_cons_cons] at hc
        exact not_blank_of_word (hword c (List.mem_of_mem_getLast? hc))
    have hrest : rest ≠ [] := by
      intro hnil
      rw [hnil] at hfound
      cases hfound
    rw [typedTag_variable name hsplit hfound]
    -- The marks before the variable are not printed.
    obtain ⟨hsplit', hstart, htrim⟩ := hsplit.again hcs
      (hv.append_spaced hdescription (by simp)) (fun hnil => (hrest hnil).elim) rfl
    have htail : Tag.tailChars ⟨name, String.ofList taken, some (String.ofList v),
        String.ofList (Text.trim description)⟩ =
          spaced taken ++ spaced ('$' :: v ++ spaced (Text.trim description)) := by
      rw [← spaced_append (by simp)]
      simp [Tag.tailChars, variableChars, hne]
    have hfound' :
        splitVariable (Text.trimStart (spaced ('$' :: v ++ spaced (Text.trim description)))) =
          some (v, Text.trim description) := by
      rw [hstart]
      exact splitVariable_spaced hne hword hdescription
    rw [htail, htrim, typedTag_variable name hsplit' hfound', hdescription.trim_eq]
  | none =>
    have hdescription : Trimmed (Text.trimStart rest) := hcs.trimStart_right
    obtain ⟨hsplit', hstart, htrim⟩ := hsplit.again hcs hdescription
      (fun hnil => by rw [hnil]; rfl) hsplit.not_joins
    by_cases hdollar : taken.head? = some '$'
    · obtain ⟨v, rfl⟩ := List.head?_eq_some_iff.mp hdollar
      rw [typedTag_dollar name hsplit hfound] at hvariable ⊢
      have hne : v ≠ [] := by
        intro hnil
        rw [hnil] at hvariable
        exact hvariable rfl
      have htail : Tag.tailChars ⟨name, "", some (String.ofList v),
          String.ofList (Text.trim (Text.trimStart rest))⟩ =
            spaced ('$' :: v) ++ spaced (Text.trimStart rest) := by
        simp [Tag.tailChars, variableChars, hne, hdescription.trim_eq, spaced]
      rw [htail, htrim, typedTag_dollar name hsplit' (by rwa [hstart]), hstart]
    · rw [typedTag_plain name hsplit hfound hdollar]
      have htail : Tag.tailChars ⟨name, String.ofList taken, none,
          String.ofList (Text.trim (Text.trimStart rest))⟩ =
            spaced taken ++ spaced (Text.trimStart rest) := by
        simp [Tag.tailChars, variableChars, hdescription.trim_eq, spaced]
      rw [htail, htrim, typedTag_plain name hsplit' (by rwa [hstart]) hdollar, hstart]

private theorem tagOf_again {name : String} {cs : List Char} (hcs : Trimmed cs)
    (hvariable : (tagOf name cs).variableName ≠ some "") :
    tagOf name (Text.trim (tagOf name cs).tailChars) = tagOf name cs := by
  rw [tagOf] at hvariable
  rw [tagOf, tagOf]
  split
  · rename_i htyped
    rw [if_pos htyped] at hvariable
    exact typedTag_again hcs hvariable
  · have htail : Tag.tailChars ⟨name, "", none, String.ofList cs⟩ = spaced cs := by
      simp [Tag.tailChars, variableChars, spaced]
    rw [htail, hcs.trim_spaced]

private theorem eq_of_mem_head_tailChars {t : Tag} {c : Char} (h : c ∈ t.tailChars.head?) :
    c = ' ' := by
  rw [Tag.tailChars, List.head?_append, List.head?_append, Option.mem_def, Option.or_eq_some_iff,
    Option.or_eq_some_iff] at h
  rcases h with h | ⟨-, h | ⟨-, h⟩⟩ <;> exact eq_of_mem_head_spaced h

/-- A tag that was read from a line is read again from its own text, whatever spaces and marks the
line had, if its name is in ASCII and its variable is not empty. -/
theorem Tag.parse_text {cs : List Char} {t : Tag} (h : Tag.parse ('@' :: cs) = .ok t)
    (hascii : ∀ c ∈ t.name.toList, c.toNat < 128) (hvariable : t.variableName ≠ some "") :
    Tag.parse t.text.toList = .ok t := by
  obtain ⟨word, tail, hne, hword, rfl⟩ := exists_of_parse h
  rw [tagOf_name] at hascii
  have hname := fun c hc => tagChar_of_mem_lower hword hc (hascii c hc)
  have hlower : Text.lower (Text.lower word) = Text.lower word :=
    Text.lower_eq_self fun c hc => ⟨hascii c hc, (hname c hc).2⟩
  have hnext : ∀ c ∈ (tagOf (Text.lower word) (Text.trim tail)).tailChars.head?,
      isTagChar c = false := by
    intro c hc
    rw [eq_of_mem_head_tailChars hc]
    decide
  rw [toList_text, tagOf_name,
    parse_append (Text.lower_ne_empty hne) (fun c hc => (hname c hc).1) hnext, hlower,
    tagOf_again (trimmed_trim tail) hvariable]

/-- A line with an operator over a line break, a variadic mark and a note that starts with a bar. -/
theorem Tag.parse_text_variadic :
    ∃ t, Tag.parse "@Param  int |\n string  ...$x |note ".toList = .ok t ∧
      t.text = "@param int |\n string $x |note" ∧ Tag.parse t.text.toList = .ok t := by
  have hread : Tag.parse "@Param  int |\n string  ...$x |note ".toList =
      .ok ⟨"param", "int |\n string", some "x", "|note"⟩ := by
    rfl
  have hascii : "param".toList.all (fun c => decide (c.toNat < 128)) = true := by decide
  rw [List.all_eq_true] at hascii
  exact ⟨_, hread, by decide +kernel,
    Tag.parse_text hread (fun c hc => of_decide_eq_true (hascii c hc)) (by simp)⟩

end Doc

end PhpTypes
