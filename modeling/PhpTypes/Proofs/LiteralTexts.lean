import PhpTypes.Proofs.ExprTexts

/-!
# Texts of literals

Every string has a literal in single quotes and one in double quotes, and every number has literals
in four bases, with underscores between the digits. Each of them is one token, and it has the value
that it was written for.
-/

namespace PhpTypes.Source

/-! Double quotes. -/

/-- What is special in double quotes. -/
def isDoubleSpecial (c : Char) : Bool := c == '\\' || c == '"' || c == '$'

def doubleQuoted (s : String) : String :=
  String.ofList ('"' :: (escapedBy isDoubleSpecial s.toList ++ ['"']))

private theorem toList_doubleQuoted (s : String) :
    (doubleQuoted s).toList = '"' :: (escapedBy isDoubleSpecial s.toList ++ ['"']) := by
  rw [doubleQuoted, String.toList_ofList]

private theorem unescapeDouble_special {c : Char} (h : isDoubleSpecial c = true) (cs : List Char) :
    unescapeDouble ('\\' :: c :: cs) = c :: unescapeDouble cs := by
  simp only [isDoubleSpecial, Bool.or_eq_true, beq_iff_eq] at h
  rcases h with (rfl | rfl) | rfl <;> simp [unescapeDouble, escapeValue?]

theorem unescapeDouble_plain {c : Char} (h : c ≠ '\\') (cs : List Char) :
    unescapeDouble (c :: cs) = c :: unescapeDouble cs := by
  rw [unescapeDouble]
  · exact fun _ h' _ => h h'
  · exact fun _ _ h' _ => h h'

private theorem ne_of_not_special {c : Char} (h : isDoubleSpecial c = false) :
    c ≠ '\\' ∧ c ≠ '$' := by
  simp only [isDoubleSpecial, Bool.or_eq_false_iff, beq_eq_false_iff_ne] at h
  exact ⟨h.1.1, h.2⟩

private theorem unescapeDouble_escapedBy (cs : List Char) :
    unescapeDouble (escapedBy isDoubleSpecial cs) = cs := by
  induction cs with
  | nil => rfl
  | cons c cs ih =>
    cases hc : isDoubleSpecial c with
    | true => rw [escapedBy_special hc, unescapeDouble_special hc, ih]
    | false => rw [escapedBy_plain hc, unescapeDouble_plain (ne_of_not_special hc).1, ih]

theorem interpolates_cons (afterBackslash : Bool) (c : Char) (cs : List Char) :
    interpolates afterBackslash (c :: cs) =
      ((!afterBackslash && cs.head?.any (isInterpolated c)) || interpolates (c == '\\') cs) := by
  cases cs with
  | nil => simp [interpolates]
  | cons next cs => rw [interpolates, List.head?_cons, Option.any_some]

private theorem head_escapedBy {special : Char → Bool} {cs : List Char} {c : Char}
    (h : (escapedBy special cs).head? = some c) : c = '\\' ∨ special c = false := by
  cases cs with
  | nil => cases h
  | cons d cs =>
    cases hd : special d with
    | true =>
      rw [escapedBy_special hd, List.head?_cons, Option.some.injEq] at h
      exact .inl h.symm
    | false =>
      rw [escapedBy_plain hd, List.head?_cons, Option.some.injEq] at h
      exact .inr (h ▸ hd)

private theorem interpolates_escapedBy (afterBackslash : Bool) (cs : List Char) :
    interpolates afterBackslash (escapedBy isDoubleSpecial cs) = false := by
  induction cs generalizing afterBackslash with
  | nil => rfl
  | cons c cs ih =>
    cases hc : isDoubleSpecial c with
    | true =>
      rw [escapedBy_special hc, interpolates_cons, interpolates_cons, ih]
      simp [isInterpolated]
    | false =>
      have hnone : (escapedBy isDoubleSpecial cs).head?.any (isInterpolated c) = false := by
        rw [Option.any_eq_false]
        intro next hnext
        have hdollar : next ≠ '$' := by
          intro hdollar
          subst hdollar
          rcases head_escapedBy hnext with hbackslash | hplain
          · cases hbackslash
          · cases hplain
        simp [isInterpolated, (ne_of_not_special hc).2, hdollar]
      rw [escapedBy_plain hc, interpolates_cons, hnone, ih]
      simp

private theorem unquote_doubleQuoted (s : String) :
    unquote (doubleQuoted s).toList = (s, false) := by
  simp [toList_doubleQuoted, unquote, unescapeDouble_escapedBy, interpolates_escapedBy]

private theorem lex_singleQuoted (s : String) :
    lex (singleQuoted s).toList = ⟨[⟨.string, singleQuoted s, .start⟩], none⟩ := by
  have hfound := firstMatch_singleQuoted s []
  rw [List.append_nil] at hfound
  rw [lex_single (by simp [toList_singleQuoted]) hfound, String.ofList_toList]

private theorem lex_doubleQuoted (s : String) :
    lex (doubleQuoted s).toList = ⟨[⟨.string, doubleQuoted s, .start⟩], none⟩ := by
  have hbody : stringBodyLength '"' (escapedBy isDoubleSpecial s.toList ++ ['"']) =
      some ((escapedBy isDoubleSpecial s.toList).length + 1) :=
    stringBodyLength_escapedBy (by decide) (by decide) (by decide) s.toList []
  have hfound : firstMatch (doubleQuoted s).toList =
      some (.string, (doubleQuoted s).toList.length) := by
    rw [toList_doubleQuoted, firstMatch_quoted (by decide) hbody, List.length_cons,
      List.length_append, List.length_singleton]
  rw [lex_single (by simp [toList_doubleQuoted]) hfound, String.ofList_toList]

/-! Integers. -/

/-- Digits with any number of underscores before, between and after them. -/
inductive Gapped : List Char → List Char → Prop where
  | done : Gapped [] []
  | digit (d : Char) {ds cs : List Char} : Gapped ds cs → Gapped (d :: ds) (d :: cs)
  | gap {ds cs : List Char} : Gapped ds cs → Gapped ds ('_' :: cs)

/-- The literals of a number: decimal, octal with a zero in front, hexadecimal with digits of
either case, and binary. Underscores stand anywhere after the first digit or the base. -/
inductive IntLiteral (n : Nat) : List Char → Prop where
  | decimal {d : Char} {ds cs : List Char} :
    Nat.toDigits 10 n = d :: ds → Gapped ds cs → IntLiteral n (d :: cs)
  | octal {cs : List Char} : Gapped (Nat.toDigits 8 n) cs → IntLiteral n ('0' :: cs)
  | hexadecimal {letter : Char} {ds cs : List Char} :
    letter ∈ ['x', 'X'] → ds.map Char.toLower = Nat.toDigits 16 n → Gapped ds cs →
      IntLiteral n ('0' :: letter :: cs)
  | binary {letter : Char} {cs : List Char} :
    letter ∈ ['b', 'B'] → Gapped (Nat.toDigits 2 n) cs → IntLiteral n ('0' :: letter :: cs)

namespace Gapped

variable {ds cs : List Char}

theorem withoutGaps (h : Gapped ds cs) (hds : '_' ∉ ds) : withoutGaps cs = ds := by
  induction h with
  | done => rfl
  | digit d _ ih =>
    rw [List.mem_cons, not_or] at hds
    have hd : d ≠ '_' := Ne.symm hds.1
    rw [Source.withoutGaps, List.filter_cons_of_pos (by simpa using hd)]
    exact congrArg (d :: ·) (ih hds.2)
  | gap _ ih =>
    rw [Source.withoutGaps, List.filter_cons_of_neg (by simp)]
    exact ih hds

theorem forall_mem {p : Char → Bool} (h : Gapped ds cs) (hds : ∀ d ∈ ds, p d = true)
    (hgap : p '_' = true) : ∀ c ∈ cs, p c = true := by
  induction h with
  | done => simp
  | digit d _ ih =>
    rw [List.forall_mem_cons] at hds ⊢
    exact ⟨hds.1, ih hds.2⟩
  | gap _ ih => exact List.forall_mem_cons.mpr ⟨hgap, ih hds⟩

theorem ne_nil (h : Gapped ds cs) (hds : ds ≠ []) : cs ≠ [] := by
  cases h with
  | done => exact hds
  | _ => simp

end Gapped

private theorem isDigitOrGap_of_digitChars : ∀ c ∈ digitChars, isDigitOrGap c = true :=
  forall_mem_of_all (by decide)

/-- Digits with gaps among them are one integer. -/
theorem firstMatch_gapped {d : Char} {ds cs : List Char} (hd : d ∈ digitChars)
    (hds : ∀ c ∈ ds, c ∈ digitChars) (h : Gapped ds cs) :
    firstMatch (d :: cs) = some (.intNumber, (d :: cs).length) := by
  have hdigit := isDigit_of_digitChars d hd
  have hcs : ∀ c ∈ cs, isDigitOrGap c = true :=
    h.forall_mem (fun c hc => isDigitOrGap_of_digitChars c (hds c hc)) (by decide)
  have hfloat : floatLength (d :: (cs ++ [])) = 0 := floatLength_digits hdigit hcs endsNumber_nil
  have hint : intLength (d :: (cs ++ [])) = cs.length + 1 :=
    intLength_digits hdigit hcs endsNumber_nil (by simp)
  rw [List.append_nil] at hfloat hint
  exact firstMatch_number hd hfloat hint (Nat.succ_ne_zero _)

private theorem runLength_of_all {p : Char → Bool} {cs : List Char} (h : ∀ c ∈ cs, p c = true) :
    runLength p cs = cs.length := by
  have hrun : runLength p (cs ++ []) = cs.length := runLength_append h (by simp)
  rwa [List.append_nil] at hrun

/-- Digits after a zero and the letter of their base are one integer. -/
theorem firstMatch_radix {letter : Char} {cs : List Char} (hletter : letter ∈ baseLetters)
    (h : radixLength ('0' :: letter :: cs) = cs.length + 2) :
    firstMatch ('0' :: letter :: cs) = some (.intNumber, ('0' :: letter :: cs).length) := by
  have hends : ∀ c ∈ baseLetters, isDigitOrGap c = false ∧ c ∉ ['.', 'e', 'E'] :=
    forall_mem_of_all (by decide)
  have hend : EndsNumber (letter :: cs) := by simpa [EndsNumber] using hends letter hletter
  have hfloat : floatLength ('0' :: ([] ++ letter :: cs)) = 0 :=
    floatLength_digits (by decide) (by simp) hend
  have hint : intLength ('0' :: letter :: cs) = cs.length + 2 := by simp [intLength, h]
  exact firstMatch_number (by decide) hfloat hint (Nat.succ_ne_zero _)

/-! Values in the other bases. -/

private theorem hexValue?_digitChar : ∀ d < 16, hexValue? d.digitChar = some d := by decide

private theorem hexValue?_toLower (c : Char) : hexValue? c.toLower = hexValue? c := by
  have hletters : ∀ n ∈ List.range' 65 26,
      hexValue? (Char.ofNat n).toLower = hexValue? (Char.ofNat n) := by decide
  by_cases hupper : 65 ≤ c.toNat ∧ c.toNat ≤ 90
  · have hmem : c.toNat ∈ List.range' 65 26 := by
      rw [List.mem_range'_1]
      omega
    have hvalue := hletters c.toNat hmem
    rwa [Char.ofNat_toNat] at hvalue
  · have hsame : c.toLower = c := by
      apply dif_neg
      intro h
      exact hupper ⟨UInt32.le_iff_toNat_le.mp h.1, UInt32.le_iff_toNat_le.mp h.2⟩
    rw [hsame]

private theorem readRadix_toDigits {base : Nat} (hbase : 1 < base) (hhex : base ≤ 16) (n : Nat) :
    readRadix base (Nat.toDigits base n) = some n := by
  have hvalue : ∀ d < base, hexValue? d.digitChar = some d :=
    fun d hd => hexValue?_digitChar d (by omega)
  rw [readRadix, if_neg (by simp [Nat.toDigits_ne_nil])]
  exact Text.foldlM_toDigits hbase hvalue n

private theorem readRadix_map_toLower (base : Nat) (cs : List Char) :
    readRadix base (cs.map Char.toLower) = readRadix base cs := by
  simp only [readRadix, List.isEmpty_map, List.foldlM_map, hexValue?_toLower]

section

variable {cs ds : List Char} {letter : Char} {n : Nat}

private theorem readInt_octal (h : withoutGaps cs = '0' :: Nat.toDigits 8 n) :
    readInt cs = .ok n := by
  have hvalue : Text.readDigits 8 (Nat.toDigits 8 n) = some n :=
    Text.foldlM_toDigits (by decide) (fun d hd => Text.digitValue?_digitChar d (by omega)) n
  obtain ⟨d, ds, hds⟩ := List.exists_cons_of_ne_nil (Nat.toDigits_ne_nil (n := n) (b := 8))
  have hmem : d ∈ Nat.toDigits 8 n := hds ▸ List.mem_cons_self
  have hd : d ∈ digitChars := mem_digitChars (by decide) (by decide) d hmem
  have hletters : ∀ d ∈ digitChars, (d == 'x' || d == 'X') = false ∧
      (d == 'b' || d == 'B') = false := forall_mem_of_all (by decide)
  obtain ⟨hx, hb⟩ := hletters d hd
  rw [hds] at h hvalue
  simp [readInt, h, hx, hb, hvalue]

private theorem readInt_hexadecimal (hletter : letter ∈ ['x', 'X'])
    (h : withoutGaps cs = '0' :: letter :: ds)
    (hds : ds.map Char.toLower = Nat.toDigits 16 n) : readInt cs = .ok n := by
  have hvalue : readRadix 16 ds = some n := by
    rw [← readRadix_map_toLower, hds, readRadix_toDigits (by decide) (by decide)]
  have hx : (letter == 'x' || letter == 'X') = true := by simpa using hletter
  simp [readInt, h, hx, hvalue]

private theorem readInt_binary (hletter : letter ∈ ['b', 'B'])
    (h : withoutGaps cs = '0' :: letter :: Nat.toDigits 2 n) : readInt cs = .ok n := by
  have hvalue : readRadix 2 (Nat.toDigits 2 n) = some n :=
    readRadix_toDigits (by decide) (by decide) n
  have hletters : ∀ d ∈ ['b', 'B'], (d == 'x' || d == 'X') = false ∧
      (d == 'b' || d == 'B') = true := forall_mem_of_all (by decide)
  obtain ⟨hx, hb⟩ := hletters letter hletter
  simp [readInt, h, hx, hb, hvalue]

end

/-! Every literal of a number. -/

private theorem isHexOrGap_of_toLower (c : Char) (h : (hexValue? c.toLower).isSome = true) :
    isHexOrGap c = true := by
  rw [hexValue?_toLower, hexValue?] at h
  rw [isHexOrGap]
  split at h
  · simp_all
  · split at h
    · simp_all
    · split at h
      · simp_all
      · cases h

/-- The characters of a hexadecimal number, in either case. -/
theorem isHexOrGap_of_map {n : Nat} {ds : List Char}
    (h : ds.map Char.toLower = Nat.toDigits 16 n) : ∀ c ∈ ds, isHexOrGap c = true := by
  intro c hc
  have hmem : c.toLower ∈ Nat.toDigits 16 n := h ▸ List.mem_map_of_mem hc
  obtain ⟨d, hd, hdigit⟩ := exists_digitChar (by decide) _ hmem
  apply isHexOrGap_of_toLower
  rw [hdigit, hexValue?_digitChar d hd]
  rfl

private theorem isBitOrGap_toDigits (n : Nat) : ∀ c ∈ Nat.toDigits 2 n, isBitOrGap c = true := by
  have hbits : ∀ d < 2, isBitOrGap d.digitChar = true := by decide
  intro c hc
  obtain ⟨d, hd, rfl⟩ := exists_digitChar (by decide) c hc
  exact hbits d hd

private theorem radixLength_hexadecimal {letter : Char} (hletter : letter ∈ ['x', 'X'])
    {cs : List Char} (hne : cs ≠ []) (h : ∀ c ∈ cs, isHexOrGap c = true) :
    radixLength ('0' :: letter :: cs) = cs.length + 2 := by
  have hx : (letter == 'x' || letter == 'X') = true := by simpa using hletter
  simp [radixLength, hx, runLength_of_all h, hne, Nat.add_comm]

private theorem radixLength_binary {letter : Char} (hletter : letter ∈ ['b', 'B']) {cs : List Char}
    (hne : cs ≠ []) (h : ∀ c ∈ cs, isBitOrGap c = true) :
    radixLength ('0' :: letter :: cs) = cs.length + 2 := by
  have hletters : ∀ d ∈ ['b', 'B'], (d == 'x' || d == 'X') = false ∧
      (d == 'b' || d == 'B') = true := forall_mem_of_all (by decide)
  obtain ⟨hx, hb⟩ := hletters letter hletter
  simp [radixLength, hx, hb, runLength_of_all h, hne, Nat.add_comm]

private theorem gap_notMem_toDigits {base : Nat} (hbase : 1 < base) (hhex : base ≤ 16) (n : Nat) :
    '_' ∉ Nat.toDigits base n := by
  have hdigits : ∀ d < 16, d.digitChar ≠ '_' := by decide
  intro hmem
  obtain ⟨d, hd, hgap⟩ := exists_digitChar hbase _ hmem
  exact hdigits d (by omega) hgap.symm

namespace IntLiteral

variable {n : Nat} {cs : List Char}

theorem found (h : IntLiteral n cs) :
    firstMatch cs = some (.intNumber, cs.length) := by
  cases h with
  | @decimal d ds cs hdigits hcs =>
    have hmem : ∀ c ∈ d :: ds, c ∈ digitChars := hdigits ▸ mem_digitChars (by decide) (by decide)
    rw [List.forall_mem_cons] at hmem
    exact firstMatch_gapped hmem.1 hmem.2 hcs
  | octal hcs =>
    exact firstMatch_gapped (by decide) (mem_digitChars (by decide) (by decide)) hcs
  | @hexadecimal letter ds cs hletter hds hcs =>
    have hne : ds ≠ [] := by
      intro hnil
      rw [hnil] at hds
      exact Nat.toDigits_ne_nil hds.symm
    have hall := hcs.forall_mem (isHexOrGap_of_map hds) (by decide)
    apply firstMatch_radix
    · exact List.mem_append_left ['b', 'B'] hletter
    · exact radixLength_hexadecimal hletter (hcs.ne_nil hne) hall
  | @binary letter cs hletter hcs =>
    have hall := hcs.forall_mem (isBitOrGap_toDigits n) (by decide)
    apply firstMatch_radix
    · exact List.mem_append_right ['x', 'X'] hletter
    · exact radixLength_binary hletter (hcs.ne_nil Nat.toDigits_ne_nil) hall

theorem value (h : IntLiteral n cs) : readInt cs = .ok n := by
  have hcons : ∀ {c : Char} (cs : List Char), c ≠ '_' →
      withoutGaps (c :: cs) = c :: withoutGaps cs := by
    intro c cs hc
    exact List.filter_cons_of_pos (by simpa using hc)
  cases h with
  | @decimal d ds cs hdigits hcs =>
    have hgap : '_' ∉ d :: ds := hdigits ▸ gap_notMem_toDigits (by decide) (by decide) n
    rw [List.mem_cons, not_or] at hgap
    apply readInt_decimal
    rw [hcons cs (Ne.symm hgap.1), hcs.withoutGaps hgap.2, hdigits]
  | @octal cs hcs =>
    have hgap := gap_notMem_toDigits (by decide : 1 < 8) (by decide) n
    apply readInt_octal
    rw [hcons cs (by decide), hcs.withoutGaps hgap]
  | @hexadecimal letter ds cs hletter hds hcs =>
    have hgap : '_' ∉ ds := by
      intro hmem
      apply gap_notMem_toDigits (by decide : 1 < 16) (by decide) n
      rw [← hds]
      exact List.mem_map.mpr ⟨'_', hmem, rfl⟩
    have hne : letter ≠ '_' := ne_of_mem_of_not_mem hletter (by decide)
    apply readInt_hexadecimal hletter _ hds
    rw [hcons _ (by decide), hcons cs hne, hcs.withoutGaps hgap]
  | @binary letter cs hletter hcs =>
    have hgap := gap_notMem_toDigits (by decide : 1 < 2) (by decide) n
    have hne : letter ≠ '_' := ne_of_mem_of_not_mem hletter (by decide)
    apply readInt_binary hletter
    rw [hcons _ (by decide), hcons cs hne, hcs.withoutGaps hgap]

theorem ne_nil (h : IntLiteral n cs) : cs ≠ [] := by
  cases h <;> simp

end IntLiteral

/-- Every string has a literal in single quotes and one in double quotes, and every number has
literals in four bases with underscores in them. Each is one token that covers all of the text, and
it reads back as the string, without interpolation, or as the number. -/
theorem literals_read_back :
    (∀ s : String,
      lex (singleQuoted s).toList = ⟨[⟨.string, singleQuoted s, .start⟩], none⟩ ∧
        unquote (singleQuoted s).toList = (s, false)) ∧
    (∀ s : String,
      lex (doubleQuoted s).toList = ⟨[⟨.string, doubleQuoted s, .start⟩], none⟩ ∧
        unquote (doubleQuoted s).toList = (s, false)) ∧
    ∀ (n : Nat) (cs : List Char), IntLiteral n cs →
      lex cs = ⟨[⟨.intNumber, String.ofList cs, .start⟩], none⟩ ∧ readInt cs = .ok n := by
  have hsingle := fun s => And.intro (lex_singleQuoted s) (unquote_singleQuoted s)
  have hdouble := fun s => And.intro (lex_doubleQuoted s) (unquote_doubleQuoted s)
  have hint : ∀ (n : Nat) (cs : List Char), IntLiteral n cs →
      lex cs = ⟨[⟨.intNumber, String.ofList cs, .start⟩], none⟩ ∧ readInt cs = .ok n :=
    fun n cs h => ⟨lex_single h.ne_nil h.found, h.value⟩
  exact ⟨hsingle, hdouble, hint⟩

/-- `0X_f__E_` is a literal of 254, though it has an `E` after a digit. -/
theorem gappedHexadecimal_read :
    IntLiteral 254 "0X_f__E_".toList ∧
      lex "0X_f__E_".toList = ⟨[⟨.intNumber, "0X_f__E_", .start⟩], none⟩ ∧
      readInt "0X_f__E_".toList = .ok 254 := by
  have hdigits : ['f', 'E'].map Char.toLower = Nat.toDigits 16 254 := by decide
  have hgapped : Gapped ['f', 'E'] "_f__E_".toList :=
    .gap (.digit 'f' (.gap (.gap (.digit 'E' (.gap .done)))))
  have hliteral : IntLiteral 254 "0X_f__E_".toList :=
    .hexadecimal (by decide) hdigits hgapped
  exact ⟨hliteral, literals_read_back.2.2 254 _ hliteral⟩

end PhpTypes.Source
