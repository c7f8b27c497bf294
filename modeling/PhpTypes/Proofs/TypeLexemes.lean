import Mathlib.Data.List.TakeWhile
import PhpTypes.Doc.TypeToken
import PhpTypes.Text.Quoted

/-!
# Lexemes of type expressions

What each token of a type expression looks like, and the lists of tokens that a text spells: at
every place that is no gap, the longest text of a token stands for that token. The tokens that are
found in a text are those that it spells.
-/

namespace PhpTypes.Doc

/-! Texts of names. -/

/-- A letter or an underscore, then word characters and hyphens. -/
inductive NamePart : List Char → Prop where
  | mk {c : Char} {cs : List Char} :
    startsPart c = true → (∀ d ∈ cs, goesOnPart d = true) → NamePart (c :: cs)

/-- Parts of names, joined by separators. -/
inductive NamePath : List Char → Prop where
  | last {part : List Char} : NamePart part → NamePath part
  | cons {part path : List Char} : NamePart part → NamePath path → NamePath (part ++ '\\' :: path)

/-- What may stand in front of a path. -/
def nameFronts : List (List Char) := [[], ['\\'], ['$'], ['$', '\\']]

inductive NameText : List Char → Prop where
  | mk {front path : List Char} : front ∈ nameFronts → NamePath path → NameText (front ++ path)

theorem NamePath.head {path : List Char} (h : NamePath path) :
    ∃ c cs, path = c :: cs ∧ startsPart c = true := by
  cases h with
  | last hpart =>
    obtain ⟨hc, -⟩ := hpart
    exact ⟨_, _, rfl, hc⟩
  | cons hpart _ =>
    obtain ⟨hc, -⟩ := hpart
    exact ⟨_, _, rfl, hc⟩

private theorem partLength_of_namePart {part : List Char} (h : NamePart part) (rest : List Char) :
    partLength (part ++ rest) = part.length + (rest.takeWhile goesOnPart).length := by
  obtain ⟨hc, hcs⟩ := h
  rw [List.cons_append, partLength, if_pos hc, List.takeWhile_append_of_pos hcs,
    List.length_append, List.length_cons]
  omega

private theorem namePart_take {cs : List Char} (h : partLength cs ≠ 0) :
    NamePart (cs.take (partLength cs)) := by
  cases cs with
  | nil => exact (h rfl).elim
  | cons c cs =>
    rw [partLength] at h ⊢
    split
    · rename_i hc
      have htake : cs.take (cs.takeWhile goesOnPart).length = cs.takeWhile goesOnPart :=
        (List.prefix_iff_eq_take.mp (List.takeWhile_prefix goesOnPart)).symm
      rw [Nat.add_comm, List.take_succ_cons, htake]
      exact .mk hc fun d hd => List.mem_takeWhile_imp hd
    · rename_i hc
      simp [hc] at h

theorem NamePath.partLength_ne_zero {path : List Char} (h : NamePath path) (rest : List Char) :
    partLength (path ++ rest) ≠ 0 := by
  obtain ⟨c, cs, rfl, hc⟩ := h.head
  rw [List.cons_append, partLength, if_pos hc]
  omega

/-- The length of the path at the start of a text. -/
def namePathLength (fuel : Nat) (cs : List Char) : Nat :=
  partLength cs + partsLength fuel (cs.drop (partLength cs))

private theorem partsLength_separator (fuel : Nat) {rest : List Char} (h : partLength rest ≠ 0) :
    partsLength (fuel + 1) ('\\' :: rest) = namePathLength fuel rest + 1 := by
  simp only [partsLength, beq_iff_eq, h, if_false, namePathLength]
  omega

/-- Another path follows, or the last part was read. -/
theorem partsLength_cases (fuel : Nat) (cs : List Char) :
    (∃ rest, cs = '\\' :: rest ∧ partLength rest ≠ 0) ∨ partsLength (fuel + 1) cs = 0 := by
  unfold partsLength
  split
  · rename_i rest
    by_cases h : partLength rest = 0
    · exact .inr (by simp [h])
    · exact .inl ⟨rest, rfl, h⟩
  · exact .inr rfl

private theorem partLength_le (cs : List Char) : partLength cs ≤ cs.length := by
  cases cs with
  | nil => exact Nat.le_refl _
  | cons c cs =>
    have hle := (List.takeWhile_sublist goesOnPart (l := cs)).length_le
    rw [partLength, List.length_cons]
    split <;> omega

private theorem partsLength_le (fuel : Nat) (cs : List Char) : partsLength fuel cs ≤ cs.length := by
  induction fuel generalizing cs with
  | zero => exact Nat.zero_le _
  | succ fuel ih =>
    rcases partsLength_cases fuel cs with ⟨rest, rfl, hrest⟩ | hzero
    · have hpart := partLength_le rest
      have hparts := ih (rest.drop (partLength rest))
      rw [List.length_drop] at hparts
      rw [partsLength_separator fuel hrest, namePathLength, List.length_cons]
      omega
    · rw [hzero]
      exact Nat.zero_le _

private theorem namePathLength_le (fuel : Nat) (cs : List Char) :
    namePathLength fuel cs ≤ cs.length := by
  have hpart := partLength_le cs
  have hparts := partsLength_le fuel (cs.drop (partLength cs))
  rw [List.length_drop] at hparts
  rw [namePathLength]
  omega

theorem NamePath.length_le {path : List Char} (h : NamePath path) {rest : List Char} {fuel : Nat}
    (hfuel : (path ++ rest).length ≤ fuel) :
    path.length ≤ namePathLength fuel (path ++ rest) := by
  induction h generalizing fuel with
  | last hpart =>
    rw [namePathLength, partLength_of_namePart hpart]
    omega
  | @cons part path hpart hpath ih =>
    have hlength : partLength (part ++ '\\' :: (path ++ rest)) = part.length := by
      have hstop : ('\\' :: (path ++ rest)).takeWhile goesOnPart = [] := rfl
      rw [partLength_of_namePart hpart, hstop, List.length_nil, Nat.add_zero]
    simp only [List.length_append, List.length_cons] at hfuel
    obtain ⟨fuel, rfl⟩ : ∃ n, fuel = n + 1 := ⟨fuel - 1, by omega⟩
    have hle : (path ++ rest).length ≤ fuel := by
      rw [List.length_append]
      omega
    have hpathle := ih hle
    rw [List.append_assoc, List.cons_append, namePathLength, hlength, List.drop_left,
      partsLength_separator fuel (hpath.partLength_ne_zero rest), List.length_append,
      List.length_cons]
    omega

private theorem namePath_take {cs : List Char} (h : partLength cs ≠ 0) (fuel : Nat) :
    NamePath (cs.take (namePathLength fuel cs)) := by
  induction fuel generalizing cs with
  | zero => exact .last (namePart_take h)
  | succ fuel ih =>
    rcases partsLength_cases fuel (cs.drop (partLength cs)) with ⟨rest, hdrop, hrest⟩ | hzero
    · have htake : cs.take (namePathLength (fuel + 1) cs) =
          cs.take (partLength cs) ++ '\\' :: rest.take (namePathLength fuel rest) := by
        rw [namePathLength, hdrop, partsLength_separator fuel hrest, List.take_add, hdrop,
          List.take_succ_cons]
      rw [htake]
      exact .cons (namePart_take h) (ih hrest)
    · rw [namePathLength, hzero, Nat.add_zero]
      exact .last (namePart_take h)

/-- A path is read to its end. -/
theorem namePath_iff {path : List Char} :
    NamePath path ↔ partLength path ≠ 0 ∧ namePathLength path.length path = path.length := by
  constructor
  · intro h
    have hne := h.partLength_ne_zero []
    have hle : path.length ≤ namePathLength path.length (path ++ []) := h.length_le (by simp)
    rw [List.append_nil] at hne hle
    exact ⟨hne, Nat.le_antisymm (namePathLength_le _ _) hle⟩
  · intro ⟨hne, hlength⟩
    have hpath := namePath_take hne path.length
    rwa [hlength, List.take_length] at hpath

instance (path : List Char) : Decidable (NamePath path) := decidable_of_iff _ namePath_iff.symm

theorem startsPart_ne {c : Char} (h : startsPart c = true) : c ≠ '$' ∧ c ≠ '\\' := by
  constructor
  · rintro rfl
    revert h
    decide
  · rintro rfl
    revert h
    decide

private theorem typeNameLength_eq {front cs : List Char} (hfront : front ∈ nameFronts)
    (hcs : partLength cs ≠ 0) :
    typeNameLength (front ++ cs) = front.length + namePathLength (front ++ cs).length cs := by
  cases cs with
  | nil => exact (hcs rfl).elim
  | cons c cs =>
    have hstart : startsPart c = true := by
      by_contra h
      simp [partLength, h] at hcs
    obtain ⟨hdollar, hseparator⟩ := startsPart_ne hstart
    simp only [nameFronts, List.mem_cons, List.not_mem_nil, or_false] at hfront
    rcases hfront with rfl | rfl | rfl | rfl <;>
      simp [typeNameLength, leading, hdollar, hseparator, hcs, namePathLength, Nat.add_assoc]

private theorem take_leading (c : Char) (cs : List Char) :
    cs.take (leading c cs) = [] ∨ cs.take (leading c cs) = [c] := by
  cases cs with
  | nil => exact .inl rfl
  | cons d cs =>
    by_cases h : d = c
    · exact .inr (by simp [leading, h])
    · exact .inl (by simp [leading, h])

private theorem typeNameLength_ne_zero {cs : List Char} (h : typeNameLength cs ≠ 0) :
    ∃ front rest, front ∈ nameFronts ∧ cs = front ++ rest ∧ partLength rest ≠ 0 := by
  have hpart : partLength (cs.drop (leading '$' cs + leading '\\' (cs.drop (leading '$' cs)))) ≠
      0 := by
    intro hzero
    simp [typeNameLength, hzero] at h
  refine ⟨_, _, ?_, (List.take_append_drop _ _).symm, hpart⟩
  rw [List.take_add]
  rcases take_leading '$' cs with hdollar | hdollar <;>
    rcases take_leading '\\' (cs.drop (leading '$' cs)) with hseparator | hseparator <;>
    simp [hdollar, hseparator, nameFronts]

theorem NameText.length_le {w : List Char} (h : NameText w) (rest : List Char) :
    w.length ≤ typeNameLength (w ++ rest) := by
  obtain ⟨hfront, hpath⟩ := h
  rename_i front path
  rw [List.append_assoc, typeNameLength_eq hfront (hpath.partLength_ne_zero rest),
    List.length_append]
  have hle : (path ++ rest).length ≤ (front ++ (path ++ rest)).length := by
    simp only [List.length_append]
    omega
  have := hpath.length_le hle
  omega

private theorem typeNameLength_le {cs : List Char} (h : typeNameLength cs ≠ 0) :
    typeNameLength cs ≤ cs.length := by
  obtain ⟨front, rest, hfront, rfl, hrest⟩ := typeNameLength_ne_zero h
  have hle := namePathLength_le (front ++ rest).length rest
  rw [typeNameLength_eq hfront hrest, List.length_append]
  rw [List.length_append] at hle
  omega

private theorem nameText_take {cs : List Char} (h : typeNameLength cs ≠ 0) :
    NameText (cs.take (typeNameLength cs)) := by
  obtain ⟨front, rest, hfront, rfl, hrest⟩ := typeNameLength_ne_zero h
  rw [typeNameLength_eq hfront hrest, List.take_length_add_append]
  exact .mk hfront (namePath_take hrest _)

private theorem nameText_iff {w : List Char} :
    NameText w ↔ typeNameLength w ≠ 0 ∧ typeNameLength w = w.length := by
  constructor
  · intro h
    have hle := h.length_le []
    rw [List.append_nil] at hle
    have hne : typeNameLength w ≠ 0 := by
      obtain ⟨_, hpath⟩ := h
      obtain ⟨c, cs, rfl, -⟩ := hpath.head
      rw [List.length_append, List.length_cons] at hle
      omega
    exact ⟨hne, Nat.le_antisymm (typeNameLength_le hne) hle⟩
  · intro ⟨hne, hlength⟩
    have htext := nameText_take hne
    rwa [hlength, List.take_length] at htext

instance (w : List Char) : Decidable (NameText w) := decidable_of_iff _ nameText_iff.symm

/-! The texts of tokens. -/

inductive Lexeme : TypeToken → List Char → Prop where
  | name {cs : List Char} : NameText cs → Lexeme (.name (String.ofList cs)) cs
  | natural {ds : List Char} {n : Nat} :
    ds ≠ [] → Text.readDigits 10 ds = some n → Lexeme (.int n) ds
  | negative {ds : List Char} {n : Nat} :
    ds ≠ [] → Text.readDigits 10 ds = some n → Lexeme (.int (-n)) ('-' :: ds)
  | string {quote : Char} {body : List Char} :
    quote ∈ ['"', Text.apostrophe] → quote ∉ body →
    Lexeme (.string (String.ofList body)) (quote :: (body ++ [quote]))
  | punctuation {c : Char} {t : TypeToken} : punctuation? c = some t → Lexeme t [c]

inductive TokenKind where
  | name | int | string | punctuation
deriving DecidableEq

def TypeToken.kind : TypeToken → TokenKind
  | .name _ => .name
  | .int _ => .int
  | .string _ => .string
  | _ => .punctuation

/-- The kind of the tokens that start with a character. -/
def kindOf (c : Char) : TokenKind :=
  if startsPart c || c == '$' || c == '\\' then .name
  else if Text.isDigit c || c == '-' then .int
  else if c == '"' || c == Text.apostrophe then .string
  else .punctuation

private theorem readDigits_cons {base : Nat} {c : Char} {cs : List Char} {n : Nat}
    (h : Text.readDigits base (c :: cs) = some n) : Text.isDigit c = true := by
  rw [Text.readDigits, List.foldlM_cons] at h
  obtain ⟨m, hm, -⟩ := Option.bind_eq_some_iff.mp h
  obtain ⟨d, hd, -⟩ := Option.bind_eq_some_iff.mp hm
  rw [Text.isDigit, hd]
  rfl

private theorem isDigit_range {c : Char} (h : Text.isDigit c = true) :
    (48 ≤ c.toNat ∧ c.toNat < 58) ∨ 1632 ≤ c.toNat := by
  obtain ⟨d, hd⟩ := Option.isSome_iff_exists.mp h
  obtain ⟨z, hz, -⟩ := Option.map_eq_some_iff.mp hd
  have hrange := List.find?_some hz
  have hmem := List.mem_of_find?_eq_some hz
  have hzeros : ∀ z ∈ Text.digitZeros, z = 48 ∨ 1632 ≤ z := by decide
  simp only [Bool.and_eq_true, decide_eq_true_eq] at hrange
  rcases hzeros z hmem with rfl | hz
  · exact .inl hrange
  · exact .inr (by omega)

theorem startsPart_range {c : Char} (h : startsPart c = true) : 58 ≤ c.toNat ∧ c.toNat < 128 := by
  rw [startsPart, Bool.or_eq_true, beq_iff_eq] at h
  rcases h with h | rfl
  · have halpha : c.isAlpha = (decide (c.val ≥ 'A'.val ∧ c.val ≤ 'Z'.val) ||
        decide (c.val ≥ 'a'.val) && decide (c.val ≤ 'z'.val)) := rfl
    simp only [halpha, Bool.or_eq_true, Bool.and_eq_true, decide_eq_true_eq, ge_iff_le,
      UInt32.le_iff_toNat_le] at h
    change 58 ≤ c.val.toNat ∧ c.val.toNat < 128
    rcases h with ⟨hlow, hhigh⟩ | ⟨hlow, hhigh⟩
    · change 65 ≤ _ at hlow
      change _ ≤ 90 at hhigh
      omega
    · change 97 ≤ _ at hlow
      change _ ≤ 122 at hhigh
      omega
  · decide

private theorem not_startsPart_of_isDigit {c : Char} (h : Text.isDigit c = true) :
    startsPart c = false := by
  by_contra hstart
  have hrange := startsPart_range (Bool.of_not_eq_false hstart)
  have := isDigit_range h
  omega

private theorem kindOf_digit {c : Char} (h : Text.isDigit c = true) : kindOf c = .int := by
  have hdollar : c ≠ '$' := by
    rintro rfl
    revert h
    decide
  have hseparator : c ≠ '\\' := by
    rintro rfl
    revert h
    decide
  simp [kindOf, not_startsPart_of_isDigit h, hdollar, hseparator, h]

theorem punctuation?_kind {c : Char} {t : TypeToken} (h : punctuation? c = some t) :
    t.kind = .punctuation := by
  unfold punctuation? at h
  split at h <;> cases h <;> rfl

theorem Lexeme.head {t : TypeToken} {w : List Char} (h : Lexeme t w) :
    ∃ c cs, w = c :: cs ∧ kindOf c = t.kind := by
  cases h with
  | name htext =>
    obtain ⟨hfront, hpath⟩ := htext
    obtain ⟨c, cs, rfl, hc⟩ := hpath.head
    simp only [nameFronts, List.mem_cons, List.not_mem_nil, or_false] at hfront
    rcases hfront with rfl | rfl | rfl | rfl
    · exact ⟨c, cs, rfl, by simp [kindOf, hc, TypeToken.kind]⟩
    · exact ⟨_, _, rfl, rfl⟩
    · exact ⟨_, _, rfl, rfl⟩
    · exact ⟨_, _, rfl, rfl⟩
  | natural hne hread =>
    obtain ⟨c, cs, rfl⟩ := List.exists_cons_of_ne_nil hne
    exact ⟨c, cs, rfl, kindOf_digit (readDigits_cons hread)⟩
  | negative hne hread => exact ⟨_, _, rfl, rfl⟩
  | string hquote _ =>
    simp only [List.mem_cons, List.not_mem_nil, or_false] at hquote
    rcases hquote with rfl | rfl
    · exact ⟨_, _, rfl, rfl⟩
    · exact ⟨_, _, rfl, rfl⟩
  | punctuation hc =>
    rename_i c
    unfold punctuation? at hc
    split at hc <;> cases hc <;> exact ⟨_, _, rfl, by decide⟩

/-- Tokens that start with the same character are of one kind. -/
theorem Lexeme.kind_eq {t u : TypeToken} {w v : List Char} {c : Char} (ht : Lexeme t (c :: w))
    (hu : Lexeme u (c :: v)) : t.kind = u.kind := by
  obtain ⟨_, _, ⟨⟩, htk⟩ := ht.head
  obtain ⟨_, _, ⟨⟩, huk⟩ := hu.head
  exact htk.symm.trans huk

/-! The texts of each kind. -/

theorem Lexeme.nameText {t : TypeToken} {w : List Char} (h : Lexeme t w) (ht : t.kind = .name) :
    NameText w ∧ t = .name (String.ofList w) := by
  cases h with
  | name htext => exact ⟨htext, rfl⟩
  | punctuation hc => rw [punctuation?_kind hc] at ht; cases ht
  | _ => cases ht

theorem Lexeme.quoted {t : TypeToken} {w : List Char} (h : Lexeme t w) (ht : t.kind = .string) :
    ∃ quote body, quote ∈ ['"', Text.apostrophe] ∧ quote ∉ body ∧
      w = quote :: (body ++ [quote]) ∧ t = .string (String.ofList body) := by
  cases h with
  | string hquote hbody => exact ⟨_, _, hquote, hbody, rfl, rfl⟩
  | punctuation hc => rw [punctuation?_kind hc] at ht; cases ht
  | _ => cases ht

theorem Lexeme.single {t : TypeToken} {w : List Char} (h : Lexeme t w)
    (ht : t.kind = .punctuation) : ∃ c, w = [c] ∧ punctuation? c = some t := by
  cases h with
  | punctuation hc => exact ⟨_, rfl, hc⟩
  | _ => cases ht

private theorem readDigits_eq_some {ds : List Char} (h : ∀ c ∈ ds, Text.isDigit c = true) :
    ∃ n, Text.readDigits 10 ds = some n := by
  have hfrom : ∀ m, ∃ n, ds.foldlM (fun n c => do
      let d ← Text.digitValue? c
      if d < 10 then some (n * 10 + d) else none) m = some n := by
    induction ds with
    | nil => exact fun m => ⟨m, rfl⟩
    | cons c ds ih =>
      intro m
      rw [List.forall_mem_cons] at h
      obtain ⟨d, hd⟩ := Option.isSome_iff_exists.mp h.1
      obtain ⟨n, hn⟩ := ih h.2 (m * 10 + d)
      refine ⟨n, ?_⟩
      rw [List.foldlM_cons, hd]
      simpa [Text.digitValue?_lt hd] using hn
  exact hfrom 0

private theorem isDigit_of_readDigits {base : Nat} {ds : List Char} {n : Nat}
    (h : Text.readDigits base ds = some n) : ∀ c ∈ ds, Text.isDigit c = true := by
  have hfrom : ∀ m, ds.foldlM (fun n c => do
      let d ← Text.digitValue? c
      if d < base then some (n * base + d) else none) m = some n →
      ∀ c ∈ ds, Text.isDigit c = true := by
    clear h
    induction ds with
    | nil => simp
    | cons c ds ih =>
      intro m hm
      rw [List.foldlM_cons] at hm
      obtain ⟨k, hk, hrest⟩ := Option.bind_eq_some_iff.mp hm
      obtain ⟨d, hd, -⟩ := Option.bind_eq_some_iff.mp hk
      rw [List.forall_mem_cons]
      exact ⟨by rw [Text.isDigit, hd]; rfl, ih k hrest⟩
  exact hfrom 0 h

/-- Digits, with at most a minus in front. -/
def IntText (w : List Char) : Prop :=
  ∃ minus ds, w = minus ++ ds ∧ minus ∈ [[], ['-']] ∧ ds ≠ [] ∧ ∀ c ∈ ds, Text.isDigit c = true

private theorem leading_minus_of_isDigit {ds : List Char} (hne : ds ≠ [])
    (hds : ∀ c ∈ ds, Text.isDigit c = true) (rest : List Char) : leading '-' (ds ++ rest) = 0 := by
  obtain ⟨c, ds, rfl⟩ := List.exists_cons_of_ne_nil hne
  have hc : c ≠ '-' := by
    rintro rfl
    have := hds '-' List.mem_cons_self
    revert this
    decide
  simp [leading, hc]

theorem IntText.length_le {w : List Char} (h : IntText w) (rest : List Char) :
    w.length ≤ typeIntLength (w ++ rest) := by
  obtain ⟨minus, ds, rfl, hminus, hne, hds⟩ := h
  have hlength := List.length_pos_iff.mpr hne
  have hleading := leading_minus_of_isDigit hne hds rest
  have hleading' : leading '-' ('-' :: (ds ++ rest)) = 1 := rfl
  have hrun : ((ds ++ rest).takeWhile Text.isDigit).length =
      ds.length + (rest.takeWhile Text.isDigit).length := by
    rw [List.takeWhile_append_of_pos hds, List.length_append]
  simp only [List.mem_cons, List.not_mem_nil, or_false] at hminus
  rcases hminus with rfl | rfl
  · simp only [List.nil_append, typeIntLength, hleading, List.drop_zero, hrun, beq_iff_eq]
    split <;> omega
  · simp only [List.cons_append, List.nil_append, typeIntLength, hleading', List.drop_succ_cons,
      List.drop_zero, hrun, beq_iff_eq, List.length_cons]
    split <;> omega

private theorem typeIntLength_ne_zero {cs : List Char} (h : typeIntLength cs ≠ 0) :
    typeIntLength cs ≤ cs.length ∧ IntText (cs.take (typeIntLength cs)) := by
  have hdigits : ((cs.drop (leading '-' cs)).takeWhile Text.isDigit).length ≠ 0 := by
    intro hzero
    simp [typeIntLength, hzero] at h
  have hlength : typeIntLength cs =
      leading '-' cs + ((cs.drop (leading '-' cs)).takeWhile Text.isDigit).length := by
    simp [typeIntLength, hdigits]
  have hle := (List.takeWhile_sublist Text.isDigit (l := cs.drop (leading '-' cs))).length_le
  have hprefix := List.prefix_iff_eq_take.mp
    (List.takeWhile_prefix Text.isDigit (l := cs.drop (leading '-' cs)))
  constructor
  · rw [List.length_drop] at hle
    omega
  · rw [hlength, List.take_add, ← hprefix]
    refine ⟨_, _, rfl, ?_, List.length_pos_iff.mp (by omega), fun c hc => List.mem_takeWhile_imp hc⟩
    rcases take_leading '-' cs with hminus | hminus <;> simp [hminus]

private theorem lexeme_int {w : List Char} (h : IntText w) : Lexeme (.int (typeIntValue w)) w := by
  obtain ⟨minus, ds, rfl, hminus, hne, hds⟩ := h
  obtain ⟨n, hn⟩ := readDigits_eq_some hds
  have hleading := leading_minus_of_isDigit hne hds []
  rw [List.append_nil] at hleading
  simp only [List.mem_cons, List.not_mem_nil, or_false] at hminus
  rcases hminus with rfl | rfl
  · have hvalue : typeIntValue ds = n := by simp [typeIntValue, hleading, hn]
    rw [List.nil_append, hvalue]
    exact .natural hne hn
  · have hvalue : typeIntValue ('-' :: ds) = -n := by simp [typeIntValue, leading, hn]
    rw [List.cons_append, List.nil_append, hvalue]
    exact .negative hne hn

theorem Lexeme.intText {t : TypeToken} {w : List Char} (h : Lexeme t w) (ht : t.kind = .int) :
    IntText w ∧ t = .int (typeIntValue w) := by
  cases h with
  | natural hne hread =>
    have hds := isDigit_of_readDigits hread
    have hleading := leading_minus_of_isDigit hne hds []
    rw [List.append_nil] at hleading
    exact ⟨⟨[], _, rfl, by simp, hne, hds⟩, by simp [typeIntValue, hleading, hread]⟩
  | negative hne hread =>
    have hds := isDigit_of_readDigits hread
    exact ⟨⟨['-'], _, rfl, by simp, hne, hds⟩, by simp [typeIntValue, leading, hread]⟩
  | punctuation hc => rw [punctuation?_kind hc] at ht; cases ht
  | _ => cases ht

private theorem typeStringLength_eq {quote : Char} (hquote : quote ∈ ['"', Text.apostrophe])
    {body : List Char} (hbody : quote ∉ body) (rest : List Char) :
    typeStringLength (quote :: (body ++ quote :: rest)) = body.length + 2 := by
  have hrun : (body ++ quote :: rest).takeWhile (· != quote) = body := by
    have hall : ∀ c ∈ body, (c != quote) = true := by
      intro c hc
      have hne : c ≠ quote := fun heq => hbody (heq ▸ hc)
      simpa using hne
    rw [List.takeWhile_append_of_pos hall, List.takeWhile_cons_of_neg (by simp), List.append_nil]
  have hisQuote : (quote == '"' || quote.toNat == 39) = true := by
    simp only [List.mem_cons, List.not_mem_nil, or_false] at hquote
    rcases hquote with rfl | rfl <;> rfl
  have hlength : (body.length == (body ++ quote :: rest).length) = false := by
    simp
  simp only [typeStringLength, hisQuote, if_true, hrun, hlength, Bool.false_eq_true, if_false]

private theorem typeStringLength_ne_zero {cs : List Char} (h : typeStringLength cs ≠ 0) :
    ∃ quote body rest, quote ∈ ['"', Text.apostrophe] ∧ quote ∉ body ∧
      cs = quote :: (body ++ quote :: rest) := by
  cases cs with
  | nil => exact (h rfl).elim
  | cons quote cs =>
    rw [typeStringLength] at h
    split at h
    · rename_i hquote
      have hlength : (cs.takeWhile (· != quote)).length ≠ cs.length := by
        intro heq
        simp [heq] at h
      obtain ⟨c, rest, hrest⟩ : ∃ c rest, cs.dropWhile (· != quote) = c :: rest := by
        apply List.exists_cons_of_ne_nil
        intro hnil
        have hlengths := congrArg List.length
          (List.takeWhile_append_dropWhile (p := (· != quote)) (l := cs))
        rw [hnil, List.append_nil] at hlengths
        exact hlength hlengths
      have hc : c = quote := by
        have := List.head?_dropWhile_not (· != quote) cs
        rw [hrest] at this
        simpa using this
      subst hc
      refine ⟨c, cs.takeWhile (· != c), rest, ?_, ?_, ?_⟩
      · have hapostrophe : ∀ d : Char, d.toNat = 39 → d = Text.apostrophe := by
          intro d hd
          apply Char.toNat_inj.mp
          exact hd
        simp only [Bool.or_eq_true, beq_iff_eq] at hquote
        rcases hquote with rfl | hquote
        · simp
        · simp [hapostrophe c hquote]
      · intro hmem
        have := List.mem_takeWhile_imp hmem
        simp at this
      · rw [← hrest, List.takeWhile_append_dropWhile]
    · exact (h rfl).elim

/-! The token at the start of a text. -/

/-- The text of a token that no further characters make longer. -/
structure Longest (t : TypeToken) (w rest : List Char) : Prop where
  lexeme : Lexeme t w
  stops : ∀ u v, rest = u ++ v → u ≠ [] → ∀ t, ¬ Lexeme t (w ++ u)

private theorem lexeme_name {cs : List Char} (h : typeNameLength cs ≠ 0) :
    Lexeme (.name (String.ofList (cs.take (typeNameLength cs)))) (cs.take (typeNameLength cs)) :=
  .name (nameText_take h)

/-- A text that starts with a token of one kind starts with no token of another. -/
theorem Lexeme.kind_of_take {t u : TypeToken} {w rest : List Char} (h : Lexeme t w) {n : Nat}
    (hu : Lexeme u ((w ++ rest).take n)) : t.kind = u.kind := by
  obtain ⟨c, cs, rfl, -⟩ := h.head
  obtain ⟨d, ds, hd, -⟩ := hu.head
  cases n with
  | zero => cases hd
  | succ n =>
    rw [List.cons_append, List.take_succ_cons] at hu
    exact h.kind_eq hu

theorem Lexeme.typeNameLength {t : TypeToken} {w : List Char} (h : Lexeme t w)
    (ht : t.kind ≠ .name) (rest : List Char) : typeNameLength (w ++ rest) = 0 := by
  by_contra hne
  exact ht (h.kind_of_take (lexeme_name hne))

theorem Lexeme.typeIntLength {t : TypeToken} {w : List Char} (h : Lexeme t w)
    (ht : t.kind ≠ .int) (rest : List Char) : typeIntLength (w ++ rest) = 0 := by
  by_contra hne
  exact ht (h.kind_of_take (lexeme_int (typeIntLength_ne_zero hne).2))

theorem Lexeme.typeStringLength {t : TypeToken} {w : List Char} (h : Lexeme t w)
    (ht : t.kind ≠ .string) (rest : List Char) : typeStringLength (w ++ rest) = 0 := by
  by_contra hne
  obtain ⟨quote, body, after, hquote, hbody, htext⟩ := typeStringLength_ne_zero hne
  have htake : (w ++ rest).take (body.length + 2) = quote :: (body ++ [quote]) := by
    rw [htext, List.take_succ_cons, List.take_length_add_append]
    rfl
  have hstring : Lexeme (.string (String.ofList body)) ((w ++ rest).take (body.length + 2)) := by
    rw [htake]
    exact .string hquote hbody
  exact ht (h.kind_of_take hstring)

/-- A length that no longer text of a token exceeds, and at which such a text ends. -/
theorem Longest.length_eq {t : TypeToken} {w rest : List Char} (h : Longest t w rest) {n : Nat}
    (hle : w.length ≤ n) (hn : n ≤ (w ++ rest).length) {u : TypeToken}
    (hu : Lexeme u ((w ++ rest).take n)) : n = w.length := by
  by_contra hne
  have htake : (w ++ rest).take n = w ++ rest.take (n - w.length) := by
    rw [List.take_append, List.take_of_length_le hle]
  rw [htake] at hu
  rw [List.length_append] at hn
  apply h.stops (rest.take (n - w.length)) (rest.drop (n - w.length))
    (List.take_append_drop _ _).symm ?_ u hu
  apply List.length_pos_iff.mp
  rw [List.length_take]
  omega

private theorem typeToken?_name {cs : List Char} (h : typeNameLength cs ≠ 0) :
    typeToken? cs =
      some (.name (String.ofList (cs.take (typeNameLength cs))), typeNameLength cs) := by
  simp [typeToken?, h]

private theorem typeToken?_int {cs : List Char} (hname : typeNameLength cs = 0)
    (h : typeIntLength cs ≠ 0) :
    typeToken? cs = some (.int (typeIntValue (cs.take (typeIntLength cs))), typeIntLength cs) := by
  simp [typeToken?, hname, h]

private theorem typeToken?_string {cs : List Char} (hname : typeNameLength cs = 0)
    (hint : typeIntLength cs = 0) (h : typeStringLength cs ≠ 0) :
    typeToken? cs = some (.string (String.ofList ((cs.take (typeStringLength cs)).drop 1).dropLast),
      typeStringLength cs) := by
  simp [typeToken?, hname, hint, h]

private theorem typeToken?_punctuation {cs : List Char} (hname : typeNameLength cs = 0)
    (hint : typeIntLength cs = 0) (hstring : typeStringLength cs = 0) :
    typeToken? cs = (cs.head?.bind punctuation?).map fun t => (t, 1) := by
  simp [typeToken?, hname, hint, hstring]

theorem Longest.typeToken? {t : TypeToken} {w rest : List Char} (h : Longest t w rest) :
    typeToken? (w ++ rest) = some (t, w.length) := by
  have hlexeme := h.lexeme
  have hpos : w.length ≠ 0 := by
    obtain ⟨c, cs, rfl, -⟩ := hlexeme.head
    simp
  cases hkind : t.kind with
  | name =>
    obtain ⟨htext, rfl⟩ := hlexeme.nameText hkind
    have hle := htext.length_le rest
    have hne : Doc.typeNameLength (w ++ rest) ≠ 0 := by omega
    have hlength := h.length_eq hle (typeNameLength_le hne) (lexeme_name hne)
    rw [typeToken?_name hne, hlength, List.take_left]
  | int =>
    obtain ⟨htext, rfl⟩ := hlexeme.intText hkind
    have hname := hlexeme.typeNameLength (by simp [hkind]) rest
    have hle := htext.length_le rest
    have hne : Doc.typeIntLength (w ++ rest) ≠ 0 := by omega
    obtain ⟨hlength', htake⟩ := typeIntLength_ne_zero hne
    have hlength := h.length_eq hle hlength' (lexeme_int htake)
    rw [typeToken?_int hname hne, hlength, List.take_left]
  | string =>
    have hname := hlexeme.typeNameLength (by simp [hkind]) rest
    have hint := hlexeme.typeIntLength (by simp [hkind]) rest
    obtain ⟨quote, body, hquote, hbody, rfl, rfl⟩ := hlexeme.quoted hkind
    have hstring : Doc.typeStringLength (quote :: (body ++ [quote]) ++ rest) =
        body.length + 2 := by
      rw [List.cons_append, List.append_assoc]
      exact typeStringLength_eq hquote hbody rest
    have hlength : (quote :: (body ++ [quote])).length = body.length + 2 := by simp
    rw [typeToken?_string hname hint (by omega), hstring, ← hlength, List.take_left]
    simp
  | punctuation =>
    have hname := hlexeme.typeNameLength (by simp [hkind]) rest
    have hint := hlexeme.typeIntLength (by simp [hkind]) rest
    have hstring := hlexeme.typeStringLength (by simp [hkind]) rest
    obtain ⟨c, rfl, hc⟩ := hlexeme.single hkind
    rw [typeToken?_punctuation hname hint hstring]
    simp [hc]

/-- A text of a token that is as long as any other that the text starts with. -/
theorem longest_of_take {t : TypeToken} {cs : List Char} {n : Nat} (hn : n ≤ cs.length)
    (ht : Lexeme t (cs.take n))
    (hmax : ∀ w rest u, cs = w ++ rest → Lexeme u w → u.kind = t.kind → w.length ≤ n) :
    Longest t (cs.take n) (cs.drop n) := by
  refine ⟨ht, ?_⟩
  intro u v hrest hne t' ht'
  have hcs : cs = cs.take n ++ u ++ v := by rw [List.append_assoc, ← hrest, List.take_append_drop]
  obtain ⟨c, w, hw, -⟩ := ht.head
  have hkind : t'.kind = t.kind := by
    rw [hw] at ht ht'
    exact ht'.kind_eq ht
  have hle := hmax _ v t' hcs ht' hkind
  have hpos := List.length_pos_iff.mpr hne
  rw [List.length_append, List.length_take] at hle
  omega

private theorem typeToken?_eq_some {cs : List Char} {t : TypeToken} {n : Nat}
    (h : typeToken? cs = some (t, n)) : n ≤ cs.length ∧ Longest t (cs.take n) (cs.drop n) := by
  by_cases hname : typeNameLength cs = 0
  · by_cases hint : typeIntLength cs = 0
    · by_cases hstring : typeStringLength cs = 0
      · rw [typeToken?_punctuation hname hint hstring] at h
        obtain ⟨u, hu, heq⟩ := Option.map_eq_some_iff.mp h
        cases heq
        obtain ⟨c, hc, hpunctuation⟩ := Option.bind_eq_some_iff.mp hu
        obtain ⟨cs, rfl⟩ := List.head?_eq_some_iff.mp hc
        have hle : 1 ≤ (c :: cs).length := by simp
        refine ⟨hle, longest_of_take hle (.punctuation hpunctuation) ?_⟩
        intro w rest u _ hu hkind
        rw [punctuation?_kind hpunctuation] at hkind
        obtain ⟨d, rfl, -⟩ := hu.single hkind
        exact Nat.le_refl 1
      · rw [typeToken?_string hname hint hstring] at h
        obtain ⟨quote, body, after, hquote, hbody, rfl⟩ := typeStringLength_ne_zero hstring
        rw [typeStringLength_eq hquote hbody after] at h
        have htake : (quote :: (body ++ quote :: after)).take (body.length + 2) =
            quote :: (body ++ [quote]) := by
          rw [List.take_succ_cons, List.take_length_add_append]
          rfl
        have hle : body.length + 2 ≤ (quote :: (body ++ quote :: after)).length := by
          simp only [List.length_cons, List.length_append]
          omega
        have hlexeme : Lexeme (.string (String.ofList body))
            ((quote :: (body ++ quote :: after)).take (body.length + 2)) := by
          rw [htake]
          exact .string hquote hbody
        simp only [htake, List.drop_succ_cons, List.drop_zero, List.dropLast_concat] at h
        cases h
        refine ⟨hle, longest_of_take hle hlexeme ?_⟩
        intro w rest u htext hu hkind
        obtain ⟨quote', body', hquote', hbody', rfl, rfl⟩ := hu.quoted hkind
        have hlengths := typeStringLength_eq hquote' hbody' rest
        rw [List.cons_append, List.append_assoc] at htext
        have := typeStringLength_eq hquote hbody after
        rw [htext, List.singleton_append, hlengths] at this
        simp only [List.length_cons, List.length_append, List.length_nil]
        omega
    · rw [typeToken?_int hname hint] at h
      cases h
      obtain ⟨hle, htext⟩ := typeIntLength_ne_zero hint
      refine ⟨hle, longest_of_take hle (lexeme_int htext) ?_⟩
      rintro w rest u rfl hu hkind
      exact (hu.intText hkind).1.length_le rest
  · rw [typeToken?_name hname] at h
    cases h
    have hle := typeNameLength_le hname
    refine ⟨hle, longest_of_take hle (lexeme_name hname) ?_⟩
    rintro w rest u rfl hu hkind
    exact (hu.nameText hkind).1.length_le rest

/-! The tokens of a text. -/

/-- The tokens that a text spells, with gaps between them or around them. -/
inductive Spells : List Char → List TypeToken → Prop where
  | nil : Spells [] []
  | gap {c : Char} {cs : List Char} {ts : List TypeToken} :
    isGap c = true → Spells cs ts → Spells (c :: cs) ts
  | token {t : TypeToken} {w rest : List Char} {ts : List TypeToken} :
    Longest t w rest → Spells rest ts → Spells (w ++ rest) (t :: ts)

private theorem typeTokensFrom_eq (skip : Nat) (cs : List Char) :
    typeTokensFrom skip cs = typeTokens (cs.drop skip) := by
  induction cs generalizing skip with
  | nil => cases skip <;> rfl
  | cons c cs ih =>
    cases skip with
    | zero => rfl
    | succ skip => rw [typeTokensFrom, ih, List.drop_succ_cons]

private theorem typeTokens_gap {c : Char} (h : isGap c = true) (cs : List Char) :
    typeTokens (c :: cs) = typeTokens cs := by
  rw [typeTokens, typeTokensFrom, if_pos h]
  rfl

private theorem typeTokens_cons {c : Char} (h : isGap c = false) (cs : List Char) :
    typeTokens (c :: cs) = (typeToken? (c :: cs)).bind fun r =>
      (typeTokens (cs.drop (r.2 - 1))).map (r.1 :: ·) := by
  rw [typeTokens, typeTokensFrom, if_neg (by simp [h])]
  cases typeToken? (c :: cs) with
  | none => rfl
  | some r =>
    change (typeTokensFrom (r.2 - 1) cs).bind (fun ts => some (r.1 :: ts)) = _
    rw [typeTokensFrom_eq, Option.bind_some, Option.map_eq_bind]
    rfl

/-- A gap starts no token. -/
theorem Lexeme.not_gap {t : TypeToken} {c : Char} {cs : List Char} (h : Lexeme t (c :: cs)) :
    isGap c = false := by
  by_contra hgap
  have hmem : c.toNat ∈ [0x20, 0x09, 0x0c, 0x0d, 0x0a] :=
    List.contains_iff_mem.mp (Bool.of_not_eq_false hgap)
  have hchar : kindOf c = .punctuation ∧ punctuation? c = none := by
    rw [← Char.ofNat_toNat c]
    simp only [List.mem_cons, List.not_mem_nil, or_false] at hmem
    rcases hmem with hn | hn | hn | hn | hn <;> rw [hn] <;> decide
  obtain ⟨_, _, ⟨⟩, hkind⟩ := h.head
  obtain ⟨d, hd, hpunctuation⟩ := h.single (hkind.symm.trans hchar.1)
  cases hd
  rw [hchar.2] at hpunctuation
  cases hpunctuation

theorem Spells.typeTokens {cs : List Char} {ts : List TypeToken} (h : Spells cs ts) :
    typeTokens cs = some ts := by
  induction h with
  | nil => rfl
  | gap hgap _ ih => rw [typeTokens_gap hgap, ih]
  | @token t w rest ts hlongest _ ih =>
    have htoken := hlongest.typeToken?
    have hlexeme := hlongest.lexeme
    obtain ⟨c, w, rfl, -⟩ := hlexeme.head
    rw [List.cons_append] at htoken ⊢
    rw [typeTokens_cons hlexeme.not_gap, htoken, Option.bind_some, List.length_cons,
      Nat.add_sub_cancel, List.drop_left, ih]
    rfl

private theorem spells_of_typeTokens {cs : List Char} {ts : List TypeToken}
    (h : typeTokens cs = some ts) : Spells cs ts := by
  -- On the length: what a token leaves is shorter than what it starts.
  induction hn : cs.length using Nat.strong_induction_on generalizing cs ts with
  | _ n ih =>
    cases cs with
    | nil =>
      cases h
      exact .nil
    | cons c cs =>
      subst hn
      cases hgap : isGap c with
      | true =>
        rw [typeTokens_gap hgap] at h
        exact .gap hgap (ih cs.length (by simp) h rfl)
      | false =>
        rw [typeTokens_cons hgap] at h
        obtain ⟨⟨t, n⟩, htoken, hrest⟩ := Option.bind_eq_some_iff.mp h
        obtain ⟨us, hus, rfl⟩ := Option.map_eq_some_iff.mp hrest
        obtain ⟨hle, hlongest⟩ := typeToken?_eq_some htoken
        obtain ⟨m, rfl⟩ : ∃ m, n = m + 1 := by
          obtain ⟨d, ds, htake, -⟩ := hlongest.lexeme.head
          have hlength := congrArg List.length htake
          simp only [List.length_take, List.length_cons] at hlength
          exact ⟨n - 1, by omega⟩
        have hshorter : (cs.drop m).length < (c :: cs).length := by
          rw [List.length_drop, List.length_cons]
          omega
        have hspells := ih (cs.drop m).length hshorter hus rfl
        rw [← List.take_append_drop (m + 1) (c :: cs)]
        exact .token hlongest hspells

theorem typeTokens_eq_some_iff {cs : List Char} {ts : List TypeToken} :
    typeTokens cs = some ts ↔ Spells cs ts :=
  ⟨spells_of_typeTokens, Spells.typeTokens⟩

end PhpTypes.Doc
